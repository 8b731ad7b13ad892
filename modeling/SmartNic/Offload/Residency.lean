import SmartNic.Offload.CollectiveOrder

/-!
# What is in flight is registered

Under one coordinator a parameter is in flight exactly as long as an open handle
is registered for it, and one whose handle is done without it being waited for is
available.  Then neither an AllGather nor a wait of `fetch_sub_module` raises.
-/

namespace SmartNic.Offload

open AnyOrder

namespace State

variable {cfg : Config} {t : Bool} {m : ModuleId} {s s' : State}
  {p q : ParamId} {i : HandleId} {h : Handle} {l : List ParamId}

/-- The registry of the coordinator `t` accounts for every parameter in flight,
and what is to be restored is there. -/
structure Resident (t : Bool) (s : State) : Prop where
  inv : Inv s
  tracked : ∀ p, s.dsStatus p = .inflight → ∃ x, openHandle t s p = some x
  closed : ∀ p ∈ (s.coordinator t).inflight, openHandle t s p = none →
    s.dsStatus p = .available
  restorable : ∀ p, Restorable t s p

/-- A step that leaves the parameters and the modules as they are, and the trace
too. -/
structure Kept (t : Bool) (s s' : State) : Prop where
  isExternalParam : s'.isExternalParam = s.isExternalParam
  externalParams : s'.externalParams = s.externalParams
  cpuFullParam : s'.cpuFullParam = s.cpuFullParam
  stepId : (s'.coordinator t).stepId = (s.coordinator t).stepId
  traceMode : (s'.coordinator t).traceMode = (s.coordinator t).traceMode
  submoduleOrder : (s'.coordinator t).submoduleOrder =
    (s.coordinator t).submoduleOrder
  paramOrder : (s'.coordinator t).paramOrder = (s.coordinator t).paramOrder
  recent : (s'.coordinator t).mostRecentStepIdParamFetchedFor =
    (s.coordinator t).mostRecentStepIdParamFetchedFor
  fetchedFor : (s'.coordinator t).stepIdModuleFetchedFor =
    (s.coordinator t).stepIdModuleFetchedFor
  paramQueue : (s'.coordinator t).paramQueue = (s.coordinator t).paramQueue

theorem Kept.refl (s : State) : Kept t s s := by
  constructor <;> rfl

theorem Kept.trans {s₁ : State} (h : Kept t s s₁) (h' : Kept t s₁ s') :
    Kept t s s' where
  isExternalParam := h'.isExternalParam.trans h.isExternalParam
  externalParams := h'.externalParams.trans h.externalParams
  cpuFullParam := h'.cpuFullParam.trans h.cpuFullParam
  stepId := h'.stepId.trans h.stepId
  traceMode := h'.traceMode.trans h.traceMode
  submoduleOrder := h'.submoduleOrder.trans h.submoduleOrder
  paramOrder := h'.paramOrder.trans h.paramOrder
  recent := h'.recent.trans h.recent
  fetchedFor := h'.fetchedFor.trans h.fetchedFor
  paramQueue := h'.paramQueue.trans h.paramQueue

theorem Kept.iterParams (h : Kept t s s') (m : ModuleId) :
    s'.iterParams cfg m = s.iterParams cfg m := by
  unfold State.iterParams
  rw [h.externalParams]

/-! ## Registered parameters -/

/-- A registered parameter is not partitioned. -/
theorem Resident.status_of_mem (h : Resident t s)
    (hp : p ∈ (s.coordinator t).inflight) : s.dsStatus p ≠ .notAvailable := by
  cases hopen : openHandle t s p with
  | none =>
      rw [h.closed p hp hopen]
      decide
  | some x =>
      have hself := h.inv.self_mem t p x.1 x.2 hopen
      rw [(h.inv.others t p x.1 x.2 hopen p hself).2]
      decide

/-- A step elsewhere. -/
theorem Resident.frame (h : Resident t s) (hframe : Frame s s')
    (hinflight : ∀ p, s'.dsStatus p = .inflight → s.dsStatus p = .inflight)
    (havailable : ∀ p ∈ (s.coordinator t).inflight, s.dsStatus p = .available →
      s'.dsStatus p = .available)
    (hcpu : ∀ p, s.dsStatus p = .inflight → p ∈ s.cpuFullParam →
      p ∈ s'.cpuFullParam) : Resident t s' where
  inv := hframe.inv h.inv
  tracked p hp := by
    rw [hframe.openHandle_eq]
    exact h.tracked p (hinflight p hp)
  closed p hp hopen := by
    rw [hframe.openHandle_eq] at hopen
    rw [hframe.inflight] at hp
    exact havailable p hp (h.closed p hp hopen)
  restorable p i x hopen hkind q hq := by
    rw [hframe.openHandle_eq] at hopen
    exact hcpu q (h.inv.others t p i x hopen q hq).2
      (h.restorable p i x hopen hkind q hq)

/-! ## Gathering -/

/-- `__all_gather_params` when nothing raises. -/
def gathered (cfg : Config) (t : Bool) (s : State) (l : List ParamId) : State :=
  let xs := l.filter (s.dsStatus · = .notAvailable)
  let s := s.modifyCoordinator t fun c =>
    { c with
      nAvailableParams := c.nAvailableParams + ((xs.map cfg.dsNumel).sum : ℕ) }
  if xs = [] then s
  else xs.foldl (registered t s.handles.length)
    ((s.setStatuses xs .inflight).request cfg xs)

theorem request_kind (cfg : Config) (xs : List ParamId) (s : State)
    (hhandles : (s.request cfg xs).handles = s.handles ++ [h])
    (hkind : h.kind = .cpuFullParam) : ∀ p ∈ h.params, p ∈ s.cpuFullParam := by
  unfold request at hhandles
  dsimp only at hhandles
  split_ifs at hhandles with hcpu hone
  · obtain rfl := List.singleton_inj.mp (List.append_cancel_left hhandles)
    exact hcpu.2
  · obtain rfl := List.singleton_inj.mp (List.append_cancel_left hhandles)
    cases hkind
  · obtain rfl := List.singleton_inj.mp (List.append_cancel_left hhandles)
    cases hkind

variable (cfg) in
theorem Resident.allGatherParams_eq (hs : Resident t s) (hl : l.Nodup) :
    s.allGatherParams cfg t l = .ok (gathered cfg t s l) := by
  unfold allGatherParams gathered
  dsimp only
  have hnodup := hl.filter (s.dsStatus · = .notAvailable)
  have hbefore : ∀ p ∈ l.filter (s.dsStatus · = .notAvailable),
      s.dsStatus p = .notAvailable := by
    intro p hp
    exact of_decide_eq_true (List.mem_filter.mp hp).2
  generalize l.filter (s.dsStatus · = .notAvailable) = xs at hnodup hbefore
  split_ifs with hnil
  · rfl
  · set s₀ := s.modifyCoordinator t fun c =>
      { c with
        nAvailableParams := c.nAvailableParams + ((xs.map cfg.dsNumel).sum : ℕ) }
      with hs₀
    have hbefore' : ∀ p ∈ xs, s₀.dsStatus p = .notAvailable := hbefore
    obtain ⟨hmark, -⟩ :=
      (markInflight_commutes s₀.requests).foldlM_ok rfl hnodup hbefore'
    rw [hmark, foldl_setStatus]
    set s₁ := s₀.setStatuses xs .inflight with hs₁
    obtain ⟨h, -, -, -, hcoord, -, hstatus⟩ := request_spec cfg xs s₁
    have hok : ∀ p ∈ xs, (s₁.request cfg xs).dsStatus p = .inflight ∧
        p ∉ ((s₁.request cfg xs).coordinator t).inflight := by
      intro p hp
      constructor
      · rw [hstatus]
        exact if_pos hp
      · rw [hcoord]
        intro hmem
        have hmem' : p ∈ (s₀.coordinator t).inflight := hmem
        rw [hs₀, coordinator_modify] at hmem'
        exact hs.status_of_mem hmem' (hbefore p hp)
    obtain ⟨hreg, -⟩ := (register_commutes t s₁.handles.length
      (s₁.request cfg xs).requests).foldlM_ok rfl hnodup hok
    exact hreg

theorem Kept.foldl {α : Type} {f : State → α → State} (xs : List α)
    (hstep : ∀ s, ∀ x ∈ xs, Kept t s (f s x)) (s : State) :
    Kept t s (xs.foldl f s) := by
  induction xs generalizing s with
  | nil => exact .refl s
  | cons x xs ih =>
      rw [List.foldl_cons]
      refine (hstep s x List.mem_cons_self).trans (ih ?_ _)
      intro s y hy
      exact hstep s y (List.mem_cons_of_mem x hy)

theorem Kept.modify (f : Coordinator → Coordinator)
    (hf : ∀ c, f c = { c with
      inflight := (f c).inflight
      handleOf := (f c).handleOf
      nAvailableParams := (f c).nAvailableParams }) :
    Kept t s (s.modifyCoordinator t f) := by
  have hcoord := coordinator_modify (t := t) (s := s) f
  rw [hf] at hcoord
  constructor
  · rfl
  · rfl
  · rfl
  all_goals rw [hcoord]

theorem Kept.request (xs : List ParamId) (s : State) :
    Kept t s (s.request cfg xs) := by
  unfold State.request
  dsimp only
  split_ifs
  all_goals constructor <;> rfl

theorem Kept.setStatuses (xs : List ParamId)
    (status : Partition.ZeroParamStatus) (s : State) :
    Kept t s (s.setStatuses xs status) := by
  constructor <;> rfl

variable (cfg) in
theorem gathered_kept (s : State) (l : List ParamId) :
    Kept t s (gathered cfg t s l) := by
  unfold gathered
  dsimp only
  generalize l.filter (s.dsStatus · = .notAvailable) = xs
  have hmodify : Kept t s (s.modifyCoordinator t fun c =>
      { c with nAvailableParams :=
          c.nAvailableParams + ((xs.map cfg.dsNumel).sum : ℕ) }) :=
    Kept.modify _ fun c => rfl
  split_ifs
  · exact hmodify
  · refine hmodify.trans ?_
    generalize s.modifyCoordinator t _ = s₀
    have hregister : ∀ handle s, ∀ x ∈ xs, Kept t s (registered t handle s x) :=
      fun handle s x _ => Kept.modify _ fun c => rfl
    exact (Kept.setStatuses xs .inflight s₀).trans
      ((Kept.request xs _).trans (Kept.foldl xs (hregister _) _))

variable (cfg) in
/-- What `__all_gather_params` has done, if anything. -/
theorem Resident.gathered_cases (hs : Resident t s) (hl : l.Nodup) :
    ∃ s₀, Frame s s₀ ∧ s₀.dsStatus = s.dsStatus ∧
      s₀.cpuFullParam = s.cpuFullParam ∧
      ((l.filter (s.dsStatus · = .notAvailable) = [] ∧ gathered cfg t s l = s₀) ∨
        ∃ h, Gathered t s₀ (gathered cfg t s l)
            (l.filter (s.dsStatus · = .notAvailable)) h ∧
          (h.kind = .cpuFullParam → ∀ p ∈ h.params, p ∈ s.cpuFullParam)) := by
  have hrun := hs.allGatherParams_eq cfg hl
  unfold allGatherParams at hrun
  dsimp only at hrun
  refine ⟨_, Frame.modify (t := t) (fun c => { c with
    nAvailableParams := c.nAvailableParams +
      (((l.filter (s.dsStatus · = .notAvailable)).map cfg.dsNumel).sum : ℕ) })
    rfl rfl, rfl, rfl, ?_⟩
  split_ifs at hrun with hnil
  · exact .inl ⟨hnil, (Except.ok.inj hrun).symm⟩
  · have hbefore : ∀ p ∈ l.filter (s.dsStatus · = .notAvailable),
        s.dsStatus p = .notAvailable := by
      intro p hp
      exact of_decide_eq_true (List.mem_filter.mp hp).2
    obtain ⟨h, hgathered⟩ := gathered_of_run hrun
      (hl.filter (s.dsStatus · = .notAvailable)) hbefore
    refine .inr ⟨h, hgathered, fun hkind => ?_⟩
    have hhandles := hgathered.handles
    unfold gathered at hhandles
    dsimp only at hhandles
    rw [if_neg hnil, (foldl_registered _ _ _).1] at hhandles
    have hcpu := request_kind cfg _ _ hhandles hkind
    exact hcpu

variable (cfg) in
theorem Resident.gathered (hs : Resident t s) (hl : l.Nodup) :
    Resident t (gathered cfg t s l) := by
  have hkept := gathered_kept cfg (t := t) s l
  obtain ⟨s₀, hframe, hstatus, hcpu, ⟨-, heq⟩ | ⟨h, hg, hkind⟩⟩ :=
    hs.gathered_cases cfg hl
  · rw [heq]
    refine hs.frame hframe ?_ ?_ ?_
    · intro p hp
      rwa [hstatus] at hp
    · intro p _ hp
      rwa [hstatus]
    · intro p _ hp
      rwa [hcpu]
  · have hinv₀ := hframe.inv hs.inv
    have hopen := hg.openHandle_eq hinv₀
    constructor
    · exact hg.inv hinv₀
    · intro p hp
      rw [hopen]
      split_ifs with hmem
      · exact ⟨_, rfl⟩
      · have hnot : p ∉ l.filter (s.dsStatus · = .notAvailable) :=
          fun hin => hmem ⟨rfl, hin⟩
        rw [hg.status, if_neg hnot, hstatus] at hp
        rw [hframe.openHandle_eq]
        exact hs.tracked p hp
    · intro p hp hnone
      rw [hopen] at hnone
      split_ifs at hnone with hmem
      have hnot : p ∉ l.filter (s.dsStatus · = .notAvailable) :=
        fun hin => hmem ⟨rfl, hin⟩
      have hold := ((hg.inflight p).mp hp).resolve_left hnot
      rw [hframe.inflight] at hold
      rw [hframe.openHandle_eq] at hnone
      rw [hg.status, if_neg hnot, hstatus]
      exact hs.closed p hold hnone
    · intro p i x hsome hcpuKind q hq
      rw [hkept.cpuFullParam]
      rw [hopen] at hsome
      split_ifs at hsome with hmem
      · obtain ⟨-, rfl⟩ := Prod.mk.inj (Option.some.inj hsome)
        exact hkind hcpuKind q hq
      · rw [hframe.openHandle_eq] at hsome
        exact hs.restorable p i x hsome hcpuKind q hq

variable (cfg) in
/-- The parameters of the list that are partitioned are in flight then. -/
theorem Resident.gathered_status (hs : Resident t s) (hl : l.Nodup) (p : ParamId) :
    (State.gathered cfg t s l).dsStatus p =
      if p ∈ l ∧ s.dsStatus p = .notAvailable then .inflight
      else s.dsStatus p := by
  obtain ⟨s₀, -, hstatus, -, ⟨hnil, heq⟩ | ⟨h, hg, -⟩⟩ :=
    hs.gathered_cases cfg hl
  · rw [heq, hstatus, if_neg]
    intro hp
    have hmem : p ∈ l.filter (s.dsStatus · = .notAvailable) :=
      List.mem_filter.mpr ⟨hp.1, decide_eq_true hp.2⟩
    rw [hnil] at hmem
    cases hmem
  · rw [hg.status, hstatus]
    simp only [List.mem_filter, decide_eq_true_eq]

variable (cfg) in
theorem Resident.gathered_inflight (hs : Resident t s) (hl : l.Nodup)
    (p : ParamId) :
    p ∈ ((State.gathered cfg t s l).coordinator t).inflight ↔
      (p ∈ l ∧ s.dsStatus p = .notAvailable) ∨
        p ∈ (s.coordinator t).inflight := by
  obtain ⟨s₀, hframe, -, -, ⟨hnil, heq⟩ | ⟨h, hg, -⟩⟩ :=
    hs.gathered_cases cfg hl
  · rw [heq, hframe.inflight, or_iff_right]
    intro hp
    have hmem : p ∈ l.filter (s.dsStatus · = .notAvailable) :=
      List.mem_filter.mpr ⟨hp.1, decide_eq_true hp.2⟩
    rw [hnil] at hmem
    cases hmem
  · rw [hg.inflight, hframe.inflight]
    simp only [List.mem_filter, decide_eq_true_eq]

theorem gathered_active (s : State) (l : List ParamId) :
    (gathered cfg t s l).dsActiveSubModules = s.dsActiveSubModules := by
  unfold gathered
  dsimp only
  split_ifs
  · rfl
  · rw [(foldl_registered _ _ _).1]
    unfold State.request
    dsimp only
    split_ifs
    all_goals rfl

/-! ## Waiting -/

theorem waited_kept (s : State) (p : ParamId) : Kept t s (waited t m s p) := by
  have hcoord := coordinator_waited t m s p
  constructor
  · rfl
  · rfl
  · rfl
  all_goals rw [hcoord]

theorem Resident.waited (hs : Resident t s) (m : ModuleId) (p : ParamId) :
    Resident t (waited t m s p) := by
  have hopen := hs.inv.openHandle_waited (t := t) (m := m) (p := p) t
  have harrived : ∀ q x, openHandle t s q = some x →
      openHandle t s q = openHandle t s p → q ∈ s.arrivals t p := by
    rintro q ⟨i, h⟩ hq heq
    rw [arrivals_of_open (heq.symm.trans hq)]
    exact hs.inv.self_mem t q i h hq
  constructor
  · exact hs.inv.wait
  · intro q hq
    rw [dsStatus_waited] at hq
    split_ifs at hq with hmem
    obtain ⟨x, hx⟩ := hs.tracked q hq
    refine ⟨x, ?_⟩
    rw [hopen, if_neg fun heq => hmem (harrived q x hx heq), hx]
  · intro q hq hnone
    rw [dsStatus_waited]
    split_ifs with hmem
    · rfl
    · rw [coordinator_waited] at hq
      have hold := Finset.mem_of_mem_erase hq
      refine hs.closed q hold ?_
      cases hx : openHandle t s q with
      | none => rfl
      | some x =>
          rw [hopen] at hnone
          split_ifs at hnone with heq
          · exact absurd (harrived q x hx heq) hmem
          · exact hx.symm.trans hnone
  · intro q i x hsome hkind q' hq'
    rw [hopen] at hsome
    split_ifs at hsome
    exact hs.restorable q i x hsome hkind q' hq'

/-- A wait for a parameter that is not partitioned does not raise. -/
theorem Resident.waitParam_eq (hs : Resident t s) (m : ModuleId)
    (hp : s.dsStatus p ≠ .notAvailable) :
    s.waitParam t m p = .ok (State.waited t m s p) ∧
      (State.waited t m s p).dsStatus p = .available := by
  have havailable : (State.waited t m s p).dsStatus p = .available := by
    rw [dsStatus_waited]
    split_ifs with hmem
    · rfl
    · cases hstatus : s.dsStatus p with
      | available => rfl
      | notAvailable => exact absurd hstatus hp
      | inflight =>
          obtain ⟨⟨i, h⟩, hopen⟩ := hs.tracked p hstatus
          rw [arrivals_of_open hopen] at hmem
          exact absurd (hs.inv.self_mem t p i h hopen) hmem
  rcases hs.inv.waitParam_cases t m p with ⟨-, hcode⟩ | ⟨hrest, -⟩
  · exact ⟨by rw [hcode, if_pos havailable], havailable⟩
  · exact absurd (hs.restorable p) hrest

/-- What the waiting loop for the module `m` does to the parameters. -/
structure Awaited (t : Bool) (m : ModuleId) (l : List ParamId) (s s' : State) :
    Prop where
  kept : Kept t s s'
  status : ∀ q, s'.dsStatus q = s.dsStatus q ∨
    s.dsStatus q = .inflight ∧ s'.dsStatus q = .available
  available : ∀ p ∈ l, s'.dsStatus p = .available
  inflight : ∀ p, p ∈ (s'.coordinator t).inflight ↔
    p ∈ (s.coordinator t).inflight ∧ p ∉ l
  active : ∀ q, s'.dsActiveSubModules q =
    if q ∈ l then insert m (s.dsActiveSubModules q) else s.dsActiveSubModules q

theorem Resident.status_waited (hs : Resident t s) (m : ModuleId) (p q : ParamId) :
    (State.waited t m s p).dsStatus q = s.dsStatus q ∨
      s.dsStatus q = .inflight ∧ (State.waited t m s p).dsStatus q = .available := by
  rw [dsStatus_waited]
  split_ifs with hmem
  · cases hopen : openHandle t s p with
    | none =>
        rw [arrivals_of_none hopen] at hmem
        cases hmem
    | some x =>
        rw [arrivals_of_open hopen] at hmem
        exact .inr ⟨(hs.inv.others t p x.1 x.2 hopen q hmem).2, rfl⟩
  · exact .inl rfl

/-- The waiting loop does not raise if nothing is partitioned. -/
theorem Resident.waits (hs : Resident t s) (m : ModuleId)
    (hready : ∀ p ∈ l, s.dsStatus p ≠ .notAvailable) :
    ∃ s', l.foldlM (waitParam t m) s = .ok s' ∧ Resident t s' ∧
      Awaited t m l s s' := by
  induction l generalizing s with
  | nil =>
      refine ⟨s, rfl, hs, ⟨.refl s, fun _ => .inl rfl, ?_, ?_, ?_⟩⟩ <;> simp
  | cons p l ih =>
      obtain ⟨hrun, havailable⟩ := hs.waitParam_eq m (hready p List.mem_cons_self)
      have hstatus := hs.status_waited m p
      obtain ⟨s', hrest, hresident, haw⟩ := ih (hs.waited m p) (by
        intro q hq
        rcases hstatus q with heq | ⟨-, heq⟩
        · rw [heq]
          exact hready q (List.mem_cons_of_mem p hq)
        · rw [heq]
          decide)
      refine ⟨s', ?_, hresident, ?_⟩
      · rw [List.foldlM_cons, hrun]
        exact hrest
      · constructor
        · exact (waited_kept s p).trans haw.kept
        · intro q
          rcases haw.status q with heq | ⟨hin, heq⟩
          · rw [heq]
            exact hstatus q
          · rcases hstatus q with hold | ⟨-, hnow⟩
            · exact .inr ⟨hold ▸ hin, heq⟩
            · rw [hnow] at hin
              cases hin
        · intro q hq
          rcases List.mem_cons.mp hq with rfl | hq
          · rcases haw.status q with heq | ⟨-, heq⟩
            · exact heq.trans havailable
            · exact heq
          · exact haw.available q hq
        · intro q
          rw [haw.inflight, coordinator_waited, Finset.mem_erase, List.mem_cons]
          tauto
        · intro q
          rw [haw.active]
          change (if q ∈ l then insert m (Function.update s.dsActiveSubModules p
            (insert m (s.dsActiveSubModules p)) q) else Function.update
              s.dsActiveSubModules p (insert m (s.dsActiveSubModules p)) q) = _
          by_cases hq : q = p
          · subst hq
            simp
          · simp [hq]

/-! ## Fetching -/

/-- The queue has the parameters that the trace expects now. -/
def TraceAgrees (cfg : Config) (t : Bool) (m : ModuleId) (s : State) : Prop :=
  let c := s.coordinator t
  let notAlreadyFetched := (s.iterParams cfg m).toFinset.filter
    (c.mostRecentStepIdParamFetchedFor · < c.stepId)
  c.traceMode = .complete →
    (discardFetched notAlreadyFetched.card c.paramQueue
      c.mostRecentStepIdParamFetchedFor ∅).2.2 = notAlreadyFetched

instance (s : State) : Decidable (s.TraceAgrees cfg t m) :=
  inferInstanceAs (Decidable (_ → _))

/-- The two loops of `fetch_sub_module` before the prefetching. -/
def demand (cfg : Config) (t : Bool) (l : Local) (m : ModuleId) (s : State) :
    Except Failure State := do
  let params := (s.iterParams cfg m).toFinset
  let s ← s.allGatherParams cfg t (l.gatherOrder.iterate params)
  (l.waitOrder.iterate params).foldlM (waitParam t m) s

variable (cfg) in
theorem fetchSubModule_demand (l : Local) (s : State) (events : ℕ) :
    (s.fetchSubModule cfg t l m events).map Prod.fst = (do
      let s₁ ← s.demand cfg t l m
      let s₂ ← s₁.prefetch cfg t l.prefetchOrder (s.iterParams cfg m).toFinset
      return s₂.modifyCoordinator t fun c => { c with stepId := c.stepId + 1 }) := by
  rw [fetchSubModule_fst]
  unfold demand
  dsimp only
  rw [bind_assoc]

/-- What the two loops do for a module. -/
structure Demanded (cfg : Config) (t : Bool) (m : ModuleId) (s s' : State) :
    Prop where
  kept : Kept t s s'
  available : ∀ p ∈ s.iterParams cfg m, s'.dsStatus p = .available
  inflight : ∀ p, p ∈ (s'.coordinator t).inflight ↔
    p ∈ (s.coordinator t).inflight ∧ p ∉ s.iterParams cfg m
  stays : ∀ p, s.dsStatus p = .available → s'.dsStatus p = .available
  partitioned : ∀ p, p ∉ s.iterParams cfg m → s.dsStatus p = .notAvailable →
    s'.dsStatus p = .notAvailable
  active : ∀ p, s'.dsActiveSubModules p =
    if p ∈ s.iterParams cfg m then insert m (s.dsActiveSubModules p)
    else s.dsActiveSubModules p

variable (cfg) in
theorem Resident.demand (hs : Resident t s) (l : Local) (m : ModuleId) :
    ∃ s', s.demand cfg t l m = .ok s' ∧ Resident t s' ∧
      Demanded cfg t m s s' := by
  have hgather := l.gatherOrder.nodup (s.iterParams cfg m).toFinset
  have hmemGather : ∀ p, p ∈ l.gatherOrder.iterate (s.iterParams cfg m).toFinset ↔
      p ∈ s.iterParams cfg m :=
    fun p => (l.gatherOrder.mem_iterate _ p).trans List.mem_toFinset
  have hmemWait : ∀ p, p ∈ l.waitOrder.iterate (s.iterParams cfg m).toFinset ↔
      p ∈ s.iterParams cfg m :=
    fun p => (l.waitOrder.mem_iterate _ p).trans List.mem_toFinset
  have hstatus := hs.gathered_status cfg hgather
  obtain ⟨s', hrun, hresident, haw⟩ :=
    (hs.gathered cfg hgather).waits m
      (l := l.waitOrder.iterate (s.iterParams cfg m).toFinset) (by
        intro p hp
        rw [hstatus]
        split_ifs with hcond
        · decide
        · intro hnot
          exact hcond ⟨(hmemGather p).mpr ((hmemWait p).mp hp), hnot⟩)
  refine ⟨s', ?_, hresident, ?_⟩
  · unfold State.demand
    dsimp only
    rw [hs.allGatherParams_eq cfg hgather]
    exact hrun
  · constructor
    · exact (gathered_kept cfg s _).trans haw.kept
    · intro p hp
      exact haw.available p ((hmemWait p).mpr hp)
    · intro p
      rw [haw.inflight, hs.gathered_inflight cfg hgather, hmemWait, hmemGather]
      constructor
      · rintro ⟨⟨hin, -⟩ | hin, hnot⟩
        · exact absurd hin hnot
        · exact ⟨hin, hnot⟩
      · rintro ⟨hin, hnot⟩
        exact ⟨.inr hin, hnot⟩
    · intro p hp
      rcases haw.status p with heq | ⟨-, heq⟩
      · rw [heq, hstatus, if_neg, hp]
        rintro ⟨-, hnot⟩
        rw [hp] at hnot
        cases hnot
      · exact heq
    · intro p hp hnot
      have hgathered : (State.gathered cfg t s (l.gatherOrder.iterate
          (s.iterParams cfg m).toFinset)).dsStatus p = .notAvailable := by
        rw [hstatus, if_neg, hnot]
        exact fun hcond => hp ((hmemGather p).mp hcond.1)
      rcases haw.status p with heq | ⟨hin, -⟩
      · exact heq.trans hgathered
      · rw [hgathered] at hin
        cases hin
    · intro p
      rw [haw.active, gathered_active]
      simp only [hmemWait]

/-! ## Prefetching -/

/-- The queue and the steps when the front of the queue is discarded. -/
def discarded (t : Bool) (s : State) (params : Finset ParamId) :
    List ParamInTrace × (ParamId → ℤ) × Finset ParamId :=
  let c := s.coordinator t
  discardFetched
    (params.filter (c.mostRecentStepIdParamFetchedFor · < c.stepId)).card
    c.paramQueue c.mostRecentStepIdParamFetchedFor ∅

/-- The queue, the steps and the parameters to prefetch. -/
def collected (cfg : Config) (t : Bool) (s : State) (params : Finset ParamId) :
    List ParamInTrace × (ParamId → ℤ) × Finset ParamId :=
  let (queue, recent, _) := s.discarded t params
  if cfg.prefetchBucketSz > 0 then
    collectPrefetch cfg s
      (min (cfg.maxNAvailableParams - (s.coordinator t).nAvailableParams)
        cfg.prefetchBucketSz) queue recent ∅ 0
  else (queue, recent, ∅)

/-- The state with the queue and the steps of `collected`. -/
def advanced (cfg : Config) (t : Bool) (s : State) (params : Finset ParamId) :
    State :=
  s.modifyCoordinator t fun c =>
    { c with
      paramQueue := (s.collected cfg t params).1
      mostRecentStepIdParamFetchedFor := (s.collected cfg t params).2.1 }

/-- The end of `fetch_sub_module` when it does not raise. -/
def prefetched (cfg : Config) (t : Bool) (order : SetOrder) (s : State)
    (params : Finset ParamId) : State :=
  if (s.coordinator t).traceMode ≠ .complete then s
  else if cfg.prefetchBucketSz > 0 then
    State.gathered cfg t (s.advanced cfg t params)
      (order.iterate (s.collected cfg t params).2.2)
  else s.advanced cfg t params

theorem advanced_frame (s : State) (params : Finset ParamId) :
    Frame s (s.advanced cfg t params) :=
  Frame.modify _ rfl rfl

variable (cfg) in
theorem Resident.advanced (hs : Resident t s) (params : Finset ParamId) :
    Resident t (s.advanced cfg t params) :=
  hs.frame (advanced_frame s params) (fun _ hp => hp) (fun _ _ hp => hp)
    (fun _ _ hp => hp)

/-- It raises the tracing error or nothing. -/
theorem Resident.prefetch_eq (hs : Resident t s) (order : SetOrder)
    (params : Finset ParamId)
    (hagrees : (s.coordinator t).traceMode = .complete →
      (s.discarded t params).2.2 = params.filter
        ((s.coordinator t).mostRecentStepIdParamFetchedFor · <
          (s.coordinator t).stepId)) :
    s.prefetch cfg t order params = .ok (prefetched cfg t order s params) := by
  unfold prefetch prefetched
  dsimp only
  by_cases hmode : (s.coordinator t).traceMode = .complete
  · have hsame := hagrees hmode
    unfold discarded at hsame
    dsimp only at hsame
    rw [if_neg (not_not_intro hmode), if_neg (not_not_intro hmode),
      if_neg (not_not_intro hsame)]
    split_ifs with hbucket
    · have hadvanced := (hs.advanced cfg params).allGatherParams_eq
        cfg (order.nodup (s.collected cfg t params).2.2)
      rw [← hadvanced]
      unfold State.advanced collected discarded
      dsimp only
      rw [if_pos hbucket]
    · unfold State.advanced collected discarded
      dsimp only
      rw [if_neg hbucket]
  · rw [if_pos hmode, if_pos hmode]

theorem prefetch_error (s : State) (order : SetOrder) (params : Finset ParamId)
    (hmode : (s.coordinator t).traceMode = .complete)
    (hdiffers : (s.discarded t params).2.2 ≠ params.filter
      ((s.coordinator t).mostRecentStepIdParamFetchedFor · <
        (s.coordinator t).stepId)) :
    s.prefetch cfg t order params = s.fail .runtimeError := by
  unfold prefetch
  dsimp only
  unfold discarded at hdiffers
  dsimp only at hdiffers
  rw [if_neg (not_not_intro hmode), if_pos hdiffers]

theorem Kept.traceAgrees_iff (h : Kept t s s') :
    s.TraceAgrees cfg t m ↔
      ((s'.coordinator t).traceMode = .complete →
        (s'.discarded t (s.iterParams cfg m).toFinset).2.2 =
          (s.iterParams cfg m).toFinset.filter
            ((s'.coordinator t).mostRecentStepIdParamFetchedFor · <
              (s'.coordinator t).stepId)) := by
  unfold TraceAgrees discarded
  dsimp only
  rw [h.traceMode, h.recent, h.stepId, h.paramQueue]

/-- What the prefetching does to the parameters. -/
structure Prefetched (t : Bool) (s s' : State) : Prop where
  externalParams : s'.externalParams = s.externalParams
  status : ∀ p, s'.dsStatus p = s.dsStatus p ∨
    s.dsStatus p = .notAvailable ∧ s'.dsStatus p = .inflight
  inflight : ∀ p ∈ (s'.coordinator t).inflight,
    p ∈ (s.coordinator t).inflight ∨ s.dsStatus p = .notAvailable
  active : s'.dsActiveSubModules = s.dsActiveSubModules

variable (cfg) in
theorem Resident.prefetched (hs : Resident t s) (order : SetOrder)
    (params : Finset ParamId) :
    Resident t (State.prefetched cfg t order s params) ∧
      Prefetched t s (State.prefetched cfg t order s params) := by
  unfold State.prefetched
  split_ifs with hmode hbucket
  · exact ⟨hs, rfl, fun _ => .inl rfl, fun _ hp => .inl hp, rfl⟩
  · have hadvanced := hs.advanced cfg params
    have hnodup := order.nodup (s.collected cfg t params).2.2
    refine ⟨hadvanced.gathered cfg hnodup, ?_, ?_, ?_, ?_⟩
    · exact (gathered_kept cfg (t := t) _ _).externalParams
    · intro p
      rw [hadvanced.gathered_status cfg hnodup]
      split_ifs with hcond
      · exact .inr ⟨hcond.2, rfl⟩
      · exact .inl rfl
    · intro p hp
      rcases (hadvanced.gathered_inflight cfg hnodup p).mp hp with ⟨-, hnot⟩ | hold
      · exact .inr hnot
      · rw [(advanced_frame s params).inflight] at hold
        exact .inl hold
    · rw [gathered_active]
      rfl
  · refine ⟨hs.advanced cfg params, rfl, fun _ => .inl rfl, ?_, rfl⟩
    intro p hp
    rw [(advanced_frame s params).inflight] at hp
    exact .inl hp

variable (cfg) in
/-- What is registered after the prefetching. -/
theorem Resident.prefetched_inflight (hs : Resident t s) (order : SetOrder)
    (params : Finset ParamId)
    (hp : p ∈ ((State.prefetched cfg t order s params).coordinator t).inflight) :
    p ∈ (s.coordinator t).inflight ∨ p ∈ (s.collected cfg t params).2.2 := by
  unfold State.prefetched at hp
  split_ifs at hp
  · exact .inl hp
  · have hadvanced := hs.advanced cfg params
    have hnodup := order.nodup (s.collected cfg t params).2.2
    rcases (hadvanced.gathered_inflight cfg hnodup p).mp hp with ⟨hin, -⟩ | hin
    · exact .inr ((order.mem_iterate _ p).mp hin)
    · rw [(advanced_frame s params).inflight] at hin
      exact .inl hin
  · rw [(advanced_frame s params).inflight] at hp
    exact .inl hp

end State

end SmartNic.Offload
