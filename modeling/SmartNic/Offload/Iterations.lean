import SmartNic.Offload.Availability

/-!
# Iterations

The hooks of one coordinator with `trace_prologue`, `record_module` and
`reset_step`, and what the first iteration records.
-/

namespace SmartNic.Offload

open Machine

/-- What the hooks do with the coordinator; the optimizer partitions all
parameters after some calls of `reset_step`. -/
inductive Hook where
  | pre (m : ModuleId) (l : Local)
  | post (m : ModuleId) (cpuFullParam : Finset ParamId)
  | reset (step : Bool)

/-- The module that a hook fetches. -/
def Hook.fetched : Hook → Option ModuleId
  | .pre m _ => some m
  | _ => none

namespace Session

variable {α : Type} (cfg : Config) (t : Bool) (full : ParamId → α)

/-- `trace_prologue`, `record_module` and `fetch_sub_module`. -/
def pre (r : Session α) (m : ModuleId) (l : Local) :
    Except Failure (Session α) := do
  let s ← r.state.tracePrologue t m
  { r with state := s.recordModule t m }.fetch cfg t full m l

/-- `partition_all_parameters`, which frees what it partitions. -/
def partitionAll (r : Session α) : Except Failure (Session α) := do
  let s ← r.state.releaseAndResetAll cfg t cfg.root
  return { r with
    state := s
    data := fun p =>
      if r.state.dsStatus p = .available ∧ s.dsStatus p = .notAvailable then none
      else r.data p
    opened := [] }

/-- `reset_step`, when rank 0 has the same lists, and the start of `step`. -/
def reset (r : Session α) (step : Bool) : Except Failure (Session α) := do
  let s ← r.state.resetStep cfg t (some (r.state.coordinator t))
  let r := { r with state := s }
  if step then r.partitionAll cfg t else return r

/-- A hook, if no exception was raised before. -/
def hook : Except Failure (Session α) → Hook → Option (Except Failure (Session α))
  | .error _, _ => none
  | .ok r, .pre m l => some (r.pre cfg t full m l)
  | .ok r, .post m cpuFullParam => some (.ok (r.release cfg t m cpuFullParam))
  | .ok r, .reset step => some (r.reset cfg t step)

/-- Only open modules are released, with CPU copies of their own parameters. -/
def Paired (cfg : Config) (x : Except Failure (Session α)) (h : Hook) : Prop :=
  ∀ m cpuFullParam, h = .post m cpuFullParam → ∀ r, x = .ok r →
    m ∈ r.opened ∧
      cpuFullParam \ (r.state.iterParams cfg m).toFinset =
        r.state.cpuFullParam \ (r.state.iterParams cfg m).toFinset

end Session

/-! ## Steps that concern the trace only -/

namespace State

variable {cfg : Config} {t : Bool} {m : ModuleId} {s s₁ s' : State}

/-- Only what the coordinator has of the trace may differ. -/
def Retraced (t : Bool) (s s' : State) : Prop :=
  ∃ f : Coordinator → Coordinator, s' = s.modifyCoordinator t fun c =>
    { f c with inflight := c.inflight, handleOf := c.handleOf }

theorem modify_modify (f g : Coordinator → Coordinator) :
    (s.modifyCoordinator t f).modifyCoordinator t g =
      s.modifyCoordinator t fun c => g (f c) := by
  unfold modifyCoordinator
  simp

theorem Retraced.refl (s : State) : Retraced t s s := by
  refine ⟨id, ?_⟩
  unfold modifyCoordinator
  simp

theorem Retraced.trans (h : Retraced t s s₁) (h' : Retraced t s₁ s') :
    Retraced t s s' := by
  obtain ⟨f, rfl⟩ := h
  obtain ⟨g, rfl⟩ := h'
  exact ⟨_, modify_modify _ _⟩

theorem Retraced.modify (f : Coordinator → Coordinator)
    (hinflight : ∀ c, (f c).inflight = c.inflight)
    (hhandle : ∀ c, (f c).handleOf = c.handleOf) :
    Retraced t s (s.modifyCoordinator t f) := by
  refine ⟨f, ?_⟩
  congr 1
  funext c
  rw [← hinflight c, ← hhandle c]

theorem tracePrologue_retraced (hrun : s.tracePrologue t m = .ok s') :
    Retraced t s s' := by
  unfold tracePrologue at hrun
  dsimp only at hrun
  split_ifs at hrun
  · split at hrun
    · cases hrun
    · split_ifs at hrun
      · obtain rfl := Except.ok.inj hrun
        exact .refl s
      · obtain rfl := Except.ok.inj hrun
        exact .modify _ (fun _ => rfl) fun _ => rfl
  · obtain rfl := Except.ok.inj hrun
    exact .refl s

theorem recordModule_retraced (s : State) : Retraced t s (s.recordModule t m) := by
  unfold recordModule
  split_ifs
  · exact .modify _ (fun _ => rfl) fun _ => rfl
  · exact .refl s

theorem restart_retraced (s : State) : Retraced t s (s.restart t) :=
  .modify _ (fun _ => rfl) fun _ => rfl

theorem recordParameters_retraced (hrun : s.recordParameters cfg t m = .ok s') :
    Retraced t s s' := by
  unfold recordParameters at hrun
  split at hrun
  · cases hrun
  · obtain rfl := Except.ok.inj hrun
    exact .modify _ (fun _ => rfl) fun _ => rfl

theorem recordAll_retraced {ms : List ModuleId}
    (hrun : ms.foldlM (recordParameters cfg t) s = .ok s') : Retraced t s s' :=
  foldlM_rel .refl .trans (fun _ _ _ => recordParameters_retraced) hrun

theorem resetStep_retraced {rank0 : Option Coordinator}
    (hrun : s.resetStep cfg t rank0 = .ok s') : Retraced t s s' := by
  unfold resetStep at hrun
  dsimp only at hrun
  split_ifs at hrun with hinflight hcomplete hsame hrecord
  · cases hrun
  · obtain rfl := Except.ok.inj hrun
    exact restart_retraced s
  · cases hrun
  · obtain ⟨s₁, hrecorded, hrest⟩ := exists_of_bind hrun
    obtain rfl := Except.ok.inj hrest
    have hcleared : Retraced t s
        (s.modifyCoordinator t fun c => { c with paramOrder := [] }) :=
      .modify _ (fun _ => rfl) fun _ => rfl
    have hmarked : Retraced t s₁
        (s₁.modifyCoordinator t fun c => { c with traceMode := .complete }) :=
      .modify _ (fun _ => rfl) fun _ => rfl
    have hrecorded := hcleared.trans (recordAll_retraced hrecorded)
    exact (hrecorded.trans hmarked).trans (restart_retraced _)
  · obtain rfl := Except.ok.inj hrun
    have hmarked : Retraced t s
        (s.modifyCoordinator t fun c => { c with traceMode := .record }) :=
      .modify _ (fun _ => rfl) fun _ => rfl
    exact hmarked.trans (restart_retraced _)

/-! ## Partitioning everything -/

/-- The body of the first loop of `release_and_reset_all`. -/
def clearParam (cfg : Config) (t : Bool) (s : State) (p : ParamId) : State :=
  let s :=
    { s with dsActiveSubModules := Function.update s.dsActiveSubModules p ∅ }
  let s := s.releaseParam cfg t p
  { s with cpuFullParam := s.cpuFullParam.erase p }

theorem clearParam_inflight (s : State) (p : ParamId) :
    ((clearParam cfg t s p).coordinator t).inflight =
      (s.coordinator t).inflight := by
  unfold clearParam
  exact (@releaseParam_frame cfg t p _).inflight t

theorem foldl_clearParam_status (l : List ParamId) (s : State) (q : ParamId) :
    (l.foldl (clearParam cfg t) s).dsStatus q =
      if q ∈ l ∧ s.dsStatus q = .available then .notAvailable
      else s.dsStatus q := by
  have hone : ∀ (s : State) (p q : ParamId), (clearParam cfg t s p).dsStatus q =
      if q = p ∧ s.dsStatus q = .available then .notAvailable
      else s.dsStatus q := by
    intro s p q
    unfold clearParam releaseParam
    dsimp only
    by_cases hq : q = p
    · subst hq
      split_ifs <;> simp_all [setStatus, modifyCoordinator]
    · split_ifs <;> simp_all [setStatus, modifyCoordinator]
  induction l generalizing s with
  | nil => simp
  | cons p l ih =>
      rw [List.foldl_cons, ih, hone]
      by_cases hq : q = p
      · subst hq
        by_cases havailable : s.dsStatus q = .available
        · simp [havailable]
        · simp [havailable]
      · simp [hq]

variable (cfg) in
theorem releaseAndResetAll_eq (hinflight : (s.coordinator t).inflight = ∅)
    (hstatus : ∀ p, s.dsStatus p ≠ .inflight) (m : ModuleId) :
    s.releaseAndResetAll cfg t m =
      .ok ((cfg.recursiveParameters m ++ s.externalParams m).foldl
        (clearParam cfg t) s) := by
  unfold releaseAndResetAll
  dsimp only
  generalize cfg.recursiveParameters m ++ s.externalParams m = l
  have hfold : ∀ (l : List ParamId) (s : State),
      (s.coordinator t).inflight = ∅ →
      l.foldlM (fun s p =>
        if p ∈ (s.coordinator t).inflight then s.fail .runtimeError
        else .ok (clearParam cfg t s p)) s =
          Except.ok (l.foldl (clearParam cfg t) s) := by
    intro l
    induction l with
    | nil => exact fun _ _ => rfl
    | cons p l ih =>
        intro s hs
        rw [List.foldlM_cons, hs, if_neg (Finset.notMem_empty p)]
        exact ih _ ((clearParam_inflight s p).trans hs)
  have hcleared : ∀ p ∈ l,
      (l.foldl (clearParam cfg t) s).dsStatus p = .notAvailable := by
    intro p hp
    rw [foldl_clearParam_status]
    split_ifs with havailable
    · rfl
    · cases hcase : s.dsStatus p with
      | notAvailable => rfl
      | inflight => exact absurd hcase (hstatus p)
      | available => exact absurd ⟨hp, hcase⟩ havailable
  have hrun := hfold l s hinflight
  unfold clearParam at hrun
  dsimp only at hrun
  rw [hrun]
  exact if_pos hcleared

/-- Nothing is in flight when nothing is registered. -/
theorem Resident.notInflight (hs : Resident t s)
    (hinflight : (s.coordinator t).inflight = ∅) (p : ParamId) :
    s.dsStatus p ≠ .inflight := by
  intro hp
  obtain ⟨x, hopen⟩ := hs.tracked p hp
  have hmem := (openHandle_eq_some.mp hopen).1
  rw [hinflight] at hmem
  cases hmem

theorem resetStep_inflight {rank0 : Option Coordinator}
    (hrun : s.resetStep cfg t rank0 = .ok s') :
    (s'.coordinator t).inflight = ∅ := by
  rw [(resetStep_frame hrun).inflight]
  unfold resetStep at hrun
  dsimp only at hrun
  by_contra hne
  rw [if_pos hne] at hrun
  cases hrun

end State

namespace Session

variable {α : Type} {cfg : Config} {t : Bool} {full : ParamId → α}
  {r r' : Session α}

theorem Inv.retraced (hr : r.Inv cfg t full) {s : State}
    (h : r.state.Retraced t s) : { r with state := s }.Inv cfg t full := by
  obtain ⟨f, rfl⟩ := h
  exact hr.retrace f

variable (cfg full) in
/-- The state in which a pre hook fetches. -/
theorem pre_cases {m : ModuleId} {l : Local} {s : State}
    (hprologue : r.state.tracePrologue t m = .ok s) :
    r.pre cfg t full m l =
        { r with state := s.recordModule t m }.fetch cfg t full m l ∧
      r.state.Retraced t (s.recordModule t m) := by
  refine ⟨?_, ?_⟩
  · unfold pre
    rw [hprologue]
    rfl
  · exact (State.tracePrologue_retraced hprologue).trans
      (State.recordModule_retraced s)

theorem Inv.pre (hr : r.Inv cfg t full) {m : ModuleId} {l : Local}
    (hpre : r.pre cfg t full m l = .ok r') : r'.Inv cfg t full := by
  obtain ⟨s, hprologue, -⟩ := exists_of_bind hpre
  obtain ⟨hcode, hretraced⟩ := pre_cases cfg full (l := l) hprologue
  rw [hcode] at hpre
  exact (hr.retraced hretraced).fetch hpre

/-- With nothing registered everything is partitioned. -/
theorem Inv.partitionAll (hr : r.Inv cfg t full)
    (hinflight : (r.state.coordinator t).inflight = ∅) :
    ∃ r', r.partitionAll cfg t = .ok r' ∧ r'.Inv cfg t full ∧
      r'.state = (cfg.recursiveParameters cfg.root ++
        r.state.externalParams cfg.root).foldl (State.clearParam cfg t) r.state := by
  have hnot := hr.resident.notInflight hinflight
  have hrun := State.releaseAndResetAll_eq cfg hinflight hnot cfg.root
  have hframe := State.releaseAndResetAll_frame hrun
  unfold Session.partitionAll
  rw [hrun]
  refine ⟨_, rfl, ?_, rfl⟩
  constructor
  · refine hr.resident.frame hframe ?_ ?_ ?_
    · intro p hp
      rw [State.foldl_clearParam_status] at hp
      split_ifs at hp
      exact hp
    · intro p hp
      rw [hinflight] at hp
      cases hp
    · intro p hp
      exact absurd hp (hnot p)
  · intro p hp
    have hstatus := hp
    dsimp only at hstatus hp ⊢
    rw [State.foldl_clearParam_status] at hp
    split_ifs at hp
    rw [if_neg]
    · exact hr.whole p hp
    · rintro ⟨-, hpartitioned⟩
      rw [hstatus] at hpartitioned
      cases hpartitioned
  all_goals
    intro m hm
    cases hm

theorem Inv.reset (hr : r.Inv cfg t full) {step : Bool}
    (hreset : r.reset cfg t step = .ok r') : r'.Inv cfg t full := by
  obtain ⟨s, hrun, hrest⟩ := exists_of_bind hreset
  have hs := hr.retraced (State.resetStep_retraced hrun)
  dsimp only at hrest
  split_ifs at hrest
  · obtain ⟨r₁, hpartition, hr₁, -⟩ :=
      hs.partitionAll (State.resetStep_inflight hrun)
    rw [hpartition] at hrest
    obtain rfl := Except.ok.inj hrest
    exact hr₁
  · obtain rfl := Except.ok.inj hrest
    exact hs

theorem Safe.hook {x x' : Except Failure (Session α)} {h : Hook}
    (hx : Safe cfg t full x) (hpaired : Paired cfg x h)
    (hstep : Session.hook cfg t full x h = some x') : Safe cfg t full x' := by
  cases x with
  | error e => cases hstep
  | ok r =>
      have hr := hx r rfl
      intro r' hr'
      cases h with
      | pre m l => exact hr.pre ((Option.some.inj hstep).trans hr')
      | post m cpuFullParam =>
          obtain rfl := Except.ok.inj ((Option.some.inj hstep).trans hr')
          obtain ⟨hm, hcpu⟩ := hpaired m cpuFullParam rfl r rfl
          exact hr.release hm hcpu
      | reset step => exact hr.reset ((Option.some.inj hstep).trans hr')

end Session

end SmartNic.Offload
