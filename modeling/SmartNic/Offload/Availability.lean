import SmartNic.Offload.Residency

/-!
# Parameters of modules that are open

`fetch_sub_module` and `release_sub_module` of one coordinator in any order in
which a module is not fetched again before it is released, with whatever trace.
From its fetch to its release a module has all its parameters.
-/

namespace SmartNic.Offload

open Machine
open SmartNic.Partition (ZeroParamStatus)

/-! ## Releasing -/

namespace State

variable {cfg : Config} {t : Bool} {m : ModuleId} {s s' : State} {p q : ParamId}

/-- The body of the loop of `release_sub_module`. -/
def releaseStep (cfg : Config) (t : Bool) (m : ModuleId) (params : List ParamId)
    (s : State) (p : ParamId) : State :=
  let s :=
    { s with
      dsActiveSubModules :=
        Function.update s.dsActiveSubModules p ((s.dsActiveSubModules p).erase m) }
  if p ∈ params then s.releaseParam cfg t p else s

theorem releaseStep_active (params : List ParamId) (s : State) (p q : ParamId) :
    (releaseStep cfg t m params s p).dsActiveSubModules q =
      if q = p then (s.dsActiveSubModules q).erase m
      else s.dsActiveSubModules q := by
  have hupdate : Function.update s.dsActiveSubModules p
      ((s.dsActiveSubModules p).erase m) q =
      if q = p then (s.dsActiveSubModules q).erase m
      else s.dsActiveSubModules q := by
    by_cases hq : q = p
    · rw [hq, Function.update_self, if_pos rfl]
    · rw [Function.update_of_ne hq, if_neg hq]
  rw [← hupdate]
  unfold releaseStep releaseParam
  dsimp only
  split_ifs <;> rfl

theorem releaseStep_status (params : List ParamId) (s : State) (p q : ParamId) :
    (releaseStep cfg t m params s p).dsStatus q =
      if q = p ∧ p ∈ params ∧ s.dsStatus p = .available ∧
          (s.dsActiveSubModules p).erase m = ∅ then .notAvailable
      else s.dsStatus q := by
  unfold releaseStep releaseParam
  dsimp only
  by_cases hq : q = p
  · subst hq
    split_ifs <;> simp_all [setStatus, modifyCoordinator]
  · split_ifs <;> simp_all [setStatus, modifyCoordinator]

/-- The parameters that `release_sub_module` partitions. -/
def Partitions (cfg : Config) (t : Bool) (m : ModuleId) (s : State) (p : ParamId) :
    Prop :=
  p ∈ s.iterParams cfg m ∧ p ∈ s.releasable cfg t m ∧ s.dsStatus p = .available ∧
    (s.dsActiveSubModules p).erase m = ∅

instance (s : State) (p : ParamId) : Decidable (Partitions cfg t m s p) :=
  inferInstanceAs (Decidable (_ ∧ _))

theorem foldl_releaseStep (params l : List ParamId) (s : State) :
    (∀ q, (l.foldl (releaseStep cfg t m params) s).dsActiveSubModules q =
      if q ∈ l then (s.dsActiveSubModules q).erase m
      else s.dsActiveSubModules q) ∧
    ∀ q, (l.foldl (releaseStep cfg t m params) s).dsStatus q =
      if q ∈ l ∧ q ∈ params ∧ s.dsStatus q = .available ∧
          (s.dsActiveSubModules q).erase m = ∅ then .notAvailable
      else s.dsStatus q := by
  induction l generalizing s with
  | nil => simp
  | cons p l ih =>
      obtain ⟨hactive, hstatus⟩ := ih (releaseStep cfg t m params s p)
      constructor
      · intro q
        rw [List.foldl_cons, hactive, releaseStep_active]
        by_cases hq : q = p
        · simp [hq]
        · simp [hq]
      · intro q
        rw [List.foldl_cons, hstatus, releaseStep_active, releaseStep_status]
        by_cases hq : q = p
        · subst hq
          by_cases hcond : q ∈ params ∧ s.dsStatus q = .available ∧
              (s.dsActiveSubModules q).erase m = ∅
          · simp [hcond]
          · rw [if_pos rfl]
            simp [hcond]
        · simp [hq]

theorem releaseSubModule_active (s : State) (m : ModuleId) (q : ParamId) :
    (s.releaseSubModule cfg t m).dsActiveSubModules q =
      if q ∈ s.iterParams cfg m then (s.dsActiveSubModules q).erase m
      else s.dsActiveSubModules q :=
  (foldl_releaseStep _ _ s).1 q

theorem releaseSubModule_status (s : State) (m : ModuleId) (q : ParamId) :
    (s.releaseSubModule cfg t m).dsStatus q =
      if Partitions cfg t m s q then .notAvailable else s.dsStatus q :=
  (foldl_releaseStep _ _ s).2 q

variable (cfg) in
theorem releaseSubModule_kept (s : State) (m : ModuleId) :
    Kept t s (s.releaseSubModule cfg t m) := by
  refine Kept.foldl _ (fun s p _ => ?_) s
  have hactive : Kept t s
      { s with
        dsActiveSubModules :=
          Function.update s.dsActiveSubModules p
            ((s.dsActiveSubModules p).erase m) } := by
    constructor <;> rfl
  refine hactive.trans ?_
  dsimp only
  unfold releaseParam
  split_ifs
  · exact Kept.trans (by constructor <;> rfl) (Kept.modify _ fun c => rfl)
  · exact .refl _
  · exact .refl _

/-- A module without parameters in flight is released. -/
theorem Resident.releaseSubModule (hs : Resident t s)
    (hnot : ∀ p ∈ s.iterParams cfg m, p ∉ (s.coordinator t).inflight) :
    Resident t (s.releaseSubModule cfg t m) := by
  refine hs.frame (releaseSubModule_frame s) ?_ ?_ ?_
  · intro p hp
    rw [releaseSubModule_status] at hp
    split_ifs at hp
    exact hp
  · intro p hp havailable
    rw [releaseSubModule_status, if_neg]
    · exact havailable
    · intro hpart
      exact hnot p hpart.1 hp
  · intro p _ hp
    rw [(releaseSubModule_kept cfg (t := t) s m).cpuFullParam]
    exact hp

/-! ## `param.data` -/

section Data

variable {α : Type}

/-- What `wait` of a handle does to the `data` of the parameters.  `full` is what an
AllGather delivers; what a CPU copy delivers is taken to be the same, whether it is
right is the subject of `FullTransfer`. -/
def waitData (full : ParamId → α) (s : State) (handle : HandleId)
    (data : ParamId → Option α) : ParamId → Option α :=
  match s.handles[handle]? with
  | none => data
  | some h =>
      if h.kind ≠ .single ∧ handle ∈ s.complete then data
      else fun p => if p ∈ h.params then some (full p) else data p

/-- The `data` in the waiting loop of `fetch_sub_module`. -/
def waitParamsData (full : ParamId → α) (t : Bool) (m : ModuleId) :
    List ParamId → State → (ParamId → Option α) → ParamId → Option α
  | [], _, data => data
  | p :: params, s, data =>
      let data :=
        if p ∈ (s.coordinator t).inflight then
          s.waitData full ((s.coordinator t).handleOf p) data
        else data
      match s.waitParam t m p with
      | .error _ => data
      | .ok s => waitParamsData full t m params s data

/-- The `data` after `fetch_sub_module`. -/
def fetchData (full : ParamId → α) (cfg : Config) (t : Bool) (l : Local)
    (m : ModuleId) (s : State) (data : ParamId → Option α) : ParamId → Option α :=
  let params := (s.iterParams cfg m).toFinset
  match s.allGatherParams cfg t (l.gatherOrder.iterate params) with
  | .error _ => data
  | .ok s => waitParamsData full t m (l.waitOrder.iterate params) s data

/-- The `data` after `release_sub_module`, which frees what it partitions. -/
def releaseData (cfg : Config) (t : Bool) (m : ModuleId) (s : State)
    (data : ParamId → Option α) : ParamId → Option α :=
  fun p => if Partitions cfg t m s p then none else data p

/-- Available parameters have their full data. -/
def Whole (full : ParamId → α) (s : State) (data : ParamId → Option α) : Prop :=
  ∀ p, s.dsStatus p = .available → data p = some (full p)

variable {full : ParamId → α} {data : ParamId → Option α}

theorem waitData_eq (hs : Resident t s) (p : ParamId) :
    (if p ∈ (s.coordinator t).inflight then
      s.waitData full ((s.coordinator t).handleOf p) data else data) =
      fun q => if q ∈ s.arrivals t p then some (full q) else data q := by
  by_cases hp : p ∈ (s.coordinator t).inflight
  · obtain ⟨h, hget, -⟩ := hs.inv.exists_handle hp
    have hopen : openHandle t s p =
        if h.kind ≠ .single ∧ (s.coordinator t).handleOf p ∈ s.complete then none
        else some ((s.coordinator t).handleOf p, h) := by
      unfold openHandle
      rw [if_pos hp]
      dsimp only
      rw [hget]
    rw [if_pos hp, waitData, hget]
    dsimp only
    split_ifs at hopen ⊢ with hdone
    · simp [arrivals, hopen]
    · simp [arrivals, hopen]
  · rw [if_neg hp]
    simp [arrivals, openHandle, hp]

theorem Whole.wait (hwhole : Whole full s data) (p : ParamId) :
    Whole full (waited t m s p)
      fun q => if q ∈ s.arrivals t p then some (full q) else data q := by
  intro q hq
  rw [dsStatus_waited] at hq
  dsimp only
  split_ifs at hq ⊢ with hmem
  · rfl
  · exact hwhole q hq

theorem Whole.waits (hwhole : Whole full s data) (hs : Resident t s)
    {l : List ParamId} (hready : ∀ p ∈ l, s.dsStatus p ≠ .notAvailable)
    (hrun : l.foldlM (waitParam t m) s = .ok s') :
    Whole full s' (waitParamsData full t m l s data) := by
  induction l generalizing s data with
  | nil =>
      obtain rfl := Except.ok.inj hrun
      exact hwhole
  | cons p l ih =>
      obtain ⟨hwait, -⟩ := hs.waitParam_eq m (hready p List.mem_cons_self)
      rw [List.foldlM_cons, hwait] at hrun
      unfold waitParamsData
      dsimp only
      rw [hwait, waitData_eq hs]
      refine ih (hwhole.wait p) (hs.waited m p) ?_ hrun
      intro q hq
      rcases hs.status_waited m p q with heq | ⟨-, heq⟩
      · rw [heq]
        exact hready q (List.mem_cons_of_mem p hq)
      · rw [heq]
        decide

theorem Whole.demand (hwhole : Whole full s data) (hs : Resident t s) (l : Local)
    (hrun : s.demand cfg t l m = .ok s') :
    Whole full s' (fetchData full cfg t l m s data) := by
  have hnodup := l.gatherOrder.nodup (s.iterParams cfg m).toFinset
  have hstatus := hs.gathered_status cfg hnodup
  unfold State.demand at hrun
  unfold fetchData
  dsimp only at hrun ⊢
  rw [hs.allGatherParams_eq cfg hnodup] at hrun ⊢
  refine Whole.waits ?_ (hs.gathered cfg hnodup) ?_ hrun
  · intro p hp
    rw [hstatus] at hp
    split_ifs at hp
    exact hwhole p hp
  · intro p hp
    have hmem := (l.gatherOrder.mem_iterate _ p).mpr
      ((l.waitOrder.mem_iterate _ p).mp hp)
    rw [hstatus]
    split_ifs with hcond
    · decide
    · exact fun hnot => hcond ⟨hmem, hnot⟩

theorem Whole.release (hwhole : Whole full s data) :
    Whole full (s.releaseSubModule cfg t m) (releaseData cfg t m s data) := by
  intro p hp
  rw [releaseSubModule_status] at hp
  unfold releaseData
  split_ifs at hp ⊢
  exact hwhole p hp

end Data

end State

/-! ## Sequences of calls -/

/-- A call of the coordinator.  The post hooks set or drop the CPU copies of the
parameters of the module, and `trace_prologue`, `record_module` and `reset_step`
change what the coordinator has of the trace. -/
inductive Call where
  | fetch (m : ModuleId) (l : Local)
  | release (m : ModuleId) (cpuFullParam : Finset ParamId)
  | retrace (f : Coordinator → Coordinator)

/-- A rank between two calls with the modules that are open, the last one
first. -/
structure Session (α : Type) where
  state : State
  data : ParamId → Option α
  opened : List ModuleId
  events : ℕ

namespace Session

variable {α : Type} (cfg : Config) (t : Bool) (full : ParamId → α)

/-- `fetch_sub_module`. -/
def fetch (r : Session α) (m : ModuleId) (l : Local) :
    Except Failure (Session α) := do
  let (s, events) ← r.state.fetchSubModule cfg t l m r.events
  return {
    state := s
    data := r.state.fetchData full cfg t l m r.data
    opened := m :: r.opened
    events := events }

/-- `release_sub_module` with these CPU copies. -/
def release (r : Session α) (m : ModuleId) (cpuFullParam : Finset ParamId) :
    Session α :=
  let s := { r.state with cpuFullParam := cpuFullParam }
  { r with
    state := s.releaseSubModule cfg t m
    data := s.releaseData cfg t m r.data
    opened := r.opened.filter (· ≠ m) }

/-- A call, if it is properly nested and no exception was raised before. -/
def step : Except Failure (Session α) → Call → Option (Except Failure (Session α))
  | .error _, _ => none
  | .ok r, .fetch m l =>
      if m ∈ r.opened then none else some (r.fetch cfg t full m l)
  | .ok r, .release m cpuFullParam =>
      let params := (r.state.iterParams cfg m).toFinset
      if r.opened.head? = some m ∧
          cpuFullParam \ params = r.state.cpuFullParam \ params then
        some (.ok (r.release cfg t m cpuFullParam))
      else none
  | .ok r, .retrace f =>
      some (.ok { r with
        state := r.state.modifyCoordinator t fun c =>
          { f c with inflight := c.inflight, handleOf := c.handleOf } })

/-- Nothing is open or in flight, and available parameters have their data. -/
structure Start (r : Session α) : Prop where
  opened : r.opened = []
  inflight : ∀ t, (r.state.coordinator t).inflight = ∅
  status : ∀ p, r.state.dsStatus p ≠ .inflight
  handles : r.state.handles = []
  complete : r.state.complete = ∅
  whole : r.state.Whole full r.data

/-- The parameters of the open modules are available with their full data, and
the checks before the prefetching raise for no module, nor do those of the
prefetching if the trace agrees. -/
structure Served (r : Session α) : Prop where
  available : ∀ m ∈ r.opened, ∀ p ∈ r.state.iterParams cfg m,
    r.state.dsStatus p = .available ∧ r.data p = some (full p)
  demand : ∀ m ∉ r.opened, ∀ l, ∃ s, r.state.demand cfg t l m = .ok s ∧
    ∀ p ∈ r.state.iterParams cfg m, s.dsStatus p = .available
  fetch : ∀ m ∉ r.opened, ∀ l, r.state.TraceAgrees cfg t m →
    ∃ r', r.fetch cfg t full m l = .ok r'

/-- What keeps the parameters of the open modules. -/
structure Inv (r : Session α) : Prop where
  resident : r.state.Resident t
  whole : r.state.Whole full r.data
  available : ∀ m ∈ r.opened, ∀ p ∈ r.state.iterParams cfg m,
    r.state.dsStatus p = .available
  popped : ∀ m ∈ r.opened, ∀ p ∈ r.state.iterParams cfg m,
    p ∉ (r.state.coordinator t).inflight
  active : ∀ m ∈ r.opened, ∀ p ∈ r.state.iterParams cfg m,
    m ∈ r.state.dsActiveSubModules p

variable {cfg t full} {r r' : Session α}

theorem Start.inv (h : r.Start full) : r.Inv cfg t full := by
  have hnone : ∀ t' p, State.openHandle t' r.state p = none := by
    intro t' p
    unfold State.openHandle
    rw [if_neg]
    rw [h.inflight t']
    exact Finset.notMem_empty p
  refine ⟨⟨⟨?_, ?_, ?_, ?_, ?_, ?_, ?_⟩, ?_, ?_, ?_⟩, h.whole, ?_, ?_, ?_⟩
  · intro t' p hp
    rw [h.inflight t'] at hp
    cases hp
  · intro i hi
    rw [h.complete] at hi
    cases hi
  · intro x hx
    rw [h.handles] at hx
    cases hx
  · intro x hx
    rw [h.handles] at hx
    cases hx
  · intro t' p i x hopen
    cases (hnone t' p).symm.trans hopen
  · intro t' p i x hopen
    cases (hnone t' p).symm.trans hopen
  · intro t₁ t₂ p x y hopen
    cases (hnone t₁ p).symm.trans hopen
  · intro p hp
    exact absurd hp (h.status p)
  · intro p hp
    rw [h.inflight t] at hp
    cases hp
  · intro p i x hopen
    cases (hnone t p).symm.trans hopen
  all_goals
    intro m hm
    rw [h.opened] at hm
    cases hm

/-- The state after `fetch_sub_module`. -/
theorem fetch_cases (hr : r.Inv cfg t full) (m : ModuleId) (l : Local) :
    ∃ s₁, r.state.demand cfg t l m = .ok s₁ ∧ s₁.Resident t ∧
      State.Demanded cfg t m r.state s₁ ∧
      ((r.state.TraceAgrees cfg t m → ∃ r', r.fetch cfg t full m l = .ok r') ∧
      ∀ r', r.fetch cfg t full m l = .ok r' → r.state.TraceAgrees cfg t m ∧
        r'.state = (State.prefetched cfg t l.prefetchOrder s₁
          (r.state.iterParams cfg m).toFinset).modifyCoordinator t
            (fun c => { c with stepId := c.stepId + 1 }) ∧
        r'.data = r.state.fetchData full cfg t l m r.data ∧
        r'.opened = m :: r.opened) := by
  obtain ⟨s₁, hrun, hresident, hd⟩ := hr.resident.demand cfg l m
  have hcode := State.fetchSubModule_demand cfg (t := t) (m := m) l
    r.state r.events
  rw [hrun] at hcode
  change _ = (s₁.prefetch cfg t l.prefetchOrder _ >>= _) at hcode
  refine ⟨s₁, hrun, hresident, hd, ?_, ?_⟩
  · intro hagrees
    rw [hresident.prefetch_eq _ _ (hd.kept.traceAgrees_iff.mp hagrees)] at hcode
    unfold fetch
    cases hsub : r.state.fetchSubModule cfg t l m r.events with
    | error e =>
        rw [hsub] at hcode
        cases hcode
    | ok x => exact ⟨_, rfl⟩
  · intro r' hfetch
    obtain ⟨⟨s', events⟩, hsub, hrest⟩ := exists_of_bind hfetch
    obtain rfl := Except.ok.inj hrest
    rw [hsub] at hcode
    have hagrees : r.state.TraceAgrees cfg t m := by
      rw [hd.kept.traceAgrees_iff]
      intro hmode
      by_contra hdiffers
      rw [State.prefetch_error _ _ _ hmode hdiffers] at hcode
      cases hcode
    rw [hresident.prefetch_eq _ _ (hd.kept.traceAgrees_iff.mp hagrees)] at hcode
    exact ⟨hagrees, Except.ok.inj hcode, rfl, rfl⟩

theorem Inv.fetch (hr : r.Inv cfg t full) {m : ModuleId} {l : Local}
    (hfetch : r.fetch cfg t full m l = .ok r') :
    r'.Inv cfg t full := by
  obtain ⟨s₁, hrun, hresident, hd, -, hcases⟩ := fetch_cases hr m l
  obtain ⟨-, hstate, hdata, hopened⟩ := hcases r' hfetch
  have hprefetched := hresident.prefetched cfg l.prefetchOrder
    (r.state.iterParams cfg m).toFinset
  obtain ⟨hresident₂, hp⟩ := hprefetched
  generalize State.prefetched cfg t l.prefetchOrder s₁
    (r.state.iterParams cfg m).toFinset = s₂ at hstate hresident₂ hp
  have hframe := State.Frame.modify (s := s₂) (t := t)
    (fun c => { c with stepId := c.stepId + 1 }) rfl rfl
  have hparams : ∀ m', r'.state.iterParams cfg m' = r.state.iterParams cfg m' := by
    intro m'
    have hexternal : r'.state.externalParams = r.state.externalParams := by
      rw [hstate]
      exact hp.externalParams.trans hd.kept.externalParams
    unfold State.iterParams
    rw [hexternal]
  have hstatus : ∀ p, r'.state.dsStatus p = s₂.dsStatus p := by
    intro p
    rw [hstate]
    rfl
  have hinflight : ∀ p, p ∈ (r'.state.coordinator t).inflight →
      p ∈ (s₂.coordinator t).inflight := by
    intro p hin
    rw [hstate] at hin
    rwa [hframe.inflight] at hin
  have hactive : r'.state.dsActiveSubModules = s₁.dsActiveSubModules := by
    rw [hstate]
    exact hp.active
  have hstays : ∀ p, s₁.dsStatus p = .available →
      r'.state.dsStatus p = .available := by
    intro p hold
    rw [hstatus]
    rcases hp.status p with heq | ⟨hnot, -⟩
    · exact heq.trans hold
    · rw [hold] at hnot
      cases hnot
  have hout : ∀ p, s₁.dsStatus p = .available →
      p ∉ (s₁.coordinator t).inflight → p ∉ (r'.state.coordinator t).inflight := by
    intro p hold hnot hin
    rcases hp.inflight p (hinflight p hin) with hin | hstatus
    · exact hnot hin
    · rw [hold] at hstatus
      cases hstatus
  refine ⟨?_, ?_, ?_, ?_, ?_⟩
  · rw [hstate]
    exact hresident₂.frame hframe (fun _ h => h) (fun _ _ h => h)
      (fun _ _ h => h)
  · intro p havailable
    rw [hdata]
    refine hr.whole.demand hr.resident l hrun p ?_
    rw [hstatus] at havailable
    rcases hp.status p with heq | ⟨-, heq⟩
    · rwa [heq] at havailable
    · rw [heq] at havailable
      cases havailable
  · intro m' hm' p hmem
    rw [hopened] at hm'
    rw [hparams] at hmem
    rcases List.mem_cons.mp hm' with rfl | hm'
    · exact hstays p (hd.available p hmem)
    · exact hstays p (hd.stays p (hr.available m' hm' p hmem))
  · intro m' hm' p hmem
    rw [hopened] at hm'
    rw [hparams] at hmem
    rcases List.mem_cons.mp hm' with rfl | hm'
    · exact hout p (hd.available p hmem) fun hin => ((hd.inflight p).mp hin).2 hmem
    · refine hout p (hd.stays p (hr.available m' hm' p hmem)) ?_
      exact fun hin => hr.popped m' hm' p hmem ((hd.inflight p).mp hin).1
  · intro m' hm' p hmem
    rw [hopened] at hm'
    rw [hparams] at hmem
    rw [hactive, hd.active]
    rcases List.mem_cons.mp hm' with rfl | hm'
    · rw [if_pos hmem]
      exact Finset.mem_insert_self _ _
    · have hold := hr.active m' hm' p hmem
      split_ifs
      · exact Finset.mem_insert_of_mem hold
      · exact hold

theorem Inv.release (hr : r.Inv cfg t full) {m : ModuleId}
    {cpuFullParam : Finset ParamId} (hm : m ∈ r.opened)
    (hcpu : cpuFullParam \ (r.state.iterParams cfg m).toFinset =
      r.state.cpuFullParam \ (r.state.iterParams cfg m).toFinset) :
    (r.release cfg t m cpuFullParam).Inv cfg t full := by
  set s := { r.state with cpuFullParam := cpuFullParam } with hs
  have hresident : s.Resident t := by
    refine hr.resident.frame (.of_same rfl rfl rfl rfl) (fun _ h => h)
      (fun _ _ h => h) ?_
    intro p hp hin
    have hnot : p ∉ (r.state.iterParams cfg m).toFinset := by
      intro hmem
      rw [hr.available m hm p (List.mem_toFinset.mp hmem)] at hp
      cases hp
    have hmem := Finset.mem_sdiff.mpr ⟨hin, hnot⟩
    rw [← hcpu] at hmem
    exact (Finset.mem_sdiff.mp hmem).1
  have hkept := State.releaseSubModule_kept cfg (t := t) s m
  have hparams : ∀ m', (s.releaseSubModule cfg t m).iterParams cfg m' =
      r.state.iterParams cfg m' := fun m' => hkept.iterParams m'
  have hframe : State.Frame s (s.releaseSubModule cfg t m) :=
    State.releaseSubModule_frame s
  have hactive : ∀ m' ∈ r.opened.filter (· ≠ m), ∀ p ∈ r.state.iterParams cfg m',
      m' ∈ (s.dsActiveSubModules p).erase m := by
    intro m' hm' p hmem
    obtain ⟨hm', hne⟩ := List.mem_filter.mp hm'
    exact Finset.mem_erase.mpr ⟨of_decide_eq_true hne, hr.active m' hm' p hmem⟩
  refine ⟨?_, ?_, ?_, ?_, ?_⟩
  · exact hresident.releaseSubModule (hr.popped m hm)
  · exact State.Whole.release (s := s) hr.whole
  · intro m' hm' p hmem
    change p ∈ (s.releaseSubModule cfg t m).iterParams cfg m' at hmem
    rw [hparams] at hmem
    change (s.releaseSubModule cfg t m).dsStatus p = .available
    rw [State.releaseSubModule_status, if_neg]
    · exact hr.available m' (List.mem_of_mem_filter hm') p hmem
    · intro hpart
      have hin := hactive m' hm' p hmem
      rw [hpart.2.2.2] at hin
      cases hin
  · intro m' hm' p hmem
    change p ∈ (s.releaseSubModule cfg t m).iterParams cfg m' at hmem
    rw [hparams] at hmem
    change p ∉ ((s.releaseSubModule cfg t m).coordinator t).inflight
    rw [hframe.inflight]
    exact hr.popped m' (List.mem_of_mem_filter hm') p hmem
  · intro m' hm' p hmem
    change p ∈ (s.releaseSubModule cfg t m).iterParams cfg m' at hmem
    rw [hparams] at hmem
    change m' ∈ (s.releaseSubModule cfg t m).dsActiveSubModules p
    rw [State.releaseSubModule_active]
    have hin := hactive m' hm' p hmem
    split_ifs
    · exact hin
    · exact Finset.mem_of_mem_erase hin

theorem Inv.retrace (hr : r.Inv cfg t full) (f : Coordinator → Coordinator) :
    { r with
      state := r.state.modifyCoordinator t fun c =>
        { f c with inflight := c.inflight, handleOf := c.handleOf } }.Inv
      cfg t full := by
  have hframe := State.Frame.modify (s := r.state) (t := t)
    (fun c => { f c with inflight := c.inflight, handleOf := c.handleOf }) rfl rfl
  refine { hr with resident := ?_, popped := ?_ }
  · exact hr.resident.frame hframe (fun _ h => h) (fun _ _ h => h)
      (fun _ _ h => h)
  · intro m hm p hmem
    have hout := hr.popped m hm p hmem
    rw [← hframe.inflight] at hout
    exact hout

/-- The invariant of the states without an exception. -/
def Safe (cfg : Config) (t : Bool) (full : ParamId → α)
    (x : Except Failure (Session α)) : Prop :=
  ∀ r, x = .ok r → r.Inv cfg t full

theorem Safe.step {x x' : Except Failure (Session α)} {call : Call}
    (h : Safe cfg t full x) (hstep : Session.step cfg t full x call = some x') :
    Safe cfg t full x' := by
  cases x with
  | error e => cases hstep
  | ok r =>
      have hr := h r rfl
      cases call with
      | fetch m l =>
          simp only [Session.step] at hstep
          split_ifs at hstep with hm
          intro r' hr'
          exact hr.fetch ((Option.some.inj hstep).trans hr')
      | release m cpuFullParam =>
          simp only [Session.step] at hstep
          split_ifs at hstep with hm
          obtain rfl := Option.some.inj hstep
          intro r' hr'
          obtain rfl := Except.ok.inj hr'
          exact hr.release (List.mem_of_mem_head? hm.1) hm.2
      | retrace f =>
          obtain rfl := Option.some.inj hstep
          intro r' hr'
          obtain rfl := Except.ok.inj hr'
          exact hr.retrace f

theorem Inv.served (hr : r.Inv cfg t full) : r.Served cfg t full := by
  constructor
  · intro m hm p hp
    have havailable := hr.available m hm p hp
    exact ⟨havailable, hr.whole p havailable⟩
  · intro m _ l
    obtain ⟨s₁, hrun, -, hd⟩ := hr.resident.demand cfg l m
    exact ⟨s₁, hrun, hd.available⟩
  · intro m _ l hagrees
    obtain ⟨s₁, -, -, -, hfetch, -⟩ := fetch_cases hr m l
    exact hfetch hagrees

end Session

/-- In every sequence of calls in which a module is not fetched again before it
is released, the parameters of the open modules are available and none of the
checks raises. -/
theorem parameters_resident {α : Type} (cfg : Config) (t : Bool)
    (full : ParamId → α) {r : Session α} (h : r.Start full) (calls : List Call) :
    AllStates (Session.step cfg t full)
      (fun x => ∀ r, x = .ok r → r.Served cfg t full) (.ok r) calls := by
  have hsafe : Session.Safe cfg t full (.ok r) := by
    intro r' hr'
    obtain rfl := Except.ok.inj hr'
    exact h.inv
  refine (AllSteps.of_true _ calls).allStates (I := Session.Safe cfg t full) ?_ ?_
    hsafe
  · intro x call x' _ hstep hx
    exact hx.step hstep
  · intro x hx r' hr'
    exact (hx r' hr').served

/-- Two modules with a parameter in common, and nothing gathered yet. -/
def freshSession : Session ℕ where
  state := .init twoModules
  data _ := none
  opened := []
  events := 0

theorem freshSession_start : freshSession.Start id where
  opened := rfl
  inflight _ := rfl
  status _ := ZeroParamStatus.noConfusion
  handles := rfl
  complete := rfl
  whole _ hp := ZeroParamStatus.noConfusion hp

/-- The second module inside the first. -/
def nestedCalls : List Call :=
  [.fetch 1 (evenUp 0), .fetch 2 (evenUp 1), .release 2 ∅, .release 1 ∅]

theorem parameters_resident_nested :
    (run (Session.step twoModules true id) (.ok freshSession) nestedCalls).map
        (fun x => x.toOption.map Session.opened) = some (some []) ∧
      AllStates (Session.step twoModules true id)
        (fun x => ∀ r, x = .ok r → r.Served twoModules true id)
        (.ok freshSession) nestedCalls :=
  ⟨by decide +kernel,
    parameters_resident twoModules true id freshSession_start nestedCalls⟩

end SmartNic.Offload
