import SmartNic.Library.Machine
import SmartNic.Offload.CollectiveOrder

/-!
# The count of available parameters

`__n_available_params` against the parameters that are not partitioned, in every
sequence of calls of a coordinator.
-/

namespace SmartNic.Offload

open Machine
open SmartNic.Partition (ZeroParamStatus)

namespace State

variable {cfg : Config} {t : Bool} {m : ModuleId} {s s' : State} {p : ParamId}

/-- The count is the elements of the parameters that are not `NOT_AVAILABLE`. -/
def Counted (cfg : Config) (t : Bool) (s : State) : Prop :=
  ∃ resident : Finset ParamId,
    (∀ p, p ∈ resident ↔ s.dsStatus p ≠ .notAvailable) ∧
      (s.coordinator t).nAvailableParams = (∑ p ∈ resident, cfg.dsNumel p : ℕ)

theorem Counted.congr (h : Counted cfg t s)
    (hcount : (s'.coordinator t).nAvailableParams = (s.coordinator t).nAvailableParams)
    (hstatus : ∀ p, s'.dsStatus p = .notAvailable ↔ s.dsStatus p = .notAvailable) :
    Counted cfg t s' := by
  obtain ⟨resident, hmem, hsum⟩ := h
  refine ⟨resident, ?_, hcount.trans hsum⟩
  intro p
  rw [hmem, ne_eq, ne_eq, hstatus]

/-- Parameters are gathered. -/
theorem Counted.add (h : Counted cfg t s) {xs : List ParamId} (hxs : xs.Nodup)
    (hbefore : ∀ p ∈ xs, s.dsStatus p = .notAvailable)
    (hcount : (s'.coordinator t).nAvailableParams =
      (s.coordinator t).nAvailableParams + ((xs.map cfg.dsNumel).sum : ℕ))
    (hstatus : ∀ p, s'.dsStatus p ≠ .notAvailable ↔
      p ∈ xs ∨ s.dsStatus p ≠ .notAvailable) : Counted cfg t s' := by
  obtain ⟨resident, hmem, hsum⟩ := h
  have hdisjoint : Disjoint xs.toFinset resident := by
    rw [Finset.disjoint_left]
    intro p hp
    rw [hmem, not_not]
    exact hbefore p (List.mem_toFinset.mp hp)
  refine ⟨xs.toFinset ∪ resident, ?_, ?_⟩
  · intro p
    rw [Finset.mem_union, List.mem_toFinset, hmem, hstatus]
  · rw [hcount, hsum, Finset.sum_union hdisjoint, List.sum_toFinset _ hxs]
    push_cast
    exact Int.add_comm _ _

/-- A parameter is partitioned. -/
theorem Counted.remove (h : Counted cfg t s) (hp : s.dsStatus p ≠ .notAvailable)
    (hcount : (s'.coordinator t).nAvailableParams =
      (s.coordinator t).nAvailableParams - cfg.dsNumel p)
    (hself : s'.dsStatus p = .notAvailable)
    (hother : ∀ q, q ≠ p → s'.dsStatus q = s.dsStatus q) : Counted cfg t s' := by
  obtain ⟨resident, hmem, hsum⟩ := h
  refine ⟨resident.erase p, ?_, ?_⟩
  · intro q
    rw [Finset.mem_erase, hmem]
    by_cases hq : q = p
    · subst hq
      simp [hself]
    · rw [hother q hq]
      exact and_iff_right hq
  · have hsplit := Finset.add_sum_erase resident cfg.dsNumel ((hmem p).mpr hp)
    rw [hcount, hsum, ← hsplit]
    push_cast
    omega

theorem Counted.nonneg (h : Counted cfg t s) :
    0 ≤ (s.coordinator t).nAvailableParams := by
  obtain ⟨resident, -, hsum⟩ := h
  rw [hsum]
  exact Int.natCast_nonneg _

/-! ## Fetching -/

/-- The loops of `__all_gather_params` leave the count. -/
theorem gatherLoops_count {xs : List ParamId}
    (hrun : (do
      let s ← xs.foldlM markInflight s
      xs.foldlM (register t s.handles.length) (s.request cfg xs)) = .ok s') :
    (s'.coordinator t).nAvailableParams = (s.coordinator t).nAvailableParams := by
  obtain ⟨s₁, hmark, hregister⟩ := exists_of_bind hrun
  have hmarked : (s₁.coordinator t).nAvailableParams =
      (s.coordinator t).nAvailableParams := by
    refine foldlM_rel (R := fun s s' => (s'.coordinator t).nAvailableParams =
      (s.coordinator t).nAvailableParams) (fun _ => rfl) ?_ ?_ hmark
    · intro s₁ s₂ s₃ h h'
      exact h'.trans h
    · intro s p s' hstep
      unfold markInflight at hstep
      split_ifs at hstep
      · obtain rfl := Except.ok.inj hstep
        rfl
      · cases hstep
  have hrequest : ((s₁.request cfg xs).coordinator t).nAvailableParams =
      (s₁.coordinator t).nAvailableParams := by
    unfold request
    dsimp only
    split_ifs <;> rfl
  have hregistered : (s'.coordinator t).nAvailableParams =
      ((s₁.request cfg xs).coordinator t).nAvailableParams := by
    refine foldlM_rel (R := fun s s' => (s'.coordinator t).nAvailableParams =
      (s.coordinator t).nAvailableParams) (fun _ => rfl) ?_ ?_ hregister
    · intro s₁ s₂ s₃ h h'
      exact h'.trans h
    · intro s p s' hstep
      unfold register at hstep
      split_ifs at hstep
      · cases hstep
      · cases hstep
      · obtain rfl := Except.ok.inj hstep
        rw [coordinator_modify]
  exact hregistered.trans (hrequest.trans hmarked)

theorem Counted.allGatherParams (h : Counted cfg t s) {l : List ParamId} (hl : l.Nodup)
    (hrun : s.allGatherParams cfg t l = .ok s') : Counted cfg t s' := by
  unfold State.allGatherParams at hrun
  dsimp only at hrun
  have hbefore : ∀ p ∈ l.filter (s.dsStatus · = .notAvailable),
      s.dsStatus p = .notAvailable := by
    intro p hp
    exact of_decide_eq_true (List.mem_filter.mp hp).2
  have hnodup := hl.filter (s.dsStatus · = .notAvailable)
  generalize l.filter (s.dsStatus · = .notAvailable) = xs at hrun hbefore hnodup
  split_ifs at hrun with hnil
  · obtain rfl := Except.ok.inj hrun
    subst hnil
    apply h.congr
    · rw [coordinator_modify]
      simp
    · exact fun p => Iff.rfl
  · obtain ⟨handle, hgathered⟩ := gathered_of_run hrun hnodup hbefore
    apply h.add hnodup hbefore
    · rw [gatherLoops_count hrun, coordinator_modify]
    · intro p
      rw [hgathered.status]
      split_ifs with hp
      · simp [hp]
      · simp [hp]

theorem Counted.waitParam (h : Counted cfg t s) (hinv : Inv s)
    (hrun : s.waitParam t m p = .ok s') : Counted cfg t s' ∧ Inv s' := by
  rcases hinv.waitParam_cases t m p with ⟨-, hcode⟩ | ⟨-, e, herror, -⟩
  · rw [hcode] at hrun
    split_ifs at hrun
    · obtain rfl := Except.ok.inj hrun
      refine ⟨?_, hinv.wait⟩
      apply h.congr
      · rw [coordinator_waited]
      · intro q
        rw [dsStatus_waited]
        split_ifs with hq
        · have hinflight : s.dsStatus q = .inflight := by
            unfold arrivals at hq
            split at hq
            · cases hq
            · rename_i i handle hopen
              exact (hinv.others t p i handle hopen q hq).2
          simp [hinflight]
        · rfl
    · cases hrun
  · rw [herror] at hrun
    cases hrun

theorem Counted.waits (h : Counted cfg t s) (hinv : Inv s) {l : List ParamId}
    (hrun : l.foldlM (State.waitParam t m) s = .ok s') : Counted cfg t s' ∧ Inv s' := by
  induction l generalizing s with
  | nil =>
      obtain rfl := Except.ok.inj hrun
      exact ⟨h, hinv⟩
  | cons p l ih =>
      rw [List.foldlM_cons] at hrun
      obtain ⟨s₁, hwait, hrest⟩ := exists_of_bind hrun
      obtain ⟨h₁, hinv₁⟩ := h.waitParam hinv hwait
      exact ih h₁ hinv₁ hrest

theorem Counted.modify (h : Counted cfg t s) (f : Coordinator → Coordinator)
    (hf : ∀ c, (f c).nAvailableParams = c.nAvailableParams) :
    Counted cfg t (s.modifyCoordinator t f) := by
  apply h.congr
  · rw [coordinator_modify, hf]
  · exact fun p => Iff.rfl

theorem Counted.prefetch (h : Counted cfg t s) {order : SetOrder}
    {params : Finset ParamId} (hrun : s.prefetch cfg t order params = .ok s') :
    Counted cfg t s' := by
  unfold State.prefetch at hrun
  dsimp only at hrun
  split_ifs at hrun
  · obtain rfl := Except.ok.inj hrun
    exact h
  · cases hrun
  · refine Counted.allGatherParams ?_ (order.nodup _) hrun
    exact h.modify _ fun c => rfl
  · obtain rfl := Except.ok.inj hrun
    exact h.modify _ fun c => rfl

theorem Counted.fetchSubModule (h : Counted cfg t s) (hinv : Inv s) {l : Local}
    {events events' : ℕ}
    (hrun : s.fetchSubModule cfg t l m events = .ok (s', events')) :
    Counted cfg t s' := by
  have hfst := congrArg (Except.map Prod.fst) hrun
  rw [fetchSubModule_fst] at hfst
  obtain ⟨s₁, hgather, hrest⟩ := exists_of_bind hfst
  obtain ⟨s₂, hwaits, hrest⟩ := exists_of_bind hrest
  obtain ⟨s₃, hprefetch, hrest⟩ := exists_of_bind hrest
  obtain rfl := Except.ok.inj hrest
  have h₁ := h.allGatherParams (l.gatherOrder.nodup _) hgather
  have hinv₁ := hinv.allGatherParams (l.gatherOrder.nodup _) hgather
  obtain ⟨h₂, -⟩ := h₁.waits hinv₁ hwaits
  exact (h₂.prefetch hprefetch).modify _ fun c => rfl

/-! ## Releasing -/

theorem Counted.releaseParam (h : Counted cfg t s) (p : ParamId) :
    Counted cfg t (s.releaseParam cfg t p) := by
  unfold State.releaseParam
  split_ifs with hp
  · apply h.remove (p := p)
    · rw [hp.1]
      exact ZeroParamStatus.noConfusion
    · rw [coordinator_modify]
      rfl
    · exact setStatus_self p _
    · intro q hq
      exact setStatus_of_ne p _ hq
  · exact h

theorem Counted.releaseSubModule (h : Counted cfg t s) (m : ModuleId) :
    Counted cfg t (s.releaseSubModule cfg t m) := by
  unfold State.releaseSubModule
  refine List.foldlRecOn _ _ h ?_
  intro s hs p _
  dsimp only
  have hinactive : Counted cfg t
      { s with
        dsActiveSubModules :=
          Function.update s.dsActiveSubModules p ((s.dsActiveSubModules p).erase m) } :=
    hs.congr rfl fun _ => Iff.rfl
  split_ifs
  · exact hinactive.releaseParam p
  · exact hinactive

theorem Counted.releaseAndResetAll (h : Counted cfg t s)
    (hrun : s.releaseAndResetAll cfg t m = .ok s') : Counted cfg t s' := by
  obtain ⟨s₁, hfold, hrest⟩ := exists_of_bind hrun
  have h₁ : Counted cfg t s₁ := by
    refine foldlM_rel (R := fun s s' => Counted cfg t s → Counted cfg t s')
      (fun _ hs => hs) ?_ ?_ hfold h
    · intro s₁ s₂ s₃ h h' hs
      exact h' (h hs)
    · intro s p s' hstep hs
      split_ifs at hstep
      · cases hstep
      · obtain rfl := Except.ok.inj hstep
        have hcleared : Counted cfg t
            { s with
              dsActiveSubModules := Function.update s.dsActiveSubModules p ∅ } :=
          hs.congr rfl fun _ => Iff.rfl
        exact (hcleared.releaseParam p).congr rfl fun _ => Iff.rfl
  split_ifs at hrest
  · obtain rfl := Except.ok.inj hrest
    exact h₁
  · cases hrest

/-! ## Resets -/

theorem recordAll_status {modules : List ModuleId}
    (hrun : modules.foldlM (recordParameters cfg t) s = .ok s') :
    s'.dsStatus = s.dsStatus := by
  refine foldlM_rel (R := fun s s' => s'.dsStatus = s.dsStatus) (fun _ => rfl) ?_ ?_ hrun
  · intro s₁ s₂ s₃ h h'
    exact h'.trans h
  · intro s m s' hstep
    unfold recordParameters at hstep
    split at hstep
    · cases hstep
    · obtain rfl := Except.ok.inj hstep
      rfl

/-- A reset sets the count to zero and leaves the parameters as they are. -/
theorem resetStep_spec {rank0 : Option Coordinator}
    (hrun : s.resetStep cfg t rank0 = .ok s') :
    (s'.coordinator t).nAvailableParams = 0 ∧ s'.dsStatus = s.dsStatus := by
  have hrestart : ∀ s : State, ((s.restart t).coordinator t).nAvailableParams = 0 := by
    intro s
    unfold restart
    rw [coordinator_modify]
  unfold resetStep at hrun
  dsimp only at hrun
  split_ifs at hrun
  · cases hrun
  · obtain rfl := Except.ok.inj hrun
    exact ⟨hrestart _, rfl⟩
  · cases hrun
  · obtain ⟨s₁, hrecorded, hrest⟩ := exists_of_bind hrun
    obtain rfl := Except.ok.inj hrest
    have hstatus := recordAll_status hrecorded
    exact ⟨hrestart _, hstatus⟩
  · obtain rfl := Except.ok.inj hrun
    exact ⟨hrestart _, rfl⟩

/-! ## Limits -/

theorem collectPrefetch_limit {limit : ℤ} (hlimit : limit ≤ 0)
    (queue : List ParamInTrace) (recent : ParamId → ℤ) (params : Finset ParamId) :
    (collectPrefetch cfg s limit queue recent params 0).2.2 = params := by
  cases queue with
  | nil => rfl
  | cons x queue =>
      rw [collectPrefetch, if_neg]
      push_cast
      exact not_lt.mpr hlimit

/-- A prefetch opens a handle only while the count is below the maximum. -/
theorem prefetch_below_max {order : SetOrder} {params : Finset ParamId}
    (hrun : s.prefetch cfg t order params = .ok s') (hstarted : s'.handles ≠ s.handles) :
    (s.coordinator t).nAvailableParams < cfg.maxNAvailableParams := by
  by_contra hmax
  apply hstarted
  have hlimit : min (cfg.maxNAvailableParams - (s.coordinator t).nAvailableParams)
      cfg.prefetchBucketSz ≤ 0 := by
    have hleft := min_le_left (cfg.maxNAvailableParams -
      (s.coordinator t).nAvailableParams) cfg.prefetchBucketSz
    omega
  unfold State.prefetch at hrun
  dsimp only at hrun
  split_ifs at hrun
  · obtain rfl := Except.ok.inj hrun
    rfl
  · cases hrun
  · have hnone : order.iterate ∅ = [] := by
      rw [List.eq_nil_iff_forall_not_mem]
      intro p hp
      exact Finset.notMem_empty p ((order.mem_iterate ∅ p).mp hp)
    rw [collectPrefetch_limit hlimit, hnone] at hrun
    obtain rfl := Except.ok.inj hrun
    rfl
  · obtain rfl := Except.ok.inj hrun
    rfl

end State

/-! ## Sequences of calls -/

/-- The calls of a coordinator; what it prefetches it does while it fetches. -/
inductive CoordinatorCall where
  | tracePrologue (m : ModuleId)
  | recordModule (m : ModuleId)
  | fetchSubModule (m : ModuleId) (l : Local)
  | releaseSubModule (m : ModuleId)
  | releaseAndResetAll (m : ModuleId)
  | resetStep (rank0 : Option Coordinator)

namespace State

/-- A call, unless it raises. -/
def call (cfg : Config) (t : Bool) (s : State) : CoordinatorCall → Option State
  | .tracePrologue m => (s.tracePrologue t m).toOption
  | .recordModule m => some (s.recordModule t m)
  | .fetchSubModule m l => ((s.fetchSubModule cfg t l m 0).map Prod.fst).toOption
  | .releaseSubModule m => some (s.releaseSubModule cfg t m)
  | .releaseAndResetAll m => (s.releaseAndResetAll cfg t m).toOption
  | .resetStep rank0 => (s.resetStep cfg t rank0).toOption

/-- The count is right and is not negative. -/
structure Accounted (cfg : Config) (t : Bool) (s : State) : Prop where
  counted : Counted cfg t s
  nonneg : 0 ≤ (s.coordinator t).nAvailableParams

/-- A reset finds no parameter with elements that is not partitioned. -/
def ResetsReleased (cfg : Config) (t : Bool) (s : State) : CoordinatorCall → Prop
  | .resetStep rank0 => (s.resetStep cfg t rank0).toOption.isSome →
      ∀ p, s.dsStatus p ≠ .notAvailable → cfg.dsNumel p = 0
  | _ => True

/-- Nothing is gathered; parameters may have been registered as external. -/
def start (cfg : Config) (external : ModuleId → List ParamId)
    (isExternal : Finset ParamId) : State :=
  { State.init cfg with externalParams := external, isExternalParam := isExternal }

variable {cfg : Config} {t : Bool} {s s' : State}

theorem ok_of_toOption {α : Type} {r : Except Failure α} {x : α}
    (h : r.toOption = some x) : r = .ok x := by
  cases r with
  | error e => cases h
  | ok y => exact congrArg _ (Option.some.inj h)

/-- A call keeps the registry consistent, and the count right if a reset finds
nothing. -/
theorem Counted.call (h : Counted cfg t s) (hinv : Inv s) {c : CoordinatorCall}
    (hreset : ResetsReleased cfg t s c) (hstep : s.call cfg t c = some s') :
    Counted cfg t s' ∧ Inv s' := by
  cases c with
  | tracePrologue m =>
      have hrun := ok_of_toOption hstep
      refine ⟨?_, (tracePrologue_frame hrun).inv hinv⟩
      unfold State.tracePrologue at hrun
      dsimp only at hrun
      split_ifs at hrun
      · split at hrun
        · cases hrun
        · split_ifs at hrun
          · obtain rfl := Except.ok.inj hrun
            exact h
          · obtain rfl := Except.ok.inj hrun
            exact h.modify _ fun c => rfl
      · obtain rfl := Except.ok.inj hrun
        exact h
  | recordModule m =>
      obtain rfl := Option.some.inj hstep
      refine ⟨?_, (recordModule_frame s).inv hinv⟩
      unfold State.recordModule
      split_ifs
      · exact h.modify _ fun c => rfl
      · exact h
  | fetchSubModule m l =>
      have hfst := ok_of_toOption hstep
      cases hrun : s.fetchSubModule cfg t l m 0 with
      | error e =>
          rw [hrun] at hfst
          cases hfst
      | ok r =>
          rw [hrun] at hfst
          obtain rfl := Except.ok.inj hfst
          exact ⟨h.fetchSubModule hinv hrun, fetchSubModule_inv hinv hrun⟩
  | releaseSubModule m =>
      obtain rfl := Option.some.inj hstep
      exact ⟨h.releaseSubModule m, (releaseSubModule_frame s).inv hinv⟩
  | releaseAndResetAll m =>
      have hrun := ok_of_toOption hstep
      exact ⟨h.releaseAndResetAll hrun, (releaseAndResetAll_frame hrun).inv hinv⟩
  | resetStep rank0 =>
      have hrun := ok_of_toOption hstep
      refine ⟨?_, (resetStep_frame hrun).inv hinv⟩
      obtain ⟨hcount, hstatus⟩ := resetStep_spec hrun
      obtain ⟨resident, hmem, -⟩ := h
      refine ⟨resident, ?_, ?_⟩
      · intro p
        rw [hstatus, hmem]
      · have hsome : (s.resetStep cfg t rank0).toOption.isSome := by
          rw [hrun]
          rfl
        rw [hcount, Finset.sum_eq_zero fun p hp => hreset hsome p ((hmem p).mp hp)]
        rfl

/-- A reset after which the count is right finds nothing. -/
theorem Counted.resetsReleased {c : CoordinatorCall}
    (hafter : ∀ s', s.call cfg t c = some s' → Accounted cfg t s') :
    ResetsReleased cfg t s c := by
  cases c with
  | resetStep rank0 =>
      intro hsome p hp
      obtain ⟨s', hstep⟩ := Option.isSome_iff_exists.mp hsome
      obtain ⟨hcount, hstatus⟩ := resetStep_spec (ok_of_toOption hstep)
      obtain ⟨resident, hmem, hsum⟩ := (hafter s' hstep).counted
      rw [hcount] at hsum
      have hzero : ∑ p ∈ resident, cfg.dsNumel p = 0 := by
        exact_mod_cast hsum.symm
      apply Finset.sum_eq_zero_iff.mp hzero
      rw [hmem, hstatus]
      exact hp
  | _ => trivial

theorem start_counted (cfg : Config) (t : Bool) (external : ModuleId → List ParamId)
    (isExternal : Finset ParamId) : Counted cfg t (start cfg external isExternal) := by
  refine ⟨∅, ?_, rfl⟩
  intro p
  constructor
  · intro hp
    cases hp
  · intro hp
    exact absurd rfl hp

theorem start_inv (cfg : Config) (external : ModuleId → List ParamId)
    (isExternal : Finset ParamId) : Inv (start cfg external isExternal) := by
  have hframe : Frame (State.init cfg) (start cfg external isExternal) :=
    .of_same rfl rfl rfl rfl
  exact hframe.inv Inv.init

end State

open State

/-- In every sequence of calls the count is right and never negative exactly if
every reset finds the parameters partitioned.  In any state a prefetch starts only
below the maximum. -/
theorem available_accounted_iff (cfg : Config) (t : Bool)
    (external : ModuleId → List ParamId) (isExternal : Finset ParamId)
    (calls : List CoordinatorCall) :
    (AllStates (State.call cfg t) (Accounted cfg t) (State.start cfg external isExternal)
        calls ↔
      AllSteps (State.call cfg t) (ResetsReleased cfg t)
        (State.start cfg external isExternal) calls) ∧
    ∀ (s s' : State) (order : SetOrder) (params : Finset ParamId),
      s.prefetch cfg t order params = .ok s' → s'.handles ≠ s.handles →
        (s.coordinator t).nAvailableParams < cfg.maxNAvailableParams := by
  refine ⟨?_, fun _ _ _ _ => prefetch_below_max⟩
  exact allStates_iff_allSteps (I := fun s => Counted cfg t s ∧ State.Inv s)
    (fun s c s' hreset hstep h => h.1.call h.2 hreset hstep)
    (fun s h => ⟨h.1, h.1.nonneg⟩)
    (fun s c _ hafter => Counted.resetsReleased hafter)
    ⟨start_counted cfg t external isExternal, start_inv cfg external isExternal⟩

/-- The first module of a network is fetched in the backward pass and, as its input
requires no gradient, not released before the reset. -/
def firstModuleKept : List CoordinatorCall :=
  [.recordModule 1, .fetchSubModule 1 (evenUp 0), .releaseSubModule 1, .recordModule 1,
    .fetchSubModule 1 (evenUp 0),
    .resetStep (some { Coordinator.init with submoduleOrder := [1, 1] }),
    .releaseAndResetAll 0]

/-- The count ends below zero. -/
theorem not_accounted_firstModuleKept :
    ¬ AllStates (State.call twoModules true) (Accounted twoModules true)
      (State.start twoModules (fun _ => []) ∅) firstModuleKept := by
  intro h
  have hcount : ((run (State.call twoModules true)
      (State.start twoModules (fun _ => []) ∅) firstModuleKept).map fun s =>
        (s.coordinator true).nAvailableParams) = some (-9) := by decide +kernel
  obtain ⟨s, hrun, hcount⟩ := Option.map_eq_some_iff.mp hcount
  have hnonneg := (h.last hrun).nonneg
  rw [hcount] at hnonneg
  omega

end SmartNic.Offload
