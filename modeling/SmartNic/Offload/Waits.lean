import SmartNic.Offload.Registry

/-!
# Waiting in any order

What a wait of `fetch_sub_module` does, and the invariant under which the waits
for different parameters commute.
-/

namespace SmartNic.Offload

open AnyOrder

namespace State

variable {cfg : Config} {t t' : Bool} {m : ModuleId} {s s' : State}
  {p q : ParamId} {i : HandleId} {h : Handle}

/-- The handle of a parameter in the registry whose wait still has something to
do. -/
def openHandle (t : Bool) (s : State) (p : ParamId) : Option (HandleId × Handle) :=
  if p ∈ (s.coordinator t).inflight then
    let i := (s.coordinator t).handleOf p
    match s.handles[i]? with
    | none => none
    | some h => if h.kind ≠ .single ∧ i ∈ s.complete then none else some (i, h)
  else none

/-- The registry, the handles and the statuses fit together. -/
structure Inv (s : State) : Prop where
  valid : ∀ t p, p ∈ (s.coordinator t).inflight →
    (s.coordinator t).handleOf p < s.handles.length
  complete_lt : ∀ i ∈ s.complete, i < s.handles.length
  nodup : ∀ h ∈ s.handles, h.params.Nodup
  single : ∀ h ∈ s.handles, h.kind = .single → ∃ p, h.params = [p]
  self_mem : ∀ t p i h, openHandle t s p = some (i, h) → p ∈ h.params
  others : ∀ t p i h, openHandle t s p = some (i, h) → ∀ q ∈ h.params,
    openHandle t s q = some (i, h) ∧ s.dsStatus q = .inflight
  unique : ∀ t t' p x y, openHandle t s p = some x → openHandle t' s p = some y →
    t = t'

theorem openHandle_eq_some :
    openHandle t s p = some (i, h) ↔
      p ∈ (s.coordinator t).inflight ∧ (s.coordinator t).handleOf p = i ∧
        s.handles[i]? = some h ∧ (h.kind = .single ∨ i ∉ s.complete) := by
  unfold openHandle
  split_ifs with hmem
  · cases hget : s.handles[(s.coordinator t).handleOf p]? with
    | none =>
        simp only [hget, reduceCtorEq, false_iff]
        rintro ⟨-, rfl, hsome, -⟩
        rw [hget] at hsome
        cases hsome
    | some h' =>
        by_cases hdone : h'.kind ≠ .single ∧
            (s.coordinator t).handleOf p ∈ s.complete
        · simp only [hget, if_pos hdone, reduceCtorEq, false_iff]
          rintro ⟨-, rfl, hsome, hopen⟩
          rw [hget] at hsome
          obtain rfl := Option.some.inj hsome
          exact hopen.elim hdone.1 fun hnot => hnot hdone.2
        · simp only [hget, if_neg hdone, Option.some.injEq, Prod.mk.injEq]
          constructor
          · rintro ⟨rfl, rfl⟩
            exact ⟨hmem, rfl, hget, by tauto⟩
          · rintro ⟨-, rfl, hsome, -⟩
            rw [hget] at hsome
            exact ⟨rfl, Option.some.inj hsome⟩
  · simp [hmem]

theorem openHandle_mem (hopen : openHandle t s p = some (i, h)) : h ∈ s.handles :=
  List.mem_of_getElem? (openHandle_eq_some.mp hopen).2.2.1

theorem Inv.init : Inv (State.init cfg) := by
  have hnone : ∀ t p, openHandle t (State.init cfg) p = none := by
    intro t p
    rfl
  constructor
  · intro t p hp
    cases hp
  · intro i hi
    cases hi
  · intro h hh
    cases hh
  · intro h hh
    cases hh
  · intro t p i h hopen
    cases (hnone t p).symm.trans hopen
  · intro t p i h hopen
    cases (hnone t p).symm.trans hopen
  · intro t t' p x y hopen
    cases (hnone t p).symm.trans hopen

/-! ## Changes elsewhere -/

/-- A step that keeps the registries, the handles and what is in flight. -/
structure Frame (s s' : State) : Prop where
  inflight : ∀ t, (s'.coordinator t).inflight = (s.coordinator t).inflight
  handleOf : ∀ t, (s'.coordinator t).handleOf = (s.coordinator t).handleOf
  handles : s'.handles = s.handles
  complete : s'.complete = s.complete
  status : ∀ p, s.dsStatus p = .inflight → s'.dsStatus p = .inflight

theorem Frame.refl (s : State) : Frame s s where
  inflight _ := rfl
  handleOf _ := rfl
  handles := rfl
  complete := rfl
  status _ hp := hp

theorem Frame.trans {s₁ : State} (h : Frame s s₁) (h' : Frame s₁ s') : Frame s s' where
  inflight t := (h'.inflight t).trans (h.inflight t)
  handleOf t := (h'.handleOf t).trans (h.handleOf t)
  handles := h'.handles.trans h.handles
  complete := h'.complete.trans h.complete
  status p hp := h'.status p (h.status p hp)

theorem Frame.modify (f : Coordinator → Coordinator)
    (hinflight : (f (s.coordinator t)).inflight = (s.coordinator t).inflight)
    (hhandle : (f (s.coordinator t)).handleOf = (s.coordinator t).handleOf) :
    Frame s (s.modifyCoordinator t f) where
  inflight t' := by
    by_cases ht : t' = t
    · subst ht
      rw [coordinator_modify, hinflight]
    · rw [coordinator_modify_of_ne _ ht]
  handleOf t' := by
    by_cases ht : t' = t
    · subst ht
      rw [coordinator_modify, hhandle]
    · rw [coordinator_modify_of_ne _ ht]
  handles := rfl
  complete := rfl
  status _ hp := hp

theorem Frame.openHandle_eq (h : Frame s s') (t : Bool) (p : ParamId) :
    openHandle t s' p = openHandle t s p := by
  simp only [openHandle, h.inflight, h.handleOf, h.handles, h.complete]

theorem Frame.inv (h : Frame s s') (hinv : Inv s) : Inv s' where
  valid t p hp := by
    rw [h.inflight t] at hp
    rw [h.handleOf t, h.handles]
    exact hinv.valid t p hp
  complete_lt i hi := by
    rw [h.complete] at hi
    rw [h.handles]
    exact hinv.complete_lt i hi
  nodup x hx := hinv.nodup x (h.handles ▸ hx)
  single x hx := hinv.single x (h.handles ▸ hx)
  self_mem t p i x hopen := hinv.self_mem t p i x (h.openHandle_eq t p ▸ hopen)
  others t p i x hopen q hq := by
    rw [h.openHandle_eq] at hopen ⊢
    obtain ⟨hq, hstatus⟩ := hinv.others t p i x hopen q hq
    exact ⟨hq, h.status q hstatus⟩
  unique t t' p x y hx hy := by
    rw [h.openHandle_eq] at hx hy
    exact hinv.unique t t' p x y hx hy

/-! ## One wait -/

/-- The parameters that a wait makes available. -/
def arrivals (t : Bool) (s : State) (p : ParamId) : List ParamId :=
  match openHandle t s p with
  | none => []
  | some (_, h) => h.params

/-- The handles that a wait completes. -/
def completed (t : Bool) (s : State) (p : ParamId) : Finset HandleId :=
  match openHandle t s p with
  | none => ∅
  | some (i, h) => if h.kind = .single then ∅ else {i}

/-- The state after a wait that does not fail. -/
def waited (t : Bool) (m : ModuleId) (s : State) (p : ParamId) : State :=
  { s.modifyCoordinator t fun c => { c with inflight := c.inflight.erase p } with
    dsActiveSubModules :=
      Function.update s.dsActiveSubModules p (insert m (s.dsActiveSubModules p))
    dsStatus := fun q => if q ∈ s.arrivals t p then .available else s.dsStatus q
    complete := s.complete ∪ s.completed t p }

/-- What a wait restores from the CPU is there. -/
def Restorable (t : Bool) (s : State) (p : ParamId) : Prop :=
  ∀ i h, openHandle t s p = some (i, h) → h.kind = .cpuFullParam →
    ∀ q ∈ h.params, q ∈ s.cpuFullParam

/-- The wait does not fail: the parameter becomes available or is. -/
def CanWait (t : Bool) (s : State) (p : ParamId) : Prop :=
  Restorable t s p ∧ (p ∈ s.arrivals t p ∨ s.dsStatus p = .available)

theorem arrivals_of_open (hopen : openHandle t s p = some (i, h)) :
    s.arrivals t p = h.params := by
  simp [arrivals, hopen]

theorem arrivals_of_none (hopen : openHandle t s p = none) : s.arrivals t p = [] := by
  simp [arrivals, hopen]

section Waited

variable (t m s p)

@[simp]
theorem handles_waited : (waited t m s p).handles = s.handles := rfl

@[simp]
theorem requests_waited : (waited t m s p).requests = s.requests := rfl

@[simp]
theorem cpuFullParam_waited : (waited t m s p).cpuFullParam = s.cpuFullParam := rfl

theorem dsStatus_waited (q : ParamId) :
    (waited t m s p).dsStatus q =
      if q ∈ s.arrivals t p then .available else s.dsStatus q := rfl

theorem complete_waited : (waited t m s p).complete = s.complete ∪ s.completed t p :=
  rfl

theorem coordinator_waited :
    (waited t m s p).coordinator t =
      { s.coordinator t with inflight := (s.coordinator t).inflight.erase p } :=
  Function.update_self _ _ _

theorem coordinator_waited_of_ne {t' : Bool} (hne : t' ≠ t) :
    (waited t m s p).coordinator t' = s.coordinator t' :=
  Function.update_of_ne hne _ _

end Waited

theorem mem_completed :
    i ∈ s.completed t p ↔ ∃ h, openHandle t s p = some (i, h) ∧ h.kind ≠ .single := by
  unfold completed
  cases hopen : openHandle t s p with
  | none => simp
  | some x =>
      obtain ⟨j, h⟩ := x
      simp only [Option.some.injEq, Prod.mk.injEq]
      split_ifs with hkind
      · constructor
        · intro hi
          cases hi
        · rintro ⟨h', ⟨-, rfl⟩, hnot⟩
          exact absurd hkind hnot
      · rw [Finset.mem_singleton]
        constructor
        · rintro rfl
          exact ⟨h, ⟨rfl, rfl⟩, hkind⟩
        · rintro ⟨h', ⟨rfl, -⟩, -⟩
          rfl

/-- Two parameters with the same open handle. -/
theorem Inv.eq_or_coalesced (hinv : Inv s) (hp : openHandle t s p = some (i, h))
    (hq : openHandle t' s q = some (i, h)) : t = t' ∧ (q = p ∨ h.kind ≠ .single) := by
  have hself := hinv.self_mem t p i h hp
  have hself' := hinv.self_mem t' q i h hq
  refine ⟨hinv.unique t t' p _ _ hp (hinv.others t' q i h hq p hself).1, ?_⟩
  by_cases hkind : h.kind = .single
  · obtain ⟨x, hx⟩ := hinv.single h (openHandle_mem hp) hkind
    rw [hx, List.mem_singleton] at hself hself'
    exact .inl (hself'.trans hself.symm)
  · exact .inr hkind

/-- A wait closes the handle of its parameter and no other. -/
theorem Inv.openHandle_waited (hinv : Inv s) (t' : Bool) (q : ParamId) :
    openHandle t' (waited t m s p) q =
      if openHandle t' s q = openHandle t s p then none else openHandle t' s q := by
  have hiff : ∀ i h, openHandle t' (waited t m s p) q = some (i, h) ↔
      openHandle t' s q = some (i, h) ∧ openHandle t' s q ≠ openHandle t s p := by
    intro i h
    rw [openHandle_eq_some, complete_waited, handles_waited]
    constructor
    · rintro ⟨hmem, hhandle, hget, hopen⟩
      have hmem' : q ∈ (s.coordinator t').inflight ∧ ¬ (t' = t ∧ q = p) ∧
          (s.coordinator t').handleOf q = i := by
        by_cases ht : t' = t
        · subst ht
          rw [coordinator_waited] at hmem hhandle
          rw [Finset.mem_erase] at hmem
          exact ⟨hmem.2, fun heq => hmem.1 heq.2, hhandle⟩
        · rw [coordinator_waited_of_ne t m s p ht] at hmem hhandle
          exact ⟨hmem, fun heq => ht heq.1, hhandle⟩
      have hopen' : openHandle t' s q = some (i, h) := by
        rw [openHandle_eq_some]
        refine ⟨hmem'.1, hmem'.2.2, hget, hopen.imp_right ?_⟩
        intro hnot hi
        exact hnot (Finset.mem_union_left _ hi)
      refine ⟨hopen', ?_⟩
      intro heq
      have hp : openHandle t s p = some (i, h) := heq ▸ hopen'
      obtain ⟨ht, hcase⟩ := hinv.eq_or_coalesced hp hopen'
      rcases hcase with hq | hkind
      · exact hmem'.2.1 ⟨ht.symm, hq⟩
      · refine hopen.elim hkind ?_
        intro hnot
        exact hnot (Finset.mem_union_right _ (mem_completed.mpr ⟨h, hp, hkind⟩))
    · rintro ⟨hopen, hne⟩
      obtain ⟨hmem, hhandle, hget, hnot⟩ := openHandle_eq_some.mp hopen
      refine ⟨?_, ?_, hget, hnot.imp_right ?_⟩
      · by_cases ht : t' = t
        · subst ht
          rw [coordinator_waited]
          refine Finset.mem_erase.mpr ⟨?_, hmem⟩
          rintro rfl
          exact hne rfl
        · rw [coordinator_waited_of_ne t m s p ht]
          exact hmem
      · by_cases ht : t' = t
        · subst ht
          rw [coordinator_waited]
          exact hhandle
        · rw [coordinator_waited_of_ne t m s p ht]
          exact hhandle
      · intro hi hmem
        rcases Finset.mem_union.mp hmem with hmem | hmem
        · exact hi hmem
        · obtain ⟨h', hp, -⟩ := mem_completed.mp hmem
          have hget' := (openHandle_eq_some.mp hp).2.2.1
          rw [hget] at hget'
          obtain rfl := Option.some.inj hget'
          exact hne (hopen.trans hp.symm)
  split_ifs with heq
  · by_contra hsome
    obtain ⟨⟨i, h⟩, hsome⟩ := Option.ne_none_iff_exists'.mp hsome
    exact ((hiff i h).mp hsome).2 heq
  · apply Option.ext
    rintro ⟨i, h⟩
    exact (hiff i h).trans (and_iff_left heq)

theorem Inv.wait (hinv : Inv s) : Inv (waited t m s p) where
  valid t' q hq := by
    by_cases ht : t' = t
    · subst ht
      rw [coordinator_waited] at hq ⊢
      exact hinv.valid t' q (Finset.mem_of_mem_erase hq)
    · rw [coordinator_waited_of_ne t m s p ht] at hq ⊢
      exact hinv.valid t' q hq
  complete_lt i hi := by
    rcases Finset.mem_union.mp hi with hi | hi
    · exact hinv.complete_lt i hi
    · obtain ⟨h, hopen, -⟩ := mem_completed.mp hi
      obtain ⟨hlt, -⟩ := List.getElem?_eq_some_iff.mp (openHandle_eq_some.mp hopen).2.2.1
      exact hlt
  nodup := hinv.nodup
  single := hinv.single
  self_mem t' q j x hopen := by
    rw [hinv.openHandle_waited] at hopen
    split_ifs at hopen
    exact hinv.self_mem t' q j x hopen
  others t' q j x hopen q' hq' := by
    rw [hinv.openHandle_waited] at hopen
    split_ifs at hopen with hne
    obtain ⟨hopen', hstatus⟩ := hinv.others t' q j x hopen q' hq'
    rw [hinv.openHandle_waited, hopen', ← hopen, if_neg hne]
    refine ⟨rfl, ?_⟩
    rw [dsStatus_waited, if_neg, hstatus]
    intro hmem
    cases hp : openHandle t s p with
    | none => simp [arrivals, hp] at hmem
    | some y =>
        obtain ⟨i, h⟩ := y
        rw [arrivals_of_open hp] at hmem
        have hq := (hinv.others t p i h hp q' hmem).1
        obtain rfl := hinv.unique t t' q' _ _ hq hopen'
        rw [hopen'] at hq
        exact hne (hopen.trans (hq.trans hp.symm))
  unique t₁ t₂ q x y hx hy := by
    rw [hinv.openHandle_waited] at hx hy
    split_ifs at hx hy
    exact hinv.unique t₁ t₂ q x y hx hy

/-! ## Two waits -/

theorem arrivals_congr (h : openHandle t s q = openHandle t s p) :
    s.arrivals t q = s.arrivals t p := by
  unfold arrivals
  rw [h]

theorem completed_congr (h : openHandle t s q = openHandle t s p) :
    s.completed t q = s.completed t p := by
  unfold completed
  rw [h]

theorem Inv.mem_arrivals_waited (hinv : Inv s) (x : ParamId) :
    x ∈ (waited t m s p).arrivals t q ∨ x ∈ s.arrivals t p ↔
      x ∈ s.arrivals t q ∨ x ∈ s.arrivals t p := by
  have hopen := hinv.openHandle_waited (t := t) (m := m) (p := p) t q
  by_cases heq : openHandle t s q = openHandle t s p
  · rw [if_pos heq] at hopen
    rw [arrivals_of_none hopen, arrivals_congr heq]
    simp
  · rw [if_neg heq] at hopen
    unfold arrivals
    rw [hopen]

theorem Inv.completed_waited (hinv : Inv s) :
    s.completed t p ∪ (waited t m s p).completed t q =
      s.completed t p ∪ s.completed t q := by
  have hopen := hinv.openHandle_waited (t := t) (m := m) (p := p) t q
  by_cases heq : openHandle t s q = openHandle t s p
  · rw [if_pos heq] at hopen
    rw [completed_congr heq, Finset.union_self]
    unfold completed
    rw [hopen]
    exact Finset.union_empty _
  · rw [if_neg heq] at hopen
    unfold completed
    rw [hopen]

theorem Inv.waited_comm (hinv : Inv s) (hne : p ≠ q) :
    waited t m (waited t m s p) q =
      waited t m (waited t m s q) p := by
  have hstatus : ∀ x, (waited t m (waited t m s p) q).dsStatus x =
      (waited t m (waited t m s q) p).dsStatus x := by
    intro x
    have hp := hinv.mem_arrivals_waited (t := t) (m := m) (p := p) (q := q) x
    have hq := hinv.mem_arrivals_waited (t := t) (m := m) (p := q) (q := p) x
    simp only [dsStatus_waited]
    by_cases hx : x ∈ s.arrivals t p <;> by_cases hy : x ∈ s.arrivals t q <;>
      simp_all
  have hcomplete : (waited t m (waited t m s p) q).complete =
      (waited t m (waited t m s q) p).complete := by
    simp only [complete_waited, Finset.union_assoc]
    rw [hinv.completed_waited, hinv.completed_waited, Finset.union_comm (s.completed t p)]
  have hactive : (waited t m (waited t m s p) q).dsActiveSubModules =
      (waited t m (waited t m s q) p).dsActiveSubModules := by
    simp only [waited, Function.update_of_ne hne, Function.update_of_ne hne.symm]
    rw [Function.update_comm hne]
  have hcoordinator : (waited t m (waited t m s p) q).coordinator =
      (waited t m (waited t m s q) p).coordinator := by
    simp only [waited, modifyCoordinator, Function.update_self,
      Function.update_idem]
    rw [Finset.erase_right_comm]
  calc waited t m (waited t m s p) q
    _ = { waited t m (waited t m s q) p with
          coordinator := (waited t m (waited t m s p) q).coordinator
          dsStatus := (waited t m (waited t m s p) q).dsStatus
          dsActiveSubModules :=
            (waited t m (waited t m s p) q).dsActiveSubModules
          complete := (waited t m (waited t m s p) q).complete } := rfl
    _ = waited t m (waited t m s q) p := by
        rw [hcoordinator, hcomplete, hactive, funext hstatus]

/-- Whether a wait fails does not depend on the waits before it. -/
theorem Inv.canWait_waited (hinv : Inv s) (hp : CanWait t s p) :
    CanWait t (waited t m s p) q ↔ CanWait t s q := by
  have hopen := hinv.openHandle_waited (t := t) (m := m) (p := p) t q
  by_cases heq : openHandle t s q = openHandle t s p
  · rw [if_pos heq] at hopen
    have harr := arrivals_congr heq
    unfold CanWait Restorable
    rw [hopen, arrivals_of_none hopen, dsStatus_waited, ← harr, heq]
    constructor
    · rintro ⟨-, hready⟩
      refine ⟨hp.1, ?_⟩
      by_cases hmem : q ∈ s.arrivals t q
      · exact .inl hmem
      · rw [if_neg hmem] at hready
        exact .inr (hready.resolve_left List.not_mem_nil)
    · rintro ⟨-, hready⟩
      refine ⟨fun i h hnone => (Option.some_ne_none _ hnone.symm).elim, .inr ?_⟩
      split_ifs with hmem
      · rfl
      · exact hready.resolve_left hmem
  · rw [if_neg heq] at hopen
    have harr : (waited t m s p).arrivals t q = s.arrivals t q := by
      unfold arrivals
      rw [hopen]
    have hnot : q ∉ s.arrivals t p := by
      intro hmem
      cases hpo : openHandle t s p with
      | none => simp [arrivals, hpo] at hmem
      | some y =>
          obtain ⟨i, h⟩ := y
          rw [arrivals_of_open hpo] at hmem
          exact heq ((hinv.others t p i h hpo q hmem).1.trans hpo.symm)
    unfold CanWait Restorable
    rw [hopen, harr, dsStatus_waited, if_neg hnot, cpuFullParam_waited]

/-! ## The code of a wait -/

theorem restore_commutes (requests : List Request) :
    Commutes restore (Requested requests) (fun s p => p ∈ s.cpuFullParam)
      (fun s p => s.setStatus p .available) (fun e => e.requests = requests) where
  goes _ _ _ hp := if_pos hp
  raises _ _ hs hp := ⟨_, if_neg hp, hs⟩
  keeps _ _ hs _ := hs
  others _ _ _ _ _ _ := Iff.rfl
  swap _ p _ _ _ _ hne := setStatus_comm p .available hne

theorem arrive_commutes (requests : List Request) :
    Commutes arrive (Requested requests) (fun s p => s.dsStatus p = .inflight)
      (fun s p => s.setStatus p .available) (fun e => e.requests = requests) where
  goes _ _ _ hp := if_pos hp
  raises _ _ hs hp := ⟨_, if_neg hp, hs⟩
  keeps _ _ hs _ := hs
  others _ p _ _ _ hne := by rw [setStatus_of_ne p .available hne.symm]
  swap _ p _ _ _ _ hne := setStatus_comm p .available hne

theorem waitHandle_closed (hget : s.handles[i]? = some h) (hkind : h.kind ≠ .single)
    (hdone : i ∈ s.complete) : s.waitHandle i = .ok s := by
  obtain ⟨kind, params⟩ := h
  unfold waitHandle
  rw [hget]
  cases kind with
  | single => exact absurd rfl hkind
  | coalesced => exact if_pos hdone
  | cpuFullParam => exact if_pos hdone

theorem waitHandle_open (hget : s.handles[i]? = some h) (hnodup : h.params.Nodup)
    (hopen : h.kind = .single ∨ i ∉ s.complete)
    (hinflight : ∀ q ∈ h.params, s.dsStatus q = .inflight)
    (hcpu : h.kind = .cpuFullParam → ∀ q ∈ h.params, q ∈ s.cpuFullParam) :
    s.waitHandle i =
      .ok { s.setStatuses h.params .available with
        complete := s.complete ∪ if h.kind = .single then ∅ else {i} } := by
  obtain ⟨kind, params⟩ := h
  unfold waitHandle
  rw [hget]
  have hdone : kind ≠ .single → i ∉ s.complete := hopen.resolve_left
  cases kind with
  | single =>
      dsimp only
      rw [foldl_setStatus, if_pos rfl, Finset.union_empty]
      rfl
  | coalesced =>
      obtain ⟨hrun, -⟩ := (arrive_commutes s.requests).foldlM_ok rfl hnodup hinflight
      dsimp only at hrun ⊢
      rw [if_neg (hdone (by decide)), hrun, foldl_setStatus, Finset.union_comm]
      rfl
  | cpuFullParam =>
      obtain ⟨hrun, -⟩ :=
        (restore_commutes s.requests).foldlM_ok rfl hnodup (hcpu rfl)
      dsimp only at hrun ⊢
      rw [if_neg (hdone (by decide)), hrun, foldl_setStatus, Finset.union_comm]
      rfl

theorem waitHandle_error (hget : s.handles[i]? = some h) (hnodup : h.params.Nodup)
    (hopen : i ∉ s.complete) (hkind : h.kind = .cpuFullParam)
    (hcpu : ∃ q ∈ h.params, q ∉ s.cpuFullParam) :
    ∃ e, s.waitHandle i = .error e ∧ e.requests = s.requests := by
  obtain ⟨kind, params⟩ := h
  obtain rfl := hkind
  obtain ⟨e, hrun, he⟩ := (restore_commutes s.requests).foldlM_error rfl hnodup hcpu
  refine ⟨e, ?_, he⟩
  unfold waitHandle
  rw [hget]
  dsimp only at hrun ⊢
  rw [if_neg hopen, hrun]
  rfl

/-- The state in which the body of the loop waits. -/
def popped (t : Bool) (m : ModuleId) (s : State) (p : ParamId) : State :=
  { s with
    dsActiveSubModules :=
      Function.update s.dsActiveSubModules p
        (insert m (s.dsActiveSubModules p)) }.modifyCoordinator t fun c =>
    { c with inflight := c.inflight.erase p }

theorem waited_of_none (hopen : openHandle t s p = none) :
    waited t m s p = popped t m s p := by
  unfold waited
  rw [arrivals_of_none hopen]
  unfold completed
  rw [hopen]
  simp [popped, modifyCoordinator]

theorem waited_of_open (hopen : openHandle t s p = some (i, h)) :
    waited t m s p =
      { (popped t m s p).setStatuses h.params .available with
        complete := s.complete ∪ if h.kind = .single then ∅ else {i} } := by
  unfold waited
  rw [arrivals_of_open hopen]
  unfold completed
  rw [hopen]
  rfl

theorem popped_of_notMem (hp : p ∉ (s.coordinator t).inflight) :
    popped t m s p =
      { s with
        dsActiveSubModules :=
          Function.update s.dsActiveSubModules p
            (insert m (s.dsActiveSubModules p)) } := by
  simp [popped, modifyCoordinator, Finset.erase_eq_of_notMem hp]

theorem Inv.exists_handle (hinv : Inv s) (hp : p ∈ (s.coordinator t).inflight) :
    ∃ h, s.handles[(s.coordinator t).handleOf p]? = some h ∧ h ∈ s.handles :=
  ⟨_, List.getElem?_eq_getElem (hinv.valid t p hp), List.getElem_mem _⟩

/-- What the body of the loop does before it checks the status. -/
theorem Inv.waitHandle_cases (hinv : Inv s) (m : ModuleId)
    (hp : p ∈ (s.coordinator t).inflight) :
    (Restorable t s p ∧
      (popped t m s p).waitHandle ((s.coordinator t).handleOf p) =
        .ok (waited t m s p)) ∨
    (¬ Restorable t s p ∧
      ∃ e, (popped t m s p).waitHandle ((s.coordinator t).handleOf p) =
        .error e ∧ e.requests = s.requests) := by
  obtain ⟨h, hget, hmem⟩ := hinv.exists_handle hp
  by_cases hopen : h.kind = .single ∨ (s.coordinator t).handleOf p ∉ s.complete
  · have hsome := openHandle_eq_some.mpr ⟨hp, rfl, hget, hopen⟩
    by_cases hcpu : h.kind = .cpuFullParam → ∀ q ∈ h.params, q ∈ s.cpuFullParam
    · refine .inl ⟨?_, ?_⟩
      · intro i h' hsome'
        rw [hsome] at hsome'
        obtain ⟨-, rfl⟩ := Prod.mk.inj (Option.some.inj hsome')
        exact hcpu
      · rw [waited_of_open hsome]
        exact waitHandle_open hget (hinv.nodup h hmem) hopen
          (fun q hq => (hinv.others t p _ h hsome q hq).2) hcpu
    · refine .inr ⟨fun hrest => hcpu (hrest _ h hsome), ?_⟩
      push Not at hcpu
      have hnot : (s.coordinator t).handleOf p ∉ s.complete := by
        refine hopen.resolve_left ?_
        rw [hcpu.1]
        decide
      exact waitHandle_error (s := popped t m s p) hget (hinv.nodup h hmem) hnot
        hcpu.1 hcpu.2
  · have hnone : openHandle t s p = none := by
      rw [← Option.not_isSome_iff_eq_none]
      intro hsome
      obtain ⟨⟨i, h'⟩, hsome⟩ := Option.isSome_iff_exists.mp hsome
      obtain ⟨-, rfl, hget', hopen'⟩ := openHandle_eq_some.mp hsome
      rw [hget] at hget'
      obtain rfl := Option.some.inj hget'
      exact hopen hopen'
    push Not at hopen
    refine .inl ⟨?_, ?_⟩
    · intro i h' hsome
      cases hnone.symm.trans hsome
    · rw [waited_of_none hnone]
      exact waitHandle_closed hget hopen.1 hopen.2

/-- The body of the waiting loop. -/
theorem Inv.waitParam_cases (hinv : Inv s) (t : Bool) (m : ModuleId) (p : ParamId) :
    (Restorable t s p ∧ s.waitParam t m p =
      if (waited t m s p).dsStatus p = .available then .ok (waited t m s p)
      else (waited t m s p).fail .assertionError) ∨
    (¬ Restorable t s p ∧
      ∃ e, s.waitParam t m p = .error e ∧ e.requests = s.requests) := by
  by_cases hp : p ∈ (s.coordinator t).inflight
  · have hcode : s.waitParam t m p =
        (popped t m s p).waitHandle ((s.coordinator t).handleOf p) >>= fun s =>
          if s.dsStatus p = .available then .ok s else s.fail .assertionError := by
      unfold waitParam
      simp only [if_pos hp]
      rfl
    rw [hcode]
    rcases hinv.waitHandle_cases m hp with ⟨hrest, hrun⟩ | ⟨hrest, e, hrun, he⟩
    · rw [hrun]
      exact .inl ⟨hrest, rfl⟩
    · rw [hrun]
      exact .inr ⟨hrest, e, rfl, he⟩
  · have hnone : openHandle t s p = none := by
      simp [openHandle, hp]
    refine .inl ⟨?_, ?_⟩
    · intro i h hsome
      cases hnone.symm.trans hsome
    · unfold waitParam
      simp only [if_neg hp]
      rw [waited_of_none hnone, popped_of_notMem hp]
      rfl

/-- The waiting loop of `fetch_sub_module` may take the parameters in any order. -/
theorem waitParam_commutes (t : Bool) (m : ModuleId) (requests : List Request) :
    Commutes (waitParam t m) (fun s => Inv s ∧ s.requests = requests) (CanWait t)
      (waited t m) (fun e => e.requests = requests) where
  goes s p hs hp := by
    have hstatus : (waited t m s p).dsStatus p = .available := by
      rw [dsStatus_waited]
      split_ifs with hmem
      · rfl
      · exact hp.2.resolve_left hmem
    rcases hs.1.waitParam_cases t m p with ⟨-, hcode⟩ | ⟨hrest, -⟩
    · rw [hcode, if_pos hstatus]
    · exact absurd hp.1 hrest
  raises s p hs hp := by
    rcases hs.1.waitParam_cases t m p with ⟨hrest, hcode⟩ | ⟨-, e, hcode, he⟩
    · have hstatus : ¬ (waited t m s p).dsStatus p = .available := by
        rw [dsStatus_waited]
        split_ifs with hmem
        · exact absurd ⟨hrest, .inl hmem⟩ hp
        · exact fun havail => hp ⟨hrest, .inr havail⟩
      rw [hcode, if_neg hstatus]
      exact ⟨_, rfl, hs.2⟩
    · exact ⟨e, hcode, he.trans hs.2⟩
  keeps s p hs _ := ⟨hs.1.wait, hs.2⟩
  others s p q hs hp _ := hs.1.canWait_waited hp
  swap s p q hs _ _ hne := hs.1.waited_comm hne

end State

end SmartNic.Offload
