import SmartNic.Library.AnyOrder
import SmartNic.Offload.Coordinator

/-!
# The registry of AllGathers in flight

An open handle is registered for all of its parameters, and these are in flight
and belong to no other open handle.  So it does not matter in which order they
are registered and waited for.
-/

namespace SmartNic.Offload

open AnyOrder

/-- An outcome up to the exception. -/
def outcome {α : Type} (r : Except Failure α) : Except (List Request) α :=
  r.mapError Failure.requests

namespace State

variable {cfg : Config} {t t' : Bool} {s s' : State}

/-! ## Fields -/

section Fields

variable (f : Coordinator → Coordinator) (p : ParamId) (status : Partition.ZeroParamStatus)

@[simp]
theorem coordinator_modify :
    (s.modifyCoordinator t f).coordinator t = f (s.coordinator t) := by
  simp [modifyCoordinator]

theorem coordinator_modify_of_ne (h : t' ≠ t) :
    (s.modifyCoordinator t f).coordinator t' = s.coordinator t' := by
  simp [modifyCoordinator, h]

@[simp]
theorem dsStatus_modify : (s.modifyCoordinator t f).dsStatus = s.dsStatus := rfl

@[simp]
theorem cpuFullParam_modify :
    (s.modifyCoordinator t f).cpuFullParam = s.cpuFullParam := rfl

@[simp]
theorem handles_modify : (s.modifyCoordinator t f).handles = s.handles := rfl

@[simp]
theorem complete_modify : (s.modifyCoordinator t f).complete = s.complete := rfl

@[simp]
theorem requests_modify : (s.modifyCoordinator t f).requests = s.requests := rfl

@[simp]
theorem setStatus_self : (s.setStatus p status).dsStatus p = status := by
  simp [setStatus]

theorem setStatus_of_ne {q : ParamId} (h : q ≠ p) :
    (s.setStatus p status).dsStatus q = s.dsStatus q := by
  simp [setStatus, h]

theorem setStatus_comm {q : ParamId} (h : p ≠ q) :
    (s.setStatus p status).setStatus q status =
      (s.setStatus q status).setStatus p status := by
  simp only [setStatus]
  rw [Function.update_comm h]

/-- Set the status of some parameters. -/
def setStatuses (params : List ParamId) (status : Partition.ZeroParamStatus)
    (s : State) : State :=
  { s with dsStatus := fun p => if p ∈ params then status else s.dsStatus p }

theorem foldl_setStatus (params : List ParamId) :
    params.foldl (fun s p => s.setStatus p status) s = s.setStatuses params status := by
  induction params generalizing s with
  | nil => simp [setStatuses]
  | cons p params ih =>
      rw [List.foldl_cons, ih]
      simp only [setStatuses, setStatus]
      congr 1
      funext q
      by_cases hq : q = p
      · subst hq
        simp
      · simp [hq]

end Fields

/-! ## Starting AllGathers in any order -/

/-- The requests of a state that a loop keeps. -/
def Requested (requests : List Request) (s : State) : Prop := s.requests = requests

theorem markInflight_commutes (requests : List Request) :
    Commutes markInflight (Requested requests) (fun s p => s.dsStatus p = .notAvailable)
      (fun s p => s.setStatus p .inflight) (fun e => e.requests = requests) where
  goes s p _ hp := if_pos hp
  raises s p hs hp := ⟨_, if_neg hp, hs⟩
  keeps s p hs _ := hs
  others s p q _ _ hne := by rw [setStatus_of_ne p .inflight hne.symm]
  swap s p q _ _ _ hne := setStatus_comm p .inflight hne

/-- Register a handle. -/
def registered (t : Bool) (handle : HandleId) (s : State) (p : ParamId) : State :=
  s.modifyCoordinator t fun c =>
    { c with
      inflight := insert p c.inflight
      handleOf := Function.update c.handleOf p handle }

theorem register_commutes (t : Bool) (handle : HandleId) (requests : List Request) :
    Commutes (register t handle) (Requested requests)
      (fun s p => s.dsStatus p = .inflight ∧ p ∉ (s.coordinator t).inflight)
      (registered t handle) (fun e => e.requests = requests) where
  goes s p _ hp := by
    unfold register
    rw [if_neg (not_not_intro hp.1), if_neg hp.2]
    rfl
  raises s p hs hp := by
    unfold register
    by_cases hstatus : s.dsStatus p = .inflight
    · have hmem : p ∈ (s.coordinator t).inflight := by
        by_contra hmem
        exact hp ⟨hstatus, hmem⟩
      rw [if_neg (not_not_intro hstatus), if_pos hmem]
      exact ⟨_, rfl, hs⟩
    · rw [if_pos hstatus]
      exact ⟨_, rfl, hs⟩
  keeps s p hs _ := hs
  others s p q _ _ hne := by
    simp [registered, hne.symm]
  swap s p q _ _ _ hne := by
    simp only [registered, modifyCoordinator, Function.update_self,
      Function.update_idem]
    rw [Finset.insert_comm, Function.update_comm hne]

theorem insertionSort_perm {l l' : List ParamId} (h : l.Perm l') :
    l.insertionSort (· ≤ ·) = l'.insertionSort (· ≤ ·) := by
  have hperm := (l.perm_insertionSort (· ≤ ·)).trans
    (h.trans (l'.perm_insertionSort (· ≤ ·)).symm)
  exact hperm.eq_of_pairwise' (l.pairwise_insertionSort (· ≤ ·))
    (l'.pairwise_insertionSort (· ≤ ·))

theorem request_perm {l l' : List ParamId} (h : l.Perm l') :
    s.request cfg l = s.request cfg l' := by
  unfold request
  rw [insertionSort_perm h]

/-- The requests and the state of `__all_gather_params` do not depend on the
order of the set. -/
theorem allGatherParams_perm {l l' : List ParamId} (hl : l.Nodup) (h : l.Perm l') :
    outcome (s.allGatherParams cfg t l) = outcome (s.allGatherParams cfg t l') := by
  unfold allGatherParams
  have hfilter := h.filter (s.dsStatus · = .notAvailable)
  have hsum := (hfilter.map cfg.dsNumel).sum_eq
  have hnodup := hl.filter (s.dsStatus · = .notAvailable)
  revert hfilter hsum hnodup
  generalize l.filter (s.dsStatus · = .notAvailable) = xs
  generalize l'.filter (s.dsStatus · = .notAvailable) = ys
  intro hperm hsum hnodup
  simp only [hsum]
  generalize s.modifyCoordinator t _ = s₁
  by_cases hnil : xs = []
  · subst hnil
    rw [hperm.nil_eq.symm]
  · have hnil' : ys ≠ [] := by
      rintro rfl
      exact hnil hperm.eq_nil
    rw [if_neg hnil, if_neg hnil']
    rcases (markInflight_commutes s₁.requests).foldlM_perm
        (markInflight_commutes s₁.requests) rfl hnodup hperm with
      ⟨s₂, -, hrun, hrun'⟩ | ⟨e, e', hrun, hrun', he, he'⟩
    · rw [hrun, hrun']
      change outcome (xs.foldlM _ _) = outcome (ys.foldlM _ _)
      rw [request_perm hperm]
      rcases (register_commutes t s₂.handles.length (s₂.request cfg ys).requests).foldlM_perm
          (register_commutes _ _ _) rfl hnodup hperm with
        ⟨s₃, -, hrun, hrun'⟩ | ⟨e, e', hrun, hrun', he, he'⟩
      · rw [hrun, hrun']
      · rw [hrun, hrun']
        change Except.error _ = Except.error _
        rw [he, he']
    · rw [hrun, hrun']
      change Except.error _ = Except.error _
      rw [he, he']

end State

end SmartNic.Offload
