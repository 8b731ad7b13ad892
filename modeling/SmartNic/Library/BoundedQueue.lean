import Mathlib
import SmartNic.Library.Machine

/-!
# A bounded queue with one producer and one consumer

The queue as an object whose operations take effect at once, at some moment
between their call and their return.  An implementation of which every run has
the calls and returns of a run of this object is linearizable.
-/

namespace SmartNic.BoundedQueue

variable {α : Type}

/-- An operation of one client: not called, called, or about to return. -/
inductive Pending (ι ο : Type) where
  | idle
  | called (input : ι)
  | done (output : ο)
deriving DecidableEq, Repr

/-- Calls and returns.  A push returns whether the element was taken in, a pop
returns an element if there was one. -/
inductive Label (α : Type) where
  | pushCall (elem : α)
  | pushReturn (result : Bool)
  | popCall
  | popReturn (result : Option α)
deriving DecidableEq, Repr

/-- A call or return, or the effect of a push or a pop. -/
inductive Action (α : Type) where
  | visible (label : Label α)
  | push
  | pop

def Action.label : Action α → Option (Label α)
  | .visible label => some label
  | .push => none
  | .pop => none

/-- The queue, the elements that were ever taken in and given out, and the
operations of the two clients. -/
structure State (α : Type) where
  queue : List α
  accepted : List α
  taken : List α
  producer : Pending α Bool
  consumer : Pending Unit (Option α)

def State.init : State α := ⟨[], [], [], .idle, .idle⟩

/-- A push takes effect: it fails exactly if the queue is full. -/
def State.push (bound : ℕ) (s : State α) (elem : α) : State α :=
  if s.queue.length < bound then
    { s with
      queue := s.queue ++ [elem]
      accepted := s.accepted ++ [elem]
      producer := .done true }
  else { s with producer := .done false }

/-- A pop takes effect: it fails exactly if the queue is empty. -/
def State.pop (s : State α) : State α :=
  match s.queue with
  | [] => { s with consumer := .done none }
  | elem :: rest =>
      { s with
        queue := rest
        taken := s.taken ++ [elem]
        consumer := .done (some elem) }

/-- What was given out is what was taken in, in the same order and up to what is
still held, and never more is held than the bound allows. -/
structure Fifo (bound : ℕ) (s : State α) : Prop where
  accepted : s.accepted = s.taken ++ s.queue
  bounded : s.queue.length ≤ bound

theorem fifo_init (bound : ℕ) : Fifo bound (State.init : State α) where
  accepted := rfl
  bounded := Nat.zero_le bound

variable {bound : ℕ} {s s' : State α}

theorem Fifo.push (h : Fifo bound s) (elem : α) : Fifo bound (s.push bound elem) := by
  unfold State.push
  split
  next hroom =>
    constructor
    · rw [h.accepted, List.append_assoc]
    · rw [List.length_append]
      exact hroom
  · exact ⟨h.accepted, h.bounded⟩

theorem Fifo.pop (h : Fifo bound s) : Fifo bound s.pop := by
  unfold State.pop
  split
  · exact ⟨h.accepted, h.bounded⟩
  next elem rest hqueue =>
    constructor
    · rw [h.accepted, hqueue, List.append_assoc]
      rfl
    · have hbounded := h.bounded
      rw [hqueue, List.length_cons] at hbounded
      exact (Nat.le_succ _).trans hbounded

variable [DecidableEq α]

/-- One step of the object. -/
def step (bound : ℕ) (s : State α) : Action α → Option (State α)
  | .visible (.pushCall elem) =>
      if s.producer = .idle then some { s with producer := .called elem } else none
  | .visible (.pushReturn result) =>
      if s.producer = .done result then some { s with producer := .idle } else none
  | .visible .popCall =>
      if s.consumer = .idle then some { s with consumer := .called () } else none
  | .visible (.popReturn result) =>
      if s.consumer = .done result then some { s with consumer := .idle } else none
  | .push =>
      match s.producer with
      | .called elem => some (s.push bound elem)
      | _ => none
  | .pop =>
      match s.consumer with
      | .called _ => some s.pop
      | _ => none

theorem Fifo.step (h : Fifo bound s) {a : Action α}
    (hstep : BoundedQueue.step bound s a = some s') : Fifo bound s' := by
  have hsame : ∀ producer consumer,
      Fifo bound { s with producer := producer, consumer := consumer } :=
    fun _ _ => ⟨h.accepted, h.bounded⟩
  cases a with
  | visible label =>
      cases label with
      | pushCall elem =>
          obtain ⟨-, heq⟩ := Option.ite_none_right_eq_some.mp hstep
          exact Option.some.inj heq ▸ hsame _ _
      | pushReturn result =>
          obtain ⟨-, heq⟩ := Option.ite_none_right_eq_some.mp hstep
          exact Option.some.inj heq ▸ hsame _ _
      | popCall =>
          obtain ⟨-, heq⟩ := Option.ite_none_right_eq_some.mp hstep
          exact Option.some.inj heq ▸ hsame _ _
      | popReturn result =>
          obtain ⟨-, heq⟩ := Option.ite_none_right_eq_some.mp hstep
          exact Option.some.inj heq ▸ hsame _ _
  | push =>
      simp only [BoundedQueue.step] at hstep
      split at hstep
      · exact Option.some.inj hstep ▸ h.push _
      · cases hstep
  | pop =>
      simp only [BoundedQueue.step] at hstep
      split at hstep
      · exact Option.some.inj hstep ▸ h.pop
      · cases hstep

/-- The object is a queue in every run. -/
theorem fifo_of_run {acts : List (Action α)}
    (hrun : Machine.run (BoundedQueue.step bound) State.init acts = some s) :
    Fifo bound s :=
  Machine.run_invariant (fun _ _ _ hstep h => h.step hstep) hrun (fifo_init bound)

/-! ## What is given out was taken in -/

/-- Whatever the object holds, gives out or has returned was given to a push. -/
structure Called (calls : List (Label α)) (s : State α) : Prop where
  queue : ∀ elem ∈ s.queue, .pushCall elem ∈ calls
  producer : ∀ elem, s.producer = .called elem → .pushCall elem ∈ calls
  consumer : ∀ elem, s.consumer = .done (some elem) → .pushCall elem ∈ calls
  returned : ∀ elem, .popReturn (some elem) ∈ calls → .pushCall elem ∈ calls

omit [DecidableEq α] in
theorem called_init : Called [] (State.init : State α) where
  queue _ helem := by cases helem
  producer _ helem := by cases helem
  consumer _ helem := by cases helem
  returned _ helem := by cases helem

omit [DecidableEq α] in
/-- A label that returns nothing new. -/
theorem Called.append {calls : List (Label α)} (h : Called calls s)
    (labels : List (Label α))
    (hlabels : ∀ elem, .popReturn (some elem) ∈ labels → .pushCall elem ∈ calls) :
    Called (calls ++ labels) s where
  queue elem helem := List.mem_append_left _ (h.queue elem helem)
  producer elem helem := List.mem_append_left _ (h.producer elem helem)
  consumer elem helem := List.mem_append_left _ (h.consumer elem helem)
  returned elem helem := by
    rcases List.mem_append.mp helem with helem | helem
    · exact List.mem_append_left _ (h.returned elem helem)
    · exact List.mem_append_left _ (hlabels elem helem)

/-- A step adds its label to the calls. -/
theorem Called.step {calls : List (Label α)} (h : Called calls s) {a : Action α}
    (hstep : BoundedQueue.step bound s a = some s') :
    Called (calls ++ [a].filterMap Action.label) s' := by
  cases a with
  | visible label =>
      cases label with
      | pushCall elem =>
          obtain ⟨-, heq⟩ := Option.ite_none_right_eq_some.mp hstep
          obtain rfl := Option.some.inj heq
          have h' := h.append [.pushCall elem] (by simp)
          refine ⟨h'.queue, ?_, h'.consumer, h'.returned⟩
          intro e he
          cases he
          exact List.mem_append_right _ (List.mem_singleton_self _)
      | pushReturn result =>
          obtain ⟨-, heq⟩ := Option.ite_none_right_eq_some.mp hstep
          obtain rfl := Option.some.inj heq
          have h' := h.append [.pushReturn result] (by simp)
          exact ⟨h'.queue, by simp, h'.consumer, h'.returned⟩
      | popCall =>
          obtain ⟨-, heq⟩ := Option.ite_none_right_eq_some.mp hstep
          obtain rfl := Option.some.inj heq
          have h' := h.append [.popCall] (by simp)
          exact ⟨h'.queue, h'.producer, by simp, h'.returned⟩
      | popReturn result =>
          obtain ⟨hdone, heq⟩ := Option.ite_none_right_eq_some.mp hstep
          obtain rfl := Option.some.inj heq
          have h' := h.append [.popReturn result] fun elem helem => by
            have hresult : some elem = result := by simpa using helem
            exact h.consumer elem (hresult ▸ hdone)
          exact ⟨h'.queue, h'.producer, by simp, h'.returned⟩
  | push =>
      have h' := h.append [] (by simp)
      simp only [BoundedQueue.step] at hstep
      split at hstep
      next elem hcalled =>
        obtain rfl := Option.some.inj hstep
        unfold State.push
        split
        · refine ⟨?_, by simp, h'.consumer, h'.returned⟩
          intro e he
          rcases List.mem_append.mp he with he | he
          · exact h'.queue e he
          · obtain rfl := List.mem_singleton.mp he
            exact h'.producer e hcalled
        · exact ⟨h'.queue, by simp, h'.consumer, h'.returned⟩
      · cases hstep
  | pop =>
      have h' := h.append [] (by simp)
      simp only [BoundedQueue.step] at hstep
      split at hstep
      · obtain rfl := Option.some.inj hstep
        unfold State.pop
        split
        · exact ⟨h'.queue, h'.producer, by simp, h'.returned⟩
        next elem rest hqueue =>
          refine ⟨?_, h'.producer, ?_, h'.returned⟩
          · intro e he
            exact h'.queue e (hqueue ▸ List.mem_cons_of_mem _ he)
          · intro e he
            cases he
            exact h'.queue elem (hqueue ▸ List.mem_cons_self ..)
      · cases hstep

theorem Called.run {calls : List (Label α)} (h : Called calls s) {acts : List (Action α)}
    (hrun : Machine.run (BoundedQueue.step bound) s acts = some s') :
    Called (calls ++ acts.filterMap Action.label) s' := by
  induction acts generalizing s calls with
  | nil =>
      obtain rfl := Option.some.inj hrun
      exact (List.append_nil calls).symm ▸ h
  | cons a acts ih =>
      obtain ⟨s₁, hstep, hrest⟩ := Option.bind_eq_some_iff.mp hrun
      have hrun' := ih (h.step hstep) hrest
      rw [List.append_assoc, ← List.filterMap_append] at hrun'
      exact hrun'

/-- Whatever a pop returns was given to a push. -/
theorem pushed_of_returned {acts : List (Action α)} {elem : α}
    (hrun : Machine.run (BoundedQueue.step bound) State.init acts = some s)
    (hreturned : .popReturn (some elem) ∈ acts.filterMap Action.label) :
    .pushCall elem ∈ acts.filterMap Action.label :=
  (called_init.run hrun).returned elem hreturned

end SmartNic.BoundedQueue
