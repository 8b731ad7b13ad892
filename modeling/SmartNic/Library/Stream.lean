import Mathlib

/-!
# In-order streams

Operations are executed in the order in which they were enqueued.  They are
numbered in this order.
-/

namespace SmartNic

structure Stream (Op : Type) where
  pending : List Op
  executed : ℕ

namespace Stream

variable {Op : Type}

def empty : Stream Op := ⟨[], 0⟩

/-- How many operations have been enqueued. -/
def issued (s : Stream Op) : ℕ := s.executed + s.pending.length

def push (s : Stream Op) (op : Op) : Stream Op :=
  { s with pending := s.pending ++ [op] }

def pushAll (s : Stream Op) (ops : List Op) : Stream Op :=
  { s with pending := s.pending ++ ops }

/-- Execute the first operation, if it is ready. -/
def execute (s : Stream Op) (ready : Op → Bool) : Option (Op × Stream Op) :=
  match s.pending with
  | [] => none
  | op :: rest => if ready op then some (op, ⟨rest, s.executed + 1⟩) else none

/-- The operation of a number is pending. -/
def Holds (s : Stream Op) (n : ℕ) (op : Op) : Prop :=
  s.executed ≤ n ∧ s.pending[n - s.executed]? = some op

variable {s s' : Stream Op} {op op' : Op} {n : ℕ}

theorem mem_push : op' ∈ (s.push op).pending ↔ op' ∈ s.pending ∨ op' = op := by
  rw [push, List.mem_append, List.mem_singleton]

theorem Holds.mem (h : s.Holds n op) : op ∈ s.pending := List.mem_of_getElem? h.2

theorem exists_holds (h : op ∈ s.pending) : ∃ n, s.Holds n op := by
  obtain ⟨i, hi⟩ := List.getElem?_of_mem h
  refine ⟨s.executed + i, Nat.le_add_right _ _, ?_⟩
  rwa [Nat.add_sub_cancel_left]

theorem Holds.lt_issued (h : s.Holds n op) : n < s.issued := by
  obtain ⟨hle, hop⟩ := h
  obtain ⟨hlt, -⟩ := List.getElem?_eq_some_iff.mp hop
  unfold issued
  omega

theorem issued_push : (s.push op).issued = s.issued + 1 := by
  simp only [issued, push, List.length_append, List.length_singleton, Nat.add_assoc]

/-- The operations after a new one: those before it, and it with the next
number. -/
theorem Holds.of_push (h : (s.push op).Holds n op') :
    s.Holds n op' ∨ n = s.issued ∧ op' = op := by
  obtain ⟨hle, hop⟩ := h
  change s.executed ≤ n at hle
  change (s.pending ++ [op])[n - s.executed]? = some op' at hop
  rcases lt_or_ge (n - s.executed) s.pending.length with hlt | hge
  · rw [List.getElem?_append_left hlt] at hop
    exact .inl ⟨hle, hop⟩
  · rw [List.getElem?_append_right hge] at hop
    obtain ⟨hzero, heq⟩ := List.getElem?_eq_some_iff.mp hop
    rw [List.length_singleton] at hzero
    refine .inr ⟨?_, ?_⟩
    · unfold issued
      omega
    · rw [← heq, List.getElem_singleton]

theorem execute_eq_some {ready : Op → Bool} (h : s.execute ready = some (op, s')) :
    s.Holds s.executed op ∧ ready op = true ∧ s.pending = op :: s'.pending ∧
      s'.executed = s.executed + 1 := by
  unfold execute at h
  split at h
  · cases h
  · rename_i head rest hpending
    split at h
    · rename_i hready
      cases h
      refine ⟨⟨le_rfl, ?_⟩, hready, hpending, rfl⟩
      rw [hpending, Nat.sub_self, List.getElem?_cons_zero]
    · cases h

/-- What is pending after an operation was executed was pending before. -/
theorem Holds.of_execute {ready : Op → Bool} (h : s.execute ready = some (op, s'))
    (hop : s'.Holds n op') : s.Holds n op' ∧ s'.executed = s.executed + 1 := by
  obtain ⟨-, -, hpending, hexecuted⟩ := execute_eq_some h
  obtain ⟨hle, hop⟩ := hop
  refine ⟨⟨by omega, ?_⟩, hexecuted⟩
  rw [hpending, show n - s.executed = n - s'.executed + 1 by omega,
    List.getElem?_cons_succ]
  exact hop

end Stream

end SmartNic
