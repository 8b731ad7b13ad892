import Mathlib

/-!
# Writes that are pending

Blocks of memory are written by a queue of writes, the oldest first and each
element by element in any order.  What the memory will hold when the queue is
empty does not change while the writes are performed.
-/

namespace SmartNic.PendingWrites

variable {κ ι α : Type} [DecidableEq κ] [DecidableEq ι]

/-- A write to a block and the elements of it that are not written yet. -/
structure Write (κ ι α : Type) where
  target : κ
  source : ι → α
  todo : Finset ι

/-- A block after the rest of a write to it. -/
def Write.onto (w : Write κ ι α) (block : ι → α) : ι → α :=
  fun i => if i ∈ w.todo then w.source i else block i

/-- What the memory will hold. -/
def settled (mem : κ → ι → α) (writes : List (Write κ ι α)) : κ → ι → α :=
  writes.foldl (fun mem w => Function.update mem w.target (w.onto (mem w.target))) mem

/-- Write an element. -/
def store (mem : κ → ι → α) (k : κ) (i : ι) (x : α) : κ → ι → α :=
  Function.update mem k (Function.update (mem k) i x)

@[simp]
theorem store_self (mem : κ → ι → α) (k : κ) (i : ι) (x : α) :
    store mem k i x k i = x := by
  simp [store]

theorem store_of_ne (mem : κ → ι → α) {k k' : κ} {i i' : ι} (x : α)
    (h : k' = k → i' ≠ i) : store mem k i x k' i' = mem k' i' := by
  unfold store
  by_cases hk : k' = k
  · subst hk
    rw [Function.update_self, Function.update_of_ne (h rfl)]
  · rw [Function.update_of_ne hk]

variable {mem : κ → ι → α} {w : Write κ ι α} {writes : List (Write κ ι α)}

theorem settled_append :
    settled mem (writes ++ [w]) =
      Function.update (settled mem writes) w.target
        (w.onto (settled mem writes w.target)) := by
  simp [settled]

/-- A write that is queued last leaves its source. -/
theorem settled_append_self {i : ι} (hi : i ∈ w.todo) :
    settled mem (writes ++ [w]) w.target i = w.source i := by
  rw [settled_append, Function.update_self, Write.onto, if_pos hi]

theorem settled_append_of_ne {k : κ} (hk : k ≠ w.target) :
    settled mem (writes ++ [w]) k = settled mem writes k := by
  rw [settled_append, Function.update_of_ne hk]

/-- The oldest write writes an element. -/
theorem settled_store {i : ι} (hi : i ∈ w.todo) :
    settled (store mem w.target i (w.source i))
        ({ w with todo := w.todo.erase i } :: writes) =
      settled mem (w :: writes) := by
  simp only [settled, List.foldl_cons]
  congr 1
  funext k j
  by_cases hk : k = w.target
  · subst hk
    simp only [Function.update_self, Write.onto, Finset.mem_erase]
    by_cases hj : j = i
    · subst hj
      simp [hi]
    · simp [hj, store_of_ne]
  · rw [Function.update_of_ne hk, Function.update_of_ne hk, store_of_ne]
    exact fun h => absurd h hk

/-- The oldest write is done. -/
theorem settled_done (h : w.todo = ∅) :
    settled mem (w :: writes) = settled mem writes := by
  have honto : w.onto (mem w.target) = mem w.target := by
    funext i
    simp [Write.onto, h]
  simp only [settled, List.foldl_cons, honto, Function.update_eq_self]

/-- An element that no write is going to write holds what it will hold. -/
theorem settled_eq {k : κ} {i : ι}
    (h : ∀ w ∈ writes, w.target = k → i ∉ w.todo) :
    settled mem writes k i = mem k i := by
  induction writes generalizing mem with
  | nil => rfl
  | cons w writes ih =>
      have hw := h w List.mem_cons_self
      have hrest := @ih (Function.update mem w.target (w.onto (mem w.target)))
        fun w' hw' => h w' (List.mem_cons_of_mem _ hw')
      refine hrest.trans ?_
      by_cases hk : k = w.target
      · subst hk
        rw [Function.update_self, Write.onto, if_neg (hw rfl)]
      · rw [Function.update_of_ne hk]

end SmartNic.PendingWrites
