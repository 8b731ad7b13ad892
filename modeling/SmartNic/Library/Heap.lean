import Mathlib

/-!
# Blocks and their owners

Blocks are numbered in the order of their allocation, and what is freed is
recorded.  If every block that was allocated has been freed or has an owner, and
not both, no block is freed twice and none is lost.
-/

namespace SmartNic

structure Heap where
  next : ℕ
  freed : List ℕ

namespace Heap

def empty : Heap := ⟨0, []⟩

/-- The next block is allocated; its name is `next`. -/
def alloc (h : Heap) : Heap := { h with next := h.next + 1 }

def free (h : Heap) (b : ℕ) : Heap := { h with freed := b :: h.freed }

/-- Every allocated block has been freed once or is owned once; `owned` counts
the owners of a block. -/
def Balanced (h : Heap) (owned : ℕ → ℕ) : Prop :=
  ∀ b, h.freed.count b + owned b = if b < h.next then 1 else 0

variable {h : Heap} {owned owned' : ℕ → ℕ}

theorem balanced_empty : empty.Balanced fun _ => 0 := by
  intro b
  rfl

/-- A new block and who owns it. -/
theorem Balanced.alloc (hbal : h.Balanced owned)
    (howned : ∀ b, owned' b = owned b + if b = h.next then 1 else 0) :
    h.alloc.Balanced owned' := by
  intro b
  have hb := hbal b
  rw [howned]
  unfold Heap.alloc
  dsimp only
  by_cases hnext : b = h.next
  · rw [if_pos hnext, if_pos (by omega)]
    rw [if_neg (by omega)] at hb
    omega
  · rw [if_neg hnext]
    by_cases hlt : b < h.next
    · rw [if_pos (by omega)]
      rw [if_pos hlt] at hb
      omega
    · rw [if_neg (by omega)]
      rw [if_neg hlt] at hb
      omega

/-- The owner frees a block. -/
theorem Balanced.free {x : ℕ} (hbal : h.Balanced owned)
    (howned : ∀ b, owned b = owned' b + if b = x then 1 else 0) :
    (h.free x).Balanced owned' := by
  intro b
  have hb := hbal b
  rw [howned] at hb
  unfold Heap.free
  dsimp only
  rw [List.count_cons, ← hb]
  by_cases hx : b = x
  · subst hx
    rw [if_pos rfl, if_pos (beq_self_eq_true b)]
    omega
  · rw [if_neg hx, if_neg (by simpa using Ne.symm hx)]
    omega

/-- A block without an owner has been freed once. -/
theorem Balanced.count_eq_one (hbal : h.Balanced owned) {b : ℕ} (hlt : b < h.next)
    (hnone : owned b = 0) : h.freed.count b = 1 := by
  have hb := hbal b
  rw [if_pos hlt, hnone] at hb
  exact hb

/-- A block with an owner has not been freed. -/
theorem Balanced.count_eq_zero (hbal : h.Balanced owned) {b : ℕ} (hsome : 0 < owned b) :
    h.freed.count b = 0 := by
  have hb := hbal b
  split at hb
  · omega
  · omega

end Heap

end SmartNic
