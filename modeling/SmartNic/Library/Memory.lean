import Mathlib

/-!
# Memory that is written a block at a time

Addresses hold values.  What a block holds lasts until a block that shares an
address with it is written.
-/

namespace SmartNic.Memory

variable {V : Type}

/-- `size` addresses from `base` on. -/
structure Block where
  base : ℕ
  size : ℕ
deriving DecidableEq, Repr

/-- Two blocks share no address. -/
def Block.Apart (b c : Block) : Prop :=
  ∀ i < b.size, ∀ k < c.size, b.base + i ≠ c.base + k

instance (b c : Block) : Decidable (b.Apart c) :=
  inferInstanceAs (Decidable (∀ i < b.size, ∀ k < c.size, _))

/-- A block lies in another. -/
def Block.Within (b c : Block) : Prop :=
  c.base ≤ b.base ∧ b.base + b.size ≤ c.base + c.size

/-- What a block holds. -/
def load (mem : ℕ → V) (b : Block) : List V :=
  (List.range b.size).map fun i => mem (b.base + i)

/-- Write values from an address on. -/
def store (mem : ℕ → V) (base : ℕ) (values : List V) : ℕ → V :=
  fun i => if base ≤ i then (values[i - base]?).getD (mem i) else mem i

theorem Block.Apart.symm {b c : Block} (h : b.Apart c) : c.Apart b :=
  fun i hi k hk heq => h k hk i hi heq.symm

theorem Block.Apart.within {b c d : Block} (h : b.Apart c) (hd : d.Within c) :
    b.Apart d := by
  obtain ⟨hbase, hend⟩ := hd
  intro i hi k hk heq
  exact h i hi (d.base + k - c.base) (by omega) (by omega)

theorem Block.Within.refl (b : Block) : b.Within b := ⟨le_rfl, le_rfl⟩

theorem Block.Within.trans {b c d : Block} (h : b.Within c) (h' : c.Within d) : b.Within d :=
  ⟨h'.1.trans h.1, h.2.trans h'.2⟩

/-- A block that ends before another begins. -/
theorem Block.apart_of_le {b c : Block} (h : b.base + b.size ≤ c.base) : b.Apart c := by
  intro i hi k _ heq
  omega

variable {mem : ℕ → V} {b : Block} {base : ℕ} {values : List V}

@[simp]
theorem length_load : (load mem b).length = b.size := by
  rw [load, List.length_map, List.length_range]

theorem store_add {k : ℕ} (hk : k < values.length) :
    store mem base values (base + k) = values[k] := by
  unfold store
  rw [if_pos (Nat.le_add_right _ _), Nat.add_sub_cancel_left,
    List.getElem?_eq_getElem hk]
  rfl

theorem store_of_notMem {i : ℕ} (hi : ∀ k < values.length, base + k ≠ i) :
    store mem base values i = mem i := by
  unfold store
  split
  · rename_i hle
    rw [List.getElem?_eq_none]
    · rfl
    · by_contra hlt
      exact hi (i - base) (not_le.mp hlt) (Nat.add_sub_of_le hle)
  · rfl

theorem load_store (hsize : b.size = values.length) :
    load (store mem b.base values) b = values := by
  apply List.ext_getElem
  · rw [length_load, hsize]
  · intro i hi hi'
    simp only [load, List.getElem_map, List.getElem_range]
    exact store_add hi'

theorem load_store_of_apart (hapart : Block.Apart ⟨base, values.length⟩ b) :
    load (store mem base values) b = load mem b := by
  apply List.map_congr_left
  intro i hi
  apply store_of_notMem
  intro k hk
  exact hapart k hk i (List.mem_range.mp hi)

/-- What a part of a block holds. -/
theorem load_part {i n : ℕ} (hfits : i + n ≤ b.size) :
    load mem ⟨b.base + i, n⟩ = ((load mem b).drop i).take n := by
  apply List.ext_getElem
  · rw [length_load, List.length_take, List.length_drop, length_load]
    exact (Nat.min_eq_left (Nat.le_sub_of_add_le' hfits)).symm
  · intro j hj hj'
    simp only [load, List.getElem_map, List.getElem_range, List.getElem_take,
      List.getElem_drop, Nat.add_assoc]

end SmartNic.Memory
