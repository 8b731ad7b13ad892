import Mathlib

/-!
# Measuring a growing set of times

Times are added to a set as long as a condition holds.  A meter measures the set
by the lengths of the periods in which it grew: it remembers where the open
period began and adds it to a total when it closes.
-/

namespace SmartNic

/-- The times from `now` to `t`, if the set grows. -/
def grow (active : Prop) [Decidable active] (now t : ℕ) : Finset ℕ :=
  if active then Finset.Ico now t else ∅

/-- The total and the open period together measure the set. -/
structure Meter (busy : Finset ℕ) (total start : ℕ) (active : Prop) [Decidable active]
    (now : ℕ) : Prop where
  card_eq : total + (if active then now - start else 0) = busy.card
  lt_now : ∀ x ∈ busy, x < now
  start_le : active → start ≤ now

variable {busy busy' : Finset ℕ} {total start now t : ℕ} {p q : Prop} [Decidable p]
  [Decidable q]

theorem mem_grow {x : ℕ} : x ∈ grow p now t ↔ p ∧ now ≤ x ∧ x < t := by
  unfold grow
  split
  · rename_i hp
    rw [Finset.mem_Ico]
    exact ⟨fun hx => ⟨hp, hx⟩, And.right⟩
  · rename_i hp
    exact ⟨fun hx => absurd hx (Finset.notMem_empty x), fun hx => absurd hx.1 hp⟩

/-- Sets that grow at different times do not meet in what the other adds. -/
theorem union_grow_inter (hbusy : ∀ x ∈ busy, x < now) (hbusy' : ∀ x ∈ busy', x < now) :
    (busy ∪ grow p now t) ∩ (busy' ∪ grow q now t) = busy ∩ busy' ∪ grow (p ∧ q) now t := by
  ext x
  simp only [Finset.mem_inter, Finset.mem_union, mem_grow]
  constructor
  · rintro ⟨hx | hx, hx' | hx'⟩
    · exact .inl ⟨hx, hx'⟩
    · exact absurd (hbusy x hx) (not_lt.mpr hx'.2.1)
    · exact absurd (hbusy' x hx') (not_lt.mpr hx.2.1)
    · exact .inr ⟨⟨hx.1, hx'.1⟩, hx.2⟩
  · rintro (⟨hx, hx'⟩ | ⟨⟨hp, hq⟩, hx⟩)
    · exact ⟨.inl hx, .inl hx'⟩
    · exact ⟨.inr ⟨hp, hx⟩, .inr ⟨hq, hx⟩⟩

namespace Meter

theorem empty : Meter ∅ 0 start False now where
  card_eq := rfl
  lt_now x hx := absurd hx (Finset.notMem_empty x)
  start_le h := h.elim

/-- Time passes. -/
theorem advance (h : Meter busy total start p now) (ht : now ≤ t) :
    Meter (busy ∪ grow p now t) total start p t where
  card_eq := by
    have hdisjoint : Disjoint busy (grow p now t) := by
      rw [Finset.disjoint_left]
      intro x hx hgrow
      exact absurd (h.lt_now x hx) (not_lt.mpr (mem_grow.mp hgrow).2.1)
    rw [Finset.card_union_of_disjoint hdisjoint, ← h.card_eq]
    unfold grow
    split
    · rename_i hp
      have hstart := h.start_le hp
      rw [Nat.card_Ico]
      omega
    · rw [Finset.card_empty]
  lt_now x hx := by
    rcases Finset.mem_union.mp hx with hold | hgrow
    · exact lt_of_lt_of_le (h.lt_now x hold) ht
    · exact (mem_grow.mp hgrow).2.2
  start_le hp := (h.start_le hp).trans ht

/-- The set begins to grow, or the new period has no length yet. -/
theorem opened (h : Meter busy total start p now) (hidle : ¬ p) :
    Meter busy total now q now where
  card_eq := by
    have hcard := h.card_eq
    rw [if_neg hidle] at hcard
    rw [Nat.sub_self, ite_self]
    exact hcard
  lt_now := h.lt_now
  start_le _ := le_rfl

/-- The set stops growing. -/
theorem closed {start' : ℕ} (h : Meter busy total start p now) (hactive : p) (hidle : ¬ q) :
    Meter busy (total + (now - start)) start' q now where
  card_eq := by
    have hcard := h.card_eq
    rw [if_pos hactive] at hcard
    rw [if_neg hidle]
    exact hcard
  lt_now := h.lt_now
  start_le hq := absurd hq hidle

/-- Nothing changes. -/
theorem kept (h : Meter busy total start p now) (hiff : q ↔ p) :
    Meter busy total start q now where
  card_eq := by
    have hcard := h.card_eq
    by_cases hp : p
    · rw [if_pos hp] at hcard
      rwa [if_pos (hiff.mpr hp)]
    · rw [if_neg hp] at hcard
      rwa [if_neg fun hq => hp (hiff.mp hq)]
  lt_now := h.lt_now
  start_le hq := h.start_le (hiff.mp hq)

/-- What is measured lies between zero and now. -/
theorem card_le (h : Meter busy total start p now) : busy.card ≤ now := by
  have hsub : busy ⊆ Finset.range now := by
    intro x hx
    exact Finset.mem_range.mpr (h.lt_now x hx)
  exact (Finset.card_le_card hsub).trans_eq (Finset.card_range now)

end Meter

end SmartNic
