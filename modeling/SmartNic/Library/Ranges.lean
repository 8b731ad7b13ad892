import Mathlib

/-!
# Byte ranges

A use occupies a range of bytes or, at present, none.  Uses are separate if no
two of them share a byte.
-/

namespace SmartNic.Ranges

/-- `len` bytes from `start` on. -/
structure Range where
  start : ℕ
  len : ℕ
deriving DecidableEq, Repr

namespace Range

def stop (a : Range) : ℕ := a.start + a.len

def bytes (a : Range) : Set ℕ := Set.Ico a.start a.stop

/-- One range ends before the other begins, or one of them is empty. -/
def Apart (a b : Range) : Prop :=
  a.len = 0 ∨ b.len = 0 ∨ a.stop ≤ b.start ∨ b.stop ≤ a.start

instance (a b : Range) : Decidable (a.Apart b) :=
  inferInstanceAs (Decidable (_ ∨ _))

theorem disjoint_bytes_iff (a b : Range) :
    Disjoint a.bytes b.bytes ↔ a.Apart b := by
  unfold bytes Apart stop
  rw [Set.Ico_disjoint_Ico]
  omega

theorem Apart.symm {a b : Range} (h : a.Apart b) : b.Apart a := by
  unfold Apart at h ⊢
  omega

theorem Apart.add {a b m n : ℕ} (h : Apart ⟨a, m⟩ ⟨b, n⟩) (k : ℕ) :
    Apart ⟨k + a, m⟩ ⟨k + b, n⟩ := by
  unfold Apart stop at h ⊢
  dsimp only at h ⊢
  omega

/-- A part of a range is apart from what the range is apart from. -/
theorem Apart.mono {a b a' b' : Range} (h : a.Apart b)
    (ha : a.start ≤ a'.start) (ha' : a'.stop ≤ a.stop)
    (hb : b.start ≤ b'.start) (hb' : b'.stop ≤ b.stop) : a'.Apart b' := by
  unfold Apart stop at *
  omega

/-- Ranges that are not apart share a byte. -/
theorem exists_of_not_apart {a b : Range} (h : ¬ a.Apart b) :
    ∃ x < a.len, ∃ y < b.len, a.start + x = b.start + y := by
  unfold Apart stop at h
  rcases Nat.le_total a.start b.start with hle | hle
  · exact ⟨b.start - a.start, by omega, 0, by omega, by omega⟩
  · exact ⟨0, by omega, a.start - b.start, by omega, by omega⟩

theorem Apart.ne {a b : Range} (h : a.Apart b) {x y : ℕ} (hx : x < a.len)
    (hy : y < b.len) : a.start + x ≠ b.start + y := by
  unfold Apart stop at h
  omega

end Range

/-! ## Parts that follow each other -/

section Offsets

variable {I : Type} [DecidableEq I] (size : I → ℕ)

theorem sum_takeWhile_cons_of_ne (items : List I) {p q : I} (h : q ≠ p) :
    (((q :: items).takeWhile (· ≠ p)).map size).sum =
      size q + ((items.takeWhile (· ≠ p)).map size).sum := by
  simp [h]

/-- The part of an item is apart from those of the others. -/
theorem apart_of_offsets (items : List I) {p q : I} (hp : p ∈ items) (hpq : p ≠ q) :
    Range.Apart ⟨((items.takeWhile (· ≠ p)).map size).sum, size p⟩
      ⟨((items.takeWhile (· ≠ q)).map size).sum, size q⟩ := by
  induction items with
  | nil => cases hp
  | cons r items ih =>
      by_cases hrp : r = p
      · subst hrp
        rw [sum_takeWhile_cons_of_ne size items hpq]
        refine .inr (.inr (.inl ?_))
        simp [Range.stop]
      · by_cases hrq : r = q
        · subst hrq
          rw [sum_takeWhile_cons_of_ne size items hrp]
          refine .inr (.inr (.inr ?_))
          simp [Range.stop]
        · rw [sum_takeWhile_cons_of_ne size items hrp,
            sum_takeWhile_cons_of_ne size items hrq]
          apply Range.Apart.add
          exact ih ((List.mem_cons.mp hp).resolve_left fun h => hrp h.symm)

/-- What is apart from the part of every item is apart from all of them
together. -/
theorem apart_of_parts (items : List I) (hnodup : items.Nodup) (start : ℕ) (r : Range)
    (h : ∀ p ∈ items, Range.Apart
      ⟨start + ((items.takeWhile (· ≠ p)).map size).sum, size p⟩ r) :
    Range.Apart ⟨start, (items.map size).sum⟩ r := by
  induction items generalizing start with
  | nil => exact .inl rfl
  | cons q items ih =>
      obtain ⟨hq, hrest⟩ := List.nodup_cons.mp hnodup
      have hfirst := h q List.mem_cons_self
      have hothers := ih hrest (start + size q) fun p hp => by
        have hpart := h p (List.mem_cons_of_mem _ hp)
        have hne : q ≠ p := by
          rintro rfl
          exact hq hp
        rw [sum_takeWhile_cons_of_ne size items hne] at hpart
        rwa [Nat.add_assoc]
      rw [List.takeWhile_cons_of_neg (by simp), List.map_nil, List.sum_nil,
        Nat.add_zero] at hfirst
      rw [List.map_cons, List.sum_cons]
      unfold Range.Apart Range.stop at *
      dsimp only at *
      omega

end Offsets

variable {U : Type}

def Separate (uses : U → Option Range) : Prop :=
  ∀ u v, u ≠ v → ∀ a ∈ uses u, ∀ b ∈ uses v, Disjoint a.bytes b.bytes

end SmartNic.Ranges
