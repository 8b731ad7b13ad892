import Mathlib.Data.Fintype.Card
import Mathlib.Order.Monotone.Basic

/-!
# Splitting work among workers

The boundaries that cut a range of given length into equal parts, the longer
ones first, and the number of workers that satisfy a test.
-/

namespace SmartNic.EvenSplit

/-! ## Boundaries -/

/-- Where part `t` of `n` parts of a range of length `total` starts. -/
def cut (total n t : ℕ) : ℕ := t * (total / n) + min t (total % n)

theorem cut_zero (total n : ℕ) : cut total n 0 = 0 := by
  simp [cut]

theorem cut_self (total : ℕ) {n : ℕ} (hn : 0 < n) : cut total n n = total := by
  have hlt := Nat.mod_lt total hn
  rw [cut, Nat.min_eq_right hlt.le]
  exact Nat.div_add_mod total n

theorem cut_succ (total n t : ℕ) :
    cut total n (t + 1) =
      cut total n t + (total / n + if t < total % n then 1 else 0) := by
  unfold cut
  rw [Nat.succ_mul]
  split
  next h => rw [Nat.min_eq_left h, Nat.min_eq_left h.le]; omega
  next h =>
    rw [Nat.min_eq_right (by omega), Nat.min_eq_right (by omega)]
    omega

theorem cut_mono (total n : ℕ) : Monotone (cut total n) :=
  monotone_nat_of_le_succ fun t => by
    rw [cut_succ]
    exact Nat.le_add_right _ _

/-- Every index of the range lies in a part. -/
theorem exists_part {total n i : ℕ} (hn : 0 < n) (hi : i < total) :
    ∃ t < n, cut total n t ≤ i ∧ i < cut total n (t + 1) := by
  have hfind : ∀ k, i < cut total n k →
      ∃ t < k, cut total n t ≤ i ∧ i < cut total n (t + 1) := by
    intro k hk
    induction k with
    | zero =>
        rw [cut_zero] at hk
        cases hk
    | succ k ih =>
        rcases Nat.lt_or_ge i (cut total n k) with hlt | hge
        · obtain ⟨t, ht, hpart⟩ := ih hlt
          exact ⟨t, Nat.lt_succ_of_lt ht, hpart⟩
        · exact ⟨k, Nat.lt_succ_self k, hge, hk⟩
  refine hfind n ?_
  rw [cut_self total hn]
  exact hi

/-- The parts are disjoint. -/
theorem part_unique {total n i t u : ℕ} (ht : cut total n t ≤ i)
    (ht' : i < cut total n (t + 1)) (hu : cut total n u ≤ i)
    (hu' : i < cut total n (u + 1)) : t = u := by
  have hmono := cut_mono total n
  rcases Nat.lt_trichotomy t u with hlt | heq | hgt
  · have hle : cut total n (t + 1) ≤ cut total n u := hmono hlt
    omega
  · exact heq
  · have hle : cut total n (u + 1) ≤ cut total n t := hmono hgt
    omega

/-! ## Counting workers -/

/-- The number of workers that pass a test. -/
def number {n : ℕ} (p : Fin n → Bool) : ℕ :=
  (Finset.univ.filter fun t => p t = true).card

theorem number_eq_zero {n : ℕ} {p : Fin n → Bool} (h : ∀ t, p t = false) :
    number p = 0 := by
  rw [number, Finset.card_eq_zero, Finset.filter_eq_empty_iff]
  intro t _
  rw [h t]
  decide

theorem number_eq_iff {n : ℕ} {p : Fin n → Bool} :
    number p = n ↔ ∀ t, p t = true := by
  constructor
  · intro h t
    have hcard : (Finset.univ.filter fun t => p t = true).card =
        (Finset.univ : Finset (Fin n)).card := by
      rw [Finset.card_fin]
      exact h
    exact Finset.filter_card_eq hcard t (Finset.mem_univ t)
  · intro h
    rw [number, Finset.filter_true_of_mem fun t _ => h t, Finset.card_fin]

theorem number_le {n : ℕ} (p : Fin n → Bool) : number p ≤ n :=
  (Finset.card_filter_le _ _).trans_eq (Finset.card_fin n)

/-- One more worker passes the test. -/
theorem number_succ {n : ℕ} {p p' : Fin n → Bool} {t : Fin n}
    (h : ∀ u, u ≠ t → p' u = p u) (ht : p t = false) (ht' : p' t = true) :
    number p' = number p + 1 := by
  have hinsert : (Finset.univ.filter fun u => p' u = true) =
      insert t (Finset.univ.filter fun u => p u = true) := by
    ext u
    by_cases hu : u = t
    · simp [hu, ht']
    · simp [hu, h u hu]
  rw [number, hinsert, Finset.card_insert_of_notMem (by simp [ht]), number]

end SmartNic.EvenSplit
