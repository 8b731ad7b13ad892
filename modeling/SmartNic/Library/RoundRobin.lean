import Mathlib

/-!
# Slots in turn

Use `k` of `size` slots has slot `k % size` and is counted there.  Uses that are
less than `size` apart have different slots, and on one slot the count grows.
The next slot is found with a mask if the size is a power of two.
-/

namespace SmartNic.RoundRobin

variable {size : ℕ}

/-- How often a slot was used in the first `n` uses. -/
def used (size slot n : ℕ) : ℕ := Nat.count (· % size = slot) n

/-- The count of use `k` on its slot. -/
def generation (size k : ℕ) : ℕ := used size (k % size) (k + 1)

theorem used_zero (slot : ℕ) : used size slot 0 = 0 := Nat.count_zero _

theorem used_succ_self (n : ℕ) :
    used size (n % size) (n + 1) = used size (n % size) n + 1 :=
  Nat.count_succ_eq_succ_count_iff.mpr rfl

theorem used_succ_of_ne {slot n : ℕ} (h : slot ≠ n % size) :
    used size slot (n + 1) = used size slot n :=
  Nat.count_succ_eq_count_iff.mpr fun heq => h heq.symm

theorem generation_pos (k : ℕ) : 0 < generation size k := by
  rw [generation, used_succ_self]
  exact Nat.succ_pos _

theorem generation_lt {j k : ℕ} (hjk : j < k) (hslot : j % size = k % size) :
    generation size j < generation size k := by
  rw [generation, generation, ← hslot]
  calc used size (j % size) (j + 1)
      ≤ used size (j % size) k := Nat.count_monotone _ hjk
    _ < used size (j % size) (k + 1) :=
        Nat.count_strict_mono hslot.symm (Nat.lt_succ_self k)

theorem slot_ne {j k : ℕ} (hjk : j < k) (hclose : k < j + size) :
    j % size ≠ k % size := by
  intro h
  have hdvd : size ∣ k - j := (Nat.modEq_iff_dvd' hjk.le).mp h
  have hle := Nat.le_of_dvd (Nat.sub_pos_of_lt hjk) hdvd
  omega

/-- The use before on the same slot. -/
theorem sub_slot {k : ℕ} (h : size ≤ k) : (k - size) % size = k % size :=
  (Nat.mod_eq_sub_mod h).symm

/-- What the mask test accepts is a power of two. -/
theorem exists_eq_two_pow {n : ℕ} (hpos : n ≠ 0) (h : n &&& (n - 1) = 0) :
    ∃ k, n = 2 ^ k := by
  induction n using Nat.strong_induction_on with
  | _ n ih =>
      rcases Nat.even_or_odd' n with ⟨m, rfl | rfl⟩
      · have hpred : 2 * m - 1 = 2 * (m - 1) + 1 := by omega
        have hbits := Nat.land_bit false m true (m - 1)
        simp only [Nat.bit, cond_false, cond_true, Bool.false_and] at hbits
        rw [hpred, hbits] at h
        obtain ⟨k, hk⟩ := ih m (by omega) (by omega) (by omega)
        exact ⟨k + 1, by rw [hk, Nat.pow_succ']⟩
      · have hbits := Nat.land_bit true m false m
        simp only [Nat.bit, cond_false, cond_true, Bool.and_false,
          Nat.and_self] at hbits
        rw [Nat.add_sub_cancel, hbits] at h
        exact ⟨0, by omega⟩

theorem and_mask {n : ℕ} (hpos : n ≠ 0) (h : n &&& (n - 1) = 0) (x : ℕ) :
    x &&& (n - 1) = x % n := by
  obtain ⟨k, rfl⟩ := exists_eq_two_pow hpos h
  exact Nat.and_two_pow_sub_one_eq_mod x k

end SmartNic.RoundRobin
