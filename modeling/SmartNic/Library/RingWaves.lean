import Mathlib

/-!
# Waves around a ring

The members of a ring forward waves: every member but the first has forwarded
at most as many as its predecessor, and the first is at most one ahead of the
last.  Then no two members are more than one wave apart, so that every second
wave finds all members past the wave before it.
-/

namespace SmartNic.RingWaves

variable {n : ℕ} [NeZero n]

/-- How many waves each member has forwarded. -/
structure Ordered (waves : Fin n → ℕ) : Prop where
  follower : ∀ r, r ≠ 0 → waves r ≤ waves (r - 1)
  leader : waves 0 ≤ waves (0 - 1) + 1

variable {waves : Fin n → ℕ}

/-- Going back from `r` to an earlier member the count does not decrease. -/
theorem Ordered.antitone (h : Ordered waves) : Antitone waves := by
  obtain ⟨m, rfl⟩ := Nat.exists_eq_succ_of_ne_zero (NeZero.ne n)
  refine Fin.antitone_iff_succ_le.mpr ?_
  intro i
  have hstep := h.follower i.succ (Fin.succ_ne_zero i)
  have hpred : i.succ - 1 = i.castSucc := by
    rw [sub_eq_iff_eq_add, ← Fin.coeSucc_eq_succ]
  rwa [hpred] at hstep

/-- No member is more than one wave ahead of another. -/
theorem Ordered.le_add_one (h : Ordered waves) (r s : Fin n) :
    waves r ≤ waves s + 1 := by
  have hfirst : waves r ≤ waves 0 := h.antitone (Fin.zero_le r)
  have hlast : waves (0 - 1) ≤ waves s := by
    obtain ⟨m, rfl⟩ := Nat.exists_eq_succ_of_ne_zero (NeZero.ne n)
    have hle : s ≤ 0 - 1 := by
      rw [Fin.le_def, Fin.coe_sub_one, if_pos rfl]
      exact Nat.le_of_lt_succ s.isLt
    exact h.antitone hle
  have hleader := h.leader
  omega

end SmartNic.RingWaves
