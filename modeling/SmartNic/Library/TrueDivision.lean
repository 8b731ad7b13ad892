import Mathlib.Data.Nat.Log
import Mathlib.Tactic.Ring

/-!
# Rounding up a true division

Python divides two integers to the nearest double and `math.ceil` then rounds
the double up.  For a dividend below `2 ^ 53` the result is the rounded-up
quotient; beyond that the double may have lost the fraction.
-/

namespace SmartNic.TrueDivision

/-- `a / b` rounded to the nearest integer, halves to even. -/
def roundHalfEven (a b : ℕ) : ℕ :=
  let q := a / b
  if 2 * (a % b) < b then q
  else if 2 * (a % b) = b then q + q % 2
  else q + 1

/-- `math.ceil(a / b)`.  A quotient of at least one is a double with 53
significant bits: a multiple of `2 ^ -k` below `2 ^ 53` and an integer above.
A smaller positive quotient is a double of at most one. -/
def ceilTrueDiv (a b : ℕ) : ℕ :=
  let e := Nat.log 2 (a / b)
  if a = 0 then 0
  else if a / b = 0 then 1
  else if e ≤ 52 then
    let k := 52 - e
    (roundHalfEven (a * 2 ^ k) b + (2 ^ k - 1)) / 2 ^ k
  else roundHalfEven a (b * 2 ^ (e - 52)) * 2 ^ (e - 52)

/-- A remainder above one half rounds up. -/
theorem roundHalfEven_of_lt {a b : ℕ} (h : b < 2 * (a % b)) :
    roundHalfEven a b = a / b + 1 := by
  simp only [roundHalfEven]
  split_ifs <;> omega

theorem roundHalfEven_of_dvd {a b : ℕ} (hb : 0 < b) (h : b ∣ a) :
    roundHalfEven a b = a / b := by
  have hmod : a % b = 0 := Nat.mod_eq_zero_of_dvd h
  simp [roundHalfEven, hmod, hb]

theorem div_le_roundHalfEven (a b : ℕ) : a / b ≤ roundHalfEven a b := by
  simp only [roundHalfEven]
  split_ifs <;> omega

theorem roundHalfEven_le (a b : ℕ) : roundHalfEven a b ≤ a / b + 1 := by
  simp only [roundHalfEven]
  split_ifs <;> omega

/-- The integer that `n / k` rounds up to is the one just above. -/
theorem ceilDiv_eq {n k f : ℕ} (hlo : f * k < n) (hhi : n ≤ (f + 1) * k) :
    (n + (k - 1)) / k = f + 1 := by
  have hmul : (f + 1) * k = f * k + k := Nat.succ_mul f k
  have hmul2 : (f + 1 + 1) * k = (f + 1) * k + k := Nat.succ_mul (f + 1) k
  exact Nat.div_eq_of_lt_le (by omega) (by omega)

theorem ceilDiv_mul {k f : ℕ} (hk : 0 < k) : (k * f + (k - 1)) / k = f := by
  rw [Nat.mul_add_div hk, Nat.div_eq_of_lt (by omega), Nat.add_zero]

/-- A quotient that is no integer lies at least `1 / b` above the integer
below it, and with fewer than 53 bits in `a` that is more than half a unit in
the last place: the nearest double is still above that integer. -/
theorem lt_roundHalfEven {a b k : ℕ} (hndvd : ¬ b ∣ a) (hb : 0 < b)
    (hfine : b < 2 * k) : a / b * k < roundHalfEven (a * k) b := by
  have hdiv := Nat.div_add_mod a b
  have hmod : 0 < a % b :=
    Nat.pos_of_ne_zero fun h => hndvd (Nat.dvd_of_mod_eq_zero h)
  have hsplit : a * k = b * (a / b * k) + a % b * k := by
    calc
      a * k = (b * (a / b) + a % b) * k := by rw [hdiv]
      _ = b * (a / b * k) + a % b * k := by ring
  have hrem : k ≤ a % b * k := Nat.le_mul_of_pos_left k hmod
  by_cases hlt : a % b * k < b
  · have hq : a * k / b = a / b * k := by
      rw [hsplit, Nat.mul_add_div hb, Nat.div_eq_of_lt hlt, Nat.add_zero]
    have hr : a * k % b = a % b * k := by
      rw [hsplit, Nat.mul_add_mod, Nat.mod_eq_of_lt hlt]
    rw [roundHalfEven_of_lt (by omega), hq]
    omega
  · have hq : a / b * k + 1 ≤ a * k / b := by
      rw [Nat.le_div_iff_mul_le hb, hsplit]
      have hcomm : (a / b * k + 1) * b = b * (a / b * k) + b := by ring
      omega
    have hle := div_le_roundHalfEven (a * k) b
    omega

theorem roundHalfEven_le_mul {a b k : ℕ} (hb : 0 < b) (hk : 0 < k) :
    roundHalfEven (a * k) b ≤ (a / b + 1) * k := by
  have hlt : a * k / b < (a / b + 1) * k := by
    rw [Nat.div_lt_iff_lt_mul hb]
    have ha : a < (a / b + 1) * b := by
      have hmod := Nat.mod_lt a hb
      have hdiv := Nat.div_add_mod a b
      have hcomm : (a / b + 1) * b = b * (a / b) + b := by ring
      omega
    calc
      a * k < (a / b + 1) * b * k := Nat.mul_lt_mul_of_pos_right ha hk
      _ = (a / b + 1) * k * b := by ring
  have hle := roundHalfEven_le (a * k) b
  omega

/-- Below `2 ^ 53` rounding up the true division loses nothing. -/
theorem ceilTrueDiv_eq {a b : ℕ} (ha : a < 2 ^ 53) (hb : 0 < b) :
    ceilTrueDiv a b = (a + (b - 1)) / b := by
  unfold ceilTrueDiv
  by_cases hzero : a = 0
  · simp [hzero, Nat.div_eq_of_lt (Nat.sub_lt hb one_pos)]
  by_cases hsmall : a / b = 0
  · have hlt : a < b := by
      rcases Nat.div_eq_zero_iff.mp hsmall with h | h
      · omega
      · exact h
    simp only [hzero, hsmall, if_false, if_true]
    rw [ceilDiv_eq (f := 0) (by omega) (by omega)]
  have hf : a / b < 2 ^ 53 := (Nat.div_le_self a b).trans_lt ha
  have he : Nat.log 2 (a / b) ≤ 52 := by
    have h := Nat.log_lt_of_lt_pow hsmall hf
    omega
  simp only [hzero, hsmall, if_false, he, if_true]
  have hpow : 2 ^ (52 - Nat.log 2 (a / b)) * 2 ^ Nat.log 2 (a / b) =
      2 ^ 52 := by
    rw [← pow_add]
    congr 1
    omega
  have hlog : 2 ^ Nat.log 2 (a / b) ≤ a / b := Nat.pow_log_le_self 2 hsmall
  have hk : 0 < 2 ^ (52 - Nat.log 2 (a / b)) := Nat.two_pow_pos _
  generalize 2 ^ (52 - Nat.log 2 (a / b)) = k at hpow hk ⊢
  by_cases hdvd : b ∣ a
  · obtain ⟨f, rfl⟩ := hdvd
    have hround : roundHalfEven (b * f * k) b = k * f := by
      rw [roundHalfEven_of_dvd hb ⟨f * k, by ring⟩, Nat.mul_assoc,
        Nat.mul_div_cancel_left _ hb, Nat.mul_comm]
    rw [hround, ceilDiv_mul hk, ceilDiv_mul hb]
  · have hfine : b < 2 * k := by
      have hle : b * (a / b) ≤ a := Nat.mul_div_le a b
      have hcmp : b * 2 ^ Nat.log 2 (a / b) <
          2 * k * 2 ^ Nat.log 2 (a / b) := by
        calc
          b * 2 ^ Nat.log 2 (a / b) ≤ b * (a / b) :=
            Nat.mul_le_mul_left b hlog
          _ < 2 * (k * 2 ^ Nat.log 2 (a / b)) := by rw [hpow]; omega
          _ = 2 * k * 2 ^ Nat.log 2 (a / b) := by ring
      exact Nat.lt_of_mul_lt_mul_right hcmp
    have hmod : 0 < a % b :=
      Nat.pos_of_ne_zero fun h => hdvd (Nat.dvd_of_mod_eq_zero h)
    have hdiv := Nat.div_add_mod a b
    have hlt := Nat.mod_lt a hb
    have hcomm : (a / b + 1) * b = b * (a / b) + b := by ring
    have hcomm' : a / b * b = b * (a / b) := by ring
    rw [ceilDiv_eq (lt_roundHalfEven hdvd hb hfine)
        (roundHalfEven_le_mul hb hk),
      ceilDiv_eq (n := a) (k := b) (f := a / b) (by omega) (by omega)]

end SmartNic.TrueDivision
