import Mathlib.Data.List.Basic
import Mathlib.Tactic.Ring

/-!
# Little-endian words and byte slices

A small library on byte lists: fixed-width little-endian words, the slice of a
buffer at an offset, and the word that a buffer holds at an index.  Nothing
here depends on a particular message format.
-/

namespace SmartNic.Bytes

/-! ## Slices -/

/-- The `len` entries of `buf` from offset `off` on. -/
def slice (buf : List β) (off len : ℕ) : List β :=
  (buf.drop off).take len

theorem slice_eq_of_drop_eq {buf xs rest : List β} {off : ℕ}
    (h : buf.drop off = xs ++ rest) :
    slice buf off xs.length = xs := by
  rw [slice, h, List.take_left]

theorem drop_add_of_drop_eq {buf xs rest : List β} {off : ℕ}
    (h : buf.drop off = xs ++ rest) :
    buf.drop (off + xs.length) = rest := by
  rw [← List.drop_drop, h, List.drop_left]

/-! ## Little-endian encoding -/

/-- The `k` low-order bytes of `n`, least significant first. -/
def toLE : ℕ → ℕ → List UInt8
  | 0, _ => []
  | k + 1, n => UInt8.ofNat (n % 256) :: toLE k (n / 256)

/-- The number that a little-endian byte list denotes. -/
def ofLE : List UInt8 → ℕ
  | [] => 0
  | b :: bs => b.toNat + 256 * ofLE bs

@[simp]
theorem length_toLE (k n : ℕ) : (toLE k n).length = k := by
  induction k generalizing n with
  | zero => rfl
  | succ k ih => simp [toLE, ih]

theorem ofLE_toLE {k n : ℕ} (h : n < 256 ^ k) : ofLE (toLE k n) = n := by
  induction k generalizing n with
  | zero =>
      have hn : n = 0 := by simpa using h
      simp [toLE, ofLE, hn]
  | succ k ih =>
      have hdiv : n / 256 < 256 ^ k := by
        rw [pow_succ] at h
        exact Nat.div_lt_of_lt_mul (by omega)
      have hbyte : (UInt8.ofNat (n % 256)).toNat = n % 256 := by
        have hlt : n % 256 < 256 := Nat.mod_lt _ (by decide)
        simp [UInt8.toNat_ofNat', Nat.mod_eq_of_lt hlt]
      rw [toLE, ofLE, ih hdiv, hbyte]
      omega

/-- The eight bytes of a 64-bit word. -/
def le64 (w : UInt64) : List UInt8 := toLE 8 w.toNat

@[simp]
theorem length_le64 (w : UInt64) : (le64 w).length = 8 := length_toLE 8 _

/-- The 64-bit word number `i` of a buffer. -/
def word64 (buf : List UInt8) (i : ℕ) : UInt64 :=
  UInt64.ofNat (ofLE (slice buf (8 * i) 8))

theorem word64_zero_le64 (w : UInt64) (rest : List UInt8) :
    word64 (le64 w ++ rest) 0 = w := by
  have hslice : slice (le64 w ++ rest) 0 8 = le64 w := by
    rw [← length_le64 w]
    exact slice_eq_of_drop_eq rfl
  have hlt : w.toNat < 256 ^ 8 := w.toNat_lt
  rw [word64, Nat.mul_zero, hslice, le64, ofLE_toLE hlt]
  exact UInt64.ofNat_toNat

theorem word64_succ_le64 (w : UInt64) (rest : List UInt8) (i : ℕ) :
    word64 (le64 w ++ rest) (i + 1) = word64 rest i := by
  have hoff : 8 * (i + 1) = (le64 w).length + 8 * i := by
    rw [length_le64]
    ring
  simp only [word64, slice]
  rw [hoff, List.drop_length_add_append]

/-- A buffer that starts with the words `ws` has `ws[i]` as its word `i`. -/
theorem word64_flatMap_le64 (ws : List UInt64) (rest : List UInt8) (i : ℕ)
    (h : i < ws.length) :
    word64 (ws.flatMap le64 ++ rest) i = ws[i] := by
  induction ws generalizing i with
  | nil => simp at h
  | cons w ws ih =>
      rw [List.flatMap_cons, List.append_assoc]
      cases i with
      | zero => exact word64_zero_le64 w _
      | succ i =>
          rw [word64_succ_le64]
          exact ih i (by simpa using h)

theorem length_flatMap_le64 (ws : List UInt64) :
    (ws.flatMap le64).length = 8 * ws.length := by
  induction ws with
  | nil => rfl
  | cons w ws ih =>
      rw [List.flatMap_cons, List.length_append, ih, length_le64,
        List.length_cons]
      ring

/-! ## Two 32-bit halves of a word -/

/-- The word whose low half is `lo` and whose high half is `hi`. -/
def halves (lo hi : UInt32) : UInt64 :=
  UInt64.ofNat (lo.toNat + 2 ^ 32 * hi.toNat)

/-- The low 32 bits of a word. -/
def lowHalf (w : UInt64) : UInt32 := UInt32.ofNat (w.toNat % 2 ^ 32)

/-- The high 32 bits of a word. -/
def highHalf (w : UInt64) : UInt32 := UInt32.ofNat (w.toNat / 2 ^ 32)

theorem toNat_halves (lo hi : UInt32) :
    (halves lo hi).toNat = lo.toNat + 2 ^ 32 * hi.toNat := by
  have hlo := lo.toNat_lt
  have hhi := hi.toNat_lt
  rw [halves, UInt64.toNat_ofNat', Nat.mod_eq_of_lt]
  omega

@[simp]
theorem lowHalf_halves (lo hi : UInt32) : lowHalf (halves lo hi) = lo := by
  have hlo := lo.toNat_lt
  have hmod : (halves lo hi).toNat % 2 ^ 32 = lo.toNat := by
    rw [toNat_halves]
    omega
  rw [lowHalf, hmod]
  exact UInt32.ofNat_toNat

@[simp]
theorem highHalf_halves (lo hi : UInt32) : highHalf (halves lo hi) = hi := by
  have hlo := lo.toNat_lt
  have hdiv : (halves lo hi).toNat / 2 ^ 32 = hi.toNat := by
    rw [toNat_halves]
    omega
  rw [highHalf, hdiv]
  exact UInt32.ofNat_toNat

end SmartNic.Bytes
