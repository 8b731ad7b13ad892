import Mathlib.Data.List.Basic
import Mathlib.Tactic.Ring

/-!
# Equal shards of a list

A list is cut into chunks of one size, and the last chunks may be short or
empty.  A shard holds a chunk followed by arbitrary padding.  The lemmas put
shards together again.
-/

namespace SmartNic.Shards

/-- Chunk `i` of `xs` for chunk size `s`; short or empty near the end. -/
def chunk (xs : List α) (s i : ℕ) : List α := (xs.drop (i * s)).take s

/-- `shard` has size `s` and starts with chunk `i` of `xs`. -/
structure IsShard (xs : List α) (s i : ℕ) (shard : List α) : Prop where
  length_eq : shard.length = s
  take_eq : shard.take (xs.length - i * s) = chunk xs s i

theorem length_chunk (xs : List α) (s i : ℕ) :
    (chunk xs s i).length = min s (xs.length - i * s) := by
  simp [chunk]

theorem take_succ_mul (xs : List α) (s k : ℕ) :
    xs.take ((k + 1) * s) = xs.take (k * s) ++ chunk xs s k := by
  rw [Nat.succ_mul, List.take_add, chunk]

/-- A list followed by padding is a shard of every longer list that continues
with it at the right place. -/
theorem isShard_of_append {xs pad : List α} {s i : ℕ}
    (h : (chunk xs s i ++ pad).length = s) :
    IsShard xs s i (chunk xs s i ++ pad) := by
  refine ⟨h, ?_⟩
  rw [List.length_append, length_chunk] at h
  by_cases hfull : s ≤ xs.length - i * s
  · have hpad : pad = [] := List.length_eq_zero_iff.mp (by omega)
    rw [hpad, List.append_nil, List.take_of_length_le]
    rw [length_chunk]
    omega
  · exact List.take_left' (by rw [length_chunk]; omega)

section Gather

variable {xs : List α} {s : ℕ} {shard : ℕ → List α}

theorem length_flatMap_shards (k : ℕ)
    (h : ∀ i < k, (shard i).length = s) :
    ((List.range k).flatMap shard).length = k * s := by
  induction k with
  | zero => simp
  | succ k ih =>
      rw [List.range_succ, List.flatMap_append, List.length_append,
        ih fun i hi => h i (by omega)]
      simp [h k (by omega), Nat.succ_mul]

/-- Whole shards, put together, start with the first `k` chunks: padding comes
only behind the end of the list. -/
theorem take_flatMap_shards (k : ℕ) (h : ∀ i < k, IsShard xs s i (shard i)) :
    ((List.range k).flatMap shard).take xs.length = xs.take (k * s) := by
  induction k with
  | zero => simp
  | succ k ih =>
      have hrest : ∀ i < k, IsShard xs s i (shard i) :=
        fun i hi => h i (by omega)
      have hlen := length_flatMap_shards k fun i hi => (hrest i hi).length_eq
      rw [List.range_succ, List.flatMap_append, List.take_append, ih hrest,
        hlen, take_succ_mul]
      simp [(h k (by omega)).take_eq]

theorem gather_shards {k : ℕ} (h : ∀ i < k, IsShard xs s i (shard i))
    (hcover : xs.length ≤ k * s) :
    ((List.range k).flatMap shard).take xs.length = xs := by
  rw [take_flatMap_shards k h, List.take_of_length_le hcover]

/-- The part that a copy of `min (n - i * s) s` elements takes from a shard. -/
theorem IsShard.take_min {i : ℕ} {sh : List α} (h : IsShard xs s i sh) :
    sh.take (min (xs.length - i * s) s) = chunk xs s i := by
  rw [← List.take_take, List.take_of_length_le h.length_eq.le, h.take_eq]

theorem chunk_eq_nil {i : ℕ} (h : ¬ i * s < xs.length) :
    chunk xs s i = [] := by
  rw [chunk, List.drop_eq_nil_of_le (by omega), List.take_nil]

/-- Cutting lists of one length out of their concatenation. -/
theorem chunk_flatMap {k i : ℕ} (h : ∀ j < k, (shard j).length = s)
    (hi : i < k) : chunk ((List.range k).flatMap shard) s i = shard i := by
  induction k with
  | zero => omega
  | succ k ih =>
      have hlen := length_flatMap_shards k fun j hj => h j (by omega)
      rw [List.range_succ, List.flatMap_append, List.flatMap_singleton, chunk]
      by_cases hik : i = k
      · subst hik
        rw [← hlen, List.drop_left, List.take_of_length_le (h i hi).le]
      · have hfit : (i + 1) * s ≤ k * s := Nat.mul_le_mul_right s (by omega)
        rw [Nat.succ_mul] at hfit
        rw [List.drop_append_of_le_length (by omega),
          List.take_append_of_le_length (by rw [List.length_drop]; omega)]
        exact ih (fun j hj => h j (by omega)) (by omega)

end Gather

end SmartNic.Shards
