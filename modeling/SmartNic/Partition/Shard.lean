import SmartNic.Library.Shards
import SmartNic.Partition.Parameter

/-!
# What partitioning leaves on a rank

Every rank's `ds_tensor` is a shard of the flat parameter, padded with whatever
its memory held.
-/

namespace SmartNic.Partition

open Shards

/-! ## Tensor operations that succeed -/

@[simp]
theorem ok_bind (a : β) (f : β → Except PyError γ) :
    (Except.ok a >>= f) = f a := rfl

theorem mapM_ok {f : β → Except PyError γ} {v : β → γ} (xs : List β)
    (h : ∀ x ∈ xs, f x = .ok (v x)) : xs.mapM f = .ok (xs.map v) := by
  induction xs with
  | nil => rfl
  | cons x xs ih =>
      rw [List.mapM_cons, h x (by simp), ok_bind,
        ih fun y hy => h y (by simp [hy])]
      rfl

@[simp]
theorem length_empty (g : ℕ → α) (n : ℕ) : (empty g n).length = n := by
  simp [empty]

theorem narrow_of_le {xs : List α} {start length : ℕ}
    (h : start + length ≤ xs.length) :
    narrow xs start length = .ok ((xs.drop start).take length) := by
  rw [narrow, if_pos h]

/-- Copying to the middle of a buffer. -/
theorem copyInto_append (pre mid post src : List α)
    (h : src.length = mid.length) :
    copyInto (pre ++ mid ++ post) pre.length mid.length src =
      .ok (pre ++ src ++ post) := by
  have hlen : pre.length + mid.length ≤ (pre ++ mid ++ post).length := by
    simp
  have hdrop : (pre ++ mid ++ post).drop (pre ++ mid).length = post :=
    List.drop_left
  rw [List.length_append] at hdrop
  have htake : (pre ++ mid ++ post).take pre.length = pre := by
    rw [List.append_assoc, List.take_left]
  rw [copyInto, if_pos ⟨hlen, h⟩, hdrop, htake]

/-- Copying to the front of a buffer. -/
theorem copyInto_zero (dst src : List α) (h : src.length ≤ dst.length) :
    copyInto dst 0 src.length src = .ok (src ++ dst.drop src.length) := by
  simp [copyInto, h]

theorem view_eq {t : Tensor α} {xs : List α} {dims : List ℕ}
    (hflat : xs = t.flat) (hdims : dims = t.shape) :
    view xs dims = .ok t := by
  subst hflat hdims
  rw [view, dif_pos t.numel_eq]

/-! ## Sizes -/

section Sizes

variable {worldSize : ℕ} (param : Parameter α)

theorem alignedSize_eq (h : 0 < worldSize) :
    alignedSize worldSize param =
      worldSize * partitionSize worldSize param := by
  have hdvd : worldSize ∣ alignedSize worldSize param := by
    unfold alignedSize paddingSize
    by_cases hrem : param.dsNumel % worldSize = 0
    · simpa [hrem] using Nat.dvd_of_mod_eq_zero hrem
    · have hlt := Nat.mod_lt param.dsNumel h
      have hdiv := Nat.div_add_mod param.dsNumel worldSize
      simp only [ne_eq, hrem, not_false_eq_true, if_true]
      refine ⟨param.dsNumel / worldSize + 1, ?_⟩
      rw [Nat.mul_succ]
      omega
  exact (Nat.mul_div_cancel' hdvd).symm

theorem dsNumel_le (h : 0 < worldSize) :
    param.dsNumel ≤ worldSize * partitionSize worldSize param := by
  rw [← alignedSize_eq param h]
  exact Nat.le_add_right _ _

theorem partitionSize_eq (h : 0 < worldSize) :
    partitionSize worldSize param =
      (param.dsNumel + (worldSize - 1)) / worldSize := by
  have haligned := alignedSize_eq param h
  have hlt : alignedSize worldSize param <
      param.dsNumel + worldSize := by
    simp only [alignedSize, paddingSize]
    split_ifs <;> omega
  have hle := dsNumel_le param h
  have hcomm : (partitionSize worldSize param + 1) * worldSize =
      worldSize * partitionSize worldSize param + worldSize := by ring
  refine (Nat.div_eq_of_lt_le ?_ ?_).symm
  · rw [Nat.mul_comm]
    omega
  · omega

end Sizes

/-! ## The shard of a rank -/

/-- The contents of `ds_tensor`. -/
def Parameter.shardD (param : Parameter α) : List α :=
  param.dsTensor.getD []

/-- The state of `full` on rank `rank` after it has been partitioned there. -/
structure PartitionedFrom (worldSize rank : ℕ) (full param : Parameter α) :
    Prop where
  dsId_eq : param.dsId = full.dsId
  dsShape_eq : param.dsShape = full.dsShape
  dsStatus_eq : param.dsStatus = .notAvailable
  shard_eq : param.shard = .ok param.shardD
  isShard : IsShard full.data.flat (partitionSize worldSize full) rank
    param.shardD

/-- The copy leaves the rank's chunk followed by the old contents. -/
theorem copyPartition_eq {worldSize : ℕ} (rank : ℕ) {param : Parameter α}
    {partitioned : List α} (hdata : param.data.flat.length = param.dsNumel)
    (hsize : partitioned.length = partitionSize worldSize param) :
    ∃ pad, copyPartition worldSize rank param partitioned =
        .ok (chunk param.data.flat (partitionSize worldSize param) rank ++
          pad) ∧
      (chunk param.data.flat (partitionSize worldSize param) rank ++
        pad).length = partitionSize worldSize param := by
  have hlen := length_chunk param.data.flat
    (partitionSize worldSize param) rank
  generalize hchunk : chunk param.data.flat _ rank = c at hlen ⊢
  have hcopy := copyInto_zero partitioned c (by omega)
  refine ⟨partitioned.drop c.length, ?_, ?_⟩
  · simp only [copyPartition]
    rw [Nat.mul_succ, Nat.mul_comm]
    rw [chunk] at hchunk
    split_ifs with hfull hpart
    · have hc : c.length = partitionSize worldSize param := by omega
      rw [narrow_of_le (by omega), hchunk, ok_bind, ← hcopy, hc]
    · have hc : c.length =
          param.dsNumel - rank * partitionSize worldSize param := by omega
      have hsrc : (param.data.flat.drop
          (rank * partitionSize worldSize param)).take
          (param.dsNumel - rank * partitionSize worldSize param) = c := by
        rw [← hchunk, ← hdata, ← List.length_drop, List.take_length,
          List.take_of_length_le]
        rw [List.length_drop]
        omega
      rw [narrow_of_le (by omega), hsrc, ok_bind, ← hcopy, hc]
    · have hc : c = [] := List.length_eq_zero_iff.mp (by omega)
      simp [hc]
  · rw [List.length_append, List.length_drop]
    omega

theorem partitionedFrom_of_partitionParam {worldSize rank : ℕ}
    {g : ℕ → α} {hasBeenUpdated : Bool} {full param : Parameter α}
    (hdata : full.data.flat.length = full.dsNumel)
    (hfresh : full.dsTensor = none)
    (h : partitionParam worldSize rank g hasBeenUpdated full = .ok param) :
    PartitionedFrom worldSize rank full param := by
  obtain ⟨pad, hcopy, hlen⟩ := copyPartition_eq rank hdata
    (length_empty g (partitionSize worldSize full))
  simp only [partitionParam, hfresh, Option.isSome_none, Bool.false_eq_true,
    false_and, and_false, if_false, hcopy, ok_bind, freeParam] at h
  split at h
  · obtain rfl := Except.ok.inj h
    exact ⟨rfl, rfl, rfl, rfl, isShard_of_append hlen⟩
  · cases h

end SmartNic.Partition
