import Mathlib
import SmartNic.Partition.RoundTrip

/-!
# Partitioning a parameter again

A parameter that was partitioned is gathered, given a value and partitioned once
more.  Without an update its shards stay; with one `_partition_param` reads a
variable that only a first partitioning assigns.
-/

namespace SmartNic.Partition

variable {worldSize : ℕ} {α : Type}

/-- `_partition` of one parameter. -/
def partition (worldSize rank : ℕ) (g : ℕ → α) (hasBeenUpdated : Bool)
    (param : Parameter α) : Except PyError (Parameter α) := do
  let param ← partitionParam worldSize rank g hasBeenUpdated param
  .ok { param with dsStatus := .notAvailable }

/-- `_all_gather` of one parameter, which is not asynchronous. -/
def allGather (worldSize : ℕ) (g : ℕ → α) (ranks : ℕ → Parameter α) (rank : ℕ) :
    Except PyError (Parameter α) :=
  if (ranks rank).dsStatus = .notAvailable then do
    let gathered ← allgatherParams worldSize g (fun q => [ranks q]) rank
    match gathered with
    | [param] => .ok { param with dsStatus := .available }
    | _ => .error .indexError
  else .ok (ranks rank)

/-- The parameter of a rank, gathered and with a value assigned. -/
def SplitParameter.assigned (p : SplitParameter worldSize α) (value : Tensor α)
    (rank : ℕ) : Parameter α :=
  { p.onRank rank with dsStatus := .available, data := value }

/-- What the parameter is after `partition`; an exception comes before any
change. -/
def afterPartition (worldSize rank : ℕ) (g : ℕ → α) (hasBeenUpdated : Bool)
    (param : Parameter α) : Parameter α :=
  match partition worldSize rank g hasBeenUpdated param with
  | .ok param => param
  | .error _ => param

/-- With an update `partition` succeeds on every rank and a gather restores the
new value; without one the shards are as before. -/
def WritesBack (p : SplitParameter worldSize α) (value : Tensor α) (g : ℕ → α) :
    Bool → Prop
  | true =>
      (∀ rank < worldSize,
        (partition worldSize rank g true (p.assigned value rank)).isOk) ∧
      ∀ rank < worldSize,
        (allGather worldSize g
          (fun q => afterPartition worldSize q g true (p.assigned value q)) rank).map
            (·.data) = .ok value
  | false =>
      ∀ rank < worldSize,
        (afterPartition worldSize rank g false (p.assigned value rank)).dsTensor =
          (p.onRank rank).dsTensor

namespace SplitParameter

variable (p : SplitParameter worldSize α)

theorem dsTensor_isSome {rank : ℕ} (hrank : rank < worldSize) :
    (p.onRank rank).dsTensor.isSome = true := by
  have hshard := (p.partitionedFrom hrank).shard_eq
  unfold Parameter.shard at hshard
  split at hshard
  next shard hsome =>
    rw [hsome]
    rfl
  · cases hshard

/-- After an update nothing assigns the new shard. -/
theorem partition_updated (value : Tensor α) (g : ℕ → α) {rank : ℕ}
    (hrank : rank < worldSize) :
    partition worldSize rank g true (p.assigned value rank) =
      .error .unboundLocalError := by
  have hsome : (p.assigned value rank).dsTensor.isSome = true := p.dsTensor_isSome hrank
  unfold partition partitionParam
  rw [if_neg, if_pos hsome]
  · rfl
  · rintro ⟨-, -, hnot⟩
    cases hnot

/-- Without an update only the full tensor is freed. -/
theorem partition_unchanged (value : Tensor α) (g : ℕ → α) {rank : ℕ}
    (hrank : rank < worldSize) :
    partition worldSize rank g false (p.assigned value rank) =
      (freeParam (p.assigned value rank)).map fun param =>
        { param with dsStatus := .notAvailable } := by
  have hsome : (p.assigned value rank).dsTensor.isSome = true := p.dsTensor_isSome hrank
  unfold partition partitionParam
  rw [if_pos ⟨rfl, hsome, rfl⟩]
  cases freeParam (p.assigned value rank) with
  | ok param => rfl
  | error e => rfl

theorem afterPartition_dsTensor (value : Tensor α) (g : ℕ → α) {rank : ℕ}
    (hrank : rank < worldSize) :
    (afterPartition worldSize rank g false (p.assigned value rank)).dsTensor =
      (p.onRank rank).dsTensor := by
  unfold afterPartition
  rw [p.partition_unchanged value g hrank]
  unfold freeParam
  by_cases hactive : (p.assigned value rank).dsActiveSubModules = []
  · rw [if_pos hactive]
    rfl
  · rw [if_neg hactive]
    rfl

end SplitParameter

/-- A parameter can be partitioned again exactly if it has not been updated. -/
theorem writesBack_iff (hpos : 0 < worldSize) (p : SplitParameter worldSize α)
    (value : Tensor α) (g : ℕ → α) (hasBeenUpdated : Bool) :
    WritesBack p value g hasBeenUpdated ↔ hasBeenUpdated = false := by
  cases hasBeenUpdated with
  | true =>
      constructor
      · rintro ⟨hok, -⟩
        have hfirst := hok 0 hpos
        rw [p.partition_updated value g hpos] at hfirst
        cases hfirst
      · intro h
        cases h
  | false =>
      refine ⟨fun _ => rfl, fun _ => ?_⟩
      intro rank hrank
      exact p.afterPartition_dsTensor value g hrank

/-- Four elements on three ranks, gathered and left as they are. -/
theorem writesBack_four :
    0 < 3 ∧ WritesBack fourOnThree ⟨[4], [10, 11, 12, 13], rfl⟩ (fun _ => 7) false :=
  ⟨by decide, (writesBack_iff (by decide) fourOnThree ⟨[4], [10, 11, 12, 13], rfl⟩
    (fun _ => 7) false).mpr rfl⟩

/-- After an update no rank gets past the missing tensor. -/
theorem not_writesBack_updated :
    ¬ WritesBack fourOnThree ⟨[4], [20, 21, 22, 23], rfl⟩ (fun _ => 7) true := by
  rintro ⟨hok, -⟩
  have hfails : ¬ (partition 3 0 (fun _ => 7) true
      (fourOnThree.assigned ⟨[4], [20, 21, 22, 23], rfl⟩ 0)).isOk := by
    decide
  exact hfails (hok 0 (by decide))

end SmartNic.Partition
