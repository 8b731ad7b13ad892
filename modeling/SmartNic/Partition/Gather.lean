import Mathlib.Data.List.Sort
import SmartNic.Library.TrueDivision
import SmartNic.Partition.Parameter

/-!
# The four ways to gather parameters

`_allgather_param`, `_allgather_params` and the two branches of
`all_gather_coalesced`, each on one rank.  The states of all ranks are given,
because the collective delivers the buffers of all of them; what a gather
returns is the rank's parameters after its handle has been waited for.
-/

namespace SmartNic.Partition

open TrueDivision

/-! ## The collective -/

/-- The underlying all-gather: the buffers of all ranks in rank order, in an
output that they fill. -/
def allGatherBase (worldSize : ℕ) (inputs : ℕ → Except PyError (List α))
    (output : List α) : Except PyError (List α) := do
  let buffers ← (List.range worldSize).mapM inputs
  if buffers.flatten.length = output.length then .ok buffers.flatten
  else .error .valueError

/-- `partitions[i]`. -/
def getPartition (partitions : List (List α)) (i : ℕ) :
    Except PyError (List α) :=
  match partitions[i]? with
  | some partition => .ok partition
  | none => .error .indexError

/-- The slots of `size` elements of a flat tensor, one for each rank. -/
def slots (worldSize size : ℕ) (flat : List α) :
    Except PyError (List (List α)) :=
  (List.range worldSize).mapM fun i => narrow flat (size * i) size

/-! ## `_allgather_param` -/

def allgatherParam [Zero α] (worldSize : ℕ) (ranks : ℕ → Parameter α)
    (rank : ℕ) : Except PyError (Parameter α) := do
  let param := ranks rank
  let flatTensor := List.replicate (alignedSize worldSize param) 0
  let gathered ← allGatherBase worldSize (fun q => (ranks q).shard) flatTensor
  let replicated ← narrow gathered 0 param.dsNumel
  let data ← view replicated param.dsShape.dims
  .ok { param with data := data }

/-! ## `_allgather_params` -/

/-- `sum(p.ds_tensor.ds_numel for p in params)`. -/
def totalShardSize : List (Parameter α) → Except PyError ℕ
  | [] => .ok 0
  | param :: params => do
      let shard ← param.shard
      let rest ← totalShardSize params
      .ok (shard.length + rest)

/-- The loop that copies the shards of a rank one behind the other into a
buffer, from `offset` on. -/
def packShards (buffer : List α) (offset : ℕ) :
    List (Parameter α) → Except PyError (List α)
  | [] => .ok buffer
  | param :: params => do
      let shard ← param.shard
      let buffer ← copyInto buffer offset shard.length shard
      packShards buffer (offset + shard.length) params

/-- The buffer that a rank gives to the collective. -/
def packedInput (g : ℕ → α) (params : List (Parameter α)) :
    Except PyError (List α) := do
  let size ← totalShardSize params
  packShards (empty g size) 0 params

/-- One pass of the inner loop of `_allgather_params`: copy the part of rank
`i` to its place in the replicated tensor. -/
def copyPart (partitions : List (List α)) (paramOffset paramSize
    paramPartitionSize : ℕ) (replicated : List α) (i : ℕ) :
    Except PyError (List α) := do
  let paramStart := i * paramPartitionSize
  if paramStart < paramSize then
    let numelToCopy := min (paramSize - paramStart) paramPartitionSize
    let partition ← getPartition partitions i
    let partToCopy ← narrow partition paramOffset numelToCopy
    copyInto replicated paramStart numelToCopy partToCopy
  else .ok replicated

/-- The loop of `_allgather_params` that rebuilds one parameter after the
other. -/
def replicateParams (worldSize : ℕ) (g : ℕ → α)
    (partitions : List (List α)) (paramOffset : ℕ) :
    List (Parameter α) → Except PyError (List (Parameter α))
  | [] => .ok []
  | param :: params => do
      let shard ← param.shard
      let replicated ← (List.range worldSize).foldlM
        (copyPart partitions paramOffset param.dsNumel shard.length)
        (empty g param.dsNumel)
      let data ← view replicated param.dsShape.dims
      let rest ← replicateParams worldSize g partitions
        (paramOffset + shard.length) params
      .ok ({ param with data := data } :: rest)

/-- `_allgather_params`; `all_gather_list_via_base` copies row `i` of its flat
output over slot `i`. -/
def allgatherParams (worldSize : ℕ) (g : ℕ → α)
    (ranks : ℕ → List (Parameter α)) (rank : ℕ) :
    Except PyError (List (Parameter α)) := do
  let params := ranks rank
  if params = [] then .ok []
  else
    let size ← totalShardSize params
    let outputFlat ← allGatherBase worldSize (fun q => packedInput g (ranks q))
      (empty g (worldSize * size))
    let partitions ← slots worldSize size outputFlat
    replicateParams worldSize g partitions 0 params

/-! ## `all_gather_coalesced` -/

/-- Mark a parameter as being gathered. -/
def startGather (param : Parameter α) : Except PyError (Parameter α) :=
  if param.dsStatus = .notAvailable
  then .ok { param with dsStatus := .inflight }
  else .error .runtimeError

/-- The branch for a single parameter, and `AllGatherHandle.wait`. -/
def allGatherSingle (worldSize : ℕ) (g : ℕ → α)
    (inputs : ℕ → Except PyError (List α)) (param : Parameter α) :
    Except PyError (Parameter α) := do
  let paramBuffer := empty g (ceilTrueDiv param.dsNumel worldSize * worldSize)
  let gathered ← allGatherBase worldSize inputs paramBuffer
  let replicated ← narrow gathered 0 param.dsNumel
  let data ← view replicated param.dsShape.dims
  .ok { param with data := data, dsStatus := .available }

/-- The parts of one parameter that `AllGatherCoalescedHandle.wait` finds in
the slots of the ranks. -/
def partsOf (partitions : List (List α)) (paramOffset paramSize
    paramPartitionSize : ℕ) (parts : List (List α)) (rank : ℕ) :
    Except PyError (List (List α)) := do
  let paramStart := rank * paramPartitionSize
  if paramStart < paramSize then
    let partition ← getPartition partitions rank
    let partToCopy ← narrow partition paramOffset
      (min (paramSize - paramStart) paramPartitionSize)
    .ok (parts ++ [partToCopy])
  else .ok parts

/-- `torch.cat`, which wants at least one tensor. -/
def cat (parts : List (List α)) : Except PyError (List α) :=
  if parts = [] then .error .runtimeError else .ok parts.flatten

/-- The loop of `AllGatherCoalescedHandle.wait`. -/
def waitCoalesced (worldSize : ℕ) (partitions : List (List α))
    (paramOffset : ℕ) :
    List (Parameter α) → Except PyError (List (Parameter α))
  | [] => .ok []
  | param :: params => do
      let shard ← param.shard
      if param.dsStatus = .inflight then
        let parts ← (List.range worldSize).foldlM
          (partsOf partitions paramOffset param.dsNumel shard.length) []
        let full ← cat parts
        let data ← view full param.dsShape.dims
        let rest ← waitCoalesced worldSize partitions
          (paramOffset + shard.length) params
        .ok ({ param with data := data, dsStatus := .available } :: rest)
      else .error .assertionError

/-- The packed branch for several parameters.  The elements are `float16`, so
the copy into the `float16` input buffer keeps them. -/
def allGatherPacked (worldSize : ℕ) (g : ℕ → α)
    (inputs : ℕ → Except PyError (List α)) (params : List (Parameter α)) :
    Except PyError (List (Parameter α)) := do
  let size ← totalShardSize params
  let flatTensor ← allGatherBase worldSize inputs (empty g (size * worldSize))
  let partitions ← slots worldSize size flatTensor
  waitCoalesced worldSize partitions 0 params

/-- `sorted(params, key=lambda p: p.ds_id)`. -/
def sortById (params : List (Parameter α)) : List (Parameter α) :=
  params.mergeSort fun p q => p.dsId ≤ q.dsId

/-- The buffer that a rank gives to the collective for its sorted
parameters. -/
def sortedInput (g : ℕ → α) :
    List (Parameter α) → Except PyError (List α)
  | [] => .error .runtimeError
  | [param] => param.shard
  | params => packedInput g params

/-- `all_gather_coalesced`.  Without parameters the packed branch fails in
`get_only_unique_item`. -/
def allGatherCoalesced (worldSize : ℕ) (g : ℕ → α)
    (ranks : ℕ → List (Parameter α)) (rank : ℕ) :
    Except PyError (List (Parameter α)) := do
  let params ← (ranks rank).mapM startGather
  let inputs := fun q => do
    let params ← (ranks q).mapM startGather
    sortedInput g (sortById params)
  match sortById params with
  | [] => .error .runtimeError
  | [param] => do
      let gathered ← allGatherSingle worldSize g inputs param
      .ok [gathered]
  | params => allGatherPacked worldSize g inputs params

end SmartNic.Partition
