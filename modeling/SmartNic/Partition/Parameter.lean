import Mathlib.Algebra.BigOperators.Group.List.Basic
import Mathlib.Data.List.Basic

/-!
# Parameters and their shards

Flat tensors, the parameter attributes that `Init` adds, and `_partition_param`
of `partition_parameters.py`.  Elements are `float16` values of an arbitrary
type: `run_zero.py` converts the model with `half()` before it is partitioned.
-/

namespace SmartNic.Partition

/-- The exceptions that the modelled Python code raises. -/
inductive PyError where
  | runtimeError
  | valueError
  | assertionError
  | attributeError
  | indexError
  | unboundLocalError
deriving DecidableEq, Repr

/-! ## Tensors -/

/-- A shape with at least one element.  The `2 ^ 54` bytes of `2 ^ 53` elements
are more than any machine can address. -/
structure Shape where
  dims : List ℕ
  numel_pos : 0 < dims.prod
  numel_lt : dims.prod < 2 ^ 53
deriving DecidableEq, Repr

/-- A tensor: its shape and its elements in C order. -/
structure Tensor (α : Type) where
  shape : List ℕ
  flat : List α
  numel_eq : flat.length = shape.prod
deriving DecidableEq, Repr

/-- `xs.view(shape)` of a contiguous 1-D tensor. -/
def view (xs : List α) (shape : List ℕ) : Except PyError (Tensor α) :=
  if h : xs.length = shape.prod then .ok ⟨shape, xs, h⟩
  else .error .runtimeError

/-- `torch.empty(n)`; `g` is what the memory happens to hold. -/
def empty (g : ℕ → α) (n : ℕ) : List α := (List.range n).map g

/-- `xs.narrow(0, start, length)`. -/
def narrow (xs : List α) (start length : ℕ) : Except PyError (List α) :=
  if start + length ≤ xs.length then .ok ((xs.drop start).take length)
  else .error .runtimeError

/-- `dst.narrow(0, start, length).copy_(src)`: the new contents of `dst`. -/
def copyInto (dst : List α) (start length : ℕ) (src : List α) :
    Except PyError (List α) :=
  if start + length ≤ dst.length ∧ src.length = length
  then .ok (dst.take start ++ src ++ dst.drop (start + length))
  else .error .runtimeError

/-! ## Parameters -/

/-- `ZeroParamStatus`. -/
inductive ZeroParamStatus where
  | available
  | notAvailable
  | inflight
deriving DecidableEq, Repr

/-- A parameter with the attributes that partitioning and gathering use.
`ds_tensor.ds_numel` is the length of `dsTensor`. -/
structure Parameter (α : Type) where
  dsId : ℕ
  dsShape : Shape
  dsStatus : ZeroParamStatus
  dsTensor : Option (List α)
  dsActiveSubModules : List ℕ
  data : Tensor α
deriving DecidableEq, Repr

/-- `param.ds_numel`. -/
def Parameter.dsNumel (param : Parameter α) : ℕ := param.dsShape.dims.prod

/-- `param.ds_tensor`, which is `None` before the first partitioning. -/
def Parameter.shard (param : Parameter α) : Except PyError (List α) :=
  match param.dsTensor with
  | some shard => .ok shard
  | none => .error .attributeError

/-- `_padding_size`. -/
def paddingSize (worldSize : ℕ) (param : Parameter α) : ℕ :=
  let remainder := param.dsNumel % worldSize
  if remainder ≠ 0 then worldSize - remainder else 0

/-- `_aligned_size`. -/
def alignedSize (worldSize : ℕ) (param : Parameter α) : ℕ :=
  param.dsNumel + paddingSize worldSize param

/-- The size of each rank's shard. -/
def partitionSize (worldSize : ℕ) (param : Parameter α) : ℕ :=
  alignedSize worldSize param / worldSize

/-- `free_param`. -/
def freeParam (param : Parameter α) : Except PyError (Parameter α) :=
  if param.dsActiveSubModules = [] then
    .ok { param with
      data := { shape := [0], flat := [], numel_eq := rfl }
      dsStatus := .notAvailable }
  else .error .assertionError

/-- The copy of a rank's part of the full tensor into its new shard. -/
def copyPartition (worldSize rank : ℕ) (param : Parameter α)
    (partitioned : List α) : Except PyError (List α) := do
  let size := partitionSize worldSize param
  let start := size * rank
  let stop := size * (rank + 1)
  if start < param.dsNumel ∧ stop ≤ param.dsNumel then
    let src ← narrow param.data.flat start size
    copyInto partitioned 0 size src
  else if start < param.dsNumel then
    let elementsToCopy := param.dsNumel - start
    let src ← narrow param.data.flat start elementsToCopy
    copyInto partitioned 0 elementsToCopy src
  else .ok partitioned

/-- `_partition_param` on one rank; `g` is what the new shard's memory holds.
Partitioning again after an update reads a variable that was never assigned. -/
def partitionParam (worldSize rank : ℕ) (g : ℕ → α) (hasBeenUpdated : Bool)
    (param : Parameter α) : Except PyError (Parameter α) :=
  if param.dsStatus = .available ∧ param.dsTensor.isSome ∧ !hasBeenUpdated
  then freeParam param
  else if param.dsTensor.isSome then .error .unboundLocalError
  else do
    let dsTensor ← copyPartition worldSize rank param
      (empty g (partitionSize worldSize param))
    freeParam { param with dsTensor := some dsTensor }

end SmartNic.Partition
