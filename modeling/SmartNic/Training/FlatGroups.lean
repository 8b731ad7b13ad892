import SmartNic.Library.Tiling

/-!
# Sub-groups and flat buffers

The loops of `zero_optimizer.py` that cut the parameter groups into sub-groups, move
the shards to flat buffers, place the gradients in the buffers of the sub-groups and
give the parameters the updated values.  A parameter is its `id`.
-/

namespace SmartNic.Training

/-- The storage of a shard before it is moved, or a buffer of
`param_groups_fp16_flat_cpu_memory`. -/
inductive Storage where
  | shard (p : ℕ)
  | flat (k : ℕ)
deriving DecidableEq, Repr

/-- A flat tensor: a part of a storage. -/
structure View where
  storage : Storage
  start : ℕ
  len : ℕ
deriving DecidableEq, Repr

namespace View

/-- The part of a tensor that a range is. -/
def sub (v : View) (r : Ranges.Range) : View := ⟨v.storage, v.start + r.start, r.len⟩

def range (v : View) : Ranges.Range := ⟨v.start, v.len⟩

/-- `narrow(0, start, len)`, which raises beyond the end. -/
def narrow (v : View) (start len : ℕ) : Option View :=
  if start + len ≤ v.len then some (v.sub ⟨start, len⟩) else none

/-- `copy_` of values to a tensor. -/
def write {α : Type} (v : View) (values : ℕ → α) (mem : Storage → ℕ → α) :
    Storage → ℕ → α :=
  fun storage y =>
    if storage = v.storage ∧ v.start ≤ y ∧ y < v.start + v.len then
      values (y - v.start)
    else mem storage y

/-- `_unflatten_dense_tensors` for tensors of the given sizes. -/
def unflatten (flat : View) : ℕ → List ℕ → Option (List View)
  | _, [] => some []
  | offset, len :: lens => do
      let v ← flat.narrow offset len
      let views ← unflatten flat (offset + len) lens
      return v :: views

end View

/-- The settings and the sizes of the parameters. -/
structure GroupConfig where
  subGroupSize : Option ℤ
  worldSize : ℕ
  worldSize_pos : 0 < worldSize
  dsNumel : ℕ → ℕ

/-- What the optimizer keeps about its groups. -/
structure FlatGroups (α : Type) where
  fp16Groups : List (List ℕ)
  subGroupToGroupId : List ℕ
  /-- `fp16_partitioned_groups_flat_numel`, also the sizes of `fp32_grad_bufs`. -/
  flatNumel : List ℕ
  /-- `param_groups_fp16_flat_cpu_memory`. -/
  cpuMemory : List View
  /-- `fp16_partitioned_groups_flat`. -/
  groupsFlat : List View
  /-- The sizes of `fp32_partitioned_groups_flat`. -/
  fp32Numel : List ℕ
  dsTensor : ℕ → View
  mem : Storage → ℕ → α

/-- `grad_position`: the sub-group, the offset and the size. -/
abbrev GradPosition := ℕ × ℕ × ℕ

namespace GroupConfig

variable (cfg : GroupConfig)

/-- `padding_size`. -/
def paddingSize (p : ℕ) : ℕ :=
  let remainder := cfg.dsNumel p % cfg.worldSize
  if remainder ≠ 0 then cfg.worldSize - remainder else 0

/-- `partition_numel`, which is `ds_tensor.ds_numel`. -/
def partitionNumel (p : ℕ) : ℕ :=
  (cfg.dsNumel p + cfg.paddingSize p) / cfg.worldSize

/-- The elements of a list of shards. -/
def total (params : List ℕ) : ℕ := (params.map cfg.partitionNumel).sum

/-- The loop of `_create_fp16_sub_groups`. -/
def subGroupLoop (size : ℤ) (last : ℕ) : List ℕ → List ℕ → ℕ → List (List ℕ)
  | [], _, _ => []
  | p :: params, subGroup, localSubGroupSize =>
      let subGroup := subGroup ++ [p]
      let localSubGroupSize := localSubGroupSize + cfg.partitionNumel p
      if localSubGroupSize ≥ size ∨ p = last then
        subGroup :: subGroupLoop size last params [] 0
      else subGroupLoop size last params subGroup localSubGroupSize

/-- `_create_fp16_sub_groups`. -/
def createFp16SubGroups (paramsGroup : List ℕ) : List (List ℕ) :=
  match cfg.subGroupSize with
  | none => [paramsGroup]
  | some size =>
      if size ≥ cfg.total paramsGroup then [paramsGroup]
      else cfg.subGroupLoop size (paramsGroup.getLastD 0) paramsGroup [] 0

end GroupConfig

namespace FlatGroups

variable {α β : Type} (cfg : GroupConfig)

/-- Before the optimizer is set up, every shard has its own storage. -/
def init (mem : Storage → ℕ → α) : FlatGroups α where
  fp16Groups := []
  subGroupToGroupId := []
  flatNumel := []
  cpuMemory := []
  groupsFlat := []
  fp32Numel := []
  dsTensor := fun p => ⟨.shard p, 0, cfg.partitionNumel p⟩
  mem := mem

/-- The body of the first loop of `_create_fp16_partitions_with_defragmentation`. -/
def appendSubGroup (j : ℕ) (s : FlatGroups α) (subGroup : List ℕ) : FlatGroups α :=
  { s with
    fp16Groups := s.fp16Groups ++ [subGroup]
    subGroupToGroupId := s.subGroupToGroupId ++ [j]
    flatNumel := s.flatNumel ++ [cfg.total subGroup] }

/-- The body of `_create_param_groups_fp16_flat_cpu_memory`. -/
def appendCpuMemory (s : FlatGroups α) (paramGroup : List ℕ) : FlatGroups α :=
  let size := cfg.total paramGroup
  if size > 0 then
    { s with cpuMemory := s.cpuMemory ++ [⟨.flat s.cpuMemory.length, 0, size⟩] }
  else s

/-- The body of `_move_to_flat_buffer`, with `start`. -/
def moveParam (flatBuffer : View) (st : FlatGroups α × ℕ) (p : ℕ) :
    Option (FlatGroups α × ℕ) := do
  let (s, start) := st
  let src := s.dsTensor p
  let dest ← flatBuffer.narrow start (cfg.partitionNumel p)
  return ({ s with
      mem := dest.write (fun x => s.mem src.storage (src.start + x)) s.mem
      dsTensor := Function.update s.dsTensor p dest },
    start + cfg.partitionNumel p)

/-- `_move_to_flat_buffer`. -/
def moveToFlatBuffer (flatBuffer : View) (s : FlatGroups α) (params : List ℕ) :
    Option (FlatGroups α) := do
  let (s, _) ← params.foldlM (moveParam cfg flatBuffer) (s, 0)
  return s

/-- The body of the second loop for a sub-group of group `j`, with `flat_offset`. -/
def placeSubGroup (j : ℕ) (st : FlatGroups α × ℕ) (subGroup : List ℕ) :
    Option (FlatGroups α × ℕ) := do
  let (s, flatOffset) := st
  let totalElements := cfg.total subGroup
  let memory ← s.cpuMemory[j]?
  let flat ← memory.narrow flatOffset totalElements
  let s ← moveToFlatBuffer cfg flat { s with groupsFlat := s.groupsFlat ++ [flat] } subGroup
  return (s, flatOffset + totalElements)

/-- The second loop for a group. -/
def placeGroup (s : FlatGroups α) (entry : List (List ℕ) × ℕ) : Option (FlatGroups α) := do
  let (s, _) ← entry.1.foldlM (placeSubGroup cfg entry.2) (s, 0)
  return s

/-- `_create_fp16_partitions_with_defragmentation`. -/
def createFp16Partitions (groups : List (List ℕ)) (s : FlatGroups α) :
    Option (FlatGroups α) :=
  let paramGroups := groups.map cfg.createFp16SubGroups
  let s := paramGroups.zipIdx.foldl
    (fun s entry => entry.1.foldl (appendSubGroup cfg entry.2) s) s
  let s := groups.foldl (appendCpuMemory cfg) s
  paramGroups.zipIdx.foldlM (placeGroup cfg) s

/-- `_create_fp32_partitions`: a buffer for every flat buffer. -/
def createFp32Partitions (s : FlatGroups α) : FlatGroups α :=
  { s with fp32Numel := s.groupsFlat.map View.len }

/-- Setting up the groups. -/
def create (groups : List (List ℕ)) (mem : Storage → ℕ → α) : Option (FlatGroups α) := do
  let s ← createFp16Partitions cfg groups (init cfg mem)
  return s.createFp32Partitions

/-- The body of `set_grad_positions` for the sub-group `i`, with `current_offset`. -/
def setGradPosition (i : ℕ) (st : (ℕ → Option GradPosition) × ℕ) (p : ℕ) :
    (ℕ → Option GradPosition) × ℕ :=
  let numElements := cfg.partitionNumel p
  (Function.update st.1 p (some (i, st.2, numElements)), st.2 + numElements)

/-- `set_grad_positions`. -/
def gradPosition (s : FlatGroups α) : ℕ → Option GradPosition :=
  s.fp16Groups.zipIdx.foldl
    (fun pos entry => (entry.1.foldl (setGradPosition cfg entry.2) (pos, 0)).1)
    fun _ => none

/-- Where `__partition_grads` puts the `numel` elements of a gradient: a buffer of
`fp32_grad_bufs` and a part of it. -/
def gradSlice (s : FlatGroups α) (p numel : ℕ) : Option (ℕ × Ranges.Range) := do
  let (i, destOffset, _) ← s.gradPosition cfg p
  let size ← s.flatNumel[i]?
  if destOffset + numel ≤ size then some (i, ⟨destOffset, numel⟩) else none

/-- `_unflatten_partitioned_parameters`. -/
def unflattenPartitionedParameters (s : FlatGroups α) (i : ℕ) : Option (FlatGroups α) := do
  let flat ← s.groupsFlat[i]?
  let group ← s.fp16Groups[i]?
  let updated ← flat.unflatten 0 (group.map fun p => (s.dsTensor p).len)
  return { s with
    dsTensor := Tiling.assign s.dsTensor (group.zip updated) }

/-- `_reassign_or_swap_out_partitioned_parameters` with the values in the fp32
buffers. -/
def reassign (toHalf : β → α) (fp32 : ℕ → ℕ → β) (s : FlatGroups α) (i : ℕ) :
    Option (FlatGroups α) := do
  let flat ← s.groupsFlat[i]?
  let numel ← s.fp32Numel[i]?
  let s := { s with mem := flat.write (fun x => toHalf (fp32 i x)) s.mem }
  if flat.len = numel then s.unflattenPartitionedParameters i else none

/-- The parameters after an optimizer step that leaves `fp32` in the buffers. -/
def update (toHalf : β → α) (fp32 : ℕ → ℕ → β) (s : FlatGroups α) :
    Option (FlatGroups α) :=
  (List.range s.fp16Groups.length).foldlM (reassign toHalf fp32) s

end FlatGroups

end SmartNic.Training
