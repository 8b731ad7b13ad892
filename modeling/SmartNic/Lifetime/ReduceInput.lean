import Mathlib
import SmartNic.Library.Kernel
import SmartNic.Library.Machine
import SmartNic.Library.Stream
import SmartNic.Library.TrueDivision

/-!
# The input of a bucket's ReduceScatter

Gradients are copied to `__ipg_bucket_flat_buffer` or stay where backward put
them.  A full bucket is interleaved by `torch.cat`, unless it is a single
gradient that divides evenly, divided in place and handed to the DPU by its
address.  Kernels run on the default stream and on the reduce stream; the DPU
waits for neither.
-/

namespace SmartNic.Lifetime

open Machine Memory TrueDivision

variable {α : Type}

structure ReduceConfig (α : Type) where
  worldSize : ℕ
  rank : ℕ
  reduceBucketSize : ℕ
  contiguousGradients : Bool
  overlapComm : Bool
  /-- Where `__ipg_bucket_flat_buffer` is. -/
  flatBase : ℕ
  /-- The division of an element by `world_sz`. -/
  preDivide : α → α
  /-- The sum of an element of a gradient and of one added to it. -/
  accumulate : α → α → α

/-- `__ipg_bucket_flat_buffer`, which only exists for contiguous gradients. -/
def ReduceConfig.flatBuffer (cfg : ReduceConfig α) : Block :=
  ⟨cfg.flatBase, if cfg.contiguousGradients then cfg.reduceBucketSize else 0⟩

/-! ## Kernels -/

/-- Backward writes a new gradient. -/
def writeKernel (base : ℕ) (values : List α) : Kernel α where
  reads := []
  target := ⟨base, values.length⟩
  value _ := values
  length_value _ := rfl
  value_congr _ _ _ := rfl

/-- Backward adds to a gradient in place. -/
def accumulateKernel (accumulate : α → α → α) (block : Block) (values : List α) :
    Kernel α where
  reads := [block]
  target := block
  value mem := (load mem block).mapIdx fun i x => (values[i]?).elim x (accumulate x)
  length_value _ := by rw [List.length_mapIdx, length_load]
  value_congr _ _ h := by rw [h block List.mem_cons_self]

/-- `new_grad_tensor.copy_(param.grad)`. -/
def copyKernel (src : Block) (base : ℕ) : Kernel α where
  reads := [src]
  target := ⟨base, src.size⟩
  value mem := load mem src
  length_value _ := length_load
  value_congr _ _ h := h src List.mem_cons_self

/-- `div_(world_sz)`. -/
def divKernel (preDivide : α → α) (block : Block) : Kernel α where
  reads := [block]
  target := block
  value mem := (load mem block).map preDivide
  length_value _ := by rw [List.length_map, length_load]
  value_congr _ _ h := by rw [h block List.mem_cons_self]

/-- What `torch.cat` joins: chunks of gradients, and padding with whatever its
memory held. -/
inductive Piece (α : Type) where
  | chunk (block : Block)
  | padding (contents : List α)

namespace Piece

def size : Piece α → ℕ
  | chunk block => block.size
  | padding contents => contents.length

def value (mem : ℕ → α) : Piece α → List α
  | chunk block => load mem block
  | padding contents => contents

def blocks : Piece α → List Block
  | chunk block => [block]
  | padding _ => []

theorem length_value (mem : ℕ → α) (piece : Piece α) :
    (piece.value mem).length = piece.size := by
  cases piece with
  | chunk block => exact length_load
  | padding contents => rfl

theorem value_congr {mem mem' : ℕ → α} {piece : Piece α}
    (h : ∀ b ∈ piece.blocks, load mem b = load mem' b) :
    piece.value mem = piece.value mem' := by
  cases piece with
  | chunk block => exact h block List.mem_cons_self
  | padding contents => rfl

end Piece

/-- `torch.cat`. -/
def catKernel (pieces : List (Piece α)) (base : ℕ) : Kernel α where
  reads := pieces.flatMap Piece.blocks
  target := ⟨base, (pieces.map Piece.size).sum⟩
  value mem := pieces.flatMap (Piece.value mem)
  length_value mem := by
    rw [List.length_flatMap]
    congr 1
    exact List.map_congr_left fun piece _ => piece.length_value mem
  value_congr mem mem' h := by
    apply List.flatMap_congr
    intro piece hpiece
    apply Piece.value_congr
    intro b hb
    exact h b (List.mem_flatMap.mpr ⟨piece, hpiece, hb⟩)

/-- A kernel of the reduce stream; `wait_stream` made it wait for so many
operations of the default stream. -/
structure Queued (α : Type) where
  kernel : Kernel α
  after : ℕ

/-! ## Gradients and reductions -/

/-- `param.grad`: what backward produced and where it is, in a storage of its
own or in the flat buffer. -/
structure Grad (α : Type) where
  param : ℕ
  block : Block
  values : List α
  own : Bool
deriving DecidableEq, Repr

/-- A ReduceScatter that was enqueued after `queued` operations of the reduce
stream.  `expected` has the pre-divided gradients, and nothing for padding. -/
structure Reduction (α : Type) where
  source : Block
  expected : List (Option α)
  queued : ℕ
  completed : Bool
deriving DecidableEq, Repr

/-- Where the host is; `next` is the gradient whose hook runs. -/
inductive Host (α : Type) where
  | idle
  /-- `reduce_independent_p_g_buckets_and_remove_grads`. -/
  | hook (grad : Grad α)
  /-- `__reduce_and_partition_ipg_grads` up to the wait for the pending
  reduction. -/
  | drain (next : Option (Grad α))
  /-- `__avg_scatter_grads`. -/
  | avgScatter (next : Option (Grad α))
  /-- `tensor_partition_flat_buffer` is queued for division. -/
  | built (source : Block) (aliased : Bool) (next : Option (Grad α))
  /-- The reduction is enqueued and `reduce_scatter_coalesced` not returned. -/
  | enqueued (source : Block) (aliased : Bool) (reduction : ℕ) (next : Option (Grad α))
  /-- `__add_grad_to_ipg_bucket`. -/
  | add (grad : Grad α)
  /-- The end of `independent_gradient_partition_epilogue`. -/
  | synchronize

/-- The gradient that is not in the bucket yet. -/
def Host.next : Host α → Option (Grad α)
  | idle => none
  | hook grad => some grad
  | drain next => next
  | avgScatter next => next
  | built _ _ next => next
  | enqueued _ _ _ next => next
  | add grad => some grad
  | synchronize => none

/-- The output of `torch.cat` that a local refers to. -/
def Host.source : Host α → List Block
  | built source false _ => [source]
  | enqueued source false _ _ => [source]
  | _ => []

structure ReduceState (α : Type) where
  mem : ℕ → α
  /-- `__params_in_ipg_bucket`. -/
  bucket : List (Grad α)
  /-- The parameters of the pending reduction. -/
  partitioning : List (Grad α)
  /-- Gradients that `__partition_grads` passes over. -/
  kept : List (Grad α)
  pendingRs : Option ℕ
  reductions : List (Reduction α)
  /-- Blocks freed after `record_stream`: free once the reduce stream has
  executed so many operations. -/
  recorded : List (Block × ℕ)
  /-- The blocks allocated on the reduce stream. -/
  reducePool : List Block
  /-- How many operations of the default stream the reduce stream waits for. -/
  waited : ℕ
  defaultStream : Stream (Kernel α)
  reduceStream : Stream (Queued α)
  host : Host α

inductive ReduceAction (α : Type) where
  /-- Backward produces a gradient; `base` is where a new one would be. -/
  | backward (param base : ℕ) (values : List α)
  | epilogue
  /-- The host goes on; `base` is where the output of `torch.cat` would be,
  `junk` what padding holds. -/
  | host (base : ℕ) (junk : ℕ → ℕ → ℕ → α)
  /-- `_flush_pending_rs`. -/
  | flush
  /-- `zero_grad` after the optimizer step. -/
  | zeroGrad
  /-- The DPU completes a reduction. -/
  | complete (reduction : ℕ)
  | executeDefault
  | executeReduce

/-! ## The buffer of a bucket -/

section Buffer

variable (cfg : ReduceConfig α)

/-- The chunk of a rank, and its padding. -/
def piecesOf (junk : ℕ → ℕ → ℕ → α) (rank : ℕ) (grad : Grad α) : List (Piece α) :=
  let numel := grad.block.size
  let chunkSz := ceilTrueDiv numel cfg.worldSize
  let chunk : Block :=
    ⟨grad.block.base + min (rank * chunkSz) numel, min chunkSz (numel - rank * chunkSz)⟩
  .chunk chunk ::
    if 0 < chunkSz - chunk.size
    then [.padding ((List.range (chunkSz - chunk.size)).map (junk rank grad.param))]
    else []

/-- `tensor_partitions_lst_with_padding`. -/
def partitionsWithPadding (junk : ℕ → ℕ → ℕ → α) (grads : List (Grad α)) :
    List (Piece α) :=
  (List.range cfg.worldSize).flatMap fun rank => grads.flatMap (piecesOf cfg junk rank)

/-- The bucket is a single gradient that needs no padding. -/
def aliasedGrad : List (Grad α) → Option (Grad α)
  | [grad] => if grad.block.size % cfg.worldSize = 0 then some grad else none
  | _ => none

/-- The pre-divided chunk of a rank; its padding may be anything. -/
def expectedOf (rank : ℕ) (grad : Grad α) : List (Option α) :=
  let chunkSz := ceilTrueDiv grad.values.length cfg.worldSize
  let chunk := (grad.values.drop (rank * chunkSz)).take chunkSz
  chunk.map (fun x => some (cfg.preDivide x)) ++
    List.replicate (chunkSz - chunk.length) none

/-- What the DPU has to read for a bucket. -/
def expected (grads : List (Grad α)) : List (Option α) :=
  match aliasedGrad cfg grads with
  | some grad => grad.values.map fun x => some (cfg.preDivide x)
  | none =>
      (List.range cfg.worldSize).flatMap fun rank => grads.flatMap (expectedOf cfg rank)

end Buffer

/-- Values are as expected where something is expected. -/
def Matches (values : List α) (expected : List (Option α)) : Prop :=
  List.Forall₂ (fun x e => ∀ v ∈ e, x = v) values expected

namespace ReduceState

/-! ## Memory in use -/

/-- The storages of gradients outside the flat buffer. -/
def ownBlocks (grads : List (Grad α)) : List Block :=
  (grads.filter Grad.own).map Grad.block

/-- The blocks that tensors refer to. -/
def tensors (cfg : ReduceConfig α) (s : ReduceState α) : List Block :=
  cfg.flatBuffer :: (ownBlocks (s.bucket ++ s.partitioning ++ s.kept) ++
    ownBlocks s.host.next.toList ++ s.host.source)

/-- The blocks that the allocator may not hand out on either stream. -/
def live (cfg : ReduceConfig α) (s : ReduceState α) : List Block :=
  s.tensors cfg ++
    (s.recorded.filter fun r => s.reduceStream.executed < r.2).map Prod.fst

/-- Memory of the reduce stream is not handed out on another stream. -/
def allocateDefault (cfg : ReduceConfig α) (s : ReduceState α) (base size : ℕ) :
    Option Block :=
  if ∀ l ∈ s.live cfg ++ (if cfg.overlapComm then s.reducePool else []),
    Block.Apart ⟨base, size⟩ l then some ⟨base, size⟩ else none

/-- `param.grad.record_stream(...)` and the last reference goes. -/
def free (cfg : ReduceConfig α) (s : ReduceState α) (grads : List (Grad α)) :
    List (Block × ℕ) :=
  if cfg.overlapComm
  then (ownBlocks grads).map (fun block => (block, s.reduceStream.issued)) ++ s.recorded
  else s.recorded

/-! ## Streams -/

def queueReduce (s : ReduceState α) (kernel : Kernel α) : ReduceState α :=
  { s with reduceStream := s.reduceStream.push ⟨kernel, s.waited⟩ }

/-- Without `overlap_comm` there is one stream. -/
def queueDefault (cfg : ReduceConfig α) (s : ReduceState α) (kernel : Kernel α) :
    ReduceState α :=
  if cfg.overlapComm then { s with defaultStream := s.defaultStream.push kernel }
  else s.queueReduce kernel

/-! ## Backward -/

/-- A parameter without a gradient gets a new one, else backward adds to it. -/
def backward (cfg : ReduceConfig α) (s : ReduceState α) (param base : ℕ)
    (values : List α) : Option (ReduceState α) :=
  match (s.bucket ++ s.partitioning ++ s.kept).find? fun g => g.param = param with
  | some g =>
      if values.length = g.block.size then
        let sum := List.zipWith cfg.accumulate g.values values
        some { s.queueDefault cfg (accumulateKernel cfg.accumulate g.block values) with
          host := .hook { g with values := sum } }
      else none
  | none =>
      (s.allocateDefault cfg base values.length).map fun block =>
        { s.queueDefault cfg (writeKernel base values) with
          host := .hook ⟨param, block, values, true⟩ }

/-! ## The host -/

/-- `elements_in_ipg_bucket`. -/
def elementsInIpgBucket (s : ReduceState α) : ℕ :=
  (s.bucket.map fun g => g.block.size).sum

/-- `reduce_independent_p_g_buckets_and_remove_grads`. -/
def hook (cfg : ReduceConfig α) (s : ReduceState α) (grad : Grad α) : ReduceState α :=
  if 0 < s.elementsInIpgBucket ∧
      cfg.reduceBucketSize < s.elementsInIpgBucket + grad.block.size
  then { s with host := .drain (some grad) }
  else { s with host := .add grad }

/-- `__reduce_and_partition_ipg_grads` has returned. -/
def afterReduce (next : Option (Grad α)) : Host α :=
  match next with
  | some grad => .add grad
  | none => .synchronize

/-- A gradient of which this rank has no partition. -/
def passedOver (cfg : ReduceConfig α) (grad : Grad α) : Bool :=
  grad.block.size < ceilTrueDiv grad.block.size cfg.worldSize * cfg.rank

/-- `__partition_grads` for the parameters of the pending reduction. -/
def partitionGrads (cfg : ReduceConfig α) (s : ReduceState α) : ReduceState α :=
  { s with
    partitioning := []
    kept := s.partitioning.filter (passedOver cfg) ++ s.kept
    pendingRs := none
    recorded := s.free cfg (s.partitioning.filter fun g => !passedOver cfg g) }

/-- The wait for the pending reduction, which comes back when it has
completed. -/
def drainPending (cfg : ReduceConfig α) (s : ReduceState α) : Option (ReduceState α) :=
  match s.pendingRs with
  | none => some s
  | some k =>
      if (s.reductions[k]?).any fun rs => rs.completed then some (s.partitionGrads cfg)
      else none

/-- `self.__params_in_ipg_bucket.sort(key=lambda p: p.ds_id)`. -/
def sortBucket (s : ReduceState α) : ReduceState α :=
  { s with bucket := s.bucket.insertionSort fun g h => g.param ≤ h.param }

/-- The start of `__reduce_and_partition_ipg_grads`. -/
def drain (cfg : ReduceConfig α) (s : ReduceState α) (next : Option (Grad α)) :
    Option (ReduceState α) :=
  if s.bucket.isEmpty then some { s with host := afterReduce next }
  else (s.sortBucket.drainPending cfg).map fun s => { s with host := .avgScatter next }

/-- The part of `reduce_scatter_coalesced` that builds its input. -/
def avgScatter (cfg : ReduceConfig α) (s : ReduceState α) (next : Option (Grad α))
    (base : ℕ) (junk : ℕ → ℕ → ℕ → α) : Option (ReduceState α) :=
  match aliasedGrad cfg s.bucket with
  | some grad =>
      some { s.queueReduce (divKernel cfg.preDivide grad.block) with
        host := .built grad.block true next }
  | none =>
      let cat := catKernel (partitionsWithPadding cfg junk s.bucket) base
      if ∀ l ∈ s.live cfg, cat.target.Apart l then
        some { (s.queueReduce cat).queueReduce (divKernel cfg.preDivide cat.target) with
          reducePool := cat.target :: s.reducePool
          host := .built cat.target false next }
      else none

/-- `ucp_collective_enqueue_py`. -/
def enqueueRs (cfg : ReduceConfig α) (s : ReduceState α) (source : Block)
    (aliased : Bool) (next : Option (Grad α)) : ReduceState α :=
  { s with
    reductions := s.reductions ++
      [⟨source, expected cfg s.bucket, s.reduceStream.issued, false⟩]
    host := .enqueued source aliased s.reductions.length next }

/-- `reduce_scatter_coalesced` returns and `_pending_rs` is set. -/
def returnRs (s : ReduceState α) (k : ℕ) (next : Option (Grad α)) : ReduceState α :=
  { s with
    bucket := []
    partitioning := s.bucket
    pendingRs := some k
    host := afterReduce next }

/-- `__add_grad_to_ipg_bucket`. -/
def addGrad (cfg : ReduceConfig α) (s : ReduceState α) (grad : Grad α) :
    ReduceState α :=
  let s := { s with waited := s.defaultStream.issued, host := .idle }
  if cfg.contiguousGradients ∧
      s.elementsInIpgBucket + grad.block.size < cfg.reduceBucketSize then
    let base := cfg.flatBase + s.elementsInIpgBucket
    let s := s.queueReduce (copyKernel grad.block base)
    { s with
      bucket := s.bucket ++ [{ grad with block := ⟨base, grad.block.size⟩, own := false }]
      recorded := s.free cfg [grad] }
  else { s with bucket := s.bucket ++ [grad] }

def hostStep (cfg : ReduceConfig α) (s : ReduceState α) (base : ℕ)
    (junk : ℕ → ℕ → ℕ → α) : Option (ReduceState α) :=
  match s.host with
  | .idle => none
  | .hook grad => some (s.hook cfg grad)
  | .drain next => s.drain cfg next
  | .avgScatter next => s.avgScatter cfg next base junk
  | .built source aliased next => some (s.enqueueRs cfg source aliased next)
  | .enqueued _ _ k next => some (s.returnRs k next)
  | .add grad => some (s.addGrad cfg grad)
  | .synchronize =>
      if s.reduceStream.pending.isEmpty then some { s with host := .idle } else none

/-! ## Runs -/

def complete (s : ReduceState α) (k : ℕ) : ReduceState α :=
  { s with reductions := s.reductions.modify k fun rs => { rs with completed := true } }

def executeDefault (s : ReduceState α) : Option (ReduceState α) :=
  (s.defaultStream.execute fun _ => true).map fun r =>
    { s with mem := r.1.exec s.mem, defaultStream := r.2 }

def executeReduce (s : ReduceState α) : Option (ReduceState α) :=
  (s.reduceStream.execute fun op => op.after ≤ s.defaultStream.executed).map fun r =>
    { s with mem := r.1.kernel.exec s.mem, reduceStream := r.2 }

/-- Backward, the epilogue, the flush and `zero_grad` start when the host is
idle. -/
def step (cfg : ReduceConfig α) (s : ReduceState α) :
    ReduceAction α → Option (ReduceState α)
  | .backward param base values =>
      match s.host with
      | .idle => s.backward cfg param base values
      | _ => none
  | .epilogue =>
      match s.host with
      | .idle => some { s with host := .drain none }
      | _ => none
  | .host base junk => s.hostStep cfg base junk
  | .flush =>
      match s.host with
      | .idle => s.drainPending cfg
      | _ => none
  | .zeroGrad =>
      match s.host, s.bucket, s.pendingRs with
      | .idle, [], none => some { s with kept := [] }
      | _, _, _ => none
  | .complete k => some (s.complete k)
  | .executeDefault => s.executeDefault
  | .executeReduce => s.executeReduce

def init (mem : ℕ → α) : ReduceState α where
  mem := mem
  bucket := []
  partitioning := []
  kept := []
  pendingRs := none
  reductions := []
  recorded := []
  reducePool := []
  waited := 0
  defaultStream := .empty
  reduceStream := .empty
  host := .idle

/-- While a reduction has not completed, the kernels that produce its source have
been executed, the source holds the pre-divided gradients, and a tensor refers to
it. -/
def InputFinal (cfg : ReduceConfig α) (s : ReduceState α) : Prop :=
  ∀ rs ∈ s.reductions, rs.completed = false →
    rs.queued ≤ s.reduceStream.executed ∧ Matches (load s.mem rs.source) rs.expected ∧
      ∃ t ∈ s.tensors cfg, rs.source.Within t

/-- A reduction is enqueued when its source is divided; unless the source is a
gradient, it completes before the call returns; nothing is executed on the reduce
stream that writes its source; backward only gives gradients to parameters that
have none. -/
def InputLeft (s : ReduceState α) : ReduceAction α → Prop
  | .host _ _ =>
      match s.host with
      | .built _ _ _ => s.reduceStream.pending = []
      | .enqueued _ aliased k _ =>
          aliased = true ∨ ∀ rs ∈ s.reductions[k]?, rs.completed = true
      | _ => True
  | .backward param _ _ =>
      ∀ g ∈ s.bucket ++ s.partitioning ++ s.kept, g.param ≠ param
  | .executeReduce =>
      ∀ op ∈ s.reduceStream.pending.head?, ∀ rs ∈ s.reductions, rs.completed = false →
        op.kernel.target.Apart rs.source
  | _ => True

instance (s : ReduceState α) (a : ReduceAction α) : Decidable (s.InputLeft a) :=
  match a with
  | .host _ _ =>
      match h : s.host with
      | .built _ _ _ => decidable_of_iff (s.reduceStream.pending.isEmpty = true) (by
          unfold InputLeft
          simp only [h, List.isEmpty_iff])
      | .enqueued _ aliased k _ =>
          decidable_of_iff (aliased = true ∨ ∀ rs ∈ s.reductions[k]?, rs.completed = true)
            (by
              unfold InputLeft
              simp only [h])
      | .idle | .hook _ | .drain _ | .avgScatter _ | .add _ | .synchronize =>
          isTrue (by
            unfold InputLeft
            simp only [h])
  | .backward param _ _ =>
      inferInstanceAs (Decidable
        (∀ g ∈ s.bucket ++ s.partitioning ++ s.kept, g.param ≠ param))
  | .executeReduce =>
      inferInstanceAs (Decidable (∀ op ∈ s.reduceStream.pending.head?,
        ∀ rs ∈ s.reductions, rs.completed = false → op.kernel.target.Apart rs.source))
  | .epilogue => isTrue trivial
  | .flush => isTrue trivial
  | .zeroGrad => isTrue trivial
  | .complete _ => isTrue trivial
  | .executeDefault => isTrue trivial

end ReduceState

end SmartNic.Lifetime
