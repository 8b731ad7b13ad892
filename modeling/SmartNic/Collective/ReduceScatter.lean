import SmartNic.Collective.RsPool

/-!
# The ReduceScatter collective

`collective_reduce_scatter` of `comch_server.c` as a program of the fabric whose
cells are `fp16` elements.  `rdb_barrier`, which only delays a rank, and the
timing records are left out.
-/

namespace SmartNic.Collective

open SmartNic.Fabric

/-- `sizeof(fp16_t)`. -/
def SIZEOF_FP16 : ℕ := 2

def RS_AGGREGATION_THRESHOLD : ℕ := 256 * 1024

/-- The `atomic_int` counters; those of a step are objects of its pass through
the loop. -/
inductive RsPending where
  | recv (step : ℕ)
  | firstRead
  | send (step : ℕ)
  | read (step : ℕ)
  | put
deriving DecidableEq, Repr

/-- The sizes of a ReduceScatter: the cell at the start of each chunk, the
cells of a transfer of `chunk_size` bytes and `elements_per_chunk`. -/
structure RsLayout where
  worldSize : ℕ
  offset : ℕ → ℕ
  cellsPerChunk : ℕ
  elementsPerChunk : ℕ

namespace RsLayout

variable (ly : RsLayout)

/-- `r_idx`. -/
def receiveIndex (rank step : ℕ) : ℕ :=
  (rank + 2 * ly.worldSize - 2 - step) % ly.worldSize

/-- `read_index` before the loop; the unsigned difference `rank - 1` may wrap
around, its sum with `world_size` does not. -/
def firstReadIndex (rank : ℕ) : ℕ :=
  (rank + ly.worldSize - 1) % ly.worldSize

/-- `s_idx`. -/
def sendIndex (rank step : ℕ) : ℕ :=
  (rank + ly.worldSize - 1 - step) % ly.worldSize

/-- `read_index` in the loop, again without the wrap-around. -/
def readIndex (rank step : ℕ) : ℕ :=
  (rank + 2 * ly.worldSize - step - 2) % ly.worldSize

/-- `agg_index`. -/
def aggIndex (rank step : ℕ) : ℕ :=
  (rank + ly.worldSize - 1 - (step + 1)) % ly.worldSize

end RsLayout

section Program

variable {n : ℕ} {V : Type} (add : V → V → V) (ly : RsLayout)

def rsRecvTask (rank step : ℕ) : Task RdmaCtx RsPending Addr :=
  initRingRecvTask (.recv, ly.offset (ly.receiveIndex rank step))
    ly.cellsPerChunk .ring (.recv step)

/-- Read a chunk of the source. -/
def rsReadTask (index : ℕ) (pending : RsPending) :
    Task RdmaCtx RsPending Addr :=
  initReadTask (.send, ly.offset index) (.src, ly.offset index)
    ly.cellsPerChunk .rma pending

def rsSendTask (rank step : ℕ) : Task RdmaCtx RsPending Addr :=
  initRingSendTask (.send, ly.offset (ly.sendIndex rank step))
    ly.cellsPerChunk .ring (.send step)

def rsPutTask (rank : ℕ) : Task RdmaCtx RsPending Addr :=
  initWriteTask (.send, ly.offset rank) (.dst, 0) ly.cellsPerChunk .rma .put

/-- The aggregation of a step: in place for small chunks, else by the pool. -/
def rsAggregate (rank step : ℕ) :
    List (Instr RdmaCtx RsPending Addr V (RsPool n)) :=
  let start := ly.elementsPerChunk * ly.aggIndex rank step
  let stop := start + ly.elementsPerChunk
  if ly.elementsPerChunk ≤ RS_AGGREGATION_THRESHOLD / SIZEOF_FP16 then
    [.call fun pool m => some (pool, rsAddRangeNeon add .send .recv start stop m)]
  else
    [.call fun pool m =>
        (submitRsTask .send .recv start stop step pool).map fun pool => (pool, m),
      .call fun pool m =>
        (pollWaitRsCompletion step pool).map fun pool => (pool, m)]

/-- One step of the ring. -/
def rsStep (rank step : ℕ) :
    List (Instr RdmaCtx RsPending Addr V (RsPool n)) :=
  batch (.send step) [rsSendTask ly rank step] ++
    batch (.read step) [rsReadTask ly (ly.readIndex rank step) (.read step)] ++
    [.wait [.recv step, .send step, .read step]] ++
    rsAggregate add ly rank step

/-- The body of `collective_reduce_scatter`. -/
def reduceScatterIn (rank : ℕ) :
    List (Instr RdmaCtx RsPending Addr V (RsPool n)) :=
  ((List.range (ly.worldSize - 1)).flatMap fun step =>
      batch (.recv step) [rsRecvTask ly rank step]) ++
    (batch .firstRead [rsReadTask ly (ly.firstReadIndex rank) .firstRead] ++
      [.wait [.firstRead]]) ++
    (List.range (ly.worldSize - 1)).flatMap (rsStep add ly rank) ++
    (batch .put [rsPutTask ly rank] ++ [.wait [.put]])

/-- The sizes that `collective_reduce_scatter` computes. -/
def reduceScatterLayout (worldSize bufferLen : ℕ) : RsLayout :=
  let chunkSize := bufferLen / worldSize
  { worldSize := worldSize
    offset := fun index => index * chunkSize / SIZEOF_FP16
    cellsPerChunk := chunkSize / SIZEOF_FP16
    elementsPerChunk := chunkSize / SIZEOF_FP16 }

def collectiveReduceScatter (rank worldSize bufferLen : ℕ) :
    List (Instr RdmaCtx RsPending Addr V (RsPool n)) :=
  reduceScatterIn add (reduceScatterLayout worldSize bufferLen) rank

end Program

/-- The sizes for chunks of whole elements. -/
def elementLayout (worldSize elements : ℕ) : RsLayout where
  worldSize := worldSize
  offset := fun index => index * elements
  cellsPerChunk := elements
  elementsPerChunk := elements

/-- A buffer that splits into whole elements for each rank. -/
theorem reduceScatterLayout_eq {worldSize bufferLen : ℕ}
    (hlen : 2 * worldSize ∣ bufferLen) :
    reduceScatterLayout worldSize bufferLen =
      elementLayout worldSize (bufferLen / worldSize / 2) := by
  have hchunk : 2 * (bufferLen / worldSize / 2) = bufferLen / worldSize :=
    Nat.mul_div_cancel' (Nat.dvd_div_of_mul_dvd (Nat.mul_comm 2 worldSize ▸ hlen))
  have hoffset : ∀ index, index * (bufferLen / worldSize) / 2 =
      index * (bufferLen / worldSize / 2) := by
    intro index
    rw [Nat.mul_div_assoc _ ⟨_, hchunk.symm⟩]
  simp only [reduceScatterLayout, elementLayout, SIZEOF_FP16, hoffset]

end SmartNic.Collective
