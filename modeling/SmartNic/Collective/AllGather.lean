import Mathlib
import SmartNic.Collective.Rdma

/-!
# The AllGather collective

`collective_all_gather`, `get_ring_ctx` and `ag_compute_num_pieces` of
`comch_server.c`, as a program of the fabric whose cells are bytes.
`rdb_barrier`, which only delays a rank, and the timing records are left out.
-/

namespace SmartNic.Collective

open SmartNic.Fabric

/-! ## Pieces -/

def AG_PIECE_MIN_SIZE : ℕ := 256 * 1024

def AG_PIECE_HARD_MAX : ℕ := 32

/-- `g_ag_piece_max` and `g_ag_piece_target_bytes` after
`ag_piece_config_init_once`, which refuses values outside these ranges. -/
structure PieceConfig where
  max : ℕ
  target : ℕ
  max_pos : 1 ≤ max
  max_le : max ≤ AG_PIECE_HARD_MAX
  target_ge : AG_PIECE_MIN_SIZE ≤ target
  target_le : target ≤ 1024 * 1024 * 1024

/-- The defaults of `AG_PIECE_MAX` and `AG_PIECE_TARGET`. -/
def AllGather.defaultPieces : PieceConfig where
  max := 8
  target := 8 * 1024 * 1024
  max_pos := by decide
  max_le := by decide
  target_ge := by decide
  target_le := by decide

/-- The `while` loop of `ag_compute_num_pieces`. -/
def agShrinkPieces (chunkSize : ℕ) : ℕ → ℕ
  | 0 => 0
  | n + 1 =>
      if n + 1 > 1 ∧ chunkSize / (n + 1) < AG_PIECE_MIN_SIZE
      then agShrinkPieces chunkSize n
      else n + 1

/-- The sum is a `uint64_t`. -/
def agComputeNumPieces (cfg : PieceConfig) (chunkSize : ℕ) : ℕ :=
  let n := (chunkSize + cfg.target - 1) % 2 ^ 64 / cfg.target
  let n := if n < 1 then 1 else n
  let n := if n > cfg.max then cfg.max else n
  agShrinkPieces chunkSize n

/-! ## Rails -/

/-- The fields of `collective_worker_t` that decide on the rails: whether the
remote memories of rail 1 are valid and its connections established. -/
structure CollectiveWorker where
  dualRail : Bool
  hostSrcRmemRail1Valid : Bool
  hostDstRmemRail1Valid : Bool
  connToNextRail1 : Bool
  connFromPrevRail1 : Bool
  connToNextR1Rail1 : Bool
  connFromPrevR1Rail1 : Bool
deriving DecidableEq, Repr

/-- `struct ring_ctx_ptrs`: the contexts of a ring and whether its connections
of rail 1 are established. -/
structure RingCtxPtrs where
  ring : RdmaCtx
  ringRail1 : RdmaCtx
  connToNextRail1 : Bool
  connFromPrevRail1 : Bool
deriving DecidableEq, Repr

def getRingCtx (cw : CollectiveWorker) (ringId : ℕ) : RingCtxPtrs :=
  if ringId = 0 then
    { ring := .ring
      ringRail1 := .ringRail1
      connToNextRail1 := cw.connToNextRail1
      connFromPrevRail1 := cw.connFromPrevRail1 }
  else
    { ring := .ringR1
      ringRail1 := .ringR1Rail1
      connToNextRail1 := cw.connToNextR1Rail1
      connFromPrevRail1 := cw.connFromPrevR1Rail1 }

/-- The arguments of `collective_all_gather` that select the mode; a mmap is
given by whether it is there. -/
structure AllGatherArgs where
  cw : CollectiveWorker
  gpuSrcLocalMmap : Bool
  gpuDstLocalMmap : Bool
  gpuSrcLocalMmapRail1 : Bool
  gpuDstLocalMmapRail1 : Bool
  ringId : ℕ
deriving DecidableEq, Repr

/-- The mode of an AllGather, as its body derives it. -/
structure Mode where
  gpuDirect : Bool
  fullGpuDirect : Bool
  useDual : Bool
  useDualRing : Bool
  ring : RdmaCtx
  ringRail1 : RdmaCtx
  full_direct : fullGpuDirect → gpuDirect
deriving DecidableEq

def AllGatherArgs.mode (args : AllGatherArgs) : Mode :=
  let rc := getRingCtx args.cw args.ringId
  let useDual := args.cw.dualRail && args.cw.hostSrcRmemRail1Valid &&
    args.cw.hostDstRmemRail1Valid
  let useDualRing := rc.connToNextRail1 && rc.connFromPrevRail1
  let dstOk := args.gpuDstLocalMmap && args.gpuDstLocalMmapRail1
  let srcOk := args.gpuSrcLocalMmap && args.gpuSrcLocalMmapRail1
  let useDualRing :=
    if args.gpuDstLocalMmap then
      let useDualRing := if !dstOk then false else useDualRing
      if args.gpuSrcLocalMmap && !srcOk then false else useDualRing
    else useDualRing
  let gpuDirect := args.gpuDstLocalMmap
  { gpuDirect := gpuDirect
    fullGpuDirect := gpuDirect && args.gpuSrcLocalMmap
    useDual := useDual
    useDualRing := useDualRing
    ring := rc.ring
    ringRail1 := rc.ringRail1
    full_direct := fun h => (Bool.and_eq_true_iff.mp h).1 }

/-! ## The program -/

/-- The `atomic_int` counters; those of a step are objects of its pass through
the loop. -/
inductive Pending where
  | recv (step : ℕ)
  | read
  | write
  | send (step : ℕ)
  | put (step : ℕ)
deriving DecidableEq, Repr

/-- The sizes that all ranks of one AllGather share. -/
structure Layout where
  worldSize : ℕ
  chunkSize : ℕ
  numPieces : ℕ

namespace Layout

variable (ly : Layout)

def pieceSize : ℕ := ly.chunkSize / ly.numPieces

def lastPieceSize : ℕ := ly.chunkSize - ly.pieceSize * (ly.numPieces - 1)

/-- `p_off`. -/
def pieceOffset (p : ℕ) : ℕ := p * ly.pieceSize

/-- `p_len`. -/
def pieceLength (p : ℕ) : ℕ :=
  if p = ly.numPieces - 1 then ly.lastPieceSize else ly.pieceSize

/-- `(rank - 1 - step + world_size * 2) % world_size`; the sum is not negative,
so that the wrap-around of the unsigned difference does not matter. -/
def receiveIndex (rank step : ℕ) : ℕ :=
  (rank + ly.worldSize * 2 - 1 - step) % ly.worldSize

/-- `(rank - step + world_size) % world_size`. -/
def sendIndex (rank step : ℕ) : ℕ :=
  (rank + ly.worldSize - step) % ly.worldSize

def receiveOffset (rank step : ℕ) : ℕ :=
  ly.receiveIndex rank step * ly.chunkSize

def sendOffset (rank step : ℕ) : ℕ :=
  ly.sendIndex rank step * ly.chunkSize

end Layout

/-- The context of a piece: odd pieces go over rail 1 if it is in use. -/
def pieceCtx (dual : Bool) (rail0 rail1 : RdmaCtx) (p : ℕ) : RdmaCtx :=
  if dual ∧ p % 2 = 1 then rail1 else rail0

def Mode.ringCtx (m : Mode) (p : ℕ) : RdmaCtx :=
  pieceCtx m.useDualRing m.ring m.ringRail1 p

def Mode.rmaCtx (m : Mode) (p : ℕ) : RdmaCtx :=
  pieceCtx m.useDual .rma .rmaRail1 p

/-- The number of ring steps; a full GPU-direct rank receives its own chunk
over the ring too. -/
def totalSteps (ly : Layout) (m : Mode) : ℕ :=
  if m.fullGpuDirect then ly.worldSize else ly.worldSize - 1

/-- The buffer in which the ring receives. -/
def Mode.ringBuffer (m : Mode) : Buffer :=
  if m.gpuDirect then .dst else .send

/-- Where the piece sent in a step comes from, without the piece's offset. -/
def sendSource (ly : Layout) (m : Mode) (rank step : ℕ) : Addr :=
  if m.fullGpuDirect ∧ step = 0 then (.src, 0)
  else (m.ringBuffer, ly.sendOffset rank step)

def recvTask (ly : Layout) (m : Mode) (rank step p : ℕ) :
    Task RdmaCtx Pending Addr :=
  initRingRecvTask
    (m.ringBuffer, ly.receiveOffset rank step + ly.pieceOffset p)
    (ly.pieceLength p) (m.ringCtx p) (.recv step)

def readTask (ly : Layout) (m : Mode) (rank p : ℕ) :
    Task RdmaCtx Pending Addr :=
  initReadTask (.send, rank * ly.chunkSize + ly.pieceOffset p)
    (.src, ly.pieceOffset p) (ly.pieceLength p) (m.rmaCtx p) .read

def writeTask (ly : Layout) (m : Mode) (rank p : ℕ) :
    Task RdmaCtx Pending Addr :=
  initWriteTask (.send, rank * ly.chunkSize + ly.pieceOffset p)
    (.dst, rank * ly.chunkSize + ly.pieceOffset p)
    (ly.pieceLength p) (m.rmaCtx p) .write

def sendTask (ly : Layout) (m : Mode) (rank step p : ℕ) :
    Task RdmaCtx Pending Addr :=
  initRingSendTask
    ((sendSource ly m rank step).1,
      (sendSource ly m rank step).2 + ly.pieceOffset p)
    (ly.pieceLength p) (m.ringCtx p) (.send step)

def putTask (ly : Layout) (m : Mode) (rank step p : ℕ) :
    Task RdmaCtx Pending Addr :=
  initWriteTask (.send, ly.receiveOffset rank step + ly.pieceOffset p)
    (.dst, ly.receiveOffset rank step + ly.pieceOffset p)
    (ly.pieceLength p) (m.rmaCtx p) (.put step)

section Program

variable (V D : Type)

/-- Initialise a counter and submit one task for each piece. -/
def pieceBatch (ly : Layout) (pending : Pending)
    (task : ℕ → Task RdmaCtx Pending Addr) :
    List (Instr RdmaCtx Pending Addr V D) :=
  batch pending ((List.range ly.numPieces).map task)

/-- The receives of all ring steps, posted ahead. -/
def recvPhase (ly : Layout) (m : Mode) (rank : ℕ) :
    List (Instr RdmaCtx Pending Addr V D) :=
  (List.range (totalSteps ly m)).flatMap fun step =>
    pieceBatch V D ly (.recv step) (recvTask ly m rank step)

/-- Read the own chunk to the DPU and write it to the destination. -/
def initialPhase (ly : Layout) (m : Mode) (rank : ℕ) :
    List (Instr RdmaCtx Pending Addr V D) :=
  pieceBatch V D ly .read (readTask ly m rank) ++ [.wait [.read]] ++
    pieceBatch V D ly .write (writeTask ly m rank) ++ [.wait [.write]]

/-- One step of the ring. -/
def ringStep (ly : Layout) (m : Mode) (rank step : ℕ) :
    List (Instr RdmaCtx Pending Addr V D) :=
  pieceBatch V D ly (.send step) (sendTask ly m rank step) ++
    [.wait [.recv step, .send step]] ++
    if m.gpuDirect then []
    else pieceBatch V D ly (.put step) (putTask ly m rank step) ++
      [.wait [.put step]]

/-- The body of `collective_all_gather` in a given mode. -/
def allGatherIn (ly : Layout) (m : Mode) (rank : ℕ) :
    List (Instr RdmaCtx Pending Addr V D) :=
  recvPhase V D ly m rank ++
    (if m.fullGpuDirect then [] else initialPhase V D ly m rank) ++
    (List.range (totalSteps ly m)).flatMap (ringStep V D ly m rank)

/-- The sizes that `collective_all_gather` computes. -/
def allGatherLayout (cfg : PieceConfig) (worldSize bufferLen : ℕ) : Layout :=
  { worldSize := worldSize
    chunkSize := bufferLen / worldSize
    numPieces := agComputeNumPieces cfg (bufferLen / worldSize) }

def collectiveAllGather (cfg : PieceConfig) (args : AllGatherArgs)
    (rank worldSize bufferLen : ℕ) :
    List (Instr RdmaCtx Pending Addr V D) :=
  allGatherIn V D (allGatherLayout cfg worldSize bufferLen) args.mode rank

end Program

/-! ## Basic lemmas -/

theorem agShrinkPieces_pos (chunkSize : ℕ) {n : ℕ} (hn : 1 ≤ n) :
    1 ≤ agShrinkPieces chunkSize n := by
  induction n with
  | zero => cases hn
  | succ n ih =>
      rw [agShrinkPieces]
      split
      next h => exact ih (by omega)
      · omega

theorem agComputeNumPieces_pos (cfg : PieceConfig) (chunkSize : ℕ) :
    1 ≤ agComputeNumPieces cfg chunkSize := by
  refine agShrinkPieces_pos chunkSize ?_
  have hmax := cfg.max_pos
  generalize (chunkSize + cfg.target - 1) % 2 ^ 64 / cfg.target = n
  split
  · split
    · exact hmax
    · exact le_rfl
  · split
    · exact hmax
    · omega

namespace Layout

variable {ly : Layout}

theorem pieceSize_mul_le (ly : Layout) :
    ly.pieceSize * ly.numPieces ≤ ly.chunkSize :=
  Nat.div_mul_le_self _ _

/-- A piece lies inside its chunk. -/
theorem pieceOffset_add_lt {p x : ℕ} (hp : p < ly.numPieces)
    (hx : x < ly.pieceLength p) : ly.pieceOffset p + x < ly.chunkSize := by
  have hle := ly.pieceSize_mul_le
  have hmono : (p + 1) * ly.pieceSize ≤ ly.numPieces * ly.pieceSize :=
    Nat.mul_le_mul_right _ hp
  rw [Nat.succ_mul] at hmono
  rw [Nat.mul_comm] at hle
  unfold pieceLength at hx
  unfold pieceOffset
  split at hx
  next hlast =>
    rw [lastPieceSize, Nat.mul_comm, ← hlast] at hx
    omega
  · omega

/-- Every byte of a chunk lies in one of its pieces. -/
theorem exists_piece (hn : 1 ≤ ly.numPieces) {x : ℕ} (hx : x < ly.chunkSize) :
    ∃ p < ly.numPieces, ∃ y < ly.pieceLength p, x = ly.pieceOffset p + y := by
  rcases Nat.lt_or_ge x ((ly.numPieces - 1) * ly.pieceSize) with hlt | hge
  · have hpos : 0 < ly.pieceSize := by
      by_contra hzero
      rw [Nat.eq_zero_of_not_pos hzero, Nat.mul_zero] at hlt
      exact Nat.not_lt_zero _ hlt
    have hp : x / ly.pieceSize < ly.numPieces - 1 :=
      (Nat.div_lt_iff_lt_mul hpos).mpr hlt
    refine ⟨x / ly.pieceSize, by omega, x % ly.pieceSize, ?_, ?_⟩
    · rw [pieceLength, if_neg (by omega)]
      exact Nat.mod_lt _ hpos
    · exact (Nat.div_add_mod' x ly.pieceSize).symm
  · refine ⟨ly.numPieces - 1, by omega,
      x - (ly.numPieces - 1) * ly.pieceSize, ?_, ?_⟩
    · rw [pieceLength, if_pos rfl, lastPieceSize, Nat.mul_comm ly.pieceSize]
      omega
    · rw [pieceOffset]
      omega

end Layout

end SmartNic.Collective
