import Mathlib
import SmartNic.Collective.AllGather

/-!
# Agreement of neighbours on the AllGather plan

A rank derives the number of ring steps, the number of pieces and the rail of a
piece from its own imports, connections and configuration.  What it sends is
what the next rank has posted receives for if both derive the same.
-/

namespace SmartNic.Collective

open SmartNic.Fabric

/-! ## The traffic of a program -/

section Traffic

variable {C V D : Type}

/-- The lengths of the sends of a program on one context. -/
def ringSends (q : RdmaCtx) (prog : List (Instr RdmaCtx C Addr V D)) :
    List ℕ :=
  prog.filterMap fun
    | .submit t => (t.sendOn q).map List.length
    | _ => none

/-- The lengths of the receives that a program posts on one context. -/
def ringRecvs (q : RdmaCtx) (prog : List (Instr RdmaCtx C Addr V D)) :
    List ℕ :=
  prog.filterMap fun
    | .submit t => (t.recvOn q).map List.length
    | _ => none

@[simp]
theorem ringSends_append (q : RdmaCtx)
    (xs ys : List (Instr RdmaCtx C Addr V D)) :
    ringSends q (xs ++ ys) = ringSends q xs ++ ringSends q ys :=
  List.filterMap_append

@[simp]
theorem ringRecvs_append (q : RdmaCtx)
    (xs ys : List (Instr RdmaCtx C Addr V D)) :
    ringRecvs q (xs ++ ys) = ringRecvs q xs ++ ringRecvs q ys :=
  List.filterMap_append

@[simp]
theorem ringSends_wait (q : RdmaCtx) (cs : List C)
    (prog : List (Instr RdmaCtx C Addr V D)) :
    ringSends q (.wait cs :: prog) = ringSends q prog := rfl

@[simp]
theorem ringRecvs_wait (q : RdmaCtx) (cs : List C)
    (prog : List (Instr RdmaCtx C Addr V D)) :
    ringRecvs q (.wait cs :: prog) = ringRecvs q prog := rfl

@[simp]
theorem ringSends_nil (q : RdmaCtx) :
    ringSends q ([] : List (Instr RdmaCtx C Addr V D)) = [] := rfl

@[simp]
theorem ringRecvs_nil (q : RdmaCtx) :
    ringRecvs q ([] : List (Instr RdmaCtx C Addr V D)) = [] := rfl

theorem ringSends_flatMap (q : RdmaCtx) {β : Type} (xs : List β)
    (f : β → List (Instr RdmaCtx C Addr V D)) :
    ringSends q (xs.flatMap f) = xs.flatMap fun x => ringSends q (f x) :=
  List.filterMap_flatMap

theorem ringRecvs_flatMap (q : RdmaCtx) {β : Type} (xs : List β)
    (f : β → List (Instr RdmaCtx C Addr V D)) :
    ringRecvs q (xs.flatMap f) = xs.flatMap fun x => ringRecvs q (f x) :=
  List.filterMap_flatMap

end Traffic

section Plan

variable {ly : Layout} {m : Mode} {rank : ℕ} {V D : Type}

/-- What a batch of pieces sends. -/
theorem ringSends_pieceBatch (q : RdmaCtx) (pending : Pending)
    (task : ℕ → Task RdmaCtx Pending Addr) :
    ringSends q (pieceBatch V D ly pending task) =
      (List.range ly.numPieces).filterMap fun p =>
        ((task p).sendOn q).map List.length := by
  simp [ringSends, pieceBatch, batch, List.filterMap_map, Function.comp_def]

theorem ringRecvs_pieceBatch (q : RdmaCtx) (pending : Pending)
    (task : ℕ → Task RdmaCtx Pending Addr) :
    ringRecvs q (pieceBatch V D ly pending task) =
      (List.range ly.numPieces).filterMap fun p =>
        ((task p).recvOn q).map List.length := by
  simp [ringRecvs, pieceBatch, batch, List.filterMap_map, Function.comp_def]

/-- The pieces that go over one context in a step. -/
def stepTraffic (ly : Layout) (m : Mode) (q : RdmaCtx) : List ℕ :=
  (List.range ly.numPieces).filterMap fun p =>
    if m.ringCtx p = q then some (ly.pieceLength p) else none

@[simp]
theorem cells_length (a : Addr) (length : ℕ) :
    (cells a length).length = length := by
  simp [cells]

theorem ringSends_initialPhase (q : RdmaCtx) :
    ringSends q (initialPhase V D ly m rank) = [] := by
  simp [initialPhase, ringSends_pieceBatch, readTask, writeTask, initReadTask,
    initWriteTask]

theorem ringRecvs_initialPhase (q : RdmaCtx) :
    ringRecvs q (initialPhase V D ly m rank) = [] := by
  simp [initialPhase, ringRecvs_pieceBatch, readTask, writeTask, initReadTask,
    initWriteTask]

theorem ringSends_ringStep (q : RdmaCtx) (step : ℕ) :
    ringSends q (ringStep V D ly m rank step) = stepTraffic ly m q := by
  have hput : ringSends q (if m.gpuDirect then []
      else pieceBatch V D ly (.put step) (putTask ly m rank step) ++
        [.wait [.put step]]) = [] := by
    split
    · rfl
    · simp [ringSends_pieceBatch, putTask, initWriteTask]
  rw [ringStep, ringSends_append, ringSends_append, hput, ringSends_wait,
    ringSends_nil, List.append_nil, List.append_nil, ringSends_pieceBatch]
  simp only [sendTask, initRingSendTask_sendOn]
  refine List.filterMap_congr ?_
  intro p _
  split <;> simp

theorem ringRecvs_ringStep (q : RdmaCtx) (step : ℕ) :
    ringRecvs q (ringStep V D ly m rank step) = [] := by
  unfold ringStep
  split
  · simp [ringRecvs_pieceBatch, sendTask]
  · simp [ringRecvs_pieceBatch, sendTask, putTask, initWriteTask]

theorem ringRecvs_recvStep (q : RdmaCtx) (step : ℕ) :
    ringRecvs q (pieceBatch V D ly (.recv step) (recvTask ly m rank step)) =
      stepTraffic ly m q := by
  rw [ringRecvs_pieceBatch]
  simp only [recvTask, initRingRecvTask_recvOn]
  refine List.filterMap_congr ?_
  intro p _
  split <;> simp

theorem ringSends_recvPhase (q : RdmaCtx) :
    ringSends q (recvPhase V D ly m rank) = [] := by
  simp [recvPhase, ringSends_flatMap, ringSends_pieceBatch, recvTask]

/-- A rank sends the pieces of a step as often as it has steps. -/
theorem ringSends_allGatherIn (q : RdmaCtx) :
    ringSends q (allGatherIn V D ly m rank) =
      (List.range (totalSteps ly m)).flatMap fun _ => stepTraffic ly m q := by
  have hinitial : ringSends q (if m.fullGpuDirect then []
      else initialPhase V D ly m rank) = [] := by
    split
    · rfl
    · exact ringSends_initialPhase q
  rw [allGatherIn, ringSends_append, ringSends_append, ringSends_recvPhase,
    hinitial, ringSends_flatMap]
  simp only [ringSends_ringStep, List.nil_append]

/-- A rank posts receives for the pieces of a step as often as it has steps. -/
theorem ringRecvs_allGatherIn (q : RdmaCtx) :
    ringRecvs q (allGatherIn V D ly m rank) =
      (List.range (totalSteps ly m)).flatMap fun _ => stepTraffic ly m q := by
  have hinitial : ringRecvs q (if m.fullGpuDirect then []
      else initialPhase V D ly m rank) = [] := by
    split
    · rfl
    · exact ringRecvs_initialPhase q
  rw [allGatherIn, ringRecvs_append, ringRecvs_append, hinitial,
    ringRecvs_flatMap, recvPhase, ringRecvs_flatMap]
  simp [ringRecvs_ringStep, ringRecvs_recvStep]

end Plan

/-! ## Two neighbours -/

/-- A rank's part of an AllGather command: its piece configuration, what it
could import and connect, and the ring that it chose. -/
structure Neighbour where
  pieces : PieceConfig
  args : AllGatherArgs

namespace Neighbour

variable (x y : Neighbour) (worldSize bufferLen : ℕ)

def layout : Layout := allGatherLayout x.pieces worldSize bufferLen

def steps : ℕ := totalSteps (x.layout worldSize bufferLen) x.args.mode

def program (rank : ℕ) : List (Instr RdmaCtx Pending Addr Unit Unit) :=
  collectiveAllGather Unit Unit x.pieces x.args rank worldSize bufferLen

/-- A rank `x` and its next rank `y` agree on the plan, so that the sends of one
and the receives of the other match on every context. -/
structure Agree (rank : ℕ) : Prop where
  steps : x.steps worldSize bufferLen = y.steps worldSize bufferLen
  pieces : (x.layout worldSize bufferLen).numPieces =
    (y.layout worldSize bufferLen).numPieces
  rail : ∀ p < (x.layout worldSize bufferLen).numPieces,
    x.args.mode.ringCtx p = y.args.mode.ringCtx p
  matched : ∀ q, ringSends q (x.program worldSize bufferLen rank) =
    ringRecvs q (y.program worldSize bufferLen ((rank + 1) % worldSize))

/-- Both buffers of the command are imported over PCI. -/
def imported : Bool := x.args.gpuDstLocalMmap && x.args.gpuSrcLocalMmap

/-- Rail 1 is connected on the ring in both directions, and a destination that is
imported is imported for rail 1 too, as is a source that is imported beside it.  If
the source alone is imported, rail 1 does not depend on it. -/
def rail1 : Bool :=
  let rc := getRingCtx x.args.cw x.args.ringId
  rc.connToNextRail1 && rc.connFromPrevRail1 &&
    (!x.args.gpuDstLocalMmap || (x.args.gpuDstLocalMmapRail1 &&
      (!x.args.gpuSrcLocalMmap || x.args.gpuSrcLocalMmapRail1)))

/-- The facts that each rank finds out for itself and that have to be the same
on both; rail 1 only matters if there are several pieces. -/
structure SameFacts : Prop where
  ring : x.args.ringId = 0 ↔ y.args.ringId = 0
  imported : x.imported = y.imported
  pieces : agComputeNumPieces x.pieces (bufferLen / worldSize) =
    agComputeNumPieces y.pieces (bufferLen / worldSize)
  rail1 : 2 ≤ agComputeNumPieces x.pieces (bufferLen / worldSize) →
    x.rail1 = y.rail1

variable {x y worldSize bufferLen}

theorem fullGpuDirect_eq : x.args.mode.fullGpuDirect = x.imported := rfl

theorem useDualRing_eq : x.args.mode.useDualRing = x.rail1 := by
  unfold AllGatherArgs.mode rail1
  dsimp only
  generalize getRingCtx x.args.cw x.args.ringId = rc
  cases x.args.gpuDstLocalMmap <;> cases x.args.gpuSrcLocalMmap <;>
    cases x.args.gpuDstLocalMmapRail1 <;>
    cases x.args.gpuSrcLocalMmapRail1 <;> simp

/-- The context of a piece tells the ring and the rail. -/
theorem ringCtx_eq_iff (p : ℕ) :
    x.args.mode.ringCtx p = y.args.mode.ringCtx p ↔
      (x.args.ringId = 0 ↔ y.args.ringId = 0) ∧
        (p % 2 = 1 → x.rail1 = y.rail1) := by
  have hctx : ∀ z : Neighbour, z.args.mode.ringCtx p =
      if z.rail1 ∧ p % 2 = 1 then
        if z.args.ringId = 0 then .ringRail1 else .ringR1Rail1
      else if z.args.ringId = 0 then .ring else .ringR1 := by
    intro z
    unfold Mode.ringCtx pieceCtx
    rw [useDualRing_eq]
    change (if z.rail1 ∧ p % 2 = 1 then
      (getRingCtx z.args.cw z.args.ringId).ringRail1
      else (getRingCtx z.args.cw z.args.ringId).ring) = _
    unfold getRingCtx
    by_cases hz : z.args.ringId = 0
    · simp only [hz, if_true]
    · simp only [hz, if_false]
  rw [hctx, hctx]
  by_cases hx : x.args.ringId = 0 <;> by_cases hy : y.args.ringId = 0 <;>
    by_cases hp : p % 2 = 1 <;> cases x.rail1 <;> cases y.rail1 <;>
    simp [hx, hy, hp]

/-- Two ranks have the same number of steps if both or none are GPU direct. -/
theorem steps_eq_iff (hws : 0 < worldSize) :
    x.steps worldSize bufferLen = y.steps worldSize bufferLen ↔
      x.imported = y.imported := by
  unfold steps totalSteps
  rw [fullGpuDirect_eq, fullGpuDirect_eq]
  change (if x.imported then worldSize else worldSize - 1) =
    (if y.imported then worldSize else worldSize - 1) ↔ _
  cases x.imported <;> cases y.imported <;> simp <;> omega

/-- Neighbours that agree on their number of pieces and contexts have the same
traffic in a step. -/
theorem stepTraffic_eq
    (hpieces : (x.layout worldSize bufferLen).numPieces =
      (y.layout worldSize bufferLen).numPieces)
    (hrail : ∀ p < (x.layout worldSize bufferLen).numPieces,
      x.args.mode.ringCtx p = y.args.mode.ringCtx p) (q : RdmaCtx) :
    stepTraffic (x.layout worldSize bufferLen) x.args.mode q =
      stepTraffic (y.layout worldSize bufferLen) y.args.mode q := by
  have hlayout : x.layout worldSize bufferLen = y.layout worldSize bufferLen :=
    congrArg (Layout.mk worldSize (bufferLen / worldSize)) hpieces
  unfold stepTraffic
  rw [← hlayout]
  refine List.filterMap_congr ?_
  intro p hp
  rw [hrail p (List.mem_range.mp hp)]

end Neighbour

/-- Neighbours agree on the plan of an AllGather exactly if what they found out
for themselves is the same. -/
theorem neighbours_agree_iff (x y : Neighbour)
    (rank worldSize bufferLen : ℕ) (hrank : rank < worldSize) :
    x.Agree y worldSize bufferLen rank ↔ x.SameFacts y worldSize bufferLen := by
  have hws : 0 < worldSize := Nat.zero_lt_of_lt hrank
  constructor
  · intro h
    have hpos : 1 ≤ (x.layout worldSize bufferLen).numPieces :=
      agComputeNumPieces_pos x.pieces _
    exact
      { ring := ((Neighbour.ringCtx_eq_iff 0).mp (h.rail 0 hpos)).1
        imported := (Neighbour.steps_eq_iff hws).mp h.steps
        pieces := h.pieces
        rail1 := fun htwo =>
          ((Neighbour.ringCtx_eq_iff 1).mp (h.rail 1 htwo)).2 rfl }
  · intro h
    have hsteps : x.steps worldSize bufferLen = y.steps worldSize bufferLen :=
      (Neighbour.steps_eq_iff hws).mpr h.imported
    have hrail : ∀ p < (x.layout worldSize bufferLen).numPieces,
        x.args.mode.ringCtx p = y.args.mode.ringCtx p := by
      intro p hp
      refine (Neighbour.ringCtx_eq_iff p).mpr ⟨h.ring, ?_⟩
      intro hodd
      refine h.rail1 ?_
      change p < agComputeNumPieces x.pieces (bufferLen / worldSize) at hp
      omega
    refine ⟨hsteps, h.pieces, hrail, ?_⟩
    intro q
    calc ringSends q (x.program worldSize bufferLen rank)
        = (List.range (x.steps worldSize bufferLen)).flatMap fun _ =>
            stepTraffic (x.layout worldSize bufferLen) x.args.mode q :=
          ringSends_allGatherIn q
      _ = (List.range (y.steps worldSize bufferLen)).flatMap fun _ =>
            stepTraffic (y.layout worldSize bufferLen) y.args.mode q := by
          rw [hsteps, Neighbour.stepTraffic_eq h.pieces hrail]
      _ = ringRecvs q (y.program worldSize bufferLen
            ((rank + 1) % worldSize)) :=
          (ringRecvs_allGatherIn q).symm

/-- The default piece configuration and one rail; a GPU Direct rank has imported
both buffers. -/
def oneRail (gpuDirect : Bool) : Neighbour where
  pieces := AllGather.defaultPieces
  args :=
    { cw := ⟨false, false, false, false, false, false, false⟩
      gpuSrcLocalMmap := gpuDirect
      gpuDstLocalMmap := true
      gpuSrcLocalMmapRail1 := false
      gpuDstLocalMmapRail1 := false
      ringId := 0 }

theorem neighbours_agree_iff_two :
    (oneRail true).Agree (oneRail true) 2 1024 0 ↔
      (oneRail true).SameFacts (oneRail true) 2 1024 :=
  neighbours_agree_iff (oneRail true) (oneRail true) 0 2 1024 (by decide)

/-- The source of rank 1 could not be imported: it plans one step, rank 0 two. -/
theorem lone_source_import_disagrees :
    ¬ (oneRail true).Agree (oneRail false) 2 1024 0 := by
  intro h
  exact absurd h.steps (by decide)

end SmartNic.Collective
