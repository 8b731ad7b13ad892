import Mathlib
import SmartNic.Collective.Pieces
import SmartNic.Collective.PlanAgreement

/-!
# The receives that an AllGather posts at once

`collective_all_gather` posts the receives of all ring steps before it waits for
any of them, on contexts with a fixed number of receive tasks.
-/

namespace SmartNic.Collective

open SmartNic.Fabric

/-- `num_recv_tasks` of the contexts, as `doca_rdma_ctx_configure_and_start` gets
it. -/
def numRecvTasks : RdmaCtx → ℕ
  | .rma => 0
  | .rmaRail1 => 0
  | .ring => 256
  | .ringRail1 => 256
  | .ringR1 => 256
  | .ringR1Rail1 => 256

namespace Neighbour

variable (x : Neighbour) (rank worldSize bufferLen : ℕ)

/-- The lengths of the receives that are posted on a context before the first
wait. -/
def postedRecvs (q : RdmaCtx) : List ℕ :=
  ringRecvs q (recvPhase Unit Unit (x.layout worldSize bufferLen) x.args.mode rank)

/-- The receives of which `submit_doca_task_from_desc` drops the descriptor: all
tasks of the context are in use. -/
def rejectedRecvs (q : RdmaCtx) : List ℕ :=
  (x.postedRecvs rank worldSize bufferLen q).drop (numRecvTasks q)

/-- What is posted on a context fits its tasks, and nothing is rejected. -/
structure PostsFit : Prop where
  fits : ∀ q, (x.postedRecvs rank worldSize bufferLen q).length ≤ numRecvTasks q
  accepted : ∀ q, x.rejectedRecvs rank worldSize bufferLen q = []

/-! ## The condition on the inputs -/

/-- The steps of the ring: one more if both buffers are imported. -/
def ringSteps : ℕ := if x.imported then worldSize else worldSize - 1

/-- The pieces of a chunk: the smallest of the maximum, the pieces of target size
and the pieces of minimal size, but at least one. -/
def chunkPieces : ℕ :=
  min x.pieces.max (max 1
    (min ((bufferLen / worldSize + x.pieces.target - 1) % 2 ^ 64 / x.pieces.target)
      (bufferLen / worldSize / AG_PIECE_MIN_SIZE)))

/-- The pieces that go over rail 0: with both rails every other one. -/
def railPieces (n : ℕ) : ℕ := if x.rail1 then (n + 1) / 2 else n

/-! ## What is posted -/

variable {x rank worldSize bufferLen}

theorem length_stepTraffic (ly : Layout) (m : Mode) (q : RdmaCtx) :
    (stepTraffic ly m q).length =
      (List.range ly.numPieces).countP fun p => m.ringCtx p = q := by
  unfold stepTraffic
  rw [List.length_filterMap_eq_countP]
  apply List.countP_congr
  intro p _
  by_cases hp : m.ringCtx p = q
  · simp only [hp, if_true, Option.isSome_some, decide_true]
  · simp only [hp, if_false, Option.isSome_none, decide_false]

theorem length_postedRecvs (q : RdmaCtx) :
    (x.postedRecvs rank worldSize bufferLen q).length =
      x.ringSteps worldSize *
        (stepTraffic (x.layout worldSize bufferLen) x.args.mode q).length := by
  unfold postedRecvs recvPhase
  rw [ringRecvs_flatMap]
  simp only [ringRecvs_recvStep]
  rw [List.length_flatMap, List.map_const', List.sum_replicate, List.length_range,
    smul_eq_mul]
  rfl

theorem countP_odd (n : ℕ) : (List.range n).countP (fun p => p % 2 = 1) = n / 2 := by
  induction n with
  | zero => rfl
  | succ n ih =>
      rw [List.range_succ, List.countP_append, ih, List.countP_singleton]
      simp only [decide_eq_true_eq]
      split <;> omega

theorem countP_even (n : ℕ) :
    (List.range n).countP (fun p => ¬ p % 2 = 1) = (n + 1) / 2 := by
  have hodd := countP_odd n
  have hsplit := List.length_eq_countP_add_countP (fun p => decide (p % 2 = 1))
    (l := List.range n)
  rw [List.length_range, hodd] at hsplit
  simp only [decide_eq_true_eq] at hsplit
  omega

theorem numPieces_layout :
    (x.layout worldSize bufferLen).numPieces = x.chunkPieces worldSize bufferLen :=
  agComputeNumPieces_eq _ _

/-! ## Rails -/

theorem ring_ne_ringRail1 : x.args.mode.ring ≠ x.args.mode.ringRail1 := by
  change (getRingCtx x.args.cw x.args.ringId).ring ≠
    (getRingCtx x.args.cw x.args.ringId).ringRail1
  unfold getRingCtx
  split
  · intro h
    cases h
  · intro h
    cases h

theorem ringCtx_eq_ring_iff (p : ℕ) :
    x.args.mode.ringCtx p = x.args.mode.ring ↔ ¬ (x.rail1 = true ∧ p % 2 = 1) := by
  unfold Mode.ringCtx pieceCtx
  rw [useDualRing_eq]
  split
  · rename_i hrail1
    exact ⟨fun h => absurd h.symm ring_ne_ringRail1, fun h => absurd hrail1 h⟩
  · rename_i hrail0
    exact ⟨fun _ => hrail0, fun _ => rfl⟩

/-- On rail 0 every piece, or every other one. -/
theorem length_stepTraffic_ring :
    (stepTraffic (x.layout worldSize bufferLen) x.args.mode x.args.mode.ring).length =
      x.railPieces (x.chunkPieces worldSize bufferLen) := by
  rw [length_stepTraffic, numPieces_layout]
  unfold railPieces
  simp only [ringCtx_eq_ring_iff]
  cases x.rail1 with
  | true =>
      simp only [true_and, if_true]
      exact countP_even _
  | false =>
      simp only [Bool.false_eq_true, false_and, not_false_eq_true, decide_true, if_false]
      rw [List.countP_true, List.length_range]

/-- No context gets more than rail 0. -/
theorem length_stepTraffic_le (q : RdmaCtx) :
    (stepTraffic (x.layout worldSize bufferLen) x.args.mode q).length ≤
      x.railPieces (x.chunkPieces worldSize bufferLen) := by
  by_cases hring : q = x.args.mode.ring
  · rw [hring, length_stepTraffic_ring]
  · rw [length_stepTraffic, numPieces_layout]
    have hodd : ∀ p, x.args.mode.ringCtx p = q → x.rail1 = true ∧ p % 2 = 1 := by
      intro p hp
      by_contra hrail0
      exact hring (hp.symm.trans ((ringCtx_eq_ring_iff p).mpr hrail0))
    unfold railPieces
    split
    · calc
        (List.range (x.chunkPieces worldSize bufferLen)).countP
              (fun p => x.args.mode.ringCtx p = q) ≤
            (List.range (x.chunkPieces worldSize bufferLen)).countP
              (fun p => p % 2 = 1) := by
          apply List.countP_mono_left
          intro p _ hp
          exact decide_eq_true (hodd p (of_decide_eq_true hp)).2
        _ = x.chunkPieces worldSize bufferLen / 2 := countP_odd _
        _ ≤ (x.chunkPieces worldSize bufferLen + 1) / 2 := by omega
    · rename_i hsingle
      have hnone : (List.range (x.chunkPieces worldSize bufferLen)).countP
          (fun p => x.args.mode.ringCtx p = q) = 0 := by
        rw [List.countP_eq_zero]
        intro p _ hp
        exact hsingle (hodd p (of_decide_eq_true hp)).1
      rw [hnone]
      exact Nat.zero_le _

/-- The ring's contexts have 256 receive tasks each; the others get nothing. -/
theorem numRecvTasks_ring : numRecvTasks x.args.mode.ring = 256 := by
  change numRecvTasks (getRingCtx x.args.cw x.args.ringId).ring = 256
  unfold getRingCtx
  split
  · rfl
  · rfl

theorem numRecvTasks_of_ringCtx {p : ℕ} {q : RdmaCtx} (hq : x.args.mode.ringCtx p = q) :
    numRecvTasks q = 256 := by
  rw [← hq]
  unfold Mode.ringCtx pieceCtx
  split
  · change numRecvTasks (getRingCtx x.args.cw x.args.ringId).ringRail1 = 256
    unfold getRingCtx
    split
    · rfl
    · rfl
  · exact numRecvTasks_ring

theorem stepTraffic_eq_nil {q : RdmaCtx} (hq : numRecvTasks q ≠ 256) :
    stepTraffic (x.layout worldSize bufferLen) x.args.mode q = [] := by
  rw [← List.length_eq_zero_iff, length_stepTraffic, List.countP_eq_zero]
  intro p _ hp
  exact hq (numRecvTasks_of_ringCtx (of_decide_eq_true hp))

/-- Enough that the pieces of all steps on rail 0 have tasks. -/
theorem postsFit_of_le
    (h : x.ringSteps worldSize * x.railPieces (x.chunkPieces worldSize bufferLen) ≤ 256) :
    x.PostsFit rank worldSize bufferLen := by
  have hfits : ∀ q, (x.postedRecvs rank worldSize bufferLen q).length ≤
      numRecvTasks q := by
    intro q
    rw [length_postedRecvs]
    by_cases hq : numRecvTasks q = 256
    · rw [hq]
      exact (Nat.mul_le_mul_left _ (length_stepTraffic_le q)).trans h
    · rw [stepTraffic_eq_nil hq]
      exact Nat.zero_le _
  refine ⟨hfits, ?_⟩
  intro q
  exact List.drop_eq_nil_of_le (hfits q)

/-- The receives that an AllGather posts at once fit the tasks of their contexts
if and only if the pieces of all steps on rail 0 are at most 256. -/
theorem postsFit_iff (x : Neighbour) (rank worldSize bufferLen : ℕ) :
    x.PostsFit rank worldSize bufferLen ↔
      x.ringSteps worldSize * x.railPieces (x.chunkPieces worldSize bufferLen) ≤ 256 := by
  constructor
  · intro h
    have hring := h.fits x.args.mode.ring
    rwa [length_postedRecvs, length_stepTraffic_ring, numRecvTasks_ring] at hring
  · exact postsFit_of_le

/-- A rank without rail 1 whose buffers are both imported, with
`AG_PIECE_MAX=32` and `AG_PIECE_TARGET=262144`. -/
def manyPieces : Neighbour where
  pieces := agPieceConfigInitOnce (some 32) (some 262144)
  args :=
    { cw := ⟨false, false, false, false, false, false, false⟩
      gpuSrcLocalMmap := true
      gpuDstLocalMmap := true
      gpuSrcLocalMmapRail1 := false
      gpuDstLocalMmapRail1 := false
      ringId := 0 }

/-- Nine ranks with chunks of 8 MiB post 9 times 32 receives on 256 tasks. -/
theorem not_postsFit_nine : ¬ manyPieces.PostsFit 0 9 (9 * (8 * 1024 * 1024)) := by
  intro h
  have hring := h.fits .ring
  have hlength : (manyPieces.postedRecvs 0 9 (9 * (8 * 1024 * 1024)) .ring).length =
      288 := by
    rw [length_postedRecvs,
      show RdmaCtx.ring = manyPieces.args.mode.ring from rfl, length_stepTraffic_ring]
    decide
  rw [hlength] at hring
  exact absurd hring (by decide)

end Neighbour

end SmartNic.Collective
