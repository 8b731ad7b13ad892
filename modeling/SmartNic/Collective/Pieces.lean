import Mathlib
import SmartNic.Collective.AllGather
import SmartNic.Library.Tiling

/-!
# The pieces of a chunk

`ag_compute_num_pieces` has a closed form in the chunk size and the two limits,
and the pieces that `collective_all_gather` makes of a chunk tile it.
-/

namespace SmartNic.Collective

open Ranges Tiling

/-! ## The limits -/

/-- An environment variable after `atoi` or `atoll`, if its value is in range. -/
def envOr (env : Option ℤ) (lo hi default : ℕ) : ℕ :=
  match env with
  | some v => if (lo : ℤ) ≤ v ∧ v ≤ hi then v.toNat else default
  | none => default

theorem envOr_mem (env : Option ℤ) {lo hi default : ℕ}
    (hdefault : lo ≤ default ∧ default ≤ hi) :
    lo ≤ envOr env lo hi default ∧ envOr env lo hi default ≤ hi := by
  cases env with
  | none => exact hdefault
  | some v =>
      unfold envOr
      dsimp only
      split
      · rename_i hv
        omega
      · exact hdefault

/-- `ag_piece_config_init_once` for the values of `AG_PIECE_MAX` and
`AG_PIECE_TARGET`. -/
def agPieceConfigInitOnce (envMax envTarget : Option ℤ) : PieceConfig where
  max := envOr envMax 1 AG_PIECE_HARD_MAX AllGather.defaultPieces.max
  target :=
    envOr envTarget AG_PIECE_MIN_SIZE (1024 * 1024 * 1024) AllGather.defaultPieces.target
  max_pos := (envOr_mem envMax
    ⟨AllGather.defaultPieces.max_pos, AllGather.defaultPieces.max_le⟩).1
  max_le := (envOr_mem envMax
    ⟨AllGather.defaultPieces.max_pos, AllGather.defaultPieces.max_le⟩).2
  target_ge := (envOr_mem envTarget
    ⟨AllGather.defaultPieces.target_ge, AllGather.defaultPieces.target_le⟩).1
  target_le := (envOr_mem envTarget
    ⟨AllGather.defaultPieces.target_ge, AllGather.defaultPieces.target_le⟩).2

/-! ## The number of pieces -/

theorem AG_PIECE_MIN_SIZE_pos : 0 < AG_PIECE_MIN_SIZE := by decide

/-- The loop stops at the number of minimal pieces that fit, or at one. -/
theorem agShrinkPieces_eq (chunkSize : ℕ) {n : ℕ} (hn : 1 ≤ n) :
    agShrinkPieces chunkSize n = min n (max 1 (chunkSize / AG_PIECE_MIN_SIZE)) := by
  induction n with
  | zero => cases hn
  | succ n ih =>
      rw [agShrinkPieces]
      split
      · rename_i hshrink
        obtain ⟨hgt, hsmall⟩ := hshrink
        have hfit : chunkSize / AG_PIECE_MIN_SIZE < n + 1 := by
          rw [Nat.div_lt_iff_lt_mul AG_PIECE_MIN_SIZE_pos, Nat.mul_comm]
          rwa [Nat.div_lt_iff_lt_mul (Nat.succ_pos n)] at hsmall
        rw [ih (by omega)]
        omega
      · rename_i hkeep
        rcases Nat.eq_zero_or_pos n with rfl | hpos
        · omega
        · have hlarge : AG_PIECE_MIN_SIZE ≤ chunkSize / (n + 1) := by
            by_contra hsmall
            exact hkeep ⟨by omega, not_le.mp hsmall⟩
          have hfit : n + 1 ≤ chunkSize / AG_PIECE_MIN_SIZE := by
            rw [Nat.le_div_iff_mul_le AG_PIECE_MIN_SIZE_pos, Nat.mul_comm]
            rwa [Nat.le_div_iff_mul_le (Nat.succ_pos n)] at hlarge
          omega

/-- The smallest of the maximum, the pieces of target size and the pieces of
minimal size, but at least one. -/
theorem agComputeNumPieces_eq (cfg : PieceConfig) (chunkSize : ℕ) :
    agComputeNumPieces cfg chunkSize =
      min cfg.max (max 1 (min ((chunkSize + cfg.target - 1) % 2 ^ 64 / cfg.target)
        (chunkSize / AG_PIECE_MIN_SIZE))) := by
  have hmax := cfg.max_pos
  unfold agComputeNumPieces
  dsimp only
  generalize (chunkSize + cfg.target - 1) % 2 ^ 64 / cfg.target = n
  rw [agShrinkPieces_eq]
  · split_ifs <;> omega
  · split_ifs <;> omega

theorem agComputeNumPieces_le (cfg : PieceConfig) (chunkSize : ℕ) :
    agComputeNumPieces cfg chunkSize ≤ cfg.max := by
  rw [agComputeNumPieces_eq]
  exact Nat.min_le_left _ _

/-- Several pieces have the minimal size on average. -/
theorem min_size_le_div {cfg : PieceConfig} {chunkSize : ℕ}
    (hseveral : 1 < agComputeNumPieces cfg chunkSize) :
    AG_PIECE_MIN_SIZE ≤ chunkSize / agComputeNumPieces cfg chunkSize := by
  have hfit : agComputeNumPieces cfg chunkSize ≤ chunkSize / AG_PIECE_MIN_SIZE := by
    rw [agComputeNumPieces_eq] at hseveral ⊢
    omega
  rw [Nat.le_div_iff_mul_le AG_PIECE_MIN_SIZE_pos] at hfit
  rw [Nat.le_div_iff_mul_le (by omega), Nat.mul_comm]
  exact hfit

/-! ## The pieces -/

namespace Layout

variable (ly : Layout)

/-- The ranges of the pieces in a chunk. -/
def pieces : List Range :=
  (List.range ly.numPieces).map fun p => ⟨ly.pieceOffset p, ly.pieceLength p⟩

variable {ly}

theorem lastPieceSize_eq (hn : 1 ≤ ly.numPieces) :
    ly.lastPieceSize = ly.pieceSize + ly.chunkSize % ly.numPieces := by
  have hdiv := Nat.div_add_mod ly.chunkSize ly.numPieces
  have hcount : ly.numPieces = ly.numPieces - 1 + 1 := by omega
  have hmul : ly.numPieces * (ly.chunkSize / ly.numPieces) =
      ly.chunkSize / ly.numPieces * (ly.numPieces - 1) + ly.chunkSize / ly.numPieces := by
    rw [← Nat.mul_succ, ← Nat.add_one, ← hcount, Nat.mul_comm]
  unfold lastPieceSize pieceSize
  rw [hmul] at hdiv
  generalize ly.chunkSize % ly.numPieces = r at hdiv ⊢
  generalize ly.chunkSize / ly.numPieces = q at hdiv ⊢
  omega

theorem pieceLength_of_lt {p : ℕ} (hp : p < ly.numPieces - 1) :
    ly.pieceLength p = ly.pieceSize :=
  if_neg (by omega)

theorem pieceSize_le_pieceLength {p : ℕ} (hp : p < ly.numPieces) :
    ly.pieceSize ≤ ly.pieceLength p := by
  unfold pieceLength
  split
  · rw [lastPieceSize_eq (by omega)]
    exact Nat.le_add_right _ _
  · exact le_rfl

/-- The last piece ends where the chunk ends. -/
theorem tiles_pieces (hn : 1 ≤ ly.numPieces) : Tiles 0 ly.pieces ly.chunkSize := by
  have hle := ly.pieceSize_mul_le
  have hcount : ly.numPieces = ly.numPieces - 1 + 1 := by omega
  have hpieces : ly.pieces =
      ((List.range (ly.numPieces - 1)).map fun p => ⟨p * ly.pieceSize, ly.pieceSize⟩) ++
        [⟨(ly.numPieces - 1) * ly.pieceSize, ly.lastPieceSize⟩] := by
    unfold pieces
    rw [hcount, List.range_succ, List.map_append, List.map_singleton, ← hcount]
    congr 1
    · apply List.map_congr_left
      intro p hp
      rw [pieceLength_of_lt (List.mem_range.mp hp)]
      rfl
    · rw [pieceLength, if_pos rfl]
      rfl
  have hmul : (ly.numPieces - 1) * ly.pieceSize ≤ ly.chunkSize := by
    rw [Nat.mul_comm]
    exact (Nat.mul_le_mul_left _ (Nat.sub_le _ _)).trans hle
  rw [hpieces]
  apply (tiles_map_range _ _).append
  refine ⟨rfl, ?_⟩
  change (ly.numPieces - 1) * ly.pieceSize + ly.lastPieceSize = ly.chunkSize
  rw [lastPieceSize, Nat.mul_comm ly.pieceSize]
  omega

end Layout

/-- What the pieces of a chunk have to be. -/
structure PieceTiling (cfg : PieceConfig) (ly : Layout) : Prop where
  numPieces_pos : 1 ≤ ly.numPieces
  numPieces_le : ly.numPieces ≤ cfg.max
  equal : ∀ p < ly.numPieces - 1, ly.pieceLength p = ly.chunkSize / ly.numPieces
  tiles : Tiles 0 ly.pieces ly.chunkSize
  disjoint : ly.pieces.Pairwise fun a b => a.stop ≤ b.start
  min_size : 1 < ly.numPieces → ∀ p < ly.numPieces, AG_PIECE_MIN_SIZE ≤ ly.pieceLength p
  last : ly.chunkSize / ly.numPieces ≤ ly.pieceLength (ly.numPieces - 1) ∧
    ly.pieceLength (ly.numPieces - 1) < ly.chunkSize / ly.numPieces + ly.numPieces

/-- The pieces of every chunk tile it, for all limits that are admitted. -/
theorem pieceTiling (cfg : PieceConfig) (worldSize chunkSize : ℕ) :
    PieceTiling cfg ⟨worldSize, chunkSize, agComputeNumPieces cfg chunkSize⟩ := by
  have hpos := agComputeNumPieces_pos cfg chunkSize
  have htiles : Tiles 0 (Layout.pieces ⟨worldSize, chunkSize, _⟩) chunkSize :=
    Layout.tiles_pieces hpos
  refine ⟨hpos, agComputeNumPieces_le cfg chunkSize, ?_, htiles, htiles.pairwise, ?_, ?_, ?_⟩
  · intro p hp
    exact Layout.pieceLength_of_lt hp
  · intro hseveral p hp
    exact (min_size_le_div hseveral).trans (Layout.pieceSize_le_pieceLength hp)
  · exact Layout.pieceSize_le_pieceLength (Nat.sub_lt hpos Nat.one_pos)
  · rw [Layout.pieceLength, if_pos rfl, Layout.lastPieceSize_eq hpos]
    exact Nat.add_lt_add_left (Nat.mod_lt _ hpos) _

end SmartNic.Collective
