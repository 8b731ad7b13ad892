import SmartNic.Collective.AllGatherRun

/-!
# AllGather gathers

Whatever the interleaving of the ranks and of their transfers, a rank on which
`collective_all_gather` has returned holds the source chunks of all ranks.
-/

namespace SmartNic.Collective

open SmartNic.Fabric

namespace AllGather

/-- The state of the ranks on a ring. -/
abbrev Ranks (ws : ℕ) (V : Type) := Fin ws → Node RdmaCtx Pending Addr V Unit

/-- All ranks enter `collective_all_gather`. -/
def start {V : Type} {ws : ℕ} (cfg : PieceConfig)
    (args : Fin ws → AllGatherArgs) (bufferLen : ℕ) (mem : Fin ws → Addr → V) :
    Ranks ws V := fun r =>
  Node.start (collectiveAllGather V Unit cfg (args r) r ws bufferLen) (mem r) ()

/-- The sources of the ranks, indexed by natural numbers. -/
def sources {V : Type} {ws : ℕ} (hws : 0 < ws) (mem : Fin ws → Addr → V)
    (j x : ℕ) : V :=
  mem ⟨j % ws, Nat.mod_lt j hws⟩ (.src, x)

theorem sources_eq {V : Type} {ws : ℕ} (hws : 0 < ws) (mem : Fin ws → Addr → V)
    (j : Fin ws) (x : ℕ) : sources hws mem j x = mem j (.src, x) := by
  rw [sources]
  congr
  exact Nat.mod_eq_of_lt j.isLt

/-- What is known before the program holds at the start. -/
theorem initial {V : Type} {ly : Layout} {m : Mode} {src : ℕ → ℕ → V}
    {rank : ℕ} {mem : Addr → V} (hmem : ∀ x, mem (.src, x) = src rank x) :
    (awaiting ly m src rank (chunkAt ly (.src, 0)) 0 0).Initial mem () where
  known := by
    rintro l ⟨x, -, rfl⟩
    exact hmem _
  posted := by
    ext ⟨c, l⟩
    constructor
    · rintro ⟨⟨step, -, hlt, -⟩, -⟩
      cases hlt
    · exact fun h => h.elim
  credit _ := rfl
  inv := trivial

/-- What a rank has when it returns. -/
theorem returned_known {V : Type} {ws : ℕ} (cfg : PieceConfig)
    (args : Fin ws → AllGatherArgs) (bufferLen : ℕ) (mem : Fin ws → Addr → V)
    (huniform : ∀ r r', (args r).mode = (args r').mode)
    {acts : List (Action (Fin ws) RdmaCtx Empty)}
    (hacts : ∀ a ∈ acts, a.failsAt = none) {s : Ranks ws V}
    (hrun : run (ringSystem ws V) (start cfg args bufferLen mem) acts = some s)
    {r : Fin ws} (hreturned : (s r).prog = []) {l : Addr}
    (hl : l ∈ gatheredAt (allGatherLayout cfg ws bufferLen) (args r).mode r
      (totalSteps (allGatherLayout cfg ws bufferLen) (args r).mode)) :
    (s r).mem l = expected (allGatherLayout cfg ws bufferLen)
      (sources (Nat.zero_lt_of_lt r.isLt) mem) r l := by
  have hws : 0 < ws := Nat.zero_lt_of_lt r.isLt
  let ly := allGatherLayout cfg ws bufferLen
  let src := sources hws mem
  let m := (args r).mode
  have hn : 1 ≤ ly.numPieces := agComputeNumPieces_pos cfg _
  have hderive : ∀ r' : Fin ws, Run (awaiting ly m src r' (chunkAt ly (.src, 0)) 0 0)
      (collectiveAllGather V Unit cfg (args r') r' ws bufferLen)
      (awaiting ly m src r' (gatheredAt ly m r' (totalSteps ly m))
        (totalSteps ly m) (totalSteps ly m))
      (outgoing ly m src r') (incoming ly m src r') := by
    intro r'
    rw [collectiveAllGather, huniform r' r]
    exact run_allGatherIn hn r'.isLt
  have htraffic : ∀ r' : Fin ly.worldSize, ∀ q,
      outgoing ly m src r' q = incoming ly m src (nextRank r') q :=
    outgoing_eq_incoming
  have hstart : Invariant (ringSystem ws V) _ (start cfg args bufferLen mem) :=
    Invariant.start hderive
      (fun r' => initial fun y => (sources_eq hws mem r' y).symm) htraffic
  have hend := hstart.run nextRank_injective hacts hrun
  exact (hend.returned hreturned).known _ hl

theorem collectiveAllGather_gathers {V : Type} {ws : ℕ} (cfg : PieceConfig)
    (args : Fin ws → AllGatherArgs) (bufferLen : ℕ) (mem : Fin ws → Addr → V)
    (huniform : ∀ r r', (args r).mode = (args r').mode)
    {acts : List (Action (Fin ws) RdmaCtx Empty)}
    (hacts : ∀ a ∈ acts, a.failsAt = none) {s : Ranks ws V}
    (hrun : run (ringSystem ws V) (start cfg args bufferLen mem) acts = some s)
    {r : Fin ws} (hreturned : (s r).prog = []) (j : Fin ws) {x : ℕ}
    (hx : x < bufferLen / ws) :
    (s r).mem (.dst, j * (bufferLen / ws) + x) = mem j (.src, x) := by
  have hws : 0 < ws := Nat.zero_lt_of_lt r.isLt
  let ly := allGatherLayout cfg ws bufferLen
  let src := sources hws mem
  have hknown : (.dst, j * ly.chunkSize + x) ∈
      gatheredAt ly (args r).mode r (totalSteps ly (args r).mode) :=
    dst_known r.isLt j.isLt hx
  calc (s r).mem (.dst, j * ly.chunkSize + x)
      = expected ly src r (.dst, j * ly.chunkSize + x) :=
        returned_known cfg args bufferLen mem huniform hacts hrun hreturned
          hknown
    _ = src j x := expected_chunk src r (by decide) j hx
    _ = mem j (.src, x) := sources_eq hws mem j x

/-- One rail and no mmap of GPU memory. -/
def stagedArgs : AllGatherArgs where
  cw := ⟨false, false, false, false, false, false, false⟩
  gpuSrcLocalMmap := false
  gpuDstLocalMmap := false
  gpuSrcLocalMmapRail1 := false
  gpuDstLocalMmapRail1 := false
  ringId := 0

/-- Two ranks gather one byte each; rank 1 starts when rank 0 has sent. -/
def stagedActions : List (Action (Fin 2) RdmaCtx Empty) :=
  let own (r : Fin 2) : List (Action (Fin 2) RdmaCtx Empty) :=
    List.replicate 4 (.exec r) ++ [.copy r 1, .complete r 0] ++
      List.replicate 3 (.exec r) ++ [.copy r 1, .complete r 0] ++
      List.replicate 3 (.exec r)
  let put (r : Fin 2) : List (Action (Fin 2) RdmaCtx Empty) :=
    List.replicate 2 (.complete r 0) ++ List.replicate 3 (.exec r) ++
      [.copy r 0, .complete r 0, .exec r]
  own 0 ++ own 1 ++ [.deliver 1 .ring, .deliver 0 .ring] ++ put 1 ++ put 0

/-- The source of rank `r` is the byte `r + 7`. -/
def stagedMemory (r : Fin 2) (a : Addr) : ℕ :=
  if a = (.src, 0) then r + 7 else 0

theorem collectiveAllGather_gathers_two :
    ∃ s, run (ringSystem 2 ℕ)
        (start defaultPieces (fun _ => stagedArgs) 2 stagedMemory)
        stagedActions = some s ∧
      (s 0).mem (.dst, 1) = stagedMemory 1 (.src, 0) := by
  have hreturned : (run (ringSystem 2 ℕ)
      (start defaultPieces (fun _ => stagedArgs) 2 stagedMemory)
      stagedActions).map (fun s => (s 0).prog.isEmpty) = some true := by
    decide +kernel
  obtain ⟨s, hrun, hprog⟩ := Option.map_eq_some_iff.mp hreturned
  have huniform : ∀ r r' : Fin 2,
      ((fun _ : Fin 2 => stagedArgs) r).mode = stagedArgs.mode :=
    fun _ _ => rfl
  exact ⟨s, hrun, collectiveAllGather_gathers defaultPieces _ 2 stagedMemory
    huniform (by decide) hrun (List.isEmpty_iff.mp hprog) 1
    (x := 0) (by decide)⟩

end AllGather

end SmartNic.Collective
