import SmartNic.Collective.AllGatherCorrect
import SmartNic.Collective.PostedReceives
import SmartNic.Collective.Signal
import SmartNic.Library.Fabric.Capacity
import SmartNic.Library.Fabric.Progress

/-!
# AllGather completes

Ranks that enter `collective_all_gather` with modes that use the ring alike all
return: no interleaving lets them wait for each other for ever.  They may stage
through the DPU or not, each as it likes.
-/

namespace SmartNic.Collective

open SmartNic.Fabric

namespace AllGather

/-- What the modes of two ranks have to agree on: the number of ring steps and
the contexts of the pieces. -/
structure SameRing (m m' : Mode) : Prop where
  full : m.fullGpuDirect = m'.fullGpuDirect
  ctx : ∀ p, m.ringCtx p = m'.ringCtx p

variable {V D : Type} {ly : Layout} {m m' : Mode} {rank rank' : ℕ}

theorem SameRing.totalSteps_eq (h : SameRing m m') (ly : Layout) :
    totalSteps ly m = totalSteps ly m' := by
  rw [totalSteps, totalSteps, h.full]

/-! ## The transfers of the phases -/

/-- The receives of a step. -/
def recvTasks (ly : Layout) (m : Mode) (rank step : ℕ) :
    List (Task RdmaCtx Pending Addr) :=
  (List.range ly.numPieces).map (recvTask ly m rank step)

/-- The sends of a step. -/
def sendTasks (ly : Layout) (m : Mode) (rank step : ℕ) :
    List (Task RdmaCtx Pending Addr) :=
  (List.range ly.numPieces).map (sendTask ly m rank step)

theorem tasks_pieceBatch (c : Pending) (task : ℕ → Task RdmaCtx Pending Addr) :
    tasks (pieceBatch V D ly c task) = (List.range ly.numPieces).map task :=
  tasks_batch c _

theorem tasks_recvPhase : tasks (recvPhase V D ly m rank) =
    (List.range (totalSteps ly m)).flatMap (recvTasks ly m rank) := by
  rw [recvPhase, tasks_flatMap]
  simp only [tasks_pieceBatch]
  rfl

/-- The transfers between the receives and the ring. -/
def copyTasks (ly : Layout) (m : Mode) (rank : ℕ) :
    List (Task RdmaCtx Pending Addr) :=
  if m.fullGpuDirect then []
  else (List.range ly.numPieces).map (readTask ly m rank) ++
    (List.range ly.numPieces).map (writeTask ly m rank)

/-- The transfers after the sends of a step. -/
def putTasks (ly : Layout) (m : Mode) (rank step : ℕ) :
    List (Task RdmaCtx Pending Addr) :=
  if m.gpuDirect then []
  else (List.range ly.numPieces).map (putTask ly m rank step)

theorem tasks_initialPhase :
    tasks (if m.fullGpuDirect then [] else initialPhase V D ly m rank) =
      copyTasks ly m rank := by
  unfold copyTasks
  split
  · rfl
  · simp only [initialPhase, tasks_append, tasks_pieceBatch, tasks,
      List.append_nil]

theorem tasks_ringStep (step : ℕ) : tasks (ringStep V D ly m rank step) =
    sendTasks ly m rank step ++ putTasks ly m rank step := by
  unfold putTasks
  rw [ringStep, tasks_append, tasks_append, tasks_pieceBatch, tasks, tasks,
    List.append_nil]
  split
  · rfl
  · rw [tasks_append, tasks_pieceBatch, tasks, tasks, List.append_nil]
    rfl

theorem tasks_allGatherIn : tasks (allGatherIn V D ly m rank) =
    (List.range (totalSteps ly m)).flatMap (recvTasks ly m rank) ++
      copyTasks ly m rank ++
      (List.range (totalSteps ly m)).flatMap fun step =>
        sendTasks ly m rank step ++ putTasks ly m rank step := by
  rw [allGatherIn, tasks_append, tasks_append, tasks_recvPhase,
    tasks_initialPhase, tasks_flatMap]
  simp only [tasks_ringStep]

/-! ## Their ends -/

theorem link_of_mem_copyTasks {t : Task RdmaCtx Pending Addr}
    (ht : t ∈ copyTasks ly m rank) : t.link = none := by
  unfold copyTasks at ht
  split at ht
  · cases ht
  · rcases List.mem_append.mp ht with ht | ht
    all_goals
      obtain ⟨p, -, rfl⟩ := List.mem_map.mp ht
      rfl

theorem link_of_mem_putTasks {step : ℕ} {t : Task RdmaCtx Pending Addr}
    (ht : t ∈ putTasks ly m rank step) : t.link = none := by
  unfold putTasks at ht
  split at ht
  · cases ht
  · obtain ⟨p, -, rfl⟩ := List.mem_map.mp ht
    rfl

theorem links_recvTasks (step : ℕ) : links (recvTasks ly m rank step) =
    (List.range ly.numPieces).map fun p => .recv (m.ringCtx p) :=
  links_map (fun _ => rfl) _

theorem links_sendTasks (step : ℕ) : links (sendTasks ly m rank step) =
    (List.range ly.numPieces).map fun p => .send (m.ringCtx p) :=
  links_map (fun _ => rfl) _

/-- Ranks that use the ring alike use its ends in the same order. -/
theorem links_allGatherIn (h : SameRing m m') :
    links (tasks (allGatherIn V D ly m rank)) =
      links (tasks (allGatherIn V D ly m' rank')) := by
  have hcopies : ∀ m₀ r₀, links (copyTasks ly m₀ r₀) = [] := fun m₀ r₀ =>
    links_of_none fun t ht => link_of_mem_copyTasks ht
  have hputs : ∀ m₀ r₀ step, links (putTasks ly m₀ r₀ step) = [] :=
    fun m₀ r₀ step => links_of_none fun t ht => link_of_mem_putTasks ht
  rw [tasks_allGatherIn, tasks_allGatherIn]
  simp only [links_append, links_flatMap, links_recvTasks, hcopies,
    links_sendTasks, hputs, h.totalSteps_eq ly, h.ctx]

/-! ## Pacing -/

/-- The transfers that a rank has submitted before the wait of a step. -/
def beforeWait (ly : Layout) (m : Mode) (rank step : ℕ) :
    List (Task RdmaCtx Pending Addr) :=
  (List.range (totalSteps ly m)).flatMap (recvTasks ly m rank) ++
    copyTasks ly m rank ++
    ((List.range step).flatMap fun s =>
      sendTasks ly m rank s ++ putTasks ly m rank s) ++
    sendTasks ly m rank step

theorem countersAt_beforeWait (k : Link RdmaCtx) (step : ℕ) :
    countersAt k (beforeWait ly m rank step) =
      countersAt k ((List.range (totalSteps ly m)).flatMap (recvTasks ly m rank)) ++
        countersAt k ((List.range (step + 1)).flatMap (sendTasks ly m rank)) := by
  have hcopies : countersAt k (copyTasks ly m rank) = [] :=
    countersAt_of_ne fun t ht => by simp [link_of_mem_copyTasks ht]
  have hputs : ∀ s, countersAt k (putTasks ly m rank s) = [] := fun s =>
    countersAt_of_ne fun t ht => by simp [link_of_mem_putTasks ht]
  rw [beforeWait, countersAt_append, countersAt_append, countersAt_append, hcopies,
    List.append_nil, List.append_assoc, List.range_succ, List.flatMap_append,
    countersAt_append, List.flatMap_singleton]
  simp only [countersAt_flatMap, countersAt_append, hputs, List.append_nil]

/-- Only receives and sends use the ring. -/
theorem counter_of_mem_beforeWait {step : ℕ} {t : Task RdmaCtx Pending Addr}
    (ht : t ∈ beforeWait ly m rank step) (hlink : t.link ≠ none) :
    (∃ s, t.counter = .recv s) ∨ ∃ s, t.counter = .send s := by
  simp only [beforeWait, List.mem_append, List.mem_flatMap] at ht
  rcases ht with (((⟨s, -, ht⟩ | ht) | ⟨s, -, ht | ht⟩) | ht)
  · obtain ⟨p, -, rfl⟩ := List.mem_map.mp ht
    exact .inl ⟨s, rfl⟩
  · exact absurd (link_of_mem_copyTasks ht) hlink
  · obtain ⟨p, -, rfl⟩ := List.mem_map.mp ht
    exact .inr ⟨s, rfl⟩
  · exact absurd (link_of_mem_putTasks ht) hlink
  · obtain ⟨p, -, rfl⟩ := List.mem_map.mp ht
    exact .inr ⟨step, rfl⟩

theorem paces_pieceBatch {past : List (Task RdmaCtx Pending Addr)} (c : Pending)
    (task : ℕ → Task RdmaCtx Pending Addr) :
    Paces past (pieceBatch V D ly c task) :=
  .batch _ _

theorem paces_recvPhase : Paces [] (recvPhase V D ly m rank) := by
  refine .of_no_wait fun cs hcs => ?_
  obtain ⟨step, -, hcs⟩ := List.mem_flatMap.mp hcs
  rcases List.mem_cons.mp hcs with heq | hcs
  · cases heq
  · obtain ⟨t, -, heq⟩ := List.mem_map.mp hcs
    cases heq

/-- The own chunk is copied after receives only. -/
theorem paces_initialPhase :
    Paces ((List.range (totalSteps ly m)).flatMap (recvTasks ly m rank))
      (if m.fullGpuDirect then [] else initialPhase V D ly m rank) := by
  have hcopy : ∀ (past : List (Task RdmaCtx Pending Addr)) (c : Pending),
      (∀ t ∈ past, t.link ≠ none → ∃ s, t.counter = .recv s) →
      (∀ s, c ≠ .recv s) → Paces past ([.wait [c]] :
        List (Instr RdmaCtx Pending Addr V D)) := by
    refine fun past c hpast hc => .wait_of_notMem fun t ht hlink hmem => ?_
    obtain ⟨s, hs⟩ := hpast t ht hlink
    rw [List.mem_singleton, hs] at hmem
    exact hc s hmem.symm
  have hrecvs : ∀ t ∈ (List.range (totalSteps ly m)).flatMap (recvTasks ly m rank),
      t.link ≠ none → ∃ s, t.counter = .recv s := by
    intro t ht _
    obtain ⟨s, -, ht⟩ := List.mem_flatMap.mp ht
    obtain ⟨p, -, rfl⟩ := List.mem_map.mp ht
    exact ⟨s, rfl⟩
  have hreads : ∀ t ∈ (List.range (totalSteps ly m)).flatMap
        (recvTasks ly m rank) ++
          (List.range ly.numPieces).map (readTask ly m rank),
      t.link ≠ none → ∃ s, t.counter = .recv s := by
    intro t ht hlink
    rcases List.mem_append.mp ht with ht | ht
    · exact hrecvs t ht hlink
    · obtain ⟨p, -, rfl⟩ := List.mem_map.mp ht
      exact absurd rfl hlink
  split
  · trivial
  · rw [initialPhase]
    refine (((paces_pieceBatch _ _).append (hcopy _ .read ?_ (by simp))).append
      (paces_pieceBatch _ _)).append (hcopy _ .write ?_ (by simp))
    · rw [tasks_pieceBatch]
      exact hreads
    · intro t ht hlink
      simp only [tasks_append, tasks_pieceBatch, tasks, List.append_nil] at ht
      rw [← List.append_assoc, List.mem_append] at ht
      rcases ht with ht | ht
      · exact hreads t ht hlink
      · obtain ⟨p, -, rfl⟩ := List.mem_map.mp ht
        exact absurd rfl hlink

/-- A step of the ring waits for what the neighbours have the means to do. -/
theorem paces_ringStep {step : ℕ} (hstep : step < totalSteps ly m) :
    Paces ((List.range (totalSteps ly m)).flatMap (recvTasks ly m rank) ++
        copyTasks ly m rank ++
        (List.range step).flatMap fun s =>
          sendTasks ly m rank s ++ putTasks ly m rank s)
      (ringStep V D ly m rank step) := by
  have hwait : Paces (beforeWait ly m rank step)
      ([.wait [.recv step, .send step]] :
        List (Instr RdmaCtx Pending Addr V D)) := by
    refine .wait_step _ _ hstep (fun k => countersAt_beforeWait k step)
      (fun q s => ?_) (fun q s => ?_) (fun q s => ?_) fun s hs t ht hmem => ?_
    · refine countersAt_of_ne fun t ht => ?_
      obtain ⟨p, -, rfl⟩ := List.mem_map.mp ht
      exact fun heq => nomatch Option.some.inj heq
    · refine countersAt_of_ne fun t ht => ?_
      obtain ⟨p, -, rfl⟩ := List.mem_map.mp ht
      exact fun heq => nomatch Option.some.inj heq
    · rw [length_countersAt, length_countersAt, links_sendTasks, links_recvTasks]
      have hsend : Function.Injective (Link.send (Q := RdmaCtx)) :=
        fun _ _ => Link.send.inj
      have hrecv : Function.Injective (Link.recv (Q := RdmaCtx)) :=
        fun _ _ => Link.recv.inj
      calc ((List.range ly.numPieces).map fun p => Link.send (m.ringCtx p)).count
            (.send q)
          = ((List.range ly.numPieces).map m.ringCtx).count q := by
            rw [← List.count_map_of_injective _ _ hsend, List.map_map]
            rfl
        _ = ((List.range ly.numPieces).map fun p =>
              Link.recv (m.ringCtx p)).count (.recv q) := by
            rw [← List.count_map_of_injective _ _ hrecv, List.map_map]
            rfl
    · obtain ⟨p, -, rfl⟩ := List.mem_map.mp ht
      rcases List.mem_cons.mp hmem with heq | hmem
      · cases heq
        exact absurd hs (Nat.lt_irrefl _)
      · cases List.mem_singleton.mp hmem
  rw [ringStep]
  refine ((paces_pieceBatch _ _).append ?_).append ?_
  · rw [tasks_pieceBatch]
    exact hwait
  · split
    · trivial
    · refine (paces_pieceBatch _ _).append (.wait_of_notMem fun t ht hlink hmem => ?_)
      rw [List.mem_singleton] at hmem
      simp only [tasks_append, tasks_pieceBatch, tasks, List.append_nil] at ht
      rcases List.mem_append.mp ht with ht | ht
      · rcases counter_of_mem_beforeWait ht hlink with ⟨s, hs⟩ | ⟨s, hs⟩
        · cases hs.symm.trans hmem
        · cases hs.symm.trans hmem
      · obtain ⟨p, -, rfl⟩ := List.mem_map.mp ht
        exact absurd rfl hlink

theorem paces_allGatherIn : Paces [] (allGatherIn V D ly m rank) := by
  rw [allGatherIn]
  refine (paces_recvPhase.append ?_).append (.range _ fun step hstep => ?_)
  · rw [tasks_recvPhase]
    exact paces_initialPhase
  · rw [tasks_append, tasks_recvPhase, tasks_initialPhase]
    simp only [tasks_ringStep]
    exact paces_ringStep hstep

/-! ## Calls and budget -/

theorem notMem_pieceBatch {i : Instr RdmaCtx Pending Addr V D} {c : Pending}
    {task : ℕ → Task RdmaCtx Pending Addr} (hinit : ∀ c n, i ≠ .init c n)
    (hsubmit : ∀ t, i ≠ .submit t) : i ∉ pieceBatch V D ly c task := by
  intro hi
  rcases List.mem_cons.mp hi with rfl | hi
  · exact hinit _ _ rfl
  · obtain ⟨t, -, rfl⟩ := List.mem_map.mp hi
    exact hsubmit t rfl

/-- The program leaves nothing to a local device. -/
theorem call_notMem_allGatherIn (f : D → (Addr → V) → Option (D × (Addr → V))) :
    .call f ∉ allGatherIn V D ly m rank := by
  have hbatch : ∀ c task, .call f ∉ pieceBatch V D ly c task :=
    fun c task => notMem_pieceBatch nofun nofun
  intro hf
  simp only [allGatherIn, recvPhase, List.mem_append, List.mem_flatMap] at hf
  rcases hf with (⟨step, -, hf⟩ | hf) | ⟨step, -, hf⟩
  · exact hbatch _ _ hf
  · split at hf
    · cases hf
    · simp [initialPhase, hbatch] at hf
  · rw [ringStep] at hf
    split at hf
    · simp [hbatch] at hf
    · simp [hbatch] at hf

theorem price_pieceBatch (c : Pending) (task : ℕ → Task RdmaCtx Pending Addr) :
    price 0 (pieceBatch V D ly c task) = 3 * ly.numPieces + 1 := by
  rw [pieceBatch, price_batch, List.length_map, List.length_range]

theorem price_wait (cs : List Pending) :
    price 0 ([.wait cs] : List (Instr RdmaCtx Pending Addr V D)) = 1 := rfl

theorem totalSteps_le : totalSteps ly m ≤ ly.worldSize := by
  unfold totalSteps
  split
  · exact le_rfl
  · exact Nat.sub_le _ _

/-- The steps that a rank takes at most. -/
def stepBound (ly : Layout) : ℕ :=
  ly.worldSize * (9 * ly.numPieces + 5) + (6 * ly.numPieces + 4)

theorem price_allGatherIn_le : price 0 (allGatherIn V D ly m rank) ≤ stepBound ly := by
  have hrecv : price 0 (recvPhase V D ly m rank) =
      totalSteps ly m * (3 * ly.numPieces + 1) :=
    price_flatMap 0 fun step _ => price_pieceBatch _ _
  have hinitial : price 0 (if m.fullGpuDirect then []
      else initialPhase V D ly m rank) ≤ 6 * ly.numPieces + 4 := by
    split
    · exact Nat.zero_le _
    · simp only [initialPhase, price_append, price_pieceBatch, price_wait]
      omega
  have hstep : ∀ step, price 0 (ringStep V D ly m rank step) =
      if m.gpuDirect then 3 * ly.numPieces + 2 else 6 * ly.numPieces + 4 := by
    intro step
    rw [ringStep, price_append, price_append, price_pieceBatch, price_wait]
    split
    · rfl
    · rw [price_append, price_pieceBatch, price_wait]
      omega
  have hsteps := price_flatMap 0 (n := totalSteps ly m) fun step _ => hstep step
  have hring : price 0 ((List.range (totalSteps ly m)).flatMap
      (ringStep V D ly m rank)) ≤ totalSteps ly m * (6 * ly.numPieces + 4) := by
    rw [hsteps]
    refine Nat.mul_le_mul_left _ ?_
    split <;> omega
  have htotal : totalSteps ly m * (9 * ly.numPieces + 5) ≤
      ly.worldSize * (9 * ly.numPieces + 5) :=
    Nat.mul_le_mul_right _ totalSteps_le
  have hsum : totalSteps ly m * (3 * ly.numPieces + 1) +
      totalSteps ly m * (6 * ly.numPieces + 4) =
        totalSteps ly m * (9 * ly.numPieces + 5) := by
    rw [← Nat.mul_add]
    congr 1
    omega
  rw [allGatherIn, price_append, price_append, hrecv, stepBound]
  omega

/-! ## The payloads -/

/-- A rank expects the same payloads wherever it receives them. -/
theorem incoming_congr (h : SameRing m m') (src : ℕ → ℕ → V) (rank : ℕ)
    (q : RdmaCtx) : incoming ly m src rank q = incoming ly m' src rank q := by
  rw [incoming, incoming, h.totalSteps_eq ly]
  refine List.flatMap_congr fun step _ => ?_
  rw [recvs, recvs, List.filterMap_map, List.filterMap_map]
  refine List.filterMap_congr fun p hp => ?_
  have hp' := List.mem_range.mp hp
  have hcells : ∀ m₀ : Mode, (cells (m₀.ringBuffer,
        ly.receiveOffset rank step + ly.pieceOffset p) (ly.pieceLength p)).map
          (expected ly src rank) =
      (List.range (ly.pieceLength p)).map fun x =>
        src (ly.receiveIndex rank step) (ly.pieceOffset p + x) :=
    fun m₀ => map_expected_cells (m₀.ringBuffer, ly.receiveOffset rank step) hp'
      fun x hx => expected_chunk src rank (ringBuffer_ne m₀) _ hx
  simp only [Function.comp_apply, recvTask, initRingRecvTask_recvOn, h.ctx p]
  split
  · rw [Option.map_some, Option.map_some, hcells, hcells]
  · rfl

section Total

variable {ws : ℕ} (cfg : PieceConfig) (args : Fin ws → AllGatherArgs)
  (bufferLen : ℕ) (mem : Fin ws → Addr → V)

/-- What a rank that has returned has in its destination, whatever the modes of
the ranks stage. -/
theorem returned_gathers
    (hring : ∀ r r', SameRing (args r).mode (args r').mode)
    {acts : List (Action (Fin ws) RdmaCtx Empty)}
    (hacts : ∀ a ∈ acts, a.failsAt = none) {s : Ranks ws V}
    (hrun : run (ringSystem ws V) (start cfg args bufferLen mem) acts = some s)
    {r : Fin ws} (hreturned : (s r).prog = []) (j : Fin ws) {x : ℕ}
    (hx : x < bufferLen / ws) :
    (s r).mem (.dst, j * (bufferLen / ws) + x) = mem j (.src, x) := by
  have hws : 0 < ws := Nat.zero_lt_of_lt r.isLt
  let ly := allGatherLayout cfg ws bufferLen
  let src := sources hws mem
  have hn : 1 ≤ ly.numPieces := agComputeNumPieces_pos cfg _
  have hderive : ∀ r' : Fin ws,
      Run (awaiting ly (args r').mode src r' (chunkAt ly (.src, 0)) 0 0)
        (collectiveAllGather V Unit cfg (args r') r' ws bufferLen)
        (awaiting ly (args r').mode src r'
          (gatheredAt ly (args r').mode r' (totalSteps ly (args r').mode))
          (totalSteps ly (args r').mode) (totalSteps ly (args r').mode))
        (outgoing ly (args r').mode src r')
        (incoming ly (args r').mode src r') :=
    fun r' => run_allGatherIn hn r'.isLt
  have htraffic : ∀ (r' : Fin ly.worldSize) q,
      outgoing ly (args r').mode src r' q =
        incoming ly (args (nextRank r')).mode src (nextRank r') q := by
    intro r' q
    rw [outgoing_eq_incoming r' q]
    exact incoming_congr (hring r' (nextRank r')) src _ q
  have hstart : Invariant (ringSystem ws V) _ (start cfg args bufferLen mem) :=
    Invariant.start hderive
      (fun r' => initial fun y => (sources_eq hws mem r' y).symm) htraffic
  have hend := (hstart.run nextRank_injective hacts hrun).returned hreturned
  have hknown : (.dst, j * ly.chunkSize + x) ∈
      gatheredAt ly (args r).mode r (totalSteps ly (args r).mode) :=
    dst_known r.isLt j.isLt hx
  calc (s r).mem (.dst, j * ly.chunkSize + x)
      = expected ly src r (.dst, j * ly.chunkSize + x) := hend.known _ hknown
    _ = src j x := expected_chunk src r (by decide) j hx
    _ = mem j (.src, x) := sources_eq hws mem j x

/-- The ranks complete within their bound. -/
theorem completes_start (hring : ∀ r r', SameRing (args r).mode (args r').mode) :
    Completes (ringSystem ws V) (start cfg args bufferLen mem)
      (ws * stepBound (allGatherLayout cfg ws bufferLen)) := by
  have hcompletes : Completes (ringSystem ws V) (start cfg args bufferLen mem)
      (∑ r : Fin ws, (price 0 (collectiveAllGather V Unit cfg (args r) r ws
        bufferLen) + 0)) :=
    completes nextRank_injective (fun _ => paces_allGatherIn)
      (fun _ => settles_allGatherIn) (fun r r' => links_allGatherIn (hring r r'))
      (Serves.none _) fun _ f => call_notMem_allGatherIn f
  refine hcompletes.mono ((Finset.sum_le_card_nsmul _ _ _ fun r _ =>
    price_allGatherIn_le).trans ?_)
  rw [Finset.card_univ, Fintype.card_fin, smul_eq_mul]

/-- A rank submits the receives that it posts before its first wait and no others. -/
theorem recvCount_collectiveAllGather (x : AllGatherArgs) (rank : ℕ) (q : RdmaCtx) :
    recvCount q (collectiveAllGather V Unit cfg x rank ws bufferLen) =
      ((Neighbour.mk cfg x).postedRecvs rank ws bufferLen q).length := by
  have hcount : ∀ {V : Type} (prog : List (Instr RdmaCtx Pending Addr V Unit)),
      recvCount q prog = (ringRecvs q prog).length := by
    intro V prog
    rw [recvCount, ringRecvs, List.length_filterMap_eq_countP]
    refine List.countP_congr fun i _ => ?_
    cases i with
    | submit t => simp [Instr.receives]
    | init c k => simp [Instr.receives]
    | wait cs => simp [Instr.receives]
    | call f => simp [Instr.receives]
  rw [hcount, collectiveAllGather, ringRecvs_allGatherIn, Neighbour.postedRecvs, recvPhase,
    ringRecvs_flatMap]
  simp only [ringRecvs_recvStep]
  rfl

/-- In every run each receive that is submitted has a task. -/
theorem hasTask_of_fits
    (hfit : ∀ r, (Neighbour.mk cfg (args r)).PostsFit r ws bufferLen)
    {acts : List (Action (Fin ws) RdmaCtx Empty)} {s : Ranks ws V}
    (hrun : run (ringSystem ws V) (start cfg args bufferLen mem) acts = some s)
    (r : Fin ws) :
    (s r).HasTask numRecvTasks
      (collectiveAllGather V Unit cfg (args r) r ws bufferLen) := by
  refine Node.hasTask_of_fits (fun q => ?_) (run_suffix hrun r)
  rw [recvCount_collectiveAllGather]
  exact (hfit r).fits q

/-- Ranks that use the ring alike and whose receives fit the tasks of their contexts
complete an AllGather: no run has more steps than its bound, no receive is refused, a
run without failures can always go on until all ranks have returned, and when it cannot
go on, every rank holds the chunks of all. -/
theorem collectiveAllGather_completes
    (hring : ∀ r r', SameRing (args r).mode (args r').mode)
    (hfit : ∀ r, (Neighbour.mk cfg (args r)).PostsFit r ws bufferLen) :
    Completes (ringSystem ws V) (start cfg args bufferLen mem)
        (ws * stepBound (allGatherLayout cfg ws bufferLen)) ∧
      (∀ acts s, run (ringSystem ws V) (start cfg args bufferLen mem) acts = some s →
        ∀ r, (s r).HasTask numRecvTasks
          (collectiveAllGather V Unit cfg (args r) r ws bufferLen)) ∧
      ∀ acts s, (∀ a ∈ acts, a.failsAt = none) →
        run (ringSystem ws V) (start cfg args bufferLen mem) acts = some s →
        Stuck (ringSystem ws V) s → ∀ r j : Fin ws, ∀ x < bufferLen / ws,
          (s r).mem (.dst, j * (bufferLen / ws) + x) = mem j (.src, x) := by
  have hcompletes := completes_start cfg args bufferLen mem hring
  refine ⟨hcompletes, fun acts s hrun => hasTask_of_fits cfg args bufferLen mem hfit hrun,
    fun acts s hacts hrun hstuck r j x hx => ?_⟩
  exact returned_gathers cfg args bufferLen mem hring hacts hrun
    (hcompletes.returned acts s hacts hrun hstuck r) j hx

end Total

/-- Rank 0 stages through the DPU, rank 1 receives into its GPU. -/
def mixedArgs (r : Fin 2) : AllGatherArgs :=
  { stagedArgs with gpuDstLocalMmap := r.val = 1 }

theorem collectiveAllGather_completes_mixed :
    ∃ acts s, (∀ a ∈ acts, a.failsAt = none) ∧
      run (ringSystem 2 ℕ) (start defaultPieces mixedArgs 2 stagedMemory) acts =
        some s ∧
      (∀ r, (s r).prog = []) ∧
      acts.length ≤ 2 * stepBound (allGatherLayout defaultPieces 2 2) := by
  have hring : ∀ r r' : Fin 2, SameRing (mixedArgs r).mode (mixedArgs r').mode := by
    intro r r'
    fin_cases r <;> fin_cases r' <;> exact ⟨rfl, fun _ => rfl⟩
  have hfit : ∀ r : Fin 2,
      (Neighbour.mk defaultPieces (mixedArgs r)).PostsFit r 2 2 := by
    intro r
    apply Neighbour.postsFit_of_le
    fin_cases r <;> decide
  obtain ⟨hcompletes, -⟩ :=
    collectiveAllGather_completes defaultPieces mixedArgs 2 stagedMemory hring hfit
  obtain ⟨acts, s, hacts, hrun, hend⟩ := hcompletes.continues [] _ nofun rfl
  exact ⟨acts, s, hacts, hrun, hend, hcompletes.bounded _ _ hrun⟩

end AllGather

end SmartNic.Collective
