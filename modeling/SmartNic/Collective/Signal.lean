import SmartNic.Codec.ControlCmd
import SmartNic.Collective.AllGatherCorrect
import SmartNic.Collective.ReduceScatterCorrect
import SmartNic.Library.Fabric.Outcomes
import SmartNic.Library.Pair

/-!
# Failures and the completion signal

What `execute_doca_collective_cmd` of `comch_server.c` signals to the host when
its collective has returned.  The fabric's rejected submissions and failed
transfers are the error exits of `submit_doca_task_from_desc` and the error
callbacks: both only decrement the counter, as `task_cb_finish` does, so that
neither the return value nor the signals depend on them.
-/

namespace SmartNic.Collective

open SmartNic.Codec SmartNic.Fabric

attribute [local instance] neZero_two

/-- The values of `doca_error_t` that a collective ends with. -/
inductive DocaError where
  | success
  | invalidValue
deriving DecidableEq, Repr

/-- What the host observes of a command. -/
inductive Signal where
  | flag (address : UInt64) (value : UInt32)
  | doorbell (seq : ℕ)
  | notify (id : UInt64)
deriving DecidableEq, Repr

/-- The fields of `collective_worker_t` that decide on the signals. -/
structure SignalWorker where
  flagPoolEnabled : Bool
  doorbellEnabled : Bool
  doorbellSeq : ℕ
deriving DecidableEq, Repr

section

variable {Q C Loc V D φ : Type}

/-- What a collective returns, once it has: both end in
`return DOCA_SUCCESS`. -/
def collectiveReturn (n : Node Q C Loc V D) : Option DocaError :=
  if n.prog.isEmpty then some .success else none

/-- The flag, then the doorbell or the notification. -/
def completionSignals (cw : SignalWorker) (msg : UcpCollectiveMsg φ) :
    List Signal :=
  let flag :=
    if msg.flagGpuAddr ≠ 0 ∧ cw.flagPoolEnabled
    then [.flag msg.flagGpuAddr msg.flagValue]
    else []
  let completion :=
    if cw.doorbellEnabled then .doorbell (cw.doorbellSeq + 1)
    else .notify msg.id
  flag ++ [completion]

/-- The end of `execute_doca_collective_cmd`, which signals whatever the
result. -/
def executeDocaCollectiveCmd (cw : SignalWorker) (msg : UcpCollectiveMsg φ)
    (collective : Option DocaError) : Option (DocaError × List Signal) :=
  let result :=
    match msg.collectiveRequest.collectiveOp with
    | .reduceScatter => collective
    | .allGather => collective
    | _ => some .invalidValue
  result.map fun result => (result, completionSignals cw msg)

/-- Success is only reported if all `tasks` transfers succeeded. -/
def SignalsOnlySuccess (cw : SignalWorker) (msg : UcpCollectiveMsg φ)
    (n : Node Q C Loc V D) (tasks : ℕ) : Prop :=
  ∀ result signals,
    executeDocaCollectiveCmd cw msg (collectiveReturn n) =
      some (result, signals) →
    result = .success ∨ signals ≠ [] → n.log = List.replicate tasks .success

/-- A collective that has returned is reported as successful. -/
theorem signalsOnlySuccess_iff (cw : SignalWorker) {msg : UcpCollectiveMsg φ}
    {n : Node Q C Loc V D} (tasks : ℕ) (hreturned : n.prog = []) :
    SignalsOnlySuccess cw msg n tasks ↔
      n.log = List.replicate tasks .success := by
  have hreturn : collectiveReturn n = some .success := by
    rw [collectiveReturn, hreturned]
    rfl
  have hexecute : ∃ result, executeDocaCollectiveCmd cw msg
      (collectiveReturn n) = some (result, completionSignals cw msg) := by
    rw [hreturn, executeDocaCollectiveCmd]
    split
    all_goals exact ⟨_, rfl⟩
  have hsignals : completionSignals cw msg ≠ [] :=
    List.append_ne_nil_of_right_ne_nil _ (List.cons_ne_nil _ _)
  obtain ⟨result, hresult⟩ := hexecute
  exact ⟨fun h => h result _ hresult (.inr hsignals), fun h _ _ _ _ => h⟩

end

/-! ## The collectives wait for all their tasks -/

namespace AllGather

variable {V D : Type} {ly : Layout} {m : Mode} {rank : ℕ}

theorem settles_pieceBatch {c : Pending} {task : ℕ → Task RdmaCtx Pending Addr}
    {live : Set Pending} (htask : ∀ p, (task p).counter = c) (hfresh : c ∉ live) :
    Settles (fun _ => 0) live (pieceBatch V D ly c task) (insert c live) := by
  refine .batch (fun t ht => ?_) hfresh
  obtain ⟨p, -, rfl⟩ := List.mem_map.mp ht
  exact htask p

theorem settles_pieceBatch_wait {c : Pending}
    {task : ℕ → Task RdmaCtx Pending Addr} {live : Set Pending}
    (htask : ∀ p, (task p).counter = c) (hfresh : c ∉ live) :
    Settles (fun _ => 0) live (pieceBatch V D ly c task ++ [.wait [c]]) live := by
  refine .batch_wait (fun t ht => ?_) hfresh
  obtain ⟨p, -, rfl⟩ := List.mem_map.mp ht
  exact htask p

theorem notMem_recvsFrom {c : Pending} (hc : ∀ step, c ≠ .recv step)
    (first last : ℕ) : c ∉ recvsFrom first last := by
  rintro ⟨step, -, -, rfl⟩
  exact hc step rfl

theorem settles_recvPhase :
    Settles (fun _ => 0) ∅ (recvPhase V D ly m rank)
      (recvsFrom 0 (totalSteps ly m)) := by
  have hstep : ∀ step < totalSteps ly m,
      Settles (fun _ => 0) (recvsFrom 0 step)
        (pieceBatch V D ly (.recv step) (recvTask ly m rank step))
        (recvsFrom 0 (step + 1)) := by
    intro step _
    have hfresh : Pending.recv step ∉ recvsFrom 0 step := by
      rintro ⟨step', -, hlt, heq⟩
      cases heq
      exact Nat.lt_irrefl _ hlt
    exact (settles_pieceBatch (c := .recv step) (fun _ => rfl) hfresh).weaken
      (insert_recvsFrom_subset step)
  refine (Settles.range _ hstep).mono ?_
  exact Set.empty_subset _

theorem settles_initialPhase {first last : ℕ} :
    Settles (fun _ => 0) (recvsFrom first last) (initialPhase V D ly m rank)
      (recvsFrom first last) := by
  rw [initialPhase, List.append_assoc]
  exact (settles_pieceBatch_wait (c := .read) (fun _ => rfl)
      (notMem_recvsFrom (by simp) _ _)).append
    (settles_pieceBatch_wait (c := .write) (fun _ => rfl)
      (notMem_recvsFrom (by simp) _ _))

theorem settles_ringStep (step last : ℕ) :
    Settles (fun _ => 0) (recvsFrom step last) (ringStep V D ly m rank step)
      (recvsFrom (step + 1) last) := by
  have hsend : Settles (fun _ => 0) (recvsFrom step last)
      (pieceBatch V D ly (.send step) (sendTask ly m rank step))
      (insert (.send step) (recvsFrom step last)) :=
    settles_pieceBatch (c := .send step) (fun _ => rfl)
      (notMem_recvsFrom (by simp) _ _)
  have hwait : Settles (fun _ => 0) (insert (.send step) (recvsFrom step last))
      ([.wait [.recv step, .send step]] :
        List (Instr RdmaCtx Pending Addr V D))
      (recvsFrom (step + 1) last) := by
    refine .awaits _ ?_
    rintro c (rfl | ⟨step', hle, hlt, rfl⟩)
    · exact .inl (by simp)
    · rcases Nat.eq_or_lt_of_le hle with rfl | hle
      · exact .inl (by simp)
      · exact .inr ⟨step', hle, hlt, rfl⟩
  have hstart := hsend.append hwait
  rw [ringStep]
  split
  · rw [List.append_nil]
    exact hstart
  · exact hstart.append (settles_pieceBatch_wait (c := .put step)
      (fun _ => rfl) (notMem_recvsFrom (by simp) _ _))

theorem settles_allGatherIn :
    Settles (fun _ => 0) ∅ (allGatherIn V D ly m rank) ∅ := by
  have hinitial : Settles (fun _ => 0) (recvsFrom 0 (totalSteps ly m))
      (if m.fullGpuDirect then [] else initialPhase V D ly m rank)
      (recvsFrom 0 (totalSteps ly m)) := by
    split
    · exact .nil subset_rfl
    · exact settles_initialPhase
  have hring : Settles (fun _ => 0) (recvsFrom 0 (totalSteps ly m))
      ((List.range (totalSteps ly m)).flatMap (ringStep V D ly m rank))
      (recvsFrom (totalSteps ly m) (totalSteps ly m)) :=
    Settles.range _ fun step _ => settles_ringStep step _
  refine (settles_recvPhase.append hinitial).append (hring.weaken ?_)
  rintro c ⟨step, hle, hlt, -⟩
  exact absurd hlt (Nat.not_lt_of_le hle)

end AllGather

namespace ReduceScatter

variable {V : Type} {n : ℕ} {add : V → V → V} {ly : RsLayout} {rank : ℕ}

theorem notMem_recvsFrom {c : RsPending} (hc : ∀ step, c ≠ .recv step)
    (first last : ℕ) : c ∉ recvsFrom first last := by
  rintro ⟨step, -, -, rfl⟩
  exact hc step rfl

theorem settles_batch {D : Type} {t : Task RdmaCtx RsPending Addr}
    {live : Set RsPending} (hfresh : t.counter ∉ live) :
    Settles (V := V) (D := D) (fun _ => 0) live (batch t.counter [t])
      (insert t.counter live) := by
  refine .batch (fun t' ht' => ?_) hfresh
  rw [List.mem_singleton.mp ht']

theorem settles_batch_wait {D : Type} {t : Task RdmaCtx RsPending Addr}
    {live : Set RsPending} (hfresh : t.counter ∉ live) :
    Settles (V := V) (D := D) (fun _ => 0) live
      (batch t.counter [t] ++ [.wait [t.counter]]) live := by
  refine .batch_wait (fun t' ht' => ?_) hfresh
  rw [List.mem_singleton.mp ht']

theorem settles_recvs (steps : ℕ) :
    Settles (V := V) (D := RsPool n) (fun _ => 0) ∅
      ((List.range steps).flatMap fun step =>
        batch (.recv step) [rsRecvTask ly rank step])
      (recvsFrom 0 steps) := by
  have hstep : ∀ step < steps,
      Settles (V := V) (D := RsPool n) (fun _ => 0) (recvsFrom 0 step)
        (batch (.recv step) [rsRecvTask ly rank step])
        (recvsFrom 0 (step + 1)) := by
    intro step _
    have hfresh : RsPending.recv step ∉ recvsFrom 0 step := by
      rintro ⟨step', -, hlt, heq⟩
      cases heq
      exact Nat.lt_irrefl _ hlt
    exact (settles_batch (t := rsRecvTask ly rank step) hfresh).weaken
      (insert_recvsFrom_subset step)
  exact (Settles.range _ hstep).mono (Set.empty_subset _)

/-- The aggregation submits no transfer. -/
theorem settles_rsAggregate (step : ℕ) {live : Set RsPending} :
    Settles (fun _ => 0) live
      (rsAggregate (V := V) (n := n) add ly rank step) live := by
  unfold rsAggregate
  split
  · exact .call _ (.nil subset_rfl)
  · exact .call _ (.call _ (.nil subset_rfl))

theorem settles_rsStep (step last : ℕ) :
    Settles (fun _ => 0) (recvsFrom step last)
      (rsStep (V := V) (n := n) add ly rank step) (recvsFrom (step + 1) last) := by
  have hfresh : RsPending.send step ∉ recvsFrom step last :=
    notMem_recvsFrom (by simp) _ _
  have hsend := settles_batch (V := V) (D := RsPool n)
    (t := rsSendTask ly rank step) hfresh
  have hfresh' : RsPending.read step ∉
      insert (.send step) (recvsFrom step last) := by
    rintro (heq | hmem)
    · cases heq
    · exact notMem_recvsFrom (by simp) _ _ hmem
  have hread := settles_batch (V := V) (D := RsPool n)
    (t := rsReadTask ly (ly.readIndex rank step) (.read step)) hfresh'
  have hwait : Settles (fun _ => 0)
      (insert (.read step) (insert (.send step) (recvsFrom step last)))
      ([.wait [.recv step, .send step, .read step]] :
        List (Instr RdmaCtx RsPending Addr V (RsPool n)))
      (recvsFrom (step + 1) last) := by
    refine .awaits _ ?_
    rintro c (rfl | rfl | ⟨step', hle, hlt, rfl⟩)
    · exact .inl (by simp)
    · exact .inl (by simp)
    · rcases Nat.eq_or_lt_of_le hle with rfl | hle
      · exact .inl (by simp)
      · exact .inr ⟨step', hle, hlt, rfl⟩
  exact ((hsend.append hread).append hwait).append (settles_rsAggregate step)

theorem settles_reduceScatterIn :
    Settles (fun _ => 0) ∅ (reduceScatterIn (V := V) (n := n) add ly rank) ∅ := by
  have hfresh : RsPending.firstRead ∉ recvsFrom 0 (ly.worldSize - 1) :=
    notMem_recvsFrom (by simp) _ _
  have hfirst := settles_batch_wait (V := V) (D := RsPool n)
    (t := rsReadTask ly (ly.firstReadIndex rank) .firstRead) hfresh
  have hring : Settles (fun _ => 0) (recvsFrom 0 (ly.worldSize - 1))
      ((List.range (ly.worldSize - 1)).flatMap
        (rsStep (V := V) (n := n) add ly rank))
      (recvsFrom (ly.worldSize - 1) (ly.worldSize - 1)) :=
    Settles.range _ fun step _ => settles_rsStep step _
  have hempty : recvsFrom (ly.worldSize - 1) (ly.worldSize - 1) ⊆ ∅ := by
    rintro c ⟨step, hle, hlt, -⟩
    exact absurd hlt (Nat.not_lt_of_le hle)
  have hput : Settles (fun _ => 0) ∅
      (batch .put [rsPutTask ly rank] ++
        ([.wait [.put]] : List (Instr RdmaCtx RsPending Addr V (RsPool n)))) ∅ :=
    settles_batch_wait (t := rsPutTask ly rank) nofun
  exact (((settles_recvs _).append hfirst).append (hring.weaken hempty)).append
    hput

end ReduceScatter

/-! ## Failed tasks are reported as success -/

theorem collectives_signal_success_iff {φ : Type} (cw : SignalWorker)
    (msg : UcpCollectiveMsg φ) :
    (∀ (V : Type) (ws : ℕ) (cfg : PieceConfig) (args : Fin ws → AllGatherArgs)
      (bufferLen : ℕ) (mem : Fin ws → Addr → V)
      (acts : List (Action (Fin ws) RdmaCtx Empty)) (s : AllGather.Ranks ws V),
      run (AllGather.ringSystem ws V) (AllGather.start cfg args bufferLen mem)
        acts = some s →
      ∀ r, (s r).prog = [] →
        (SignalsOnlySuccess cw msg (s r)
            (submissions (collectiveAllGather V Unit cfg (args r) r ws bufferLen)) ↔
          ∀ a ∈ acts, a.failsAt ≠ some r)) ∧
    (∀ (V : Type) (ws n : ℕ) (add : V → V → V) (bufferLen : ℕ)
      (mem : Fin ws → Addr → V) (pool : Fin ws → RsPool n)
      (acts : List (Action (Fin ws) RdmaCtx (Fin n)))
      (s : ReduceScatter.Ranks ws n V),
      run (ReduceScatter.poolSystem ws n add)
        (ReduceScatter.start add bufferLen mem pool) acts = some s →
      ∀ r, (s r).prog = [] →
        (SignalsOnlySuccess cw msg (s r)
            (submissions (collectiveReduceScatter (n := n) add r ws bufferLen)) ↔
          ∀ a ∈ acts, a.failsAt ≠ some r)) := by
  refine ⟨fun V ws cfg args bufferLen mem acts s hrun r hreturned => ?_,
    fun V ws n add bufferLen mem pool acts s hrun r hreturned => ?_⟩
  · rw [signalsOnlySuccess_iff cw _ hreturned]
    exact log_eq_replicate_iff (fun r' => AllGather.settles_allGatherIn) hrun
      hreturned
  · rw [signalsOnlySuccess_iff cw _ hreturned]
    exact log_eq_replicate_iff
      (fun r' => ReduceScatter.settles_reduceScatterIn) hrun hreturned

/-- A command to gather, on a worker that rings the doorbell. -/
def gatherMsg : UcpCollectiveMsg Unit where
  id := 1
  remoteSrcBufferAddress := 4096
  remoteSrcBufferLen := 1
  srcRkeyBuf := ()
  remoteDstBufferAddress := 8192
  remoteDstBufferLen := 2
  dstRkeyBuf := ()
  localCpuBufferAddress := 0
  localCpuBufferLen := 0
  localCpuRkeyBuf := ()
  localCpuFlagAddress := 0
  localCpuFlagLen := 0
  localCpuFlagRkeyBuf := ()
  collectiveRequest := ⟨.allGather, 0⟩
  srcRkeyBufRail1 := ()
  dstRkeyBufRail1 := ()
  dstPciExportBuf := ()
  srcPciExportBuf := ()
  dstPciExportBufRail1 := ()
  srcPciExportBufRail1 := ()
  flagGpuAddr := 0
  flagValue := 0
  flagReserved := 0

/-- A worker that rings the doorbell. -/
def doorbellWorker : SignalWorker where
  flagPoolEnabled := false
  doorbellEnabled := true
  doorbellSeq := 0

/-- The run of two ranks in which the only Read of rank 0 fails. -/
def failedReadActions : List (Action (Fin 2) RdmaCtx Empty) :=
  List.replicate 4 (.exec 0) ++ [.fail 0 1] ++
    AllGather.stagedActions.drop 6

theorem collectives_signal_success_iff_two :
    ∃ s, run (AllGather.ringSystem 2 ℕ)
        (AllGather.start AllGather.defaultPieces (fun _ => AllGather.stagedArgs)
          2 AllGather.stagedMemory) AllGather.stagedActions = some s ∧
      SignalsOnlySuccess doorbellWorker gatherMsg (s 0)
        (submissions (collectiveAllGather ℕ Unit AllGather.defaultPieces
          AllGather.stagedArgs 0 2 2)) := by
  have hreturned : (run (AllGather.ringSystem 2 ℕ)
      (AllGather.start AllGather.defaultPieces (fun _ => AllGather.stagedArgs) 2
        AllGather.stagedMemory)
      AllGather.stagedActions).map (fun s => (s 0).prog.isEmpty) = some true := by
    decide +kernel
  obtain ⟨s, hrun, hprog⟩ := Option.map_eq_some_iff.mp hreturned
  refine ⟨s, hrun, ?_⟩
  refine ((collectives_signal_success_iff doorbellWorker gatherMsg).1 ℕ 2
    AllGather.defaultPieces (fun _ => AllGather.stagedArgs) 2
    AllGather.stagedMemory AllGather.stagedActions s hrun 0
    (List.isEmpty_iff.mp hprog)).mpr ?_
  decide

/-- The Read of rank 0 fails, its chunk is not gathered, and the doorbell rings
for `DOCA_SUCCESS`. -/
theorem failed_read_signals_success :
    ∃ s, run (AllGather.ringSystem 2 ℕ)
        (AllGather.start AllGather.defaultPieces (fun _ => AllGather.stagedArgs)
          2 AllGather.stagedMemory) failedReadActions = some s ∧
      (s 0).log.contains .error ∧
      (s 0).mem (.dst, 0) ≠ AllGather.stagedMemory 0 (.src, 0) ∧
      executeDocaCollectiveCmd doorbellWorker gatherMsg
        (collectiveReturn (s 0)) = some (.success, [.doorbell 1]) ∧
      ¬ SignalsOnlySuccess doorbellWorker gatherMsg (s 0)
        (submissions (collectiveAllGather ℕ Unit AllGather.defaultPieces
          AllGather.stagedArgs 0 2 2)) := by
  have hrun : (run (AllGather.ringSystem 2 ℕ)
      (AllGather.start AllGather.defaultPieces (fun _ => AllGather.stagedArgs) 2
        AllGather.stagedMemory) failedReadActions).map
        (fun s => ((s 0).prog.isEmpty, (s 0).log.head?, (s 0).mem (.dst, 0))) =
      some (true, some .error, 0) := by
    decide +kernel
  obtain ⟨s, hs, heq⟩ := Option.map_eq_some_iff.mp hrun
  simp only [Prod.mk.injEq, List.isEmpty_iff] at heq
  obtain ⟨hprog, hlog, hmem⟩ := heq
  obtain ⟨rest, hlog⟩ := List.head?_eq_some_iff.mp hlog
  have hreturn : collectiveReturn (s 0) = some .success := by
    rw [collectiveReturn, hprog]
    rfl
  refine ⟨s, hs, ?_, ?_, ?_, ?_⟩
  · rw [hlog]
    rfl
  · rw [hmem]
    decide
  · rw [hreturn]
    rfl
  · rw [signalsOnlySuccess_iff _ _ hprog, hlog, List.eq_replicate_iff]
    rintro ⟨-, hsuccess⟩
    cases hsuccess .error List.mem_cons_self

end SmartNic.Collective
