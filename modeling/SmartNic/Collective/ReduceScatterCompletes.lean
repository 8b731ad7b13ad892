import SmartNic.Collective.PostedReceives
import SmartNic.Collective.RsTaskSequence
import SmartNic.Collective.Signal
import SmartNic.Library.Fabric.Capacity
import SmartNic.Library.Fabric.Progress

/-!
# ReduceScatter completes

Ranks that enter `collective_reduce_scatter` all return, although they wait for
each other on the ring and, when the chunks are large, each for the workers of
its own pool.
-/

namespace SmartNic.Collective

open SmartNic.Fabric

attribute [local instance] neZero_two

namespace ReduceScatter

variable {V : Type} {n : ℕ} {add : V → V → V}

/-! ## The pool serves the program -/

/-- A program that leaves the pool alone, but for tasks of at most the given
cost each of which it waits for at once. -/
inductive Asks (cost : ℕ) : List (Instr RdmaCtx RsPending Addr V (RsPool n)) → Prop
  | nil : Asks cost []
  | skip {i rest} (h : ∀ f, i ≠ .call f) (hrest : Asks cost rest) :
      Asks cost (i :: rest)
  | inline {rest} (f : (Addr → V) → Addr → V) (hrest : Asks cost rest) :
      Asks cost (.call (fun pool m => some (pool, f m)) :: rest)
  | task {rest} (task : RsTask) (hrange : task.start < task.stop)
      (hcost : task.cost n ≤ cost) (hrest : Asks cost rest) :
      Asks cost
        (.call (fun pool m => (submitRsTask task.dst task.src task.start task.stop
            task.strideId pool).map fun pool => (pool, m)) ::
          .call (fun pool m => (pollWaitRsCompletion task.strideId pool).map
            fun pool => (pool, m)) :: rest)

variable {cost : ℕ} {prog prog' : List (Instr RdmaCtx RsPending Addr V (RsPool n))}

theorem Asks.append (h : Asks cost prog) (h' : Asks cost prog') :
    Asks cost (prog ++ prog') := by
  induction h with
  | nil => exact h'
  | skip hi _ ih => exact .skip hi ih
  | inline f _ ih => exact .inline f ih
  | task task hrange hcost _ ih => exact .task task hrange hcost ih

theorem Asks.of_no_call (h : ∀ f, .call f ∉ prog) : Asks cost prog := by
  induction prog with
  | nil => exact .nil
  | cons i prog ih =>
      refine .skip (fun f hf => h f ?_) (ih fun f hf => h f (List.mem_cons_of_mem _ hf))
      rw [hf]
      exact List.mem_cons_self

theorem Asks.range {body : ℕ → List (Instr RdmaCtx RsPending Addr V (RsPool n))}
    (h : ∀ i, Asks cost (body i)) (k : ℕ) :
    Asks cost ((List.range k).flatMap body) := by
  induction k with
  | zero => exact .nil
  | succ k ih =>
      rw [List.range_succ, List.flatMap_append, List.flatMap_singleton]
      exact ih.append (h k)

/-- The pool between the submission of a task and the pop of its completion. -/
inductive InService (p : RsPool n) (task : RsTask) : Prop
  | queued (tasks : p.taskQueue = [task]) (completions : p.completionQueue = [])
      (rested : p.Rested)
  | running (tasks : p.taskQueue = []) (completions : p.completionQueue = [])
      (adds : List RsEvent) (atTask : p.AtTask task adds)
  | completed (tasks : p.taskQueue = [])
      (completions : p.completionQueue = [task.strideId]) (rested : p.Rested)

/-- The pool is quiet before and after each task of the program. -/
def PoolPlace (cost : ℕ) (prog : List (Instr RdmaCtx RsPending Addr V (RsPool n)))
    (p : RsPool n) : Prop :=
  (Asks cost prog ∧ p.Quiet) ∨
    ∃ task rest, prog = .call (fun pool m =>
        (pollWaitRsCompletion task.strideId pool).map fun pool => (pool, m)) :: rest ∧
      Asks cost rest ∧ InService p task

section Pool

variable {p p' : RsPool n} {task : RsTask} {tid : Fin n} {m m' : Addr → V}

theorem InService.stage (h : InService p task) :
    ∃ rest adds, p.Stage rest adds := by
  cases h with
  | queued _ _ hrested => exact ⟨_, _, .rested hrested⟩
  | running _ _ adds hat => exact ⟨_, _, .atTask hat⟩
  | completed _ _ hrested => exact ⟨_, _, .rested hrested⟩

theorem InService.step (h : InService p task)
    (hstep : p.step add tid m = some (p', m')) : InService p' task := by
  cases h with
  | queued htasks hcompletions hrested =>
      obtain ⟨-, ⟨hrested', htasks', hcompletions'⟩ |
        ⟨hzero, hphase, task', rest, hqueue, rfl⟩⟩ := hrested.step hstep
      · exact .queued (htasks'.trans htasks) (hcompletions'.trans hcompletions)
          hrested'
      · obtain ⟨rfl, rfl⟩ := List.cons.inj (hqueue.symm.trans htasks)
        exact .running rfl hcompletions [] (hrested.atTask hzero hphase)
  | running htasks hcompletions adds hat =>
      rcases hat.step hstep with ⟨hat', htasks', hcompletions'⟩ |
        ⟨-, -, hrested, htasks', hcompletions'⟩
      · exact .running (htasks'.trans htasks) (hcompletions'.trans hcompletions)
          _ hat'
      · rw [hcompletions] at hcompletions'
        exact .completed (htasks'.trans htasks) hcompletions' hrested
  | completed htasks hcompletions hrested =>
      obtain ⟨-, ⟨hrested', htasks', hcompletions'⟩ |
        ⟨-, -, task', rest, hqueue, -⟩⟩ := hrested.step hstep
      · exact .completed (htasks'.trans htasks)
          (hcompletions'.trans hcompletions) hrested'
      · cases hqueue.symm.trans htasks

/-- A worker can go on unless the completion is there. -/
theorem InService.exists_step (h : InService p task) (hn : 0 < n)
    (hpoll : pollWaitRsCompletion task.strideId p = none) (m : Addr → V) :
    ∃ tid, p.step add tid m ≠ none := by
  cases h with
  | queued htasks _ hrested =>
      by_contra hblocked
      rw [not_exists] at hblocked
      have hnone := hrested.taskQueue_eq_nil hn fun tid =>
        not_not.mp (hblocked tid)
      cases htasks.symm.trans hnone
  | running _ hcompletions adds hat =>
      refine hat.exists_step ?_ m
      rw [hcompletions]
      decide
  | completed _ hcompletions _ =>
      simp [pollWaitRsCompletion, hcompletions, popUntil] at hpoll

/-- A quiet pool takes a task and has its cost to work off. -/
theorem submit_of_quiet (h : p.Quiet) (hrange : task.start < task.stop)
    (hsubmit : submitRsTask task.dst task.src task.start task.stop task.strideId p =
      some p') :
    InService p' task ∧ p'.work = p.work + task.cost n := by
  rw [submitRsTask, if_neg (Nat.not_le.mpr hrange), h.tasks] at hsubmit
  obtain ⟨queue, hpush, rfl⟩ := Option.map_eq_some_iff.mp hsubmit
  obtain rfl := Option.some.inj hpush
  refine ⟨.queued rfl h.completions (h.rested.congr rfl), ?_⟩
  have hwork : p.work = ∑ t, p.remaining t := by
    rw [RsPool.work, h.tasks, List.map_nil, List.sum_nil, Nat.add_zero]
  rw [hwork]
  exact congrArg (_ + ·) (List.sum_singleton)

theorem poll_of_inService (h : InService p task)
    (hpoll : pollWaitRsCompletion task.strideId p = some p') :
    p'.Quiet ∧ p'.work = p.work := by
  obtain ⟨queue, hpop, rfl⟩ := Option.map_eq_some_iff.mp hpoll
  refine ⟨?_, rfl⟩
  cases h with
  | queued _ hcompletions _ => simp [hcompletions, popUntil] at hpop
  | running _ hcompletions _ _ => simp [hcompletions, popUntil] at hpop
  | completed htasks hcompletions hrested =>
      rw [hcompletions, popUntil, if_pos rfl] at hpop
      obtain rfl := Option.some.inj hpop
      exact ⟨htasks, rfl, hrested.congr rfl⟩

end Pool

/-- The pool serves the calls of the program. -/
theorem serves_pool {ws : ℕ} (hn : 0 < n) :
    Serves (poolSystem ws n add) (PoolPlace (V := V) cost) RsPool.work cost where
  skip i rest d hi h := by
    rcases h with ⟨hasks, hquiet⟩ | ⟨task, rest', heq, -⟩
    · cases hasks with
      | skip _ hrest => exact .inl ⟨hrest, hquiet⟩
      | inline f _ => exact absurd rfl (hi _)
      | task _ _ _ _ => exact absurd rfl (hi _)
    · exact absurd (List.cons.inj heq).1 (hi _)
  call f rest d m d' m' h hf := by
    rcases h with ⟨hasks, hquiet⟩ | ⟨task, rest', heq, hrest, hservice⟩
    · cases hasks with
      | skip hi _ => exact absurd rfl (hi f)
      | inline g hrest =>
          obtain ⟨rfl, -⟩ := Prod.mk.inj (Option.some.inj hf)
          exact ⟨.inl ⟨hrest, hquiet⟩, Nat.le_add_right _ _⟩
      | task task hrange hcost hrest =>
          obtain ⟨p', hsubmit, heq⟩ := Option.map_eq_some_iff.mp hf
          obtain ⟨rfl, -⟩ := Prod.mk.inj heq
          obtain ⟨hservice, hwork⟩ := submit_of_quiet hquiet hrange hsubmit
          refine ⟨.inr ⟨task, _, rfl, hrest, hservice⟩, ?_⟩
          rw [hwork]
          exact Nat.add_le_add_left hcost _
    · obtain ⟨hcall, rfl⟩ := List.cons.inj heq
      rw [Instr.call.inj hcall] at hf
      obtain ⟨p', hpoll, hpair⟩ := Option.map_eq_some_iff.mp hf
      obtain ⟨rfl, -⟩ := Prod.mk.inj hpair
      obtain ⟨hquiet, hwork⟩ := poll_of_inService hservice hpoll
      exact ⟨.inl ⟨hrest, hquiet⟩, hwork.le.trans (Nat.le_add_right _ _)⟩
  blocked f rest d m h hf := by
    rcases h with ⟨hasks, hquiet⟩ | ⟨task, rest', heq, -, hservice⟩
    · cases hasks with
      | skip hi _ => exact absurd rfl (hi f)
      | inline g _ => cases hf
      | task task hrange _ _ =>
          have hnone := Option.map_eq_none_iff.mp hf
          rw [submitRsTask, if_neg (Nat.not_le.mpr hrange), hquiet.tasks] at hnone
          cases hnone
    · rw [Instr.call.inj (List.cons.inj heq).1] at hf
      exact hservice.exists_step hn (Option.map_eq_none_iff.mp hf) m
  device prog d a m d' m' h hstep := by
    rcases h with ⟨hasks, hquiet⟩ | ⟨task, rest, heq, hrest, hservice⟩
    · exact ⟨.inl ⟨hasks, (hquiet.step hstep).1⟩,
        (RsPool.Stage.rested hquiet.rested).work_lt hstep⟩
    · obtain ⟨_, _, hstage⟩ := hservice.stage
      exact ⟨.inr ⟨task, rest, heq, hrest, hservice.step hstep⟩,
        hstage.work_lt hstep⟩

/-! ## The transfers of the program -/

variable {ly : RsLayout} {rank rank' : ℕ}

theorem tasks_rsAggregate (step : ℕ) :
    tasks (rsAggregate (V := V) (n := n) add ly rank step) = [] := by
  unfold rsAggregate
  split <;> rfl

theorem tasks_rsStep (step : ℕ) :
    tasks (rsStep (V := V) (n := n) add ly rank step) =
      [rsSendTask ly rank step,
        rsReadTask ly (ly.readIndex rank step) (.read step)] := by
  rw [rsStep, tasks_append, tasks_append, tasks_append, tasks_rsAggregate]
  rfl

/-- The transfers before the steps of the ring. -/
def firstTasks (ly : RsLayout) (rank : ℕ) : List (Task RdmaCtx RsPending Addr) :=
  ((List.range (ly.worldSize - 1)).flatMap fun step => [rsRecvTask ly rank step]) ++
    [rsReadTask ly (ly.firstReadIndex rank) .firstRead]

/-- The transfers of the first `steps` steps. -/
def stepTasks (ly : RsLayout) (rank steps : ℕ) :
    List (Task RdmaCtx RsPending Addr) :=
  (List.range steps).flatMap fun step =>
    [rsSendTask ly rank step, rsReadTask ly (ly.readIndex rank step) (.read step)]

theorem tasks_firstPhase :
    tasks (((List.range (ly.worldSize - 1)).flatMap fun step =>
        batch (.recv step) [rsRecvTask ly rank step]) ++
      (batch .firstRead [rsReadTask ly (ly.firstReadIndex rank) .firstRead] ++
        ([.wait [.firstRead]] : List (Instr RdmaCtx RsPending Addr V (RsPool n))))) =
      firstTasks ly rank := by
  rw [tasks_append, tasks_flatMap, tasks_append, tasks_batch]
  simp only [tasks_batch]
  rfl

theorem tasks_reduceScatterIn :
    tasks (reduceScatterIn (V := V) (n := n) add ly rank) =
      firstTasks ly rank ++ stepTasks ly rank (ly.worldSize - 1) ++
        [rsPutTask ly rank] := by
  rw [reduceScatterIn, tasks_append, tasks_append, tasks_firstPhase, tasks_flatMap]
  simp only [tasks_rsStep]
  rfl

/-- All ranks use the ring in the same order. -/
theorem links_reduceScatterIn :
    links (tasks (reduceScatterIn (V := V) (n := n) add ly rank)) =
      links (tasks (reduceScatterIn (V := V) (n := n) add ly rank')) := by
  rw [tasks_reduceScatterIn, tasks_reduceScatterIn, firstTasks, firstTasks,
    stepTasks, stepTasks]
  simp only [links_append, links_flatMap]
  rfl

/-! ## Pacing -/

/-- The transfers before the wait of a step. -/
def beforeWait (ly : RsLayout) (rank step : ℕ) :
    List (Task RdmaCtx RsPending Addr) :=
  firstTasks ly rank ++ stepTasks ly rank (step + 1)

theorem countersAt_beforeWait (k : Link RdmaCtx) (step : ℕ) :
    countersAt k (beforeWait ly rank step) =
      countersAt k ((List.range (ly.worldSize - 1)).flatMap fun step =>
          [rsRecvTask ly rank step]) ++
        countersAt k ((List.range (step + 1)).flatMap fun step =>
          [rsSendTask ly rank step]) := by
  have hread : ∀ i c ts, countersAt k (rsReadTask ly i c :: ts) = countersAt k ts :=
    fun i c ts =>
      countersAt_cons_of_ne (t := rsReadTask ly i c) (Option.some_ne_none k).symm ts
  have hsteps : countersAt k (stepTasks ly rank (step + 1)) =
      countersAt k ((List.range (step + 1)).flatMap fun step =>
        [rsSendTask ly rank step]) := by
    rw [stepTasks, countersAt_flatMap, countersAt_flatMap]
    refine List.flatMap_congr fun s _ => ?_
    rw [← List.singleton_append, countersAt_append, hread]
    exact List.append_nil _
  rw [beforeWait, firstTasks, countersAt_append, countersAt_append, hread, hsteps]
  exact congrArg (· ++ _) (List.append_nil _)

theorem paces_firstPhase :
    Paces [] (((List.range (ly.worldSize - 1)).flatMap fun step =>
        batch (.recv step) [rsRecvTask ly rank step]) ++
      (batch .firstRead [rsReadTask ly (ly.firstReadIndex rank) .firstRead] ++
        ([.wait [.firstRead]] : List (Instr RdmaCtx RsPending Addr V (RsPool n))))) := by
  refine .append (.range _ fun _ _ => .batch _ _)
    ((Paces.batch _ _).append (.wait_of_notMem fun t ht hlink hmem => ?_))
  simp only [tasks_flatMap, tasks_batch, List.nil_append, List.mem_append,
    List.mem_flatMap, List.mem_singleton] at ht hmem
  rcases ht with ⟨step, -, rfl⟩ | rfl
  · cases hmem
  · exact hlink rfl

/-- A step of the ring waits for what the neighbours have the means to do. -/
theorem paces_rsStep {step : ℕ} (hstep : step < ly.worldSize - 1) :
    Paces (firstTasks ly rank ++ stepTasks ly rank step)
      (rsStep (V := V) (n := n) add ly rank step) := by
  have hwait : Paces (beforeWait ly rank step)
      ([.wait [.recv step, .send step, .read step]] :
        List (Instr RdmaCtx RsPending Addr V (RsPool n))) := by
    refine .wait_step (fun s => [rsRecvTask ly rank s])
      (fun s => [rsSendTask ly rank s]) hstep
      (fun k => countersAt_beforeWait k step) (fun q s => ?_) (fun q s => ?_)
      (fun q s => ?_) fun s hs t ht hmem => ?_
    · refine countersAt_cons_of_ne (t := rsRecvTask ly rank s) ?_ []
      exact fun heq => nomatch (heq : some (Link.recv RdmaCtx.ring) = some (.send q))
    · refine countersAt_cons_of_ne (t := rsSendTask ly rank s) ?_ []
      exact fun heq => nomatch (heq : some (Link.send RdmaCtx.ring) = some (.recv q))
    · rw [length_countersAt, length_countersAt]
      by_cases hq : RdmaCtx.ring = q
      · subst hq
        rfl
      · simp [links, Task.link, rsSendTask, rsRecvTask, initRingSendTask,
          initRingRecvTask, hq]
    · rw [List.mem_singleton.mp ht] at hmem
      simp only [rsRecvTask, initRingRecvTask, List.mem_cons, RsPending.recv.injEq,
        reduceCtorEq, List.not_mem_nil, or_false] at hmem
      exact absurd hs (by omega)
  have hpast : firstTasks ly rank ++ stepTasks ly rank step ++
      tasks (batch (.send step) [rsSendTask ly rank step] ++
        (batch (.read step) [rsReadTask ly (ly.readIndex rank step) (.read step)] :
          List (Instr RdmaCtx RsPending Addr V (RsPool n)))) =
      beforeWait ly rank step := by
    rw [tasks_append, tasks_batch, tasks_batch, beforeWait, stepTasks, stepTasks,
      List.range_succ, List.flatMap_append, List.flatMap_singleton,
      List.append_assoc]
    rfl
  have haggregate : ∀ past, Paces past (rsAggregate (V := V) (n := n) add ly rank
      step) := by
    intro past
    refine .of_no_wait fun cs hcs => ?_
    unfold rsAggregate at hcs
    split at hcs <;> simp at hcs
  rw [rsStep]
  refine (((Paces.batch _ _).append (.batch _ _)).append ?_).append (haggregate _)
  rw [hpast]
  exact hwait

theorem paces_reduceScatterIn :
    Paces [] (reduceScatterIn (V := V) (n := n) add ly rank) := by
  refine (paces_firstPhase.append (.range _ fun step hstep => ?_)).append
    ((Paces.batch _ _).append (.wait_of_notMem fun t ht hlink hmem => ?_))
  · rw [tasks_firstPhase]
    simp only [tasks_rsStep]
    exact paces_rsStep hstep
  · rw [tasks_append, tasks_firstPhase, tasks_flatMap, tasks_batch] at ht
    simp only [tasks_rsStep, firstTasks, List.nil_append, List.mem_append,
      List.mem_flatMap, List.mem_cons, List.not_mem_nil, or_false] at ht hmem
    rcases ht with ((⟨s, -, rfl⟩ | rfl) | ⟨s, -, rfl | rfl⟩) | rfl
    · cases hmem
    · exact hlink rfl
    · cases hmem
    · exact hlink rfl
    · exact hlink rfl

/-! ## Tasks and budget -/

/-- The cost of the aggregation of a step for the pool. -/
def aggregateCost (n : ℕ) (ly : RsLayout) : ℕ := 7 * n + ly.elementsPerChunk

theorem asks_rsAggregate (step : ℕ) :
    Asks (aggregateCost n ly) (rsAggregate (V := V) (n := n) add ly rank step) := by
  unfold rsAggregate
  split
  · exact .inline _ .nil
  next hlarge =>
    have hpos : 0 < ly.elementsPerChunk :=
      Nat.zero_lt_of_lt (Nat.not_le.mp hlarge)
    refine .task ⟨.send, .recv, _, _, step⟩ (Nat.lt_add_of_pos_right hpos) ?_ .nil
    rw [RsTask.cost, Nat.add_sub_cancel_left]
    exact le_rfl

theorem asks_batch (c : RsPending) (ts : List (Task RdmaCtx RsPending Addr)) :
    Asks cost (batch c ts : List (Instr RdmaCtx RsPending Addr V (RsPool n))) := by
  refine .of_no_call fun f hf => ?_
  rcases List.mem_cons.mp hf with heq | hf
  · cases heq
  · obtain ⟨t, -, heq⟩ := List.mem_map.mp hf
    cases heq

theorem asks_wait (cs : List RsPending) :
    Asks cost ([.wait cs] : List (Instr RdmaCtx RsPending Addr V (RsPool n))) :=
  .skip nofun .nil

theorem asks_reduceScatterIn :
    Asks (aggregateCost n ly) (reduceScatterIn (V := V) (n := n) add ly rank) := by
  refine (((Asks.range (fun step => asks_batch _ _) _).append
    ((asks_batch _ _).append (asks_wait _))).append (.range (fun step => ?_) _)).append
      ((asks_batch _ _).append (asks_wait _))
  exact (((asks_batch _ _).append (asks_batch _ _)).append (asks_wait _)).append
    (asks_rsAggregate step)

/-- The steps that a rank and its pool take at most. -/
def stepBound (n : ℕ) (ly : RsLayout) : ℕ :=
  (ly.worldSize - 1) * (2 * aggregateCost n ly + 15) + 10

theorem price_reduceScatterIn_le :
    price (aggregateCost n ly) (reduceScatterIn (V := V) (n := n) add ly rank) ≤
      stepBound n ly := by
  have hwait : ∀ cs, price (aggregateCost n ly)
      ([.wait cs] : List (Instr RdmaCtx RsPending Addr V (RsPool n))) = 1 :=
    fun _ => rfl
  have haggregate : ∀ step, price (aggregateCost n ly)
      (rsAggregate (V := V) (n := n) add ly rank step) =
        if ly.elementsPerChunk ≤ RS_AGGREGATION_THRESHOLD / SIZEOF_FP16
        then aggregateCost n ly + 1 else 2 * (aggregateCost n ly + 1) := by
    intro step
    unfold rsAggregate
    split
    · rfl
    · rw [price_cons, price_cons]
      simp only [price, Instr.price]
      omega
  have hstep : ∀ step, price (aggregateCost n ly)
      (rsStep (V := V) (n := n) add ly rank step) =
        9 + if ly.elementsPerChunk ≤ RS_AGGREGATION_THRESHOLD / SIZEOF_FP16
        then aggregateCost n ly + 1 else 2 * (aggregateCost n ly + 1) := by
    intro step
    rw [rsStep, price_append, price_append, price_append, price_batch, price_batch,
      hwait, haggregate]
    rfl
  have hrecvs : price (aggregateCost n ly)
      ((List.range (ly.worldSize - 1)).flatMap fun step =>
        (batch (.recv step) [rsRecvTask ly rank step] :
          List (Instr RdmaCtx RsPending Addr V (RsPool n)))) =
      (ly.worldSize - 1) * 4 :=
    price_flatMap _ fun step _ => price_batch _ _ _
  have hring := price_flatMap (aggregateCost n ly) (n := ly.worldSize - 1)
    fun step _ => hstep step
  have hle : (ly.worldSize - 1) * (9 +
      if ly.elementsPerChunk ≤ RS_AGGREGATION_THRESHOLD / SIZEOF_FP16
      then aggregateCost n ly + 1 else 2 * (aggregateCost n ly + 1)) ≤
      (ly.worldSize - 1) * (2 * aggregateCost n ly + 11) := by
    refine Nat.mul_le_mul_left _ ?_
    split <;> omega
  have hsum : (ly.worldSize - 1) * 4 +
      (ly.worldSize - 1) * (2 * aggregateCost n ly + 11) =
        (ly.worldSize - 1) * (2 * aggregateCost n ly + 15) := by
    rw [← Nat.mul_add]
    congr 1
    omega
  rw [reduceScatterIn, price_append, price_append, price_append, price_append,
    price_append, hrecvs, hring, price_batch, price_batch, hwait, hwait, stepBound]
  simp only [List.length_singleton]
  omega

/-! ## Receive tasks -/

/-- The receives are those of the first phase, all on one context. -/
theorem recvCount_reduceScatterIn_le (q : RdmaCtx) :
    recvCount q (reduceScatterIn (V := V) (n := n) add ly rank) ≤
      (ly.worldSize - 1) * if q = .ring then 1 else 0 := by
  have hrecv : ∀ step, recvCount q (batch (.recv step) [rsRecvTask ly rank step] :
      List (Instr RdmaCtx RsPending Addr V (RsPool n))) ≤
        if q = .ring then 1 else 0 := by
    intro step
    cases q <;> exact le_rfl
  have hstep : ∀ step, recvCount q
      (rsStep (V := V) (n := n) add ly rank step) ≤ 0 := by
    intro step
    have haggregate : recvCount q
        (rsAggregate (V := V) (n := n) add ly rank step) = 0 := by
      unfold rsAggregate
      dsimp only
      split <;> rfl
    rw [rsStep, recvCount_append, haggregate]
    exact le_rfl
  have hfirst := recvCount_flatMap_le (n := ly.worldSize - 1) fun step _ => hrecv step
  have hring := recvCount_flatMap_le (n := ly.worldSize - 1) fun step _ => hstep step
  have hread : recvCount q (batch .firstRead [rsReadTask ly (ly.firstReadIndex rank)
      .firstRead] ++ [.wait [.firstRead]] :
        List (Instr RdmaCtx RsPending Addr V (RsPool n))) = 0 := rfl
  have hput : recvCount q (batch .put [rsPutTask ly rank] ++ [.wait [.put]] :
      List (Instr RdmaCtx RsPending Addr V (RsPool n))) = 0 := rfl
  rw [reduceScatterIn, recvCount_append, recvCount_append, recvCount_append, hread, hput]
  omega

theorem recvCount_collectiveReduceScatter_le {ws : ℕ} (hws : ws ≤ 257) (bufferLen : ℕ)
    (q : RdmaCtx) :
    recvCount q (collectiveReduceScatter (V := V) (n := n) add rank ws bufferLen) ≤
      numRecvTasks q := by
  refine (recvCount_reduceScatterIn_le q).trans ?_
  change (ws - 1) * _ ≤ _
  cases q with
  | ring =>
      simp only [if_true, numRecvTasks]
      omega
  | _ => exact (Nat.mul_zero _).le.trans (Nat.zero_le _)

/-! ## Completion -/

variable (add) in
/-- Ranks with a pool of at least one worker complete a ReduceScatter of any
length: no run has more steps than its bound, a run without failures can always
go on until all ranks have returned, and then all pools are quiet again.  Up to 257
ranks no receive is refused. -/
theorem collectiveReduceScatter_completes {ws : ℕ} (hn : 0 < n) (bufferLen : ℕ)
    (mem : Fin ws → Addr → V) {pool : Fin ws → RsPool n}
    (hpool : ∀ r, (pool r).Quiet) :
    Completes (poolSystem ws n add) (start add bufferLen mem pool)
        (ws * stepBound n (reduceScatterLayout ws bufferLen) +
          ∑ r, (pool r).work) ∧
      (∀ acts s, run (poolSystem ws n add) (start add bufferLen mem pool) acts =
        some s → ∀ r, (s r).prog = [] → (s r).dev.Quiet) ∧
      (ws ≤ 257 → ∀ acts s,
        run (poolSystem ws n add) (start add bufferLen mem pool) acts = some s →
        ∀ r, (s r).HasTask numRecvTasks
          (collectiveReduceScatter add r ws bufferLen)) := by
  let ly := reduceScatterLayout ws bufferLen
  have hserves : Serves (poolSystem ws n add) (PoolPlace (V := V) (aggregateCost n ly))
      RsPool.work (aggregateCost n ly) :=
    serves_pool hn
  have hplace : ∀ r : Fin ws, PoolPlace (V := V) (aggregateCost n ly)
      (collectiveReduceScatter (n := n) add r ws bufferLen) (pool r) :=
    fun r => .inl ⟨asks_reduceScatterIn, hpool r⟩
  have hcompletes : Completes (poolSystem ws n add) (start add bufferLen mem pool)
      (∑ r : Fin ws, (price (aggregateCost n ly)
        (collectiveReduceScatter (V := V) (n := n) add r ws bufferLen) +
          (pool r).work)) :=
    completes nextRank_injective (fun _ => paces_reduceScatterIn)
      (fun _ => settles_reduceScatterIn) (fun _ _ => links_reduceScatterIn)
      hserves hplace
  have hbound : ∑ r : Fin ws, price (aggregateCost n ly)
      (collectiveReduceScatter (V := V) (n := n) add r ws bufferLen) ≤
        ws * stepBound n ly := by
    refine (Finset.sum_le_card_nsmul _ _ _ fun r _ =>
      price_reduceScatterIn_le).trans ?_
    rw [Finset.card_univ, Fintype.card_fin, smul_eq_mul]
  refine ⟨hcompletes.mono ?_, fun acts s hrun r hreturned => ?_,
    fun hws acts s hrun r => ?_⟩
  · rw [Finset.sum_add_distrib]
    exact Nat.add_le_add_right hbound _
  · have hend : PoolPlace (aggregateCost n ly) (s r).prog (s r).dev :=
      (hserves.run (s := start add bufferLen mem pool) hplace hrun).1 r
    rw [hreturned] at hend
    rcases hend with ⟨-, hquiet⟩ | ⟨_, _, heq, -⟩
    · exact hquiet
    · cases heq
  · exact Node.hasTask_of_fits
      (fun q => recvCount_collectiveReduceScatter_le hws bufferLen q) (run_suffix hrun r)

/-- Two ranks whose chunks are large enough for their pools. -/
theorem collectiveReduceScatter_completes_two :
    ∃ acts s, (∀ a ∈ acts, a.failsAt = none) ∧
      run (poolSystem 2 2 fun a b => 2 * a + b)
        (start (fun a b => 2 * a + b) (4 * RS_AGGREGATION_THRESHOLD) pairMemory
          fun _ => rsThreadPoolCreate 2) acts = some s ∧
      ∀ r, (s r).prog = [] ∧ (s r).dev.Quiet := by
  obtain ⟨hcompletes, hquiet, -⟩ := collectiveReduceScatter_completes
    (fun a b => 2 * a + b) (n := 2) (by decide) (4 * RS_AGGREGATION_THRESHOLD)
    pairMemory fun _ => RsPool.quiet_create 2
  obtain ⟨acts, s, hacts, hrun, hend⟩ := hcompletes.continues [] _ nofun rfl
  exact ⟨acts, s, hacts, hrun, fun r => ⟨hend r, hquiet acts s hrun r (hend r)⟩⟩

end ReduceScatter

end SmartNic.Collective
