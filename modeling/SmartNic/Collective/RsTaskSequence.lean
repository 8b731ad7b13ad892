import Mathlib
import SmartNic.Collective.RsPoolInvariant
import SmartNic.Library.Machine

/-!
# A sequence of tasks for the thread pool

The pool together with its submitter: tasks are submitted and completions are
polled at any moment, and the workers run in any order.  The log of a run
records every element that a worker adds and every completion that is pushed;
it is that of the tasks worked off one after the other.
-/

namespace SmartNic.Collective

open SmartNic.Fabric SmartNic.EvenSplit

/-! ## The model -/

/-- What a worker does that others can see: it adds an element or pushes a
completion. -/
inductive RsEvent where
  | added (dstBuf srcBuf : Buffer) (pos : ℕ)
  | completed (strideId : ℕ)
deriving DecidableEq, Repr

/-- The memory after an event. -/
def RsEvent.apply {V : Type} (add : V → V → V) (m : Addr → V) :
    RsEvent → (Addr → V)
  | .added dstBuf srcBuf pos => addElement add dstBuf srcBuf m pos
  | .completed _ => m

def RS_NUM_THREADS : ℕ := 8

/-- `num_threads` after the default of `rs_thread_pool_create`. -/
def numThreads (requested : ℤ) : ℕ :=
  if requested ≤ 0 then RS_NUM_THREADS else requested.toNat

section Model

variable {n : ℕ} {V : Type}

/-- The event of the next step of worker `tid`. -/
def RsPool.event (tid : Fin n) (p : RsPool n) : List RsEvent :=
  match (p.worker tid).phase with
  | .adding dstBuf srcBuf pos stop =>
      if pos < stop then [.added dstBuf srcBuf pos] else []
  | .pushing => [.completed p.currentTask.strideId]
  | _ => []

/-- A step of the pool: a worker runs, `submit_rs_task` pushes a task, or
`poll_wait_rs_completion` pops an event. -/
inductive PoolAction (n : ℕ) where
  | work (tid : Fin n)
  | submit (dstBuf srcBuf : Buffer) (start stop strideId : ℕ)
  | poll

/-- The pool and its memory with the history of a run: the tasks that were
submitted, the events of the workers and the completions that were popped. -/
structure PoolRun (n : ℕ) (V : Type) where
  pool : RsPool n
  memory : Addr → V
  submitted : List RsTask
  log : List RsEvent
  polled : List ℕ

def PoolRun.init (n : ℕ) (m : Addr → V) : PoolRun n V :=
  ⟨rsThreadPoolCreate n, m, [], [], []⟩

/-- One step of the system. -/
def PoolRun.step (add : V → V → V) (s : PoolRun n V) :
    PoolAction n → Option (PoolRun n V)
  | .work tid =>
      (s.pool.step add tid s.memory).map fun next =>
        { s with
          pool := next.1
          memory := next.2
          log := s.log ++ s.pool.event tid }
  | .submit dstBuf srcBuf start stop strideId =>
      (submitRsTask dstBuf srcBuf start stop strideId s.pool).map fun pool =>
        { s with
          pool := pool
          submitted := s.submitted ++
            if stop ≤ start then [] else [⟨dstBuf, srcBuf, start, stop, strideId⟩] }
  | .poll =>
      match s.pool.completionQueue with
      | [] => none
      | event :: rest =>
          some { s with
            pool := { s.pool with completionQueue := rest }
            polled := s.polled ++ [event] }

/-! ## The specification -/

/-- The elements of a task, each added once. -/
def RsTask.additions (task : RsTask) : List RsEvent :=
  (List.range' task.start (task.stop - task.start)).map (.added task.dst task.src)

/-- The log of tasks that have been worked off in order: the elements of a task
in some order, then its completion. -/
inductive WorkedOff : List RsTask → List RsEvent → Prop
  | nil : WorkedOff [] []
  | snoc {done : List RsTask} {log adds : List RsEvent} {task : RsTask}
      (h : WorkedOff done log) (hadds : adds.Perm task.additions) :
      WorkedOff (done ++ [task]) (log ++ (adds ++ [.completed task.strideId]))

/-- Where a run stands: the tasks `done` have been worked off with the log
`finished`, of `rest` at most the first has been begun, and the completions of
`done` have been pushed in order. -/
structure PoolRun.Stands (s : PoolRun n V) (done rest : List RsTask)
    (finished adds : List RsEvent) : Prop where
  submitted : s.submitted = done ++ rest
  log : s.log = finished ++ adds
  workedOff : WorkedOff done finished
  begun : adds = [] ∨ ∃ task ∈ rest.head?, adds.Subperm task.additions
  completions : s.polled ++ s.pool.completionQueue = done.map (·.strideId)

/-- No worker can take a step. -/
def PoolRun.Blocked (add : V → V → V) (s : PoolRun n V) : Prop :=
  ∀ tid, s.pool.step add tid s.memory = none

/-- A bound on the steps that `n` workers take for a task. -/
def RsTask.cost (n : ℕ) (task : RsTask) : ℕ := 7 * n + (task.stop - task.start)

/-- The steps of workers in a run. -/
def workSteps : List (PoolAction n) → ℕ
  | [] => 0
  | .work _ :: acts => workSteps acts + 1
  | _ :: acts => workSteps acts

end Model

/-! ## Steps of the pool without its queues -/

section Alone

variable {n : ℕ} {V : Type} {add : V → V → V} {tid : Fin n} {p p' : RsPool n}
  {m m' : Addr → V} {task : RsTask}

/-- What the workers know while they are at a task: the pool without what waits
before and after it. -/
def RsPool.alone (p : RsPool n) : RsPool n :=
  { p with taskQueue := [], completionQueue := [] }

namespace RsPool

@[simp]
theorem alone_worker : p.alone.worker = p.worker := rfl

@[simp]
theorem alone_currentTask : p.alone.currentTask = p.currentTask := rfl

@[simp]
theorem alone_taskGeneration : p.alone.taskGeneration = p.taskGeneration := rfl

@[simp]
theorem alone_doneCount : p.alone.doneCount = p.doneCount := rfl

@[simp]
theorem alone_readyCount : p.alone.readyCount = p.readyCount := rfl

/-- Rest does not depend on the queues. -/
theorem Rested.congr (h : p.Rested) (halone : p'.alone = p.alone) : p'.Rested := by
  have hworker : p'.worker = p.worker := congrArg (fun q => q.worker) halone
  have hgeneration : p'.taskGeneration = p.taskGeneration :=
    congrArg (fun q => q.taskGeneration) halone
  have hready : p'.readyCount = p.readyCount := congrArg (fun q => q.readyCount) halone
  constructor
  · rw [hworker, hgeneration]
    exact h.generation
  · rw [hworker]
    exact h.phase
  · rw [hworker, hgeneration, hready]
    exact h.ready
  · rw [hworker]
    exact h.idle

/-- The memory follows the events. -/
theorem step_memory_eq (hstep : p.step add tid m = some (p', m')) :
    m' = (p.event tid).foldl (RsEvent.apply add) m := by
  unfold RsPool.event
  unfold RsPool.step at hstep
  split at hstep
  case h_3 dstBuf srcBuf pos stop hphase =>
    split at hstep
    next hpos =>
      obtain ⟨-, rfl⟩ := Prod.mk.inj (Option.some.inj hstep)
      rw [hphase]
      dsimp only
      rw [if_pos hpos]
      rfl
    next hpos =>
      obtain ⟨-, rfl⟩ := Prod.mk.inj (Option.some.inj hstep)
      rw [hphase]
      dsimp only
      rw [if_neg hpos]
      rfl
  case h_5 hphase =>
    obtain ⟨queue, -, heq⟩ := Option.map_eq_some_iff.mp hstep
    rw [hphase]
    exact (Prod.mk.inj heq).2.symm
  all_goals
    rename_i hphase
    rw [hphase]
    grind

/-- A step other than the pop of a task and the push of a completion does not
depend on the queues or on the contents of memory. -/
theorem step_alone {W : Type} {add' : W → W → W} {c : Addr → W}
    (hstep : p.step add tid m = some (p', m'))
    (htake : ¬ (tid.val = 0 ∧ (p.worker tid).phase = .idle))
    (hpush : (p.worker tid).phase ≠ .pushing) :
    p.alone.step add' tid c =
        some (p'.alone, (p.event tid).foldl (RsEvent.apply add') c) ∧
      p'.taskQueue = p.taskQueue ∧ p'.completionQueue = p.completionQueue := by
  unfold RsPool.event
  unfold RsPool.step at hstep ⊢
  rw [alone_worker]
  cases hphase : (p.worker tid).phase with
  | idle =>
      have hzero : tid.val ≠ 0 := fun hzero => htake ⟨hzero, hphase⟩
      simp only [hphase, if_neg hzero] at hstep ⊢
      split at hstep
      · cases hstep
      next hne =>
        obtain ⟨rfl, rfl⟩ := Prod.mk.inj (Option.some.inj hstep)
        rw [alone_taskGeneration, if_neg hne]
        exact ⟨rfl, rfl, rfl⟩
  | starting =>
      simp only [hphase] at hstep ⊢
      obtain ⟨rfl, rfl⟩ := Prod.mk.inj (Option.some.inj hstep)
      exact ⟨rfl, rfl, rfl⟩
  | adding dstBuf srcBuf pos stop =>
      simp only [hphase] at hstep ⊢
      split at hstep
      next hpos =>
        obtain ⟨rfl, rfl⟩ := Prod.mk.inj (Option.some.inj hstep)
        rw [if_pos hpos, if_pos hpos]
        exact ⟨rfl, rfl, rfl⟩
      next hpos =>
        obtain ⟨rfl, rfl⟩ := Prod.mk.inj (Option.some.inj hstep)
        rw [if_neg hpos, if_neg hpos]
        exact ⟨rfl, rfl, rfl⟩
  | counting =>
      simp only [hphase] at hstep ⊢
      obtain ⟨rfl, rfl⟩ := Prod.mk.inj (Option.some.inj hstep)
      exact ⟨rfl, rfl, rfl⟩
  | pushing => exact absurd hphase hpush
  | readying =>
      simp only [hphase] at hstep ⊢
      obtain ⟨rfl, rfl⟩ := Prod.mk.inj (Option.some.inj hstep)
      exact ⟨rfl, rfl, rfl⟩
  | waiting =>
      simp only [hphase] at hstep ⊢
      split at hstep
      next hready =>
        obtain ⟨rfl, rfl⟩ := Prod.mk.inj (Option.some.inj hstep)
        rw [alone_readyCount, if_pos hready]
        exact ⟨rfl, rfl, rfl⟩
      · cases hstep

/-- The push of a completion. -/
theorem step_pushing (hstep : p.step add tid m = some (p', m'))
    (hphase : (p.worker tid).phase = .pushing) :
    p' = ({ p with completionQueue :=
        p.completionQueue ++ [p.currentTask.strideId] } : RsPool n).goto tid
          .readying := by
  simp only [RsPool.step, hphase, queuePush] at hstep
  split at hstep
  · exact (Prod.mk.inj (Option.some.inj hstep)).1.symm
  · cases hstep

end RsPool

end Alone

/-! ## Counting the additions of a task -/

section Tally

variable {n : ℕ} {task : RsTask} {adds : List RsEvent} {e : RsEvent}

theorem RsTask.mem_additions :
    e ∈ task.additions ↔
      ∃ i, task.start ≤ i ∧ i < task.stop ∧ e = .added task.dst task.src i := by
  rw [RsTask.additions, List.mem_map]
  constructor
  · rintro ⟨i, hi, rfl⟩
    rw [List.mem_range'_1] at hi
    exact ⟨i, hi.1, by omega, rfl⟩
  · rintro ⟨i, hge, hlt, rfl⟩
    exact ⟨i, List.mem_range'_1.mpr ⟨hge, by omega⟩, rfl⟩

theorem RsTask.nodup_additions (task : RsTask) : task.additions.Nodup := by
  apply List.Nodup.map
  · intro i j heq
    injection heq
  · exact List.nodup_range'

/-- A memory that counts how often each element was added. -/
def countAdd (a _ : ℕ) : ℕ := a + 1

/-- How often each element of the task was added. -/
def RsTask.tally (task : RsTask) (adds : List RsEvent) (l : Addr) : ℕ :=
  adds.count (.added task.dst task.src l.2)

theorem RsTask.tally_append (task : RsTask) (adds : List RsEvent) (pos i : ℕ) :
    task.tally (adds ++ [.added task.dst task.src pos]) (task.dst, i) =
      addElement countAdd task.dst task.src (task.tally adds) pos (task.dst, i) := by
  rw [RsTask.tally, List.count_append, addElement]
  by_cases hi : i = pos
  · subst hi
    rw [set_same, List.count_singleton_self]
    rfl
  · have hne : (RsEvent.added task.dst task.src pos) ≠ .added task.dst task.src i := by
      intro heq
      injection heq with _ _ hpos
      exact hi hpos.symm
    rw [set_of_ne fun heq => hi (Prod.mk.inj heq).2, List.count_singleton,
      if_neg (by simpa using hne)]
    rfl

/-- Every element was added exactly once. -/
theorem RsTask.perm_additions (hwithin : ∀ e ∈ adds, e ∈ task.additions)
    (htally : ∀ i, task.start ≤ i → i < task.stop →
      task.tally adds (task.dst, i) = 1) :
    adds.Perm task.additions := by
  rw [List.perm_iff_count]
  intro e
  by_cases he : e ∈ task.additions
  · obtain ⟨i, hge, hlt, rfl⟩ := RsTask.mem_additions.mp he
    rw [List.count_eq_one_of_mem task.nodup_additions he]
    exact htally i hge hlt
  · rw [List.count_eq_zero_of_not_mem he,
      List.count_eq_zero_of_not_mem fun hmem => he (hwithin e hmem)]

/-- No element was added twice. -/
theorem RsTask.subperm_additions (hwithin : ∀ e ∈ adds, e ∈ task.additions)
    (htally : ∀ i, task.start ≤ i → i < task.stop →
      task.tally adds (task.dst, i) ≤ 1) :
    adds.Subperm task.additions := by
  rw [List.subperm_ext_iff]
  intro e he
  obtain ⟨i, hge, hlt, rfl⟩ := RsTask.mem_additions.mp (hwithin e he)
  rw [List.count_eq_one_of_mem task.nodup_additions (hwithin _ he)]
  exact htally i hge hlt

end Tally

/-! ## The invariant of a run -/

section Run

variable {n : ℕ} {V : Type} {add : V → V → V} {tid : Fin n} {p p' : RsPool n}
  {m m' : Addr → V} {task : RsTask} {adds : List RsEvent}

/-- The workers are at a task of which the additions `adds` have been made. -/
structure RsPool.AtTask (p : RsPool n) (task : RsTask) (adds : List RsEvent) :
    Prop where
  running : p.alone.Running countAdd task (fun _ => 0) (fun _ => 0)
    (task.tally adds)
  within : ∀ e ∈ adds, e ∈ task.additions

namespace RsPool

/-- No element of the task has been added twice. -/
theorem AtTask.subperm (h : p.AtTask task adds) (hn : 0 < n) :
    adds.Subperm task.additions := by
  apply RsTask.subperm_additions h.within
  intro i hge hlt
  obtain ⟨t, ht, ht'⟩ := RsTask.exists_part hn hge hlt
  rw [(h.running.worker t).memory i ht ht']
  split
  · exact le_rfl
  · exact Nat.zero_le 1

/-- The event of a worker at a task is an addition of the task, unless it is the
push of the completion. -/
theorem AtTask.event (h : p.AtTask task adds)
    (hpush : (p.worker tid).phase ≠ .pushing) :
    p.event tid = [] ∨ ∃ i, task.start ≤ i ∧ i < task.stop ∧
      p.event tid = [.added task.dst task.src i] := by
  unfold RsPool.event
  cases hphase : (p.worker tid).phase with
  | adding dstBuf srcBuf pos stop =>
      obtain ⟨rfl, rfl, hge, -, rfl⟩ :=
        (h.running.worker tid).adding _ _ _ _ hphase
      by_cases hpos : pos < task.part n (tid + 1)
      · right
        refine ⟨pos, (task.start_le_part n tid).trans hge,
          RsTask.lt_stop_of_lt_part hge hpos, ?_⟩
        exact if_pos hpos
      · left
        exact if_neg hpos
  | pushing => exact absurd hphase hpush
  | idle => exact .inl rfl
  | starting => exact .inl rfl
  | counting => exact .inl rfl
  | readying => exact .inl rfl
  | waiting => exact .inl rfl

/-- A step of a worker at a task keeps the workers at the task, or pushes its
completion when all elements have been added. -/
theorem AtTask.step (h : p.AtTask task adds)
    (hstep : p.step add tid m = some (p', m')) :
    (p'.AtTask task (adds ++ p.event tid) ∧ p'.taskQueue = p.taskQueue ∧
        p'.completionQueue = p.completionQueue) ∨
      (p.event tid = [.completed task.strideId] ∧ adds.Perm task.additions ∧
        p'.Rested ∧ p'.taskQueue = p.taskQueue ∧
        p'.completionQueue = p.completionQueue ++ [task.strideId]) := by
  by_cases hpush : (p.worker tid).phase = .pushing
  · right
    obtain rfl := step_pushing hstep hpush
    have hcurrent : p.currentTask = task := h.running.current
    have hphase : (p.alone.worker tid).phase = .pushing := hpush
    have hcompleted := h.running.completed hphase
    cases hcompleted with
    | queued htasks => cases h.running.tasks.symm.trans htasks
    | running hrunning => cases hrunning.completions
    | completed _ _ hrested hmemory =>
        refine ⟨?_, RsTask.perm_additions h.within hmemory,
          hrested.congr rfl, rfl, ?_⟩
        · rw [RsPool.event, hpush, ← hcurrent]
        · rw [goto_completionQueue, hcurrent]
  · left
    have htake : ¬ (tid.val = 0 ∧ (p.worker tid).phase = .idle) := by
      rintro ⟨hzero, hidle⟩
      exact ((h.running.worker tid).zero hzero).2 hidle
    obtain ⟨halone, htasks, hcompletions⟩ :
        p.alone.step countAdd tid (task.tally adds) = some (p'.alone,
            (p.event tid).foldl (RsEvent.apply countAdd) (task.tally adds)) ∧
          p'.taskQueue = p.taskQueue ∧ p'.completionQueue = p.completionQueue :=
      step_alone hstep htake hpush
    refine ⟨⟨?_, ?_⟩, htasks, hcompletions⟩
    · have hserving := h.running.step (fun _ _ _ _ => rfl) halone
      have hsame : ∀ i, task.start ≤ i → i < task.stop →
          task.tally (adds ++ p.event tid) (task.dst, i) =
            (p.event tid).foldl (RsEvent.apply countAdd) (task.tally adds)
              (task.dst, i) := by
        intro i _ _
        rcases h.event hpush with hevent | ⟨pos, -, -, hevent⟩
        · rw [hevent, List.append_nil]
          rfl
        · rw [hevent]
          exact task.tally_append adds pos i
      cases hserving.congr hsame with
      | queued htasks' => cases htasks'
      | running hrunning => exact hrunning
      | completed _ hcompletions' => cases hcompletions'
    · intro e he
      rcases List.mem_append.mp he with he | he
      · exact h.within e he
      · rcases h.event hpush with hevent | ⟨pos, hge, hlt, hevent⟩
        · rw [hevent] at he
          cases he
        · rw [hevent] at he
          obtain rfl := List.mem_singleton.mp he
          exact RsTask.mem_additions.mpr ⟨pos, hge, hlt, rfl⟩

/-- Worker 0 begins the round of the task that it popped. -/
theorem Rested.atTask {rest : List RsTask} (h : p.Rested) (hzero : tid.val = 0)
    (hphase : (p.worker tid).phase = .idle) :
    (p.take tid task rest).AtTask task [] := by
  constructor
  · have halone : p.alone.Rested := ⟨h.generation, h.phase, h.ready, h.idle⟩
    exact halone.running hzero hphase rfl (fun _ _ _ => rfl)
  · intro e he
    cases he

theorem Rested.event (h : p.Rested) (tid : Fin n) : p.event tid = [] := by
  unfold RsPool.event
  rcases h.phase tid with hphase | hphase | ⟨hphase, -⟩
  · rw [hphase]
  · rw [hphase]
  · rw [hphase]

theorem AtTask.congr (h : p.AtTask task adds) (halone : p'.alone = p.alone) :
    p'.AtTask task adds := by
  constructor
  · rw [halone]
    exact h.running
  · exact h.within

/-- What the workers are doing: nothing, or the first of the tasks that have not
been worked off. -/
inductive Stage (p : RsPool n) : List RsTask → List RsEvent → Prop
  | rested (h : p.Rested) : Stage p p.taskQueue []
  | atTask {task : RsTask} {adds : List RsEvent} (h : p.AtTask task adds) :
      Stage p (task :: p.taskQueue) adds

variable {rest : List RsTask}

theorem Stage.begun (h : p.Stage rest adds) (hn : 0 < n) :
    adds = [] ∨ ∃ task ∈ rest.head?, adds.Subperm task.additions := by
  cases h with
  | rested => exact .inl rfl
  | atTask h => exact .inr ⟨_, rfl, h.subperm hn⟩

/-! ### Progress -/

/-- At rest some worker can run while a task is queued. -/
theorem Rested.taskQueue_eq_nil (h : p.Rested) (hn : 0 < n)
    (hblocked : ∀ tid, p.step add tid m = none) : p.taskQueue = [] := by
  have hreadying : ∀ t, (p.worker t).phase ≠ .readying := by
    intro t hphase
    have hnone := hblocked t
    simp [RsPool.step, hphase] at hnone
  have hzero := hblocked ⟨0, hn⟩
  rcases h.phase ⟨0, hn⟩ with hphase | hphase | ⟨hphase, -⟩
  · simp only [RsPool.step, hphase, if_true] at hzero
    split at hzero
    next hqueue => exact hqueue
    · cases hzero
  · exact absurd hphase (hreadying _)
  · have hready : ¬ n ≤ p.readyCount := by
      intro hready
      simp [RsPool.step, hphase, hready] at hzero
    have hcount := h.ready ⟨0, hn⟩ rfl (by rw [hphase]; decide)
    have hall : ∀ u, (p.worker u).readied p.taskGeneration = true := by
      intro u
      rcases h.phase u with hu | hu | ⟨hu, -⟩
      · simp [RsWorker.readied, h.generation u, hu, WorkerPhase.isReadied]
      · exact absurd hu (hreadying u)
      · simp [RsWorker.readied, h.generation u, hu, WorkerPhase.isReadied]
    exact absurd (hcount.trans (number_eq_iff.mpr hall)).ge hready

/-- At a task some worker can run unless the completions have no room. -/
theorem AtTask.exists_step (h : p.AtTask task adds)
    (hroom : p.completionQueue.length + 1 < QUEUE_CAPACITY) (m : Addr → V) :
    ∃ tid, p.step add tid m ≠ none := by
  rcases h.running.unpushed with ⟨t, ht⟩ | ⟨t, ht⟩
  · refine ⟨t, ?_⟩
    have hworker := h.running.worker t
    rw [alone_worker, alone_taskGeneration] at ht hworker
    unfold RsPool.step
    by_cases hgeneration : (p.worker t).generation = p.taskGeneration
    · cases hphase : (p.worker t).phase with
      | adding dstBuf srcBuf pos stop =>
          dsimp only
          split <;> simp
      | starting => simp
      | counting => simp
      | idle => simp [RsWorker.finished, hgeneration, hphase, WorkerPhase.isFinished] at ht
      | pushing => simp [RsWorker.finished, hgeneration, hphase, WorkerPhase.isFinished] at ht
      | readying => simp [RsWorker.finished, hgeneration, hphase, WorkerPhase.isFinished] at ht
      | waiting => simp [RsWorker.finished, hgeneration, hphase, WorkerPhase.isFinished] at ht
    · have hzero : t.val ≠ 0 := fun hzero => hgeneration (hworker.zero hzero).1
      rw [hworker.fresh hgeneration]
      simp [hzero, Ne.symm hgeneration]
  · refine ⟨t, ?_⟩
    rw [alone_worker] at ht
    simp [RsPool.step, ht, queuePush, hroom]

/-! ### Termination -/

/-- The number of elements in the part of worker `t`. -/
def share (p : RsPool n) (t : Fin n) : ℕ := (p.range t).2 - (p.range t).1

/-- A bound on the steps of worker `t` before it waits for another task. -/
def remaining (p : RsPool n) (t : Fin n) : ℕ :=
  match (p.worker t).phase with
  | .idle =>
      if t.val = 0 ∨ p.taskGeneration = (p.worker t).generation then 0
      else p.share t + 7
  | .starting => p.share t + 6
  | .adding _ _ pos stop => stop - pos + 5
  | .counting => 4
  | .pushing => 3
  | .readying => 2
  | .waiting => 1

/-- A bound on the steps of all workers for the tasks submitted so far. -/
def work (p : RsPool n) : ℕ :=
  ∑ t, p.remaining t + (p.taskQueue.map (RsTask.cost n)).sum

theorem sum_share (hn : 0 < n) (p : RsPool n) :
    ∑ t, p.share t = p.currentTask.stop - p.currentTask.start := by
  have hmono : Monotone (p.currentTask.part n) := by
    intro t u htu
    exact Nat.add_le_add_left (cut_mono _ _ htu) _
  have hshare : ∀ t : Fin n, p.share t =
      p.currentTask.part n (t + 1) - p.currentTask.part n t := by
    intro t
    rw [share, range_eq]
  rw [Finset.sum_congr rfl fun t _ => hshare t,
    Fin.sum_univ_eq_sum_range
      (fun t => p.currentTask.part n (t + 1) - p.currentTask.part n t),
    Finset.sum_range_tsub hmono, RsTask.part, RsTask.part, cut_zero, cut_self _ hn]
  omega

/-- A worker that moves on has less to do, and the others as much as before. -/
theorem work_lt_of_worker {w : RsWorker}
    (hworker : p'.worker = set p.worker tid w)
    (hcurrent : p'.currentTask = p.currentTask)
    (hgeneration : p'.taskGeneration = p.taskGeneration)
    (hqueue : p'.taskQueue = p.taskQueue)
    (hself : p'.remaining tid < p.remaining tid) : p'.work < p.work := by
  have hother : ∀ u, u ≠ tid → p'.remaining u = p.remaining u := by
    intro u hu
    have hsame : p'.worker u = p.worker u := by
      rw [hworker, set_of_ne hu]
    unfold remaining share range
    rw [hsame, hcurrent, hgeneration]
  rw [work, work, hqueue]
  apply Nat.add_lt_add_right
  apply Finset.sum_lt_sum
  · intro u _
    by_cases hu : u = tid
    · rw [hu]
      exact hself.le
    · exact (hother u hu).le
  · exact ⟨tid, Finset.mem_univ _, hself⟩

/-- The worker goes to a place with less to do. -/
theorem work_goto {q : RsPool n} {phase : WorkerPhase}
    (halone : q.taskQueue = p.taskQueue ∧ q.currentTask = p.currentTask ∧
      q.taskGeneration = p.taskGeneration ∧ q.worker = p.worker)
    (hself : (q.goto tid phase).remaining tid < p.remaining tid) :
    (q.goto tid phase).work < p.work := by
  obtain ⟨hqueue, hcurrent, hgeneration, hworker⟩ := halone
  refine work_lt_of_worker (w := { p.worker tid with phase := phase }) ?_ hcurrent
    hgeneration hqueue hself
  rw [goto, hworker]

/-- Worker 0 takes a task. -/
theorem work_take (hzero : tid.val = 0) (hidle : ∀ u, (p.worker u).phase = .idle)
    (hqueue : p.taskQueue = task :: rest) : (p.take tid task rest).work < p.work := by
  have hn : 0 < n := Nat.zero_lt_of_lt tid.isLt
  have hle : ∀ u, (p.take tid task rest).remaining u ≤
      (p.take tid task rest).share u + 7 := by
    intro u
    unfold remaining
    by_cases hu : u = tid
    · subst hu
      simp [take]
    · have hphase : ((p.take tid task rest).worker u).phase = .idle := by
        rw [← hidle u]
        exact congrArg RsWorker.phase (set_of_ne hu)
      rw [hphase]
      dsimp only
      split
      · exact Nat.zero_le _
      · exact le_rfl
  have hlt : (p.take tid task rest).remaining tid <
      (p.take tid task rest).share tid + 7 := by
    simp [remaining, take]
  have hsum : ∑ u, (p.take tid task rest).remaining u <
      ∑ u, ((p.take tid task rest).share u + 7) :=
    Finset.sum_lt_sum (fun u _ => hle u) ⟨tid, Finset.mem_univ _, hlt⟩
  have hcost : ∑ u, ((p.take tid task rest).share u + 7) = task.cost n := by
    rw [Finset.sum_add_distrib, sum_share hn, Finset.sum_const, Finset.card_univ,
      Fintype.card_fin, smul_eq_mul, RsTask.cost]
    change task.stop - task.start + n * 7 = _
    omega
  rw [hcost] at hsum
  have hold : p.work = ∑ u, p.remaining u +
      (task.cost n + (rest.map (RsTask.cost n)).sum) := by
    rw [work, hqueue, List.map_cons, List.sum_cons]
  have hnew : (p.take tid task rest).work =
      ∑ u, (p.take tid task rest).remaining u + (rest.map (RsTask.cost n)).sum := rfl
  omega

theorem Stage.generation (h : p.Stage rest adds)
    (hphase : (p.worker tid).phase ≠ .idle) :
    p.taskGeneration = (p.worker tid).generation := by
  cases h with
  | rested h => exact (h.generation tid).symm
  | atTask h => exact (h.running.generation_eq tid hphase).symm

theorem Stage.waiting (h : p.Stage rest adds)
    (hphase : (p.worker tid).phase = .waiting) : tid.val = 0 := by
  cases h with
  | rested h =>
      rcases h.phase tid with hidle | hidle | ⟨-, hzero⟩
      · cases hphase.symm.trans hidle
      · cases hphase.symm.trans hidle
      · exact hzero
  | atTask h => exact (h.running.worker tid).waiting hphase

/-- Worker 0 only takes a task when all are idle. -/
theorem Stage.idle (h : p.Stage rest adds) (hzero : tid.val = 0)
    (hphase : (p.worker tid).phase = .idle) (u : Fin n) :
    (p.worker u).phase = .idle := by
  cases h with
  | rested h => exact h.idle tid hzero hphase u
  | atTask h => exact absurd hphase ((h.running.worker tid).zero hzero).2

/-- Every step of a worker brings the end of its work nearer. -/
theorem Stage.work_lt (h : p.Stage rest adds)
    (hstep : p.step add tid m = some (p', m')) : p'.work < p.work := by
  cases hphase : (p.worker tid).phase with
  | idle =>
      simp only [RsPool.step, hphase] at hstep
      split at hstep
      next hzero =>
        split at hstep
        · cases hstep
        next task rest' hqueue =>
          obtain ⟨rfl, -⟩ := Prod.mk.inj (Option.some.inj hstep)
          exact work_take hzero (h.idle hzero hphase) hqueue
      next hzero =>
        split at hstep
        · cases hstep
        next hne =>
          obtain ⟨rfl, -⟩ := Prod.mk.inj (Option.some.inj hstep)
          have hold : p.remaining tid = p.share tid + 7 := by
            simp [remaining, hphase, hzero, hne]
          have hnew : (p.join tid).remaining tid = (p.join tid).share tid + 6 := by
            simp [remaining, join]
          refine work_lt_of_worker rfl rfl rfl rfl ?_
          rw [hold, hnew]
          exact Nat.lt_succ_self _
  | starting =>
      simp only [RsPool.step, hphase] at hstep
      obtain ⟨rfl, -⟩ := Prod.mk.inj (Option.some.inj hstep)
      refine work_goto ⟨rfl, rfl, rfl, rfl⟩ ?_
      simp [remaining, hphase, share]
  | adding dstBuf srcBuf pos stop =>
      simp only [RsPool.step, hphase] at hstep
      split at hstep
      next hpos =>
        obtain ⟨rfl, -⟩ := Prod.mk.inj (Option.some.inj hstep)
        refine work_goto ⟨rfl, rfl, rfl, rfl⟩ ?_
        simp only [remaining, hphase, goto_worker_same]
        omega
      next hpos =>
        obtain ⟨rfl, -⟩ := Prod.mk.inj (Option.some.inj hstep)
        refine work_goto ⟨rfl, rfl, rfl, rfl⟩ ?_
        simp only [remaining, hphase, goto_worker_same]
        omega
  | counting =>
      simp only [RsPool.step, hphase] at hstep
      obtain ⟨rfl, -⟩ := Prod.mk.inj (Option.some.inj hstep)
      refine work_goto ⟨rfl, rfl, rfl, rfl⟩ ?_
      by_cases hn : p.doneCount + 1 = n
      · simp [remaining, hphase, hn]
      · simp [remaining, hphase, hn]
  | pushing =>
      obtain rfl := step_pushing hstep hphase
      refine work_goto ⟨rfl, rfl, rfl, rfl⟩ ?_
      simp [remaining, hphase]
  | readying =>
      have hbusy : (p.worker tid).phase ≠ .idle := by
        rw [hphase]
        decide
      have hgeneration := h.generation hbusy
      simp only [RsPool.step, hphase] at hstep
      obtain ⟨rfl, -⟩ := Prod.mk.inj (Option.some.inj hstep)
      refine work_goto ⟨rfl, rfl, rfl, rfl⟩ ?_
      by_cases hzero : tid.val = 0
      · simp [remaining, hphase, hzero]
      · simp [remaining, hphase, hzero, hgeneration]
  | waiting =>
      have hzero := h.waiting hphase
      simp only [RsPool.step, hphase] at hstep
      split at hstep
      · obtain ⟨rfl, -⟩ := Prod.mk.inj (Option.some.inj hstep)
        refine work_goto ⟨rfl, rfl, rfl, rfl⟩ ?_
        simp [remaining, hphase, hzero]
      · cases hstep

end RsPool

namespace PoolRun

/-- The tasks are worked off in order, and the memory is that of the log. -/
structure Inv (add : V → V → V) (m₀ : Addr → V) (s : PoolRun n V) : Prop where
  memory : s.memory = s.log.foldl (RsEvent.apply add) m₀
  stands : ∃ done rest finished adds, s.Stands done rest finished adds ∧
    s.pool.Stage rest adds

theorem inv_init (m₀ : Addr → V) : (init n m₀).Inv add m₀ where
  memory := rfl
  stands := by
    refine ⟨[], [], [], [], ⟨rfl, rfl, .nil, .inl rfl, rfl⟩, ?_⟩
    exact .rested (RsPool.quiet_create n).rested

variable {s s' : PoolRun n V} {m₀ : Addr → V}

/-- A step of a worker. -/
theorem Inv.work (h : s.Inv add m₀) (hstep : s.step add (.work tid) = some s') :
    s'.Inv add m₀ := by
  obtain ⟨⟨p', m'⟩, hpool, rfl⟩ := Option.map_eq_some_iff.mp hstep
  have hmemory := RsPool.step_memory_eq hpool
  rw [h.memory, ← List.foldl_append] at hmemory
  refine ⟨hmemory, ?_⟩
  have hn : 0 < n := Nat.zero_lt_of_lt tid.isLt
  obtain ⟨done, rest, finished, adds, hstands, hstage⟩ := h.stands
  cases hstage with
  | rested hrested =>
      have hlog : s.log ++ s.pool.event tid = finished ++ [] := by
        rw [hrested.event, List.append_nil, hstands.log]
      obtain ⟨-, ⟨hrested', htasks, hcompletions⟩ |
        ⟨hzero, hphase, task, rest, hqueue, rfl⟩⟩ := hrested.step hpool
      · refine ⟨done, p'.taskQueue, finished, [], ?_, .rested hrested'⟩
        refine ⟨?_, hlog, hstands.workedOff, .inl rfl, ?_⟩
        · rw [htasks]
          exact hstands.submitted
        · rw [hcompletions]
          exact hstands.completions
      · refine ⟨done, task :: rest, finished, [], ?_,
          .atTask (hrested.atTask hzero hphase)⟩
        refine ⟨?_, hlog, hstands.workedOff, .inl rfl, hstands.completions⟩
        rw [← hqueue]
        exact hstands.submitted
  | @atTask task _ hat =>
      rcases hat.step hpool with ⟨hat', htasks, hcompletions⟩ |
        ⟨hevent, hperm, hrested, htasks, hcompletions⟩
      · have hstage' := RsPool.Stage.atTask hat'
        refine ⟨done, _, finished, _, ?_, hstage'⟩
        refine ⟨?_, ?_, hstands.workedOff, hstage'.begun hn, ?_⟩
        · rw [htasks]
          exact hstands.submitted
        · rw [← List.append_assoc, ← hstands.log]
        · rw [hcompletions]
          exact hstands.completions
      · refine ⟨done ++ [task], p'.taskQueue,
          finished ++ (adds ++ [.completed task.strideId]), [], ?_,
          .rested hrested⟩
        refine ⟨?_, ?_, hstands.workedOff.snoc hperm, .inl rfl, ?_⟩
        · rw [htasks, List.append_assoc]
          exact hstands.submitted
        · rw [List.append_nil, hevent, hstands.log, List.append_assoc]
        · rw [hcompletions, List.map_append, ← hstands.completions,
            List.append_assoc]
          rfl

/-- A task that is submitted waits behind the others. -/
theorem Stands.submit {done rest : List RsTask} {finished adds : List RsEvent}
    (h : s.Stands done rest finished adds) (hn : 0 < n)
    {tasks queue : List RsTask}
    (hstage : s.pool.Stage rest adds) (hqueue : queue = s.pool.taskQueue ++ tasks) :
    ∃ done rest finished adds,
      ({ s with
        pool := { s.pool with taskQueue := queue }
        submitted := s.submitted ++ tasks } : PoolRun n V).Stands
          done rest finished adds ∧
      ({ s.pool with taskQueue := queue } : RsPool n).Stage rest adds := by
  subst hqueue
  have hsubmitted : s.submitted ++ tasks = done ++ (rest ++ tasks) := by
    rw [h.submitted, List.append_assoc]
  cases hstage with
  | rested hrested =>
      refine ⟨done, _, finished, [], ?_, .rested (hrested.congr rfl)⟩
      exact ⟨hsubmitted, h.log, h.workedOff, .inl rfl, h.completions⟩
  | atTask hat =>
      have hstage' := RsPool.Stage.atTask (p := { s.pool with
        taskQueue := s.pool.taskQueue ++ tasks }) (hat.congr rfl)
      refine ⟨done, _, finished, _, ?_, hstage'⟩
      exact ⟨hsubmitted, h.log, h.workedOff, hstage'.begun hn, h.completions⟩

/-- Every step keeps the order of the tasks. -/
theorem Inv.step (h : s.Inv add m₀) (hn : 0 < n) {a : PoolAction n}
    (hstep : s.step add a = some s') : s'.Inv add m₀ := by
  cases a with
  | work tid => exact h.work hstep
  | submit dstBuf srcBuf start stop strideId =>
      obtain ⟨p', hsubmit, rfl⟩ := Option.map_eq_some_iff.mp hstep
      refine ⟨h.memory, ?_⟩
      obtain ⟨done, rest, finished, adds, hstands, hstage⟩ := h.stands
      unfold submitRsTask at hsubmit
      by_cases hempty : stop ≤ start
      · rw [if_pos hempty] at hsubmit
        obtain rfl := Option.some.inj hsubmit
        rw [if_pos hempty]
        exact hstands.submit hn hstage (List.append_nil _).symm
      · rw [if_neg hempty] at hsubmit
        obtain ⟨queue, hpush, rfl⟩ := Option.map_eq_some_iff.mp hsubmit
        rw [if_neg hempty]
        refine hstands.submit hn hstage ?_
        unfold queuePush at hpush
        split at hpush
        · exact (Option.some.inj hpush).symm
        · cases hpush
  | poll =>
      simp only [PoolRun.step] at hstep
      split at hstep
      · cases hstep
      next event rest' hqueue =>
        obtain rfl := Option.some.inj hstep
        refine ⟨h.memory, ?_⟩
        obtain ⟨done, rest, finished, adds, hstands, hstage⟩ := h.stands
        refine ⟨done, rest, finished, adds, ?_, ?_⟩
        · refine ⟨hstands.submitted, hstands.log, hstands.workedOff,
            hstands.begun, ?_⟩
          rw [List.append_assoc, ← hstands.completions, hqueue]
          rfl
        · cases hstage with
          | rested hrested => exact .rested (hrested.congr rfl)
          | atTask hat =>
              exact .atTask (p := { s.pool with completionQueue := rest' })
                (hat.congr rfl)

/-- The steps of workers are paid for by the tasks submitted. -/
theorem Inv.work_le (h : s.Inv add m₀) {a : PoolAction n}
    (hstep : s.step add a = some s') :
    s'.pool.work + workSteps [a] + (s.submitted.map (RsTask.cost n)).sum ≤
      s.pool.work + (s'.submitted.map (RsTask.cost n)).sum := by
  cases a with
  | work tid =>
      obtain ⟨⟨p', m'⟩, hpool, rfl⟩ := Option.map_eq_some_iff.mp hstep
      obtain ⟨done, rest, finished, adds, -, hstage⟩ := h.stands
      have hlt := hstage.work_lt hpool
      exact Nat.add_le_add_right hlt _
  | submit dstBuf srcBuf start stop strideId =>
      obtain ⟨p', hsubmit, rfl⟩ := Option.map_eq_some_iff.mp hstep
      unfold submitRsTask at hsubmit
      by_cases hempty : stop ≤ start
      · rw [if_pos hempty] at hsubmit
        obtain rfl := Option.some.inj hsubmit
        simp [hempty, workSteps]
      · rw [if_neg hempty] at hsubmit
        obtain ⟨queue, hpush, rfl⟩ := Option.map_eq_some_iff.mp hsubmit
        unfold queuePush at hpush
        split at hpush
        · obtain rfl := Option.some.inj hpush
          have hwork : ∀ task, ({ s.pool with
              taskQueue := s.pool.taskQueue ++ [task] } : RsPool n).work =
                s.pool.work + task.cost n := by
            intro task
            change _ + ((s.pool.taskQueue ++ [task]).map (RsTask.cost n)).sum = _
            rw [List.map_append, List.sum_append, ← Nat.add_assoc]
            rfl
          rw [hwork]
          simp only [if_neg hempty, List.map_append, List.sum_append, List.map_cons,
            List.map_nil, List.sum_cons, List.sum_nil, workSteps]
          omega
        · cases hpush
  | poll =>
      simp only [PoolRun.step] at hstep
      split at hstep
      · cases hstep
      · obtain rfl := Option.some.inj hstep
        exact le_rfl

/-- In a whole run the workers take a bounded number of steps. -/
theorem Inv.workSteps_le (h : s.Inv add m₀) (hn : 0 < n) {acts : List (PoolAction n)}
    (hrun : Machine.run (PoolRun.step add) s acts = some s') :
    s'.pool.work + workSteps acts + (s.submitted.map (RsTask.cost n)).sum ≤
      s.pool.work + (s'.submitted.map (RsTask.cost n)).sum := by
  induction acts generalizing s with
  | nil =>
      obtain rfl := Option.some.inj hrun
      exact le_rfl
  | cons a acts ih =>
      obtain ⟨s₁, hstep, hrest⟩ := Option.bind_eq_some_iff.mp hrun
      have hfirst := h.work_le hstep
      have hrest := ih (h.step hn hstep) hrest
      have hcons : workSteps (a :: acts) = workSteps [a] + workSteps acts := by
        cases a with
        | work => exact Nat.add_comm _ _
        | submit => exact (Nat.zero_add _).symm
        | poll => exact (Nat.zero_add _).symm
      omega

/-- When no worker can run, the completions have no room or all tasks have been
worked off. -/
theorem Inv.rest_eq_nil (hn : 0 < n) {rest : List RsTask}
    (hstage : s.pool.Stage rest adds) (hblocked : s.Blocked add)
    (hroom : s.pool.completionQueue.length + 1 < QUEUE_CAPACITY) : rest = [] := by
  cases hstage with
  | rested hrested => exact hrested.taskQueue_eq_nil hn hblocked
  | atTask hat =>
      obtain ⟨tid, htid⟩ := hat.exists_step hroom s.memory
      exact absurd (hblocked tid) htid

end PoolRun

end Run

theorem numThreads_pos (requested : ℤ) : 0 < numThreads requested := by
  unfold numThreads
  split
  · decide
  · omega

theorem RsPool.work_create (n : ℕ) : (rsThreadPoolCreate n).work = 0 := by
  simp [RsPool.work, RsPool.remaining, rsThreadPoolCreate]

/-- Whatever number of workers was asked for, in every run the log is that of
the submitted tasks in order: of each task that is done, every element was added
exactly once and the completion came after; no other task than the next one has
been touched; and the completions reach the submitter in the order of
submission.  The workers take a bounded number of steps, and while completions
are taken they only stop when all tasks are done. -/
theorem PoolRun.tasks_in_order {V : Type} (requested : ℤ) (add : V → V → V)
    (m : Addr → V) (acts : List (PoolAction (numThreads requested)))
    (s : PoolRun (numThreads requested) V)
    (hrun : Machine.run (PoolRun.step add) (PoolRun.init _ m) acts = some s) :
    s.memory = s.log.foldl (RsEvent.apply add) m ∧
      (∃ done rest finished adds, s.Stands done rest finished adds ∧
        (s.Blocked add → s.pool.completionQueue.length + 1 < QUEUE_CAPACITY →
          rest = [])) ∧
      workSteps acts ≤
        (s.submitted.map (RsTask.cost (numThreads requested))).sum := by
  have hn := numThreads_pos requested
  have hinit : (PoolRun.init (numThreads requested) m).Inv add m :=
    PoolRun.inv_init m
  have hinv : s.Inv add m :=
    Machine.run_invariant (fun _ _ _ hstep h => h.step hn hstep) hrun hinit
  obtain ⟨done, rest, finished, adds, hstands, hstage⟩ := hinv.stands
  refine ⟨hinv.memory, ⟨done, rest, finished, adds, hstands, ?_⟩, ?_⟩
  · intro hblocked hroom
    exact PoolRun.Inv.rest_eq_nil hn hstage hblocked hroom
  · have hle := hinit.workSteps_le hn hrun
    have hwork : (PoolRun.init (numThreads requested) m).pool.work = 0 :=
      RsPool.work_create _
    have hnone : (PoolRun.init (numThreads requested) m).submitted = [] := rfl
    rw [hwork, hnone, List.map_nil, List.sum_nil] at hle
    omega

/-- Two workers and two tasks, the first of which is shorter than the number of
workers. -/
def twoWorkers : List (PoolAction (numThreads 2)) :=
  let first : Fin (numThreads 2) := ⟨0, by decide⟩
  let second : Fin (numThreads 2) := ⟨1, by decide⟩
  [.submit .send .recv 0 1 7, .submit .send .recv 1 3 8] ++
    List.replicate 6 (.work first) ++ List.replicate 6 (.work second) ++
    [.work first, .poll, .work first]

theorem PoolRun.tasks_in_order_twoWorkers :
    ∃ s, Machine.run (PoolRun.step Nat.add) (PoolRun.init _ Prod.snd) twoWorkers =
        some s ∧
      s.log = [.added .send .recv 0, .completed 7] ∧ s.polled = [7] ∧
      s.memory = s.log.foldl (RsEvent.apply Nat.add) Prod.snd ∧
      workSteps twoWorkers ≤ (s.submitted.map (RsTask.cost (numThreads 2))).sum := by
  have hend : (Machine.run (PoolRun.step Nat.add) (PoolRun.init _ Prod.snd)
      twoWorkers).map (fun s => (s.log, s.polled)) =
        some ([.added .send .recv 0, .completed 7], [7]) := by
    decide +kernel
  obtain ⟨s, hrun, heq⟩ := Option.map_eq_some_iff.mp hend
  obtain ⟨hlog, hpolled⟩ := Prod.mk.inj heq
  have h := PoolRun.tasks_in_order 2 Nat.add Prod.snd twoWorkers s hrun
  exact ⟨s, hrun, hlog, hpolled, h.1, h.2.2⟩

end SmartNic.Collective
