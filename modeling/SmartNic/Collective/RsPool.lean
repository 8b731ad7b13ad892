import SmartNic.Collective.Rdma
import SmartNic.Library.EvenSplit

/-!
# The ReduceScatter thread pool

`rs_worker_main`, `submit_rs_task`, `poll_wait_rs_completion` and
`rs_add_range_neon` of `comch_server.c`.  Memory cells are `fp16` elements with
an arbitrary addition.  A step of a worker adds one element, passes the wait at
the top of its loop or performs one operation on the shared counters.
-/

namespace SmartNic.Collective

open SmartNic.Fabric SmartNic.EvenSplit

/-! ## The pool -/

/-- `struct rs_task`; `stop` is its field `end`. -/
structure RsTask where
  dst : Buffer
  src : Buffer
  start : ℕ
  stop : ℕ
  strideId : ℕ
deriving DecidableEq, Repr

/-- Where a worker is in the loop of `rs_worker_main`: at the wait, past it, in
`rs_add_range_neon` before element `pos`, before the increment of `done_count`,
before the push of the completion, before the increment of `ready_count`, and
at the final wait of worker 0. -/
inductive WorkerPhase where
  | idle
  | starting
  | adding (dstBuf srcBuf : Buffer) (pos stop : ℕ)
  | counting
  | pushing
  | readying
  | waiting
deriving DecidableEq, Repr

/-- A worker with its `my_generation`. -/
structure RsWorker where
  phase : WorkerPhase
  generation : ℕ
deriving DecidableEq, Repr

/-- `struct rs_thread_pool_t` with `n` running workers; completions are given
by their `stride_id`.  The generations do not wrap, as the `int` of the source may;
they are only compared for equality. -/
structure RsPool (n : ℕ) where
  taskQueue : List RsTask
  completionQueue : List ℕ
  currentTask : RsTask
  taskGeneration : ℕ
  doneCount : ℕ
  readyCount : ℕ
  worker : Fin n → RsWorker

/-- The capacity of both `spsc` queues, one slot of which stays empty. -/
def QUEUE_CAPACITY : ℕ := 64

/-- `spsc_rs_task_queue_push` and `spsc_rs_completion_queue_push`. -/
def queuePush (queue : List α) (elem : α) : Option (List α) :=
  if queue.length + 1 < QUEUE_CAPACITY then some (queue ++ [elem]) else none

/-- `rs_thread_pool_create`. -/
def rsThreadPoolCreate (n : ℕ) : RsPool n where
  taskQueue := []
  completionQueue := []
  currentTask := ⟨.send, .send, 0, 0, 0⟩
  taskGeneration := 0
  doneCount := 0
  readyCount := 0
  worker _ := ⟨.idle, 0⟩

section Pool

variable {n : ℕ} {V : Type}

/-- One element of `rs_add_range_neon`. -/
def addElement (add : V → V → V) (dstBuf srcBuf : Buffer) (m : Addr → V)
    (i : ℕ) : Addr → V :=
  set m (dstBuf, i) (add (m (dstBuf, i)) (m (srcBuf, i)))

/-- `rs_add_range_neon`: the elements from `start` to `stop` in order. -/
def rsAddRangeNeon (add : V → V → V) (dstBuf srcBuf : Buffer)
    (start stop : ℕ) (m : Addr → V) : Addr → V :=
  (List.range (stop - start)).foldl
    (fun m k => addElement add dstBuf srcBuf m (start + k)) m

/-- Move worker `tid` to another place of its loop. -/
def RsPool.goto (p : RsPool n) (tid : Fin n) (phase : WorkerPhase) : RsPool n :=
  { p with worker := set p.worker tid { p.worker tid with phase := phase } }

/-- Worker 0 has popped a task. -/
def RsPool.take (p : RsPool n) (tid : Fin n) (task : RsTask)
    (rest : List RsTask) : RsPool n :=
  { p with
    taskQueue := rest
    currentTask := task
    taskGeneration := p.taskGeneration + 1
    doneCount := 0
    readyCount := 0
    worker := set p.worker tid ⟨.starting, p.taskGeneration + 1⟩ }

/-- Another worker has noticed a new generation. -/
def RsPool.join (p : RsPool n) (tid : Fin n) : RsPool n :=
  { p with worker := set p.worker tid ⟨.starting, p.taskGeneration⟩ }

/-- The part of the current task that worker `tid` is to add. -/
def RsPool.range (p : RsPool n) (tid : Fin n) : ℕ × ℕ :=
  let task := p.currentTask
  let total := task.stop - task.start
  let base := total / n
  let rem := total % n
  let myStart := task.start + tid * base + if tid < rem then tid.val else rem
  let myLen := base + if tid < rem then 1 else 0
  (myStart, myStart + myLen)

/-- One step of worker `tid` in `rs_worker_main`. -/
def RsPool.step (add : V → V → V) (tid : Fin n) (p : RsPool n) (m : Addr → V) :
    Option (RsPool n × (Addr → V)) :=
  match (p.worker tid).phase with
  | .idle =>
      if tid.val = 0 then
        match p.taskQueue with
        | [] => none
        | task :: rest => some (p.take tid task rest, m)
      else if p.taskGeneration = (p.worker tid).generation then none
      else some (p.join tid, m)
  | .starting =>
      let (myStart, myEnd) := p.range tid
      some (p.goto tid (.adding p.currentTask.dst p.currentTask.src myStart myEnd),
        m)
  | .adding dstBuf srcBuf pos stop =>
      if pos < stop then
        some (p.goto tid (.adding dstBuf srcBuf (pos + 1) stop),
          addElement add dstBuf srcBuf m pos)
      else some (p.goto tid .counting, m)
  | .counting =>
      let count := p.doneCount + 1
      some (({ p with doneCount := count } : RsPool n).goto tid
        (if count = n then .pushing else .readying), m)
  | .pushing =>
      (queuePush p.completionQueue p.currentTask.strideId).map fun queue =>
        (({ p with completionQueue := queue } : RsPool n).goto tid .readying, m)
  | .readying =>
      some (({ p with readyCount := p.readyCount + 1 } : RsPool n).goto tid
        (if tid.val = 0 then .waiting else .idle), m)
  | .waiting =>
      if n ≤ p.readyCount then some (p.goto tid .idle, m) else none

/-- `submit_rs_task`: nothing is submitted for an empty range. -/
def submitRsTask (dstBuf srcBuf : Buffer) (start stop strideId : ℕ)
    (p : RsPool n) : Option (RsPool n) :=
  if stop ≤ start then some p
  else (queuePush p.taskQueue ⟨dstBuf, srcBuf, start, stop, strideId⟩).map fun queue =>
    { p with taskQueue := queue }

/-- Pop completions up to the first one of `strideId`. -/
def popUntil (strideId : ℕ) : List ℕ → Option (List ℕ)
  | [] => none
  | event :: rest => if event = strideId then some rest else popUntil strideId rest

/-- `poll_wait_rs_completion`. -/
def pollWaitRsCompletion (strideId : ℕ) (p : RsPool n) : Option (RsPool n) :=
  (popUntil strideId p.completionQueue).map fun queue =>
    { p with completionQueue := queue }

/-! ## Basic lemmas -/

/-- `rs_add_range_neon` adds the range of the source to the destination. -/
theorem rsAddRangeNeon_eq (add : V → V → V) {dstBuf srcBuf : Buffer}
    (hne : dstBuf ≠ srcBuf) (start stop : ℕ) (m : Addr → V) (l : Addr) :
    rsAddRangeNeon add dstBuf srcBuf start stop m l =
      if l.1 = dstBuf ∧ start ≤ l.2 ∧ l.2 < stop
      then add (m l) (m (srcBuf, l.2)) else m l := by
  have hpre : ∀ k l, (List.range k).foldl
      (fun m k => addElement add dstBuf srcBuf m (start + k)) m l =
        if l.1 = dstBuf ∧ start ≤ l.2 ∧ l.2 < start + k
        then add (m l) (m (srcBuf, l.2)) else m l := by
    intro k
    induction k with
    | zero =>
        intro l
        exact (if_neg (by omega)).symm
    | succ k ih =>
        intro l
        rw [List.range_succ, List.foldl_append, List.foldl_cons, List.foldl_nil,
          addElement]
        by_cases hl : l = (dstBuf, start + k)
        · subst hl
          rw [set_same, ih, ih, if_neg fun h => Nat.lt_irrefl _ h.2.2,
            if_neg fun h => hne h.1.symm, if_pos ⟨rfl, by omega, by omega⟩]
        · rw [set_of_ne hl, ih]
          refine if_congr ⟨fun h => ⟨h.1, h.2.1, by omega⟩, fun h => ?_⟩ rfl rfl
          have hother : l.2 ≠ start + k := fun heq => hl (Prod.ext h.1 heq)
          exact ⟨h.1, h.2.1, by omega⟩
  rw [rsAddRangeNeon, hpre]
  exact if_congr (and_congr_right fun _ => by omega) rfl rfl

section Goto

variable (p : RsPool n) (tid : Fin n) (phase : WorkerPhase)

@[simp]
theorem RsPool.goto_taskQueue : (p.goto tid phase).taskQueue = p.taskQueue := rfl

@[simp]
theorem RsPool.goto_completionQueue :
    (p.goto tid phase).completionQueue = p.completionQueue := rfl

@[simp]
theorem RsPool.goto_currentTask :
    (p.goto tid phase).currentTask = p.currentTask := rfl

@[simp]
theorem RsPool.goto_taskGeneration :
    (p.goto tid phase).taskGeneration = p.taskGeneration := rfl

@[simp]
theorem RsPool.goto_doneCount : (p.goto tid phase).doneCount = p.doneCount := rfl

@[simp]
theorem RsPool.goto_readyCount :
    (p.goto tid phase).readyCount = p.readyCount := rfl

@[simp]
theorem RsPool.goto_worker_same :
    (p.goto tid phase).worker tid = ⟨phase, (p.worker tid).generation⟩ :=
  set_same _ _ _

variable {tid}

theorem RsPool.goto_worker_of_ne {u : Fin n} (hu : u ≠ tid) :
    (p.goto tid phase).worker u = p.worker u :=
  set_of_ne hu

end Goto

end Pool

end SmartNic.Collective
