import Mathlib
import SmartNic.Codec.DecodeSafety
import SmartNic.Dispatch.Rings
import SmartNic.Library.Heap

/-!
# The messages of a server

A message is copied into a block by `message_recv_callback` of `comch_server.c`,
waits in the message pool, is handled by `message_worker_thread` and may pass to
the thread of a ring.  The queue of the pool is the one of `SmartNic.Queue`, with the
pushes and pops of a run in the order in which they take effect.  The blocks of the
copies, of the `message_worker_arg`s and of the `ring_job`s are recorded with every
call of `free`.
-/

namespace SmartNic.Dispatch

open SmartNic.Codec

attribute [local instance] neZero_two

/-! ## Data -/

/-- `struct message_worker_arg` in its block `self`.  The command is a pointer to
a block as well, and what it points to. -/
structure MessageWorkerArg where
  self : ℕ
  recvCmd : ℕ
  bufCopy : ℕ
  content : ControlCmd VarSlot

/-- `struct ring_job` in its block `self`. -/
structure RingJob where
  self : ℕ
  cmd : ℕ
  bufCopy : ℕ
deriving DecidableEq, Repr

/-- The thread of the message pool: before it looks at the flag, in the body of
its loop, there with the slot read ahead of the tail, in `message_worker_thread`, in
`execute_doca_create_ring_cmd` after `ring_queues_init`, over, or stopped by a null
pointer. -/
inductive PoolThread where
  | check
  | body
  | slotLoaded (read : Option MessageWorkerArg)
  | running (w : MessageWorkerArg)
  | creating (w : MessageWorkerArg) (queuesReady : Bool)
  | exited
  | faulted

/-- A server.  `received` has the blocks of the copies, and `poolTaken` the arguments
that have left the queue of the pool.  The threads of a ring are counted by what they
are about to do, and `busy` has the jobs of those that execute one; `ringsStopped`
tells that the clean-up has stopped the rings. -/
structure Server where
  heap : Heap
  received : List ℕ
  msgPool : Bool
  poolStop : Bool
  poolQueue : List MessageWorkerArg
  poolTaken : List MessageWorkerArg
  poolThread : PoolThread
  ringR1Enabled : Bool
  agSeqCounter : ℕ
  ringQueue : RingId → List RingJob
  ringQueueStop : RingId → Bool
  checking : RingId → ℕ
  popping : RingId → ℕ
  busy : RingId → List RingJob
  ringsStopped : Bool

/-- The server after `msg_pool_init`. -/
def Server.init : Server where
  heap := .empty
  received := []
  msgPool := true
  poolStop := false
  poolQueue := []
  poolTaken := []
  poolThread := .check
  ringR1Enabled := false
  agSeqCounter := 0
  ringQueue := fun _ => []
  ringQueueStop := fun _ => false
  checking := fun _ => 0
  popping := fun _ => 0
  busy := fun _ => []
  ringsStopped := false

/-- What the callback finds on its way: whether the context has user data and
whether its two allocations succeed. -/
structure CallbackEnv where
  hasUserData : Bool
  copyAllocated : Bool
  argAllocated : Bool
deriving DecidableEq, Repr

/-- What `message_worker_thread` finds on its way: whether the setup of a ring
command leaves ring 1 enabled, how many of the threads are created, and whether a
`ring_job` can be allocated. -/
structure WorkerEnv where
  ringR1Enabled : Bool
  threadsCreated : ℕ
  jobAllocated : Bool
deriving DecidableEq, Repr

/-- `MSG_QUEUE_CAP` -/
def msgQueueCap : ℕ := 4096

namespace Server

def alloc (s : Server) : Server := { s with heap := s.heap.alloc }

def free (s : Server) (b : ℕ) : Server := { s with heap := s.heap.free b }

/-! ## The callback -/

/-- `msg_pool_try_submit` -/
def msgPoolTrySubmit (s : Server) (w : MessageWorkerArg) : Option Server :=
  if s.poolStop then none
  else if s.poolQueue.length = msgQueueCap - 1 then none
  else some { s with poolQueue := s.poolQueue ++ [w] }

/-- The end of `message_recv_callback`: without a pool or with a full one the
message is dropped. -/
def submitOrDrop (s : Server) (w : MessageWorkerArg) : Server :=
  match if s.msgPool then s.msgPoolTrySubmit w else none with
  | some s => s
  | none => (s.free w.self).free w.bufCopy

/-- `message_recv_callback` -/
def messageRecvCallback (s : Server) (msg : Message) (env : CallbackEnv) : Server :=
  if !env.hasUserData then s
  else if !env.copyAllocated then s
  else
    let bufCopy := s.heap.next
    let s := { s.alloc with received := bufCopy :: s.received }
    match controlCmdUnpack msg.bytes msg.len with
    | .error _ => s.free bufCopy
    | .ok content =>
        -- the unpacked command is the buffer
        let recvCmd := bufCopy
        if !env.argAllocated then (s.free recvCmd).free bufCopy
        else
          s.alloc.submitOrDrop ⟨s.heap.next, recvCmd, bufCopy, content⟩

/-! ## The message pool -/

/-- `ring_queue_push` -/
def ringQueuePush (s : Server) (i : RingId) (job : RingJob) : Server :=
  { s with ringQueue := Function.update s.ringQueue i (s.ringQueue i ++ [job]) }

/-- `ring_queues_init` sets the queue of a ring to `NULL`; `fails` is the ring whose
mutex or condition variable cannot be initialised. -/
def clears (fails : Option RingId) (i : RingId) : Bool :=
  match fails with
  | none => true
  | some k => decide (i ≤ k)

/-- `ring_queues_init` -/
def ringQueuesInit (s : Server) (fails : Option RingId) : Server where
  __ := s
  ringQueue := fun i => if clears fails i then [] else s.ringQueue i
  ringQueueStop := fun i => s.ringQueueStop i && !(clears fails i && fails != some i)
  agSeqCounter := if fails.isNone then 0 else s.agSeqCounter

/-- `ring_proc_threads_start`: one thread for each ring in use, up to the first
that cannot be created. -/
def ringProcThreadsStart (s : Server) (created : ℕ) : Server :=
  let n := if s.ringR1Enabled then 2 else 1
  { s with checking := fun i => if i.val < min created n then s.checking i + 1
      else s.checking i }

/-- The end of `message_worker_thread`. -/
def freeBoth (s : Server) (w : MessageWorkerArg) : Server :=
  (s.free w.recvCmd).free w.self

/-- The case of `CONTROL_CMD_UCP_COLLECTIVE` with ring queues. -/
def enqueueCollective (s : Server) (w : MessageWorkerArg)
    (op : CollectiveCommunication) (env : WorkerEnv) : Server :=
  let isAg := op = .allGather
  let ringId : RingId :=
    if isAg ∧ s.ringR1Enabled = true then ⟨s.agSeqCounter % 2, Nat.mod_lt _ (by decide)⟩
    else 0
  let s := { s with
    agSeqCounter := if isAg then s.agSeqCounter + 1 else s.agSeqCounter }
  if !env.jobAllocated then s.freeBoth w
  else
    let job : RingJob := ⟨s.heap.next, w.recvCmd, w.bufCopy⟩
    (s.alloc.ringQueuePush ringId job).free w.self

/-- The case of `CONTROL_CMD_UCP_CREATE_RING` from the end of `ring_queues_init` on. -/
def createRing (useRingQueues : Bool) (s : Server) (w : MessageWorkerArg)
    (queuesReady : Bool) (env : WorkerEnv) : Server :=
  let s := { s with
    ringR1Enabled := if queuesReady then env.ringR1Enabled else s.ringR1Enabled }
  let s := if useRingQueues then s.ringProcThreadsStart env.threadsCreated else s
  s.freeBoth w

/-- `message_worker_thread` for the commands that it handles in one step. -/
def messageWorkerThread (useRingQueues : Bool) (s : Server) (w : MessageWorkerArg)
    (env : WorkerEnv) : Option Server :=
  match w.content with
  | .ucpCreateRing _ => none
  | .ucpCollective m =>
      if useRingQueues then
        some (s.enqueueCollective w m.collectiveRequest.collectiveOp env)
      else some (s.freeBoth w)
  | .ucpConnectHostDpu _ | .ucpInitFlagPool _ | .ucpConnectDpuDpu _ | .unknown _ _ =>
      some (s.freeBoth w)

/-- The loop at the end of `msg_pool_destroy`. -/
def drain (s : Server) : List MessageWorkerArg → Server
  | [] => s
  | w :: ws => ((s.free w.recvCmd).free w.self).drain ws

/-- `msg_pool_worker_main` looks at the flag. -/
def poolCheck (s : Server) : Option Server :=
  match s.poolThread with
  | .check => some { s with poolThread := if s.poolStop then .exited else .body }
  | .body | .slotLoaded _ | .running _ | .creating _ _ | .exited | .faulted => none

/-- The slot of the queue at the head: the argument that waits there, or what it held
`MSG_QUEUE_CAP` arguments before, in the first round `NULL`. -/
def poolSlot (s : Server) : Option MessageWorkerArg :=
  match s.poolQueue with
  | w :: _ => some w
  | [] =>
      if s.poolTaken.length < msgQueueCap then none
      else s.poolTaken[s.poolTaken.length - msgQueueCap]?

/-- The tail is loaded relaxed, so that the slot may be read before. -/
def poolLoadSlot (s : Server) : Option Server :=
  match s.poolThread with
  | .body => some { s with poolThread := .slotLoaded s.poolSlot }
  | .check | .slotLoaded _ | .running _ | .creating _ _ | .exited | .faulted => none

/-- The thread goes on with what it has read in the slot. -/
def handle (read : Option MessageWorkerArg) : PoolThread :=
  match read with
  | none => .faulted
  | some w => .running w

/-- The tail is loaded: if the queue is not empty, the slot at the head is read, unless
it has been, and the head is advanced. -/
def poolTake (s : Server) : Option Server :=
  match s.poolThread, s.poolQueue with
  | .body, [] => some { s with poolThread := .check }
  | .body, w :: ws =>
      some { s with
        poolThread := handle (some w)
        poolQueue := ws
        poolTaken := s.poolTaken ++ [w] }
  | .slotLoaded _, [] => some { s with poolThread := .check }
  | .slotLoaded read, w :: ws =>
      some { s with
        poolThread := handle read
        poolQueue := ws
        poolTaken := s.poolTaken ++ [w] }
  | .check, _ | .running _, _ | .creating _ _, _ | .exited, _ | .faulted, _ => none

/-- `execute_doca_create_ring_cmd` begins with `ring_queues_init`. -/
def poolInitQueues (s : Server) (fails : Option RingId) : Option Server :=
  match s.poolThread with
  | .running w =>
      match w.content with
      | .ucpCreateRing _ =>
          some { s.ringQueuesInit fails with poolThread := .creating w fails.isNone }
      | .ucpCollective _ | .ucpConnectHostDpu _ | .ucpInitFlagPool _
      | .ucpConnectDpuDpu _ | .unknown _ _ => none
  | .check | .body | .slotLoaded _ | .creating _ _ | .exited | .faulted => none

/-- `message_worker_thread` comes to its end. -/
def poolFinish (useRingQueues : Bool) (s : Server) (env : WorkerEnv) : Option Server :=
  match s.poolThread with
  | .running w => messageWorkerThread useRingQueues { s with poolThread := .check } w env
  | .creating w queuesReady =>
      some (createRing useRingQueues { s with poolThread := .check } w queuesReady env)
  | .check | .body | .slotLoaded _ | .exited | .faulted => none

/-- `msg_pool_destroy` sets the flag; the rings are stopped before. -/
def stopPool (s : Server) : Option Server :=
  if s.ringsStopped then some { s with poolStop := true } else none

/-- Once the thread is over, what is left in the queue is freed and the pool is
gone. -/
def destroyPool (s : Server) : Option Server :=
  match s.poolThread with
  | .exited =>
      if s.msgPool && s.poolStop then
        some { s.drain s.poolQueue with poolQueue := [], msgPool := false }
      else none
  | .check | .body | .slotLoaded _ | .running _ | .creating _ _ | .faulted => none

/-! ## The threads of the rings -/

/-- A thread of the ring looks at the flag. -/
def ringCheck (s : Server) (i : RingId) : Option Server :=
  match s.checking i with
  | 0 => none
  | n + 1 =>
      if s.ringQueueStop i then
        some { s with checking := Function.update s.checking i n }
      else
        some { s with
          checking := Function.update s.checking i n
          popping := Function.update s.popping i (s.popping i + 1) }

/-- `ring_queue_pop_blocking` gives a job. -/
def ringTake (s : Server) (i : RingId) : Option Server :=
  match s.popping i with
  | 0 => none
  | n + 1 =>
      match s.ringQueue i with
      | [] => none
      | job :: jobs =>
          some { s with
            popping := Function.update s.popping i n
            ringQueue := Function.update s.ringQueue i jobs
            busy := Function.update s.busy i (job :: s.busy i) }

/-- `ring_queue_pop_blocking` gives `NULL`. -/
def ringStopped (s : Server) (i : RingId) : Option Server :=
  match s.popping i with
  | 0 => none
  | n + 1 =>
      if s.ringQueueStop i then some { s with popping := Function.update s.popping i n }
      else none

/-- A thread of the ring has executed its job. -/
def ringFinish (s : Server) (i : RingId) (k : ℕ) : Option Server :=
  match (s.busy i)[k]? with
  | none => none
  | some job =>
      let s := { s with
        busy := Function.update s.busy i ((s.busy i).eraseIdx k)
        checking := Function.update s.checking i (s.checking i + 1) }
      some ((s.free job.bufCopy).free job.self)

/-- `ring_proc_threads_stop`, for the rings in use.  It does not wait for a thread
that has not reported yet that it is running, so the threads of a ring may outlive
the message pool. -/
def stopRings (s : Server) : Server :=
  let n := if s.ringR1Enabled then 2 else 1
  { s with
    ringQueueStop := fun i => s.ringQueueStop i || decide (i.val < n)
    ringsStopped := true }

/-! ## Steps -/

inductive Action where
  | receive (msg : Message) (env : CallbackEnv)
  | poolCheck
  | poolLoadSlot
  | poolTake
  | poolInitQueues (fails : Option RingId)
  | poolFinish (env : WorkerEnv)
  | ringCheck (i : RingId)
  | ringTake (i : RingId)
  | ringStopped (i : RingId)
  | ringFinish (i : RingId) (k : ℕ)
  | stopRings
  | stopPool
  | destroyPool

def step (useRingQueues : Bool) (s : Server) : Action → Option Server
  | .receive msg env => some (s.messageRecvCallback msg env)
  | .poolCheck => s.poolCheck
  | .poolLoadSlot => s.poolLoadSlot
  | .poolTake => s.poolTake
  | .poolInitQueues fails => s.poolInitQueues fails
  | .poolFinish env => s.poolFinish useRingQueues env
  | .ringCheck i => s.ringCheck i
  | .ringTake i => s.ringTake i
  | .ringStopped i => s.ringStopped i
  | .ringFinish i k => s.ringFinish i k
  | .stopRings => some s.stopRings
  | .stopPool => s.stopPool
  | .destroyPool => s.destroyPool

/-! ## Owners -/

end Server

/-- How often an argument owns a block, that is, how many of its pointers to be freed
are to the block. -/
def MessageWorkerArg.owns (w : MessageWorkerArg) (b : ℕ) : ℕ :=
  (if b = w.recvCmd then 1 else 0) + if b = w.self then 1 else 0

def RingJob.owns (job : RingJob) (b : ℕ) : ℕ :=
  (if b = job.bufCopy then 1 else 0) + if b = job.self then 1 else 0

def PoolThread.args : PoolThread → List MessageWorkerArg
  | .running w => [w]
  | .creating w _ => [w]
  | .check | .body | .slotLoaded _ | .exited | .faulted => []

namespace Server

/-- The arguments that are in the queue or handled. -/
def args (s : Server) : List MessageWorkerArg := s.poolThread.args ++ s.poolQueue

/-- The jobs of a ring that wait or are executed. -/
def jobs (s : Server) (i : RingId) : List RingJob := s.busy i ++ s.ringQueue i

def argsOwn (s : Server) (b : ℕ) : ℕ := (s.args.map fun w => w.owns b).sum

def jobsOwn (s : Server) (i : RingId) (b : ℕ) : ℕ :=
  ((s.jobs i).map fun job => job.owns b).sum

/-- How many own a block. -/
def owned (s : Server) (b : ℕ) : ℕ := s.argsOwn b + (s.jobsOwn 0 b + s.jobsOwn 1 b)

/-! ## The property -/

/-- The threads of a ring that are not over. -/
def threads (s : Server) (i : RingId) : ℕ :=
  s.checking i + s.popping i + (s.busy i).length

/-- The server has been cleaned up and no thread is left. -/
def Ended (s : Server) : Prop := s.msgPool = false ∧ ∀ i, s.threads i = 0

/-- Each copy of a message has been freed once, or it has not been freed and has one
owner that will free it; in the end each has been freed. -/
def ReleasedOnce (s : Server) : Prop :=
  ∀ b ∈ s.received, s.heap.freed.count b + s.owned b = 1 ∧
    (s.Ended → s.heap.freed.count b = 1)

/-- The message is copied and unpacked, and there is no memory for its argument. -/
def ArgFails (msg : Message) (env : CallbackEnv) : Prop :=
  env.hasUserData = true ∧ env.copyAllocated = true ∧
    (∃ content, controlCmdUnpack msg.bytes msg.len = .ok content) ∧
    env.argAllocated = false

/-- The only thread is one of this ring. -/
def OnlyThread (s : Server) (i : RingId) : Prop :=
  ∀ j, s.threads j = if j = i then 1 else 0

def QueuesEmpty (s : Server) : Prop := ∀ i, s.ringQueue i = []

/-- After this step nothing is left that could take a job: the pool is gone and
the last thread of the rings is over. -/
def LastStep (s : Server) : Action → Prop
  | .destroyPool =>
      s.msgPool = true ∧ s.poolStop = true ∧ s.poolThread = .exited ∧
        ∀ i, s.threads i = 0
  | .ringCheck i =>
      s.msgPool = false ∧ s.ringQueueStop i = true ∧ 0 < s.checking i ∧ s.OnlyThread i
  | .ringStopped i =>
      s.msgPool = false ∧ s.ringQueueStop i = true ∧ 0 < s.popping i ∧ s.OnlyThread i
  | _ => False

/-- The message being handled is a create-ring command. -/
def CreatesRing (s : Server) : Prop :=
  ∃ w m, s.poolThread = .running w ∧ w.content = .ucpCreateRing m

/-- If the queue of the pool is not empty, a slot that was read ahead of the tail still
holds what was read. -/
def Fresh (s : Server) : Prop :=
  ∀ read w ws, s.poolThread = .slotLoaded read → s.poolQueue = w :: ws → read = some w

/-- An unpacked message has its argument, the argument that the pool handles is the one
that it takes, no job waits in a queue that is set to `NULL`, and the last step leaves
no job in a queue. -/
structure Careful (s : Server) (a : Action) : Prop where
  args : ∀ msg env, a = .receive msg env → ¬ ArgFails msg env
  fresh : a = .poolTake → s.Fresh
  clears : ∀ fails, a = .poolInitQueues fails → s.CreatesRing →
    ∀ i, clears fails i = true → s.ringQueue i = []
  jobs : s.LastStep a → s.QueuesEmpty

end Server

end SmartNic.Dispatch
