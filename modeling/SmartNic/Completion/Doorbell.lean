import Mathlib.Logic.Function.Basic
import SmartNic.Codec.ControlCmd
import SmartNic.Library.Ledger
import SmartNic.Library.Machine

/-!
# Jobs of the host and their completion

The submit and the completion thread of `comch_client.c`, and the receive
callback, the message pool, the ring queues and the exits of
`execute_doca_collective_cmd` of `comch_server.c`, as a machine.  Each action is
one thread's work between two points at which others can interfere.  Whether a
collective reached its destination is given with the action that ends it.  The
value of a doorbell is staged in the working buffer, which all commands share: until
the NIC has read the bytes, the data or the doorbell of another command may replace
them.
-/

namespace SmartNic.Completion

open SmartNic.Codec SmartNic.Machine

/-- `collective_job_u64_t`; `handle` stands for its address. -/
structure Job where
  handle : ℕ
  id : ℕ
  op : CollectiveCommunication
deriving DecidableEq, Repr

/-- What `ucp_collective_request_impl` returned. -/
inductive DocaError where
  | success
  | badState
deriving DecidableEq, Repr

/-- A job in the inflight ring, with `submit_seq` and `result_u64`. -/
structure Inflight where
  job : Job
  submitSeq : ℕ
  result : DocaError
deriving DecidableEq, Repr

/-- How far a thread is in `execute_doca_collective_cmd`: before the collective, in
it or after it; with `doorbell_seq` loaded in order to increment it, or after the
increment; with a value staged for the doorbell, or after the NIC has read it. -/
inductive Phase where
  | starting
  | running
  | finished
  | counting (seq : ℕ)
  | counted
  | staged (value : ℕ)
  | posted (value : ℕ)
deriving DecidableEq, Repr

/-- The DPU threads that execute collective commands. -/
inductive Thread where
  | message
  | ring0
  | ring1
deriving DecidableEq, Repr

/-- `doorbell` is whether the host exported its doorbell and the DPU imported
it, else the DPU sends a notification; `useRingQueues` is
`PHASE15_ENABLE_RING_QUEUES`. -/
structure Config where
  doorbell : Bool
  useRingQueues : Bool
  ringR1Enabled : Bool
deriving DecidableEq, Repr

/-- The host.  `jobs` and `accepted` are histories: the enqueued jobs and those
whose command was handed to the channel. -/
structure Host where
  jobs : List Job
  queue : List Job
  submitting : Option Job
  submitSeq : ℕ
  inflight : List Inflight
  accepted : List Job
deriving DecidableEq, Repr

/-- The DPU with the channel to it.  `closed` and `written` are histories: how many
commands `doorbell_seq` was incremented for, and the jobs whose collective wrote its
destination. -/
structure Dpu where
  channel : List Job
  pool : List Job
  ring0 : List Job
  ring1 : List Job
  agSeq : ℕ
  thread : Thread → Option (Job × Phase)
  doorbellSeq : ℕ
  closed : ℕ
  written : List Job

/-- The two sides, the memory of the host that the DPU writes, and what the
waiters see. -/
structure State where
  host : Host
  dpu : Dpu
  doorbell : ℕ
  finishFlag : ℕ → Option Bool
  completed : List (Job × DocaError)

def State.init : State where
  host := ⟨[], [], none, 0, [], []⟩
  dpu := ⟨[], [], [], [], 0, fun _ => none, 0, 0, []⟩
  doorbell := 0
  finishFlag := fun _ => none
  completed := []

/-! ## The host -/

/-- `ucp_collective_enqueue_u64_with_flag`. -/
def Host.enqueue (h : Host) (id : ℕ) (op : CollectiveCommunication) : Host :=
  let job := ⟨h.jobs.length, id, op⟩
  { h with jobs := h.jobs ++ [job], queue := h.queue ++ [job] }

/-- The submit thread, if it is free, takes the oldest job. -/
def Host.pop (h : Host) : Option (Job × Host) :=
  match h.submitting, h.queue with
  | none, job :: queue => some (job, { h with queue := queue })
  | _, _ => none

/-- The job gets its sequence number and goes to the inflight ring. -/
def Host.assign (h : Host) : Option Host :=
  match h.submitting with
  | some job =>
      some { h with
        submitting := none
        submitSeq := h.submitSeq + 1
        inflight := h.inflight ++ [⟨job, h.submitSeq + 1, .success⟩] }
  | none => none

namespace State

variable (s : State)

/-- An error exit of `ucp_collective_request_impl`; `entry` is whether the entry
of the finish flag was there by then. -/
def submitFail (entry : Bool) : Option State :=
  s.host.pop.map fun (job, host) =>
    { s with
      host := { host with
        inflight := host.inflight ++ [⟨job, 0, .badState⟩] }
      finishFlag :=
        if entry then Function.update s.finishFlag job.id (some false)
        else s.finishFlag }

/-- The command is handed to the channel.  If its send completes with an error,
the error callback still ends the wait of `comch_send_control_cmd`, which then
returns success: the command is lost. -/
def send (lost : Bool) : Option State :=
  s.host.pop.map fun (job, host) =>
    { s with
      host := { host with
        submitting := some job
        accepted := host.accepted ++ [job] }
      dpu := { s.dpu with
        channel := if lost then s.dpu.channel else s.dpu.channel ++ [job] }
      finishFlag := Function.update s.finishFlag job.id (some false) }

/-- What the completion thread waits for.  Without a doorbell it does not wait
for a job whose entry is missing. -/
def ready (cfg : Config) (e : Inflight) : Bool :=
  if cfg.doorbell then e.submitSeq ≤ s.doorbell
  else s.finishFlag e.job.id ≠ some false

/-- The completion thread completes the oldest job in the inflight ring. -/
def complete (cfg : Config) : Option State :=
  match s.host.inflight with
  | e :: inflight =>
      if s.ready cfg e then
        some { s with
          host := { s.host with inflight := inflight }
          completed := s.completed ++ [(e.job, e.result)] }
      else none
  | [] => none

end State

/-! ## Arrival and dispatch on the DPU -/

namespace Dpu

variable (d : Dpu)

/-- `message_recv_callback`; a command is dropped if memory is short, if it
cannot be unpacked or if the pool is full. -/
def receive (dropped : Bool) : Option Dpu :=
  match d.channel with
  | job :: channel =>
      some { d with
        channel := channel
        pool := if dropped then d.pool else d.pool ++ [job] }
  | [] => none

/-- The ring for a command: AllGathers alternate if ring 1 is there. -/
def ringOf (cfg : Config) (job : Job) : Thread :=
  if job.op = .allGather ∧ cfg.ringR1Enabled ∧ d.agSeq % 2 = 1 then .ring1
  else .ring0

/-- `ring_queue_push`. -/
def push (job : Job) : Thread → Dpu
  | .ring1 => { d with ring1 := d.ring1 ++ [job] }
  | _ => { d with ring0 := d.ring0 ++ [job] }

/-- A thread enters `execute_doca_collective_cmd`. -/
def start (t : Thread) (job : Job) : Dpu :=
  { d with thread := Function.update d.thread t (some (job, .starting)) }

/-- `message_worker_thread`: execute the command or queue it for its ring.
`alloc` is whether `calloc` gave a `ring_job`. -/
def dispatch (cfg : Config) (alloc : Bool) : Option Dpu :=
  match d.thread .message, d.pool with
  | none, job :: pool =>
      let d : Dpu := { d with pool := pool }
      if cfg.useRingQueues then
        let agSeq := if job.op = .allGather then d.agSeq + 1 else d.agSeq
        let queued := if alloc then d.push job (d.ringOf cfg job)
          else d.start .message job
        some { queued with agSeq := agSeq }
      else some (d.start .message job)
  | _, _ => none

/-- The same with what the slot of the oldest command held when it was read ahead of
the tail of the pool's queue. -/
def misread (cfg : Config) (read : Job) (alloc : Bool) : Option Dpu :=
  match d.pool with
  | _ :: pool => Dpu.dispatch { d with pool := read :: pool } cfg alloc
  | [] => none

/-- What was read is what is there. -/
theorem misread_eq {d : Dpu} {cfg : Config} {read : Job} {alloc : Bool}
    (hread : d.pool.head? = some read) : d.misread cfg read alloc = d.dispatch cfg alloc := by
  obtain ⟨pool, hpool⟩ := List.head?_eq_some_iff.mp hread
  have hsame : ({ d with pool := read :: pool } : Dpu) = d := by rw [← hpool]
  unfold misread
  rw [hpool]
  dsimp only
  rw [hsame]

/-- `ring_queues_init`, with which a create-ring command begins, sets the queues to
`NULL`, up to the ring whose mutex or condition variable cannot be initialised. -/
def ringQueuesInit (fails : Option Thread) : Option Dpu :=
  match d.thread .message with
  | none =>
      some { d with
        ring0 := []
        ring1 := if fails = some .ring0 then d.ring1 else []
        agSeq := if fails.isNone then 0 else d.agSeq }
  | some _ => none

/-- `ring_proc_main` takes the next command of its queue. -/
def take : Thread → Option Dpu
  | .message => none
  | .ring0 =>
      match d.thread .ring0, d.ring0 with
      | none, job :: ring => some ({ d with ring0 := ring }.start .ring0 job)
      | _, _ => none
  | .ring1 =>
      match d.thread .ring1, d.ring1 with
      | none, job :: ring => some ({ d with ring1 := ring }.start .ring1 job)
      | _, _ => none

/-! ## Execution on the DPU -/

/-- `goto out_dec_inflight`. -/
def abort (t : Thread) : Option Dpu :=
  match d.thread t with
  | some (_, .starting) =>
      some { d with thread := Function.update d.thread t none }
  | _ => none

/-- A thread that executes a command comes to another phase. -/
def advance (t : Thread) (job : Job) (phase : Phase) : Dpu :=
  { d with thread := Function.update d.thread t (some (job, phase)) }

/-- The `switch` is entered. -/
def enter (t : Thread) : Option Dpu :=
  match d.thread t with
  | some (job, .starting) => some (d.advance t job .running)
  | _ => none

/-- The operations that the `switch` implements. -/
def implemented : CollectiveCommunication → Bool
  | .reduceScatter => true
  | .allGather => true
  | _ => false

/-- The `switch` is left; `written` is whether the collective, if there is one,
brought all bytes to the destination. -/
def finish (t : Thread) (written : Bool) : Option Dpu :=
  match d.thread t with
  | some (job, .running) =>
      some { d with
        thread := Function.update d.thread t (some (job, .finished))
        written :=
          if written && implemented job.op then d.written ++ [job]
          else d.written }
  | _ => none

/-- `doorbell_seq` is loaded. -/
def load (cfg : Config) (t : Thread) : Option Dpu :=
  match d.thread t with
  | some (job, .finished) =>
      if cfg.doorbell then some (d.advance t job (.counting d.doorbellSeq)) else none
  | _ => none

/-- It is stored with one more than was loaded. -/
def count (t : Thread) : Option Dpu :=
  match d.thread t with
  | some (job, .counting seq) =>
      some { d.advance t job .counted with
        doorbellSeq := seq + 1
        closed := d.closed + 1 }
  | _ => none

/-- `*db_staging = cw->doorbell_seq`. -/
def stage (t : Thread) : Option Dpu :=
  match d.thread t with
  | some (job, .counted) => some (d.advance t job (.staged d.doorbellSeq))
  | _ => none

/-- Another command writes where the value is staged. -/
def overwrite (t : Thread) (value : ℕ) : Option Dpu :=
  match d.thread t with
  | some (job, .staged _) => some (d.advance t job (.staged value))
  | _ => none

/-- The NIC reads the staged bytes. -/
def post (t : Thread) : Option Dpu :=
  match d.thread t with
  | some (job, .staged value) => some (d.advance t job (.posted value))
  | _ => none

end Dpu

namespace State

variable (s : State)

/-- The RDMA write of the doorbell ends; with an error it leaves the host's
doorbell as it was. -/
def land (t : Thread) (ok : Bool) : Option State :=
  match s.dpu.thread t with
  | some (_, .posted value) =>
      some { s with
        dpu := { s.dpu with thread := Function.update s.dpu.thread t none }
        doorbell := if ok then value else s.doorbell }
  | _ => none

/-- Without a doorbell the notification is sent. -/
def notify (cfg : Config) (t : Thread) : Option State :=
  match s.dpu.thread t with
  | some (job, .finished) =>
      if cfg.doorbell then none
      else
        some { s with
          dpu := { s.dpu with thread := Function.update s.dpu.thread t none }
          finishFlag := Function.update s.finishFlag job.id (some true) }
  | _ => none

/-- The notification cannot be sent. -/
def notifyLost (cfg : Config) (t : Thread) : Option State :=
  match s.dpu.thread t with
  | some (_, .finished) =>
      if cfg.doorbell then none
      else
        some { s with
          dpu := { s.dpu with thread := Function.update s.dpu.thread t none } }
  | _ => none

end State

/-! ## The machine -/

inductive Action where
  | enqueue (id : ℕ) (op : CollectiveCommunication)
  | submitFail (entry : Bool)
  | send (lost : Bool)
  | assign
  | complete
  | receive (dropped : Bool)
  | dispatch (alloc : Bool)
  | misread (read : Job) (alloc : Bool)
  | ringQueuesInit (fails : Option Thread)
  | take (t : Thread)
  | abort (t : Thread)
  | enter (t : Thread)
  | finish (t : Thread) (written : Bool)
  | load (t : Thread)
  | count (t : Thread)
  | stage (t : Thread)
  | overwrite (t : Thread) (value : ℕ)
  | post (t : Thread)
  | land (t : Thread) (ok : Bool)
  | notify (t : Thread)
  | notifyLost (t : Thread)
deriving DecidableEq, Repr

def step (cfg : Config) (s : State) : Action → Option State
  | .enqueue id op => some { s with host := s.host.enqueue id op }
  | .submitFail entry => s.submitFail entry
  | .send lost => s.send lost
  | .assign => s.host.assign.map fun host => { s with host := host }
  | .complete => s.complete cfg
  | .receive dropped => (s.dpu.receive dropped).map fun d => { s with dpu := d }
  | .dispatch alloc => (s.dpu.dispatch cfg alloc).map fun d => { s with dpu := d }
  | .misread read alloc =>
      (s.dpu.misread cfg read alloc).map fun d => { s with dpu := d }
  | .ringQueuesInit fails =>
      (s.dpu.ringQueuesInit fails).map fun d => { s with dpu := d }
  | .take t => (s.dpu.take t).map fun d => { s with dpu := d }
  | .abort t => (s.dpu.abort t).map fun d => { s with dpu := d }
  | .enter t => (s.dpu.enter t).map fun d => { s with dpu := d }
  | .finish t written => (s.dpu.finish t written).map fun d => { s with dpu := d }
  | .load t => (s.dpu.load cfg t).map fun d => { s with dpu := d }
  | .count t => (s.dpu.count t).map fun d => { s with dpu := d }
  | .stage t => (s.dpu.stage t).map fun d => { s with dpu := d }
  | .overwrite t value => (s.dpu.overwrite t value).map fun d => { s with dpu := d }
  | .post t => (s.dpu.post t).map fun d => { s with dpu := d }
  | .land t ok => s.land t ok
  | .notify t => s.notify cfg t
  | .notifyLost t => s.notifyLost cfg t

/-! ## The condition on the steps -/

/-- The job that a thread is executing and has not finished. -/
def executing : Option (Job × Phase) → List Job
  | some (job, .starting) => [job]
  | some (job, .running) => [job]
  | _ => []

/-- The commands on their way to or through a collective. -/
def Dpu.unfinished (d : Dpu) : List Job :=
  d.channel ++ d.pool ++ d.ring0 ++ d.ring1 ++ executing (d.thread .message) ++
    executing (d.thread .ring0) ++ executing (d.thread .ring1)

/-- The jobs that the host took for submitted and that are not completed. -/
def Host.handedOver (h : Host) : List Job :=
  h.submitting.toList ++
    (h.inflight.filter fun e => e.result = .success).map Inflight.job

/-- The jobs that may still be reported as successful. -/
def Host.waiting (h : Host) : List Job := h.queue ++ h.handedOver

/-- No command is lost once the host has counted it, and the one that the pool handles
is its oldest.  The DPU's collectives are implemented and reach their destination, with
two rings a job is only counted when no older one is unfinished, and bytes that replace
a staged value are no greater number than `doorbell_seq`.  Without a doorbell losses do
no harm, but the ids of waiting jobs must differ. -/
def Faultless (cfg : Config) (s : State) : Action → Prop
  | .enqueue id _ => cfg.doorbell ∨ id ∉ s.host.waiting.map Job.id
  | .send lost => cfg.doorbell → lost = false
  | .receive dropped => cfg.doorbell → dropped = false
  | .misread read _ => s.dpu.pool.head? = some read
  | .ringQueuesInit fails => cfg.doorbell →
      s.dpu.ring0 = [] ∧ (fails ≠ some .ring0 → s.dpu.ring1 = [])
  | .abort _ => cfg.doorbell = false
  | .finish t written =>
      written ∧ ∀ x ∈ s.dpu.thread t, Dpu.implemented x.1.op
  | .count t =>
      cfg.useRingQueues → ∀ x ∈ s.dpu.thread t,
        ∀ other ∈ s.dpu.unfinished, x.1.handle < other.handle
  | .overwrite _ value => value ≤ s.dpu.doorbellSeq
  | _ => True

instance (cfg : Config) (s : State) :
    (a : Action) → Decidable (Faultless cfg s a)
  | .enqueue id _ => inferInstanceAs
      (Decidable (cfg.doorbell ∨ id ∉ s.host.waiting.map Job.id))
  | .send lost => inferInstanceAs (Decidable (cfg.doorbell → lost = false))
  | .receive dropped =>
      inferInstanceAs (Decidable (cfg.doorbell → dropped = false))
  | .misread read _ => inferInstanceAs (Decidable (s.dpu.pool.head? = some read))
  | .ringQueuesInit fails => inferInstanceAs (Decidable (cfg.doorbell →
      s.dpu.ring0 = [] ∧ (fails ≠ some .ring0 → s.dpu.ring1 = [])))
  | .abort _ => inferInstanceAs (Decidable (cfg.doorbell = false))
  | .finish t written => inferInstanceAs
      (Decidable (written ∧ ∀ x ∈ s.dpu.thread t, Dpu.implemented x.1.op))
  | .count t => inferInstanceAs
      (Decidable (cfg.useRingQueues → ∀ x ∈ s.dpu.thread t,
        ∀ other ∈ s.dpu.unfinished, x.1.handle < other.handle))
  | .overwrite _ value => inferInstanceAs (Decidable (value ≤ s.dpu.doorbellSeq))
  | .submitFail _ | .assign | .complete | .dispatch _ | .take _ | .enter _ | .load _
  | .stage _ | .post _ | .land _ _ | .notify _ | .notifyLost _ => isTrue trivial

end SmartNic.Completion
