import Mathlib
import SmartNic.Completion.Doorbell
import SmartNic.Library.CallLog
import SmartNic.Library.Pair

/-!
# Dispatch of the commands to the two rings

The same commands, all of them collectives, reach the DPUs of all ranks in the same
order, after the rings were set up.  Every rank receives, dispatches and executes them
at its own pace, as in `SmartNic.Completion`; here the ranks stand side by side, with a
history of what
each decided on arrival, of the commands that it started on each ring and of those
whose collective it called.  A rank may leave a command before the collective, for
`goto out_dec_inflight`; its next collective on the ring then meets the one that the
other ranks have called for the command it left.
-/

namespace SmartNic.Dispatch

open SmartNic.Codec SmartNic.Completion SmartNic.Machine SmartNic.CallLog

attribute [local instance] neZero_two

/-- `ring_id`, below `N_RINGS`. -/
abbrev RingId := Fin 2

/-- The thread that runs `ring_proc_main` for a ring. -/
def RingId.thread : RingId → Thread
  | 0 => .ring0
  | 1 => .ring1

/-- The ring on which a thread executes: inline execution is on ring 0. -/
def ringOfThread : Thread → RingId
  | .message => 0
  | .ring0 => 0
  | .ring1 => 1

/-- `ring_queue_head[ring_id]` and what follows it. -/
def queue (d : Dpu) : RingId → List Job
  | 0 => d.ring0
  | 1 => d.ring1

/-- A rank.  `decided` has for every received command whether it was dropped,
`started` the commands whose execution began on a ring, `entered` those of them whose
collective was called and `aborted` those that were left before it. -/
structure Rank where
  dpu : Dpu
  decided : List Bool
  started : RingId → List Job
  entered : RingId → List Job
  aborted : RingId → List Job

/-- The commands that the host of every rank enqueues, with their handles. -/
def commands (ops : List CollectiveCommunication) : List Job :=
  ops.mapIdx fun k op => ⟨k, k, op⟩

/-- A rank to which all commands are on their way. -/
def Rank.init (cmds : List Job) : Rank where
  dpu := ⟨cmds, [], [], [], 0, fun _ => none, 0, 0, []⟩
  decided := []
  started := fun _ => []
  entered := fun _ => []
  aborted := fun _ => []

def Rank.start (x : Rank) (i : RingId) (job : Job) (d : Dpu) : Rank :=
  { x with
    dpu := d
    started := Function.update x.started i (x.started i ++ [job]) }

/-- The collective of a command is called on ring `i`. -/
def Rank.enter (x : Rank) (i : RingId) (job : Job) (d : Dpu) : Rank :=
  { x with
    dpu := d
    entered := Function.update x.entered i (x.entered i ++ [job]) }

/-- A command is left before its collective. -/
def Rank.abort (x : Rank) (i : RingId) (job : Job) (d : Dpu) : Rank :=
  { x with
    dpu := d
    aborted := Function.update x.aborted i (x.aborted i ++ [job]) }

inductive RankAction where
  /-- `message_recv_callback`. -/
  | receive (dropped : Bool)
  /-- `message_worker_thread`; `alloc` is whether there was a `ring_job`. -/
  | dispatch (alloc : Bool)
  /-- The same with a slot of the pool's queue that was read too early. -/
  | misread (read : Job) (alloc : Bool)
  /-- The thread of a ring takes a command. -/
  | take (i : RingId)
  /-- A thread goes to `out_dec_inflight` before the collective. -/
  | abort (t : Thread)
  /-- A thread calls the collective. -/
  | enter (t : Thread)
  /-- A thread whose collective is over leaves `execute_doca_collective_cmd`. -/
  | done (t : Thread)
deriving DecidableEq, Repr

def Rank.step (cfg : Config) (x : Rank) : RankAction → Option Rank
  | .receive dropped =>
      (x.dpu.receive dropped).map fun d =>
        { x with dpu := d, decided := x.decided ++ [dropped] }
  | .dispatch alloc =>
      match x.dpu.pool with
      | job :: _ =>
          (x.dpu.dispatch cfg alloc).map fun d =>
            if cfg.useRingQueues && alloc then { x with dpu := d }
            else x.start (ringOfThread .message) job d
      | [] => none
  | .misread read alloc =>
      (x.dpu.misread cfg read alloc).map fun d =>
        if cfg.useRingQueues && alloc then { x with dpu := d }
        else x.start (ringOfThread .message) read d
  | .take i =>
      match queue x.dpu i with
      | job :: _ => (x.dpu.take i.thread).map fun d => x.start i job d
      | [] => none
  | .abort t =>
      match x.dpu.thread t with
      | some (job, .starting) =>
          (x.dpu.abort t).map fun d => x.abort (ringOfThread t) job d
      | _ => none
  | .enter t =>
      match x.dpu.thread t with
      | some (job, .starting) =>
          (x.dpu.enter t).map fun d => x.enter (ringOfThread t) job d
      | _ => none
  | .done t =>
      match x.dpu.thread t with
      | some (_, .running) =>
          some { x with
            dpu := { x.dpu with
              thread := Function.update x.dpu.thread t none } }
      | _ => none

/-- The ranks `ι`; `ringR1Enabled` is the result of the ring 1 setup on each. -/
structure Setup (ι : Type) where
  env : Config
  ringR1Enabled : ι → Bool

variable {ι : Type}

def Setup.config (setup : Setup ι) (r : ι) : Config :=
  { setup.env with ringR1Enabled := setup.ringR1Enabled r }

abbrev State (ι : Type) := ι → Rank

def State.init (cmds : List Job) : State ι := fun _ => .init cmds

def State.step [DecidableEq ι] (setup : Setup ι) (s : State ι)
    (a : ι × RankAction) : Option (State ι) :=
  ((s a.1).step (setup.config a.1) a.2).map (Function.update s a.1)

/-- The collectives that two ranks call as their `n`-th on a ring meet: barriers and
messages are matched in their order. -/
def State.Meet (s : State ι) (r q : ι) (i : RingId) (job job' : Job) : Prop :=
  ∃ n : ℕ, ((s r).entered i)[n]? = some job ∧ ((s q).entered i)[n]? = some job'

/-- What all ranks agree on: the ring of a command, the order of the commands
on a ring, the command of collectives that meet, and that a ring is used by one
thread at a time. -/
structure State.Agree (s : State ι) : Prop where
  sameRing : ∀ r q i j job, job ∈ (s r).started i → job ∈ (s q).started j →
    i = j
  sameOrder : ∀ r q i, (s r).started i <+: (s q).started i ∨
    (s q).started i <+: (s r).started i
  sameCommand : ∀ r q i job job', s.Meet r q i job job' → job = job'
  exclusive : ∀ r, (s r).dpu.thread .message = none ∨
    (s r).dpu.thread .ring0 = none

/-- An AllGather that is due for ring 1 finds the same setup result on all ranks, and
there is a `ring_job` for a queued command unless ring 0, which is its ring, is idle. -/
def SameRing (setup : Setup ι) (s : State ι) (r : ι) (alloc : Bool) : Prop :=
  setup.env.useRingQueues → ∀ job ∈ (s r).dpu.pool.head?,
    (job.op = .allGather → (s r).dpu.agSeq % 2 = 1 →
      ∀ q, setup.ringR1Enabled q = setup.ringR1Enabled r) ∧
    (alloc = false →
      (s r).dpu.ringOf (setup.config r) job = .ring0 ∧
        (s r).dpu.ring0 = [] ∧ (s r).dpu.thread .ring0 = none)

instance [Fintype ι] (setup : Setup ι) (s : State ι) (r : ι) (alloc : Bool) :
    Decidable (SameRing setup s r alloc) :=
  inferInstanceAs (Decidable
    (setup.env.useRingQueues → ∀ job ∈ (s r).dpu.pool.head?,
      (job.op = .allGather → (s r).dpu.agSeq % 2 = 1 →
        ∀ q, setup.ringR1Enabled q = setup.ringR1Enabled r) ∧
      (alloc = false →
        (s r).dpu.ringOf (setup.config r) job = .ring0 ∧
          (s r).dpu.ring0 = [] ∧ (s r).dpu.thread .ring0 = none)))

/-- A command is dropped by all ranks or by none, and left before its collective by all
ranks or by none.  The one that the pool handles is its oldest, and it goes to the same
ring on all ranks. -/
def Uniform (setup : Setup ι) (s : State ι) : ι × RankAction → Prop
  | (r, .receive dropped) => Log.Admits (fun q => (s q).decided) r dropped
  | (r, .dispatch alloc) => SameRing setup s r alloc
  | (r, .misread read alloc) =>
      (s r).dpu.pool.head? = some read ∧ SameRing setup s r alloc
  | (r, .abort t) =>
      ∀ x ∈ (s r).dpu.thread t, ∀ q, x.1 ∉ (s q).entered (ringOfThread t)
  | (r, .enter t) =>
      ∀ x ∈ (s r).dpu.thread t, ∀ q, x.1 ∉ (s q).aborted (ringOfThread t)
  | _ => True

instance [Fintype ι] (setup : Setup ι) (s : State ι) :
    (a : ι × RankAction) → Decidable (Uniform setup s a)
  | (r, .receive dropped) =>
      inferInstanceAs
        (Decidable (Log.Admits (fun q => (s q).decided) r dropped))
  | (r, .dispatch alloc) => inferInstanceAs (Decidable (SameRing setup s r alloc))
  | (r, .misread read alloc) => inferInstanceAs (Decidable
      ((s r).dpu.pool.head? = some read ∧ SameRing setup s r alloc))
  | (r, .abort t) => inferInstanceAs (Decidable
      (∀ x ∈ (s r).dpu.thread t, ∀ q, x.1 ∉ (s q).entered (ringOfThread t)))
  | (r, .enter t) => inferInstanceAs (Decidable
      (∀ x ∈ (s r).dpu.thread t, ∀ q, x.1 ∉ (s q).aborted (ringOfThread t)))
  | (_, .take _) | (_, .done _) => isTrue trivial

end SmartNic.Dispatch
