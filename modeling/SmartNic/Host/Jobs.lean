import Mathlib
import SmartNic.Library.Machine

/-!
# Collective jobs on the host

The job queue, the ring of jobs in flight, the submit and completion threads and
the handle calls of `comch_client.c`.  A step is one section under a mutex or one
access to shared memory.  Callers on any number of threads enqueue jobs; with a
handle they wait and test as often as they like until they release it once, as
the `_released` flag of `_ComchHandleWork` and `ucp_collective_request` see to.
-/

namespace SmartNic.Host

/-! ## State -/

/-- `collective_job_u64_t` without the arguments of the request; `number` counts
the calls of enqueue and is only kept for the history. -/
structure Job where
  number : ℕ
  id : ℕ
  submitSeq : ℕ
  completed : Bool
  resultU64 : ℕ
  refcnt : ℤ
deriving DecidableEq, Repr

/-- `INFLIGHT_CAP` -/
def INFLIGHT_CAP : ℕ := 256

/-- Where `collective_submit_main` is with the job at an address: it was popped
from the queue, its request was sent, there is room in the ring, and its slot
was written. -/
inductive SubmitPhase where
  | idle
  | popped (a : ℕ)
  | requested (a : ℕ)
  | admitted (a : ℕ)
  | written (a : ℕ)
deriving DecidableEq, Repr

/-- Where `collective_completion_main` is: it has loaded a job from the ring, its
doorbell has arrived, its waiters were signalled, the head was advanced, and the
last reference was dropped. -/
inductive CompletionPhase where
  | idle
  | loaded (a : ℕ)
  | arrived (a : ℕ)
  | signalled (a : ℕ)
  | advanced (a : ℕ)
  | freeing (a : ℕ)
deriving DecidableEq, Repr

/-- What has happened to the jobs, by number. -/
structure History where
  enqueued : List ℕ
  submitted : List ℕ
  completed : List ℕ
  released : List ℕ
  dropped : List ℕ
  freed : List ℕ
deriving DecidableEq, Repr

/-- The process.  `held` are the handles whose references the callers hold and
`freeing` those of callers that are about to free; `fault` is set when a job is
accessed that is not allocated.  `head` and `tail` do not wrap, as the `uint64_t` of
the source would after `2 ^ 64` jobs. -/
structure Process where
  heap : ℕ → Option Job
  queue : List ℕ
  ring : ℕ → ℕ
  head : ℕ
  tail : ℕ
  submit : SubmitPhase
  completion : CompletionPhase
  held : List ℕ
  freeing : List ℕ
  doorbell : ℕ
  finishFlags : ℕ → Option Bool
  fault : Bool
  history : History

def Process.init : Process where
  heap := fun _ => none
  queue := []
  ring := fun _ => 0
  head := 0
  tail := 0
  submit := .idle
  completion := .idle
  held := []
  freeing := []
  doorbell := 0
  finishFlags := fun _ => none
  fault := false
  history := ⟨[], [], [], [], [], []⟩

/-- A step of a caller, of one of the two threads, or of the DPU, which writes the
doorbell and the finish flags.  The sequence number and the status are what
`ucp_collective_request_impl` returns. -/
inductive Action where
  | enqueue (a id : ℕ)
  | test (a : ℕ)
  | wait (a : ℕ)
  | release (a : ℕ)
  | free (a : ℕ)
  | submit (seq status : ℕ)
  | complete
  | doorbell (value : ℕ)
  | finishFlag (id : ℕ) (entry : Option Bool)
deriving DecidableEq, Repr

namespace Process

/-! ## Operations -/

/-- Access the job at an address. -/
def access (s : Process) (a : ℕ) (f : Job → Option Process) : Option Process :=
  match s.heap a with
  | none => some { s with fault := true }
  | some j => f j

/-- Overwrite the job at an address. -/
def setJob (s : Process) (a : ℕ) (j : Job) : Process :=
  { s with heap := Function.update s.heap a (some j) }

/-- `collective_job_free` -/
def jobFree (s : Process) (a : ℕ) (j : Job) : Process :=
  { s with
    heap := Function.update s.heap a none
    history := { s.history with freed := s.history.freed ++ [j.number] } }

/-- The wait of the completion thread for a job is over. -/
def arrived (useDoorbell : Bool) (s : Process) (j : Job) : Bool :=
  if useDoorbell then decide (j.submitSeq ≤ s.doorbell)
  else (s.finishFlags j.id).getD true

/-- `ucp_collective_enqueue_u64_with_flag`: `calloc` returns the address. -/
def enqueue (s : Process) (a id : ℕ) : Option Process :=
  if (s.heap a).isSome then none
  else
    let number := s.history.enqueued.length
    some { s.setJob a ⟨number, id, 0, false, 0, 2⟩ with
      queue := s.queue ++ [a]
      held := s.held ++ [a]
      history := { s.history with enqueued := s.history.enqueued ++ [number] } }

/-- `comch_req_test_u64` -/
def test (s : Process) (a : ℕ) : Option Process :=
  if a ∈ s.held then s.access a fun _ => some s else none

/-- `comch_req_wait_u64` returns. -/
def wait (s : Process) (a : ℕ) : Option Process :=
  if a ∈ s.held then s.access a fun j => if j.completed then some s else none
  else none

/-- `comch_req_release_u64` up to the end of its section under the mutex. -/
def release (s : Process) (a : ℕ) : Option Process :=
  if a ∈ s.held then
    s.access a fun j =>
      let refcnt := j.refcnt - 1
      some { s.setJob a { j with refcnt := refcnt } with
        held := s.held.erase a
        freeing := if refcnt = 0 then s.freeing ++ [a] else s.freeing
        history := { s.history with released := s.history.released ++ [j.number] } }
  else none

/-- The end of `comch_req_release_u64` for a caller that has to free. -/
def free (s : Process) (a : ℕ) : Option Process :=
  if a ∈ s.freeing then
    s.access a fun j => some { s.jobFree a j with freeing := s.freeing.erase a }
  else none

/-- The next step of `collective_submit_main`. -/
def submitMain (s : Process) (seq status : ℕ) : Option Process :=
  match s.submit with
  | .idle =>
      match s.queue with
      | [] => none
      | a :: rest =>
          s.access a fun _ => some { s with queue := rest, submit := .popped a }
  | .popped a =>
      s.access a fun j =>
        some { s.setJob a { j with submitSeq := seq, resultU64 := status } with
          submit := .requested a
          history := { s.history with
            submitted := s.history.submitted ++ [j.number] } }
  | .requested a =>
      if INFLIGHT_CAP ≤ s.tail - s.head then none
      else some { s with submit := .admitted a }
  | .admitted a =>
      some { s with
        ring := Function.update s.ring (s.tail &&& (INFLIGHT_CAP - 1)) a
        submit := .written a }
  | .written _ => some { s with tail := s.tail + 1, submit := .idle }

/-- The next step of `collective_completion_main`. -/
def completionMain (useDoorbell : Bool) (s : Process) : Option Process :=
  match s.completion with
  | .idle =>
      if s.tail ≤ s.head then none
      else some { s with
        completion := .loaded (s.ring (s.head &&& (INFLIGHT_CAP - 1))) }
  | .loaded a =>
      s.access a fun j =>
        if s.arrived useDoorbell j then some { s with completion := .arrived a }
        else none
  | .arrived a =>
      s.access a fun j =>
        some { s.setJob a { j with completed := true } with
          completion := .signalled a
          history := { s.history with
            completed := s.history.completed ++ [j.number] } }
  | .signalled a =>
      some { s with head := s.head + 1, completion := .advanced a }
  | .advanced a =>
      s.access a fun j =>
        let refcnt := j.refcnt - 1
        some { s.setJob a { j with refcnt := refcnt } with
          completion := if refcnt = 0 then .freeing a else .idle
          history := { s.history with dropped := s.history.dropped ++ [j.number] } }
  | .freeing a =>
      s.access a fun j => some { s.jobFree a j with completion := .idle }

/-- One step of the process. -/
def step (useDoorbell : Bool) (s : Process) : Action → Option Process
  | .enqueue a id => s.enqueue a id
  | .test a => s.test a
  | .wait a => s.wait a
  | .release a => s.release a
  | .free a => s.free a
  | .submit seq status => s.submitMain seq status
  | .complete => s.completionMain useDoorbell
  | .doorbell value => some { s with doorbell := value }
  | .finishFlag id entry =>
      some { s with finishFlags := Function.update s.finishFlags id entry }

end Process

end SmartNic.Host
