import SmartNic.Host.Lifecycle

/-!
# The worker threads of the host

How the submit and completion threads start, sleep, are woken and stop, and how
callers sleep until their job is completed.  A step is one section under a mutex,
in which a thread may fall asleep on a condition variable, or one access outside.
What the threads do with the jobs are the steps of `Process`.
-/

namespace SmartNic.Host

/-- Where `collective_submit_main` is: at the head of its loop with the queue mutex,
asleep on `g_collective_q_cv`, with a job, or about to signal that there is a job in
the ring. -/
inductive SubmitLoop where
  | absent
  | test
  | asleep
  | working
  | notify
  | exited
deriving DecidableEq, Repr

/-- Where `collective_completion_main` is: at the test of `g_collective_stop`, at that
of the ring, in the inner loop with `g_inflight_mtx`, asleep on `g_inflight_cv`, at
the test behind the inner loop, or with a job. -/
inductive CompletionLoop where
  | absent
  | top
  | look
  | locked
  | asleep
  | unlocked
  | working
  | exited
deriving DecidableEq, Repr

/-- Where `comch_client_shutdown` is: the submit thread was told to stop, both were,
the first has been joined, both have. -/
inductive Shutdown where
  | idle
  | stopped
  | joinSubmit
  | joinCompletion
  | joined
deriving DecidableEq, Repr

/-- The process with its threads.  `entered` counts the calls of enqueue that are past
`ensure_collective_worker_started`; `sleepers` has the job for each caller that sleeps
in `comch_req_wait_u64`, and `woken` for each that has to look again. -/
structure Workers where
  process : Process
  running : Bool
  stop : Bool
  submit : SubmitLoop
  completion : CompletionLoop
  shutdown : Shutdown
  entered : ℕ
  sleepers : List ℕ
  woken : List ℕ

/-- A step of a caller, of a thread or of the DPU.  `answer` is what the DPU does for
the job that the completion thread waits for; the `spurious` steps are wake-ups
without a signal. -/
inductive WorkersAction where
  | ensure
  | enqueue (a id : ℕ)
  | outOfMemory
  | test (a : ℕ)
  | wait (a : ℕ)
  | wake (a : ℕ)
  | release (a : ℕ)
  | free (a : ℕ)
  | submit (seq status : ℕ)
  | complete
  | answer
  | doorbell (value : ℕ)
  | finishFlag (id : ℕ) (entry : Option Bool)
  | beginShutdown
  | nextShutdown
  | spuriousSubmit
  | spuriousCompletion
  | spuriousWait (a : ℕ)
deriving DecidableEq, Repr

namespace Workers

def init : Workers where
  process := .init
  running := false
  stop := false
  submit := .absent
  completion := .absent
  shutdown := .idle
  entered := 0
  sleepers := []
  woken := []

/-- `pthread_cond_signal` or `_broadcast` on `g_collective_q_cv`. -/
def signalQueue (w : Workers) : Workers :=
  { w with submit := if w.submit = .asleep then .test else w.submit }

/-- The same on `g_inflight_cv`. -/
def signalInflight (w : Workers) : Workers :=
  { w with completion := if w.completion = .asleep then .locked else w.completion }

/-- `pthread_cond_broadcast` on the condition variable of a job. -/
def signalJob (w : Workers) (a : ℕ) : Workers :=
  { w with
    sleepers := w.sleepers.filter (· ≠ a)
    woken := w.woken ++ w.sleepers.filter (· = a) }

/-- `ensure_collective_worker_started` -/
def ensure (w : Workers) : Workers :=
  let w := { w with entered := w.entered + 1 }
  if w.running then w
  else { w with stop := false, submit := .test, completion := .top, running := true }

/-- The rest of `ucp_collective_enqueue_u64_with_flag`, with `collective_q_push`. -/
def enqueue (w : Workers) (a id : ℕ) : Option Workers :=
  if w.entered = 0 then none
  else
    (w.process.enqueue a id).map fun process =>
      { w.signalQueue with process, entered := w.entered - 1 }

/-- `comch_req_wait_u64` up to its return or until it sleeps. -/
def wait (w : Workers) (a : ℕ) : Option Workers :=
  if a ∈ w.process.held then
    match w.process.heap a with
    | none => some { w with process := { w.process with fault := true } }
    | some j => some (if j.completed then w else { w with sleepers := a :: w.sleepers })
  else none

/-- A caller that was woken goes on in `comch_req_wait_u64`. -/
def wake (w : Workers) (a : ℕ) : Option Workers :=
  if a ∈ w.woken then
    match w.process.heap a with
    | none => some { w with process := { w.process with fault := true } }
    | some j =>
        let w := { w with woken := w.woken.erase a }
        some (if j.completed then w else { w with sleepers := a :: w.sleepers })
  else none

/-- The next step of the submit thread. -/
def submitMain (w : Workers) (seq status : ℕ) : Option Workers :=
  match w.submit with
  | .test =>
      if w.stop then some { w with submit := .exited }
      else
        match w.process.queue with
        | [] => some { w with submit := .asleep }
        | _ :: _ =>
            (w.process.submitMain seq status).map fun process =>
              { w with process, submit := .working }
  | .working =>
      (w.process.submitMain seq status).map fun process =>
        { w with
          process
          submit := if process.submit = .idle then .notify else .working }
  | .notify => some { w.signalInflight with submit := .test }
  | _ => none

/-- The next step of the completion thread. -/
def completionMain (useDoorbell : Bool) (w : Workers) : Option Workers :=
  match w.completion with
  | .top => some { w with completion := if w.stop then .exited else .look }
  | .look =>
      some { w with
        completion := if w.process.tail ≤ w.process.head then .locked else .working }
  | .locked =>
      some { w with
        completion :=
          if w.process.tail ≤ w.process.head ∧ w.stop = false then .asleep
          else .unlocked }
  | .unlocked => some { w with completion := if w.stop then .exited else .working }
  | .working =>
      (w.process.completionMain useDoorbell).map fun process =>
        let w := { w with
          process
          completion := if process.completion = .idle then .top else .working }
        match process.completion with
        | .signalled a => w.signalJob a
        | _ => w
  | _ => none

/-- The DPU answers the request of the job that the completion thread waits for. -/
def answer (useDoorbell : Bool) (w : Workers) : Option Workers :=
  match w.process.completion with
  | .loaded a =>
      match w.process.heap a with
      | none => none
      | some j =>
          if w.process.arrived useDoorbell j then none
          else if useDoorbell then
            some { w with process := { w.process with doorbell := j.submitSeq } }
          else
            some { w with
              process :=
                { w.process with
                  finishFlags := Function.update w.process.finishFlags j.id (some true) } }
  | _ => none

/-- The first section of `comch_client_shutdown`. -/
def beginShutdown (w : Workers) : Option Workers :=
  if w.shutdown = .idle then
    some (if w.running then { w.signalQueue with stop := true, shutdown := .stopped } else w)
  else none

/-- The rest of `comch_client_shutdown`. -/
def nextShutdown (w : Workers) : Option Workers :=
  match w.shutdown with
  | .idle => none
  | .stopped => some { w.signalInflight with shutdown := .joinSubmit }
  | .joinSubmit =>
      if w.submit = .exited then some { w with submit := .absent, shutdown := .joinCompletion }
      else none
  | .joinCompletion =>
      if w.completion = .exited then
        some { w with completion := .absent, shutdown := .joined }
      else none
  | .joined => some { w with running := false, shutdown := .idle }

/-- One step.  The caller that releases a handle does not wait for its job. -/
def step (useDoorbell : Bool) (w : Workers) : WorkersAction → Option Workers
  | .ensure => some w.ensure
  | .enqueue a id => w.enqueue a id
  | .outOfMemory => if w.entered = 0 then none else some { w with entered := w.entered - 1 }
  | .test a => (w.process.test a).map fun process => { w with process }
  | .wait a => w.wait a
  | .wake a => w.wake a
  | .release a =>
      if a ∈ w.sleepers ∨ a ∈ w.woken then none
      else (w.process.release a).map fun process => { w with process }
  | .free a => (w.process.free a).map fun process => { w with process }
  | .submit seq status => w.submitMain seq status
  | .complete => w.completionMain useDoorbell
  | .answer => w.answer useDoorbell
  | .doorbell value => some { w with process := { w.process with doorbell := value } }
  | .finishFlag id entry =>
      some { w with
        process :=
          { w.process with
            finishFlags := Function.update w.process.finishFlags id entry } }
  | .beginShutdown => w.beginShutdown
  | .nextShutdown => w.nextShutdown
  | .spuriousSubmit => if w.submit = .asleep then some w.signalQueue else none
  | .spuriousCompletion => if w.completion = .asleep then some w.signalInflight else none
  | .spuriousWait a =>
      if a ∈ w.sleepers then
        some { w with sleepers := w.sleepers.erase a, woken := a :: w.woken }
      else none

end Workers

/-- The action belongs to work that is under way: a thread, a caller that has been
woken or has to free, the DPU or the shutdown goes on. -/
def WorkersAction.goesOn : WorkersAction → Bool
  | .wake _ | .free _ | .submit _ _ | .complete | .answer | .nextShutdown => true
  | _ => false

end SmartNic.Host
