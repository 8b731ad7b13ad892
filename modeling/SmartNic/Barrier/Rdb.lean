import Mathlib
import SmartNic.Library.Machine

/-!
# The RDMA doorbell barrier

`rdb_barrier` of `comch_server.c` on a ring of ranks.  Every rank has one slot
that the previous rank writes, one counter and two send buffers; any number of
threads of a rank may call the barrier.  An RDMA Write is read by the NIC and
becomes visible in the slot of the next rank in two steps of their own, in any
order with the other writes.
-/

namespace SmartNic.Barrier

/-- The send buffer of the gather wave and that of the release wave. -/
inductive SendBuf where
  | a
  | b
deriving DecidableEq, Repr

/-- `rdb_write_next` and `rdb_wait_local_slot`. -/
inductive Instr where
  | writeNext (buf : SendBuf) (value : UInt64)
  | waitLocalSlot (target : UInt64)
deriving DecidableEq, Repr

/-- What `rdb_barrier` does once it has its sequence number. -/
def rdbBarrier (rank : ℕ) (mySeq : UInt64) : List Instr :=
  let gatherTarget := 2 * mySeq - 1
  let releaseTarget := 2 * mySeq
  if rank = 0 then
    [.writeNext .a gatherTarget, .waitLocalSlot gatherTarget,
      .writeNext .b releaseTarget, .waitLocalSlot releaseTarget]
  else
    [.waitLocalSlot gatherTarget, .writeNext .a gatherTarget,
      .waitLocalSlot releaseTarget, .writeNext .b releaseTarget]

/-- Where a thread stands: outside the barrier, in front of
`++cw->rdb_my_seq`, between its load and its store, in front of the rest of the
barrier, or in `submit_and_wait_doca` of a write. -/
inductive Caller where
  | outside
  | entered
  | loaded (seq : UInt64)
  | inside (rest : List Instr)
  | posted (buf : SendBuf) (rest : List Instr)
deriving DecidableEq, Repr

/-- The barrier fields of a `collective_worker_t` and its calling threads,
together with the writes that its NIC has read and not yet delivered and a log
of the calls and of the returns. -/
structure Worker (T : Type) where
  rdbMySeq : UInt64
  sendA : UInt64
  sendB : UInt64
  rdbLocalSlot : UInt64
  inFlight : List UInt64
  caller : T → Caller
  entries : List T
  exits : List T

/-- The worker after `rdb_init`. -/
def Worker.init : Worker T where
  rdbMySeq := 0
  sendA := 0
  sendB := 0
  rdbLocalSlot := 0
  inFlight := []
  caller := fun _ => .outside
  entries := []
  exits := []

inductive LocalAction (T : Type) where
  /-- Call the barrier. -/
  | enter (t : T)
  /-- Load the counter. -/
  | load (t : T)
  /-- Store the counter. -/
  | store (t : T)
  /-- Write a send buffer and post the Write, or leave a wait. -/
  | exec (t : T)
  /-- The NIC reads the send buffer and completes the Write. -/
  | fetch (t : T)
  /-- The Write fails. -/
  | fail (t : T)
  /-- Return from the barrier. -/
  | leave (t : T)
deriving DecidableEq, Repr

section

variable [DecidableEq T]

def Worker.goto (w : Worker T) (t : T) (c : Caller) : Worker T :=
  { w with caller := Function.update w.caller t c }

def Worker.sendBuf (w : Worker T) : SendBuf → UInt64
  | .a => w.sendA
  | .b => w.sendB

def Worker.fill (w : Worker T) (buf : SendBuf) (value : UInt64) : Worker T :=
  { w with
    sendA := if buf = .a then value else w.sendA
    sendB := if buf = .b then value else w.sendB }

def Worker.step (rank : ℕ) (w : Worker T) :
    LocalAction T → Option (Worker T)
  | .enter t =>
      match w.caller t with
      | .outside => some { w.goto t .entered with entries := w.entries ++ [t] }
      | _ => none
  | .load t =>
      match w.caller t with
      | .entered => some (w.goto t (.loaded w.rdbMySeq))
      | _ => none
  | .store t =>
      match w.caller t with
      | .loaded seq =>
          some { w.goto t (.inside (rdbBarrier rank (seq + 1))) with
            rdbMySeq := seq + 1 }
      | _ => none
  | .exec t =>
      match w.caller t with
      | .inside (.writeNext buf value :: rest) =>
          some ((w.fill buf value).goto t (.posted buf rest))
      | .inside (.waitLocalSlot target :: rest) =>
          if w.rdbLocalSlot < target then none
          else some (w.goto t (.inside rest))
      | _ => none
  | .fetch t =>
      match w.caller t with
      | .posted buf rest =>
          some { w.goto t (.inside rest) with
            inFlight := w.inFlight ++ [w.sendBuf buf] }
      | _ => none
  | .fail t =>
      match w.caller t with
      | .posted _ rest => some (w.goto t (.inside rest))
      | _ => none
  | .leave t =>
      match w.caller t with
      | .inside [] => some { w.goto t .outside with exits := w.exits ++ [t] }
      | _ => none

/-! ## The ring -/

/-- The workers of all ranks. -/
abbrev Ring (n : ℕ) (T : Type) := Fin n → Worker T

inductive Action (n : ℕ) (T : Type) where
  /-- A step of a rank. -/
  | at (r : Fin n) (a : LocalAction T)
  /-- The `i`-th write of `r` in flight reaches the slot of the next rank. -/
  | deliver (r : Fin n) (i : ℕ)
deriving DecidableEq, Repr

variable {n : ℕ} [NeZero n]

def Ring.init : Ring n T := fun _ => .init

/-- A write of rank `r` leaves the network and reaches the slot of the next
rank. -/
def Ring.deliver (s : Ring n T) (r : Fin n) (i : ℕ) (value : UInt64) :
    Ring n T :=
  let s := Function.update s r
    { s r with inFlight := (s r).inFlight.eraseIdx i }
  Function.update s (r + 1) { s (r + 1) with rdbLocalSlot := value }

def Ring.step (s : Ring n T) : Action n T → Option (Ring n T)
  | .at r a => ((s r).step r a).map (Function.update s r)
  | .deliver r i => (s r).inFlight[i]?.map (s.deliver r i)

/-- The calls on each rank are serialised: a thread enters the barrier only
when no thread of its rank is in it. -/
def Serialised (s : Ring n T) : Action n T → Prop
  | .at r (.enter _) => ∀ t, (s r).caller t = .outside
  | _ => True

instance [Fintype T] (s : Ring n T) :
    (a : Action n T) → Decidable (Serialised s a)
  | .at r (.enter _) =>
      inferInstanceAs (Decidable (∀ t, (s r).caller t = .outside))
  | .at _ (.load _) | .at _ (.store _) | .at _ (.exec _) | .at _ (.fetch _)
  | .at _ (.fail _) | .at _ (.leave _) | .deliver _ _ => isTrue trivial

end

end SmartNic.Barrier
