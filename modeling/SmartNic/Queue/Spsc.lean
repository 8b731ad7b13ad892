import Mathlib
import SmartNic.Library.BoundedQueue

/-!
# The single-producer single-consumer queues

`DEFINE_SPSC_QUEUE` of `spsc_queue.h` and the message queue of
`msg_pool_try_submit` and `msg_pool_worker_main` in `comch_server.c`.  Both keep
their elements in an array with a head and a tail index; they differ in how an
index is advanced and in how the consumer loads the tail.  A step is one access to
the shared queue, the steps of the two sides interleave, and each side works with
the copies that it has loaded.  `_pop` acquires the tail, so that it reads the slot
after it; the worker of the message pool loads the tail relaxed, and the processor
may read the slot first.  The `stop` flag of the message pool is not set while the
pool is in use.
-/

namespace SmartNic.Queue

open BoundedQueue (Label)

variable {α : Type}

/-- `_push` and `msg_pool_try_submit`: where the producer is, with its copies of
the indices. -/
inductive PushPhase (α : Type) where
  | idle
  | start (elem : α)
  | tailLoaded (elem : α) (tail : ℕ)
  | writing (elem : α) (tail next : ℕ)
  | publishing (elem : α) (next : ℕ)
  | done (result : Bool)
deriving DecidableEq, Repr

/-- `_pop` and the loop of `msg_pool_worker_main`: where the consumer is, with
its copies of the index and the element; in `slotLoaded` it has read the slot and
has not loaded the tail. -/
inductive PopPhase (α : Type) where
  | idle
  | start
  | headLoaded (head : ℕ)
  | slotLoaded (head : ℕ) (elem : α)
  | reading (head : ℕ)
  | publishing (head : ℕ) (elem : α)
  | done (result : Option α)
deriving DecidableEq, Repr

/-- The array, the indices and the two sides. -/
structure Spsc (α : Type) where
  buf : ℕ → α
  head : ℕ
  tail : ℕ
  push : PushPhase α
  pop : PopPhase α

/-- `_init` and `msg_pool_init`; the array holds whatever was there. -/
def Spsc.init (garbage : ℕ → α) : Spsc α := ⟨garbage, 0, 0, .idle, .idle⟩

/-- A call or return, the next access of one side, or the consumer's access to the
slot ahead of that to the tail. -/
inductive Action (α : Type) where
  | visible (label : Label α)
  | producer
  | consumer
  | loadSlot

def Action.label : Action α → Option (Label α)
  | .visible label => some label
  | .producer => none
  | .consumer => none
  | .loadSlot => none

/-- The next access of the producer. -/
def Spsc.producer (next : ℕ → ℕ) (s : Spsc α) : Option (Spsc α) :=
  match s.push with
  | .start elem => some { s with push := .tailLoaded elem s.tail }
  | .tailLoaded elem tail =>
      -- the head is loaded and compared at once
      if next tail = s.head then some { s with push := .done false }
      else some { s with push := .writing elem tail (next tail) }
  | .writing elem tail nxt =>
      some { s with
        buf := Function.update s.buf tail elem
        push := .publishing elem nxt }
  | .publishing _ nxt => some { s with tail := nxt, push := .done true }
  | .idle => none
  | .done _ => none

/-- The next access of the consumer. -/
def Spsc.consumer (next : ℕ → ℕ) (s : Spsc α) : Option (Spsc α) :=
  match s.pop with
  | .start => some { s with pop := .headLoaded s.head }
  | .headLoaded head =>
      if head = s.tail then some { s with pop := .done none }
      else some { s with pop := .reading head }
  | .slotLoaded head elem =>
      if head = s.tail then some { s with pop := .done none }
      else some { s with pop := .publishing head elem }
  | .reading head => some { s with pop := .publishing head (s.buf head) }
  | .publishing head elem =>
      some { s with head := next head, pop := .done (some elem) }
  | .idle => none
  | .done _ => none

/-- The slot is read before the tail is loaded. -/
def Spsc.loadSlot (s : Spsc α) : Option (Spsc α) :=
  match s.pop with
  | .headLoaded head => some { s with pop := .slotLoaded head (s.buf head) }
  | _ => none

/-- The two queues. -/
inductive Kind where
  | spscQueue
  | msgPool
deriving DecidableEq, Repr

/-- How an index is advanced: with the mask `CAPACITY - 1`, or modulo
`MSG_QUEUE_CAP`. -/
def Kind.next (capacity : ℕ) : Kind → ℕ → ℕ
  | .spscQueue, i => (i + 1) &&& (capacity - 1)
  | .msgPool, i => (i + 1) % capacity

/-- The tail is loaded with `memory_order_acquire`. -/
def Kind.acquiresTail : Kind → Bool
  | .spscQueue => true
  | .msgPool => false

/-- One step of a queue. -/
def Spsc.step [DecidableEq α] (kind : Kind) (capacity : ℕ) (s : Spsc α) :
    Action α → Option (Spsc α)
  | .visible (.pushCall elem) =>
      if s.push = .idle then some { s with push := .start elem } else none
  | .visible (.pushReturn result) =>
      if s.push = .done result then some { s with push := .idle } else none
  | .visible .popCall =>
      if s.pop = .idle then some { s with pop := .start } else none
  | .visible (.popReturn result) =>
      if s.pop = .done result then some { s with pop := .idle } else none
  | .producer => s.producer (kind.next capacity)
  | .consumer => s.consumer (kind.next capacity)
  | .loadSlot => if kind.acquiresTail then none else s.loadSlot

/-- The elements between head and tail. -/
def Spsc.contents (capacity : ℕ) (s : Spsc α) : List α :=
  (List.range ((s.tail + (capacity - s.head)) % capacity)).map fun j =>
    s.buf ((s.head + j) % capacity)

/-- Both sides are about to access the same slot, the consumer after the tail. -/
def Spsc.Collision (s : Spsc α) : Prop :=
  ∃ elem slot next, s.push = .writing elem slot next ∧ s.pop = .reading slot

/-- If the tail has moved past the head, a slot that the consumer has read ahead of the
tail still holds what it has read. -/
def PopPhase.Fresh (buf : ℕ → α) (tail : ℕ) : PopPhase α → Prop
  | .slotLoaded head elem => head ≠ tail → buf head = elem
  | _ => True

instance [DecidableEq α] (buf : ℕ → α) (tail : ℕ) :
    (phase : PopPhase α) → Decidable (phase.Fresh buf tail)
  | .slotLoaded head elem => inferInstanceAs (Decidable (head ≠ tail → buf head = elem))
  | .idle | .start | .headLoaded _ | .reading _ | .publishing _ _ | .done _ => isTrue trivial

/-- The consumer uses what it has read ahead of the tail only if it is still there. -/
def Spsc.Fresh (s : Spsc α) : Action α → Prop
  | .consumer => s.pop.Fresh s.buf s.tail
  | _ => True

instance [DecidableEq α] (s : Spsc α) : (act : Action α) → Decidable (s.Fresh act)
  | .consumer => inferInstanceAs (Decidable (s.pop.Fresh s.buf s.tail))
  | .visible _ | .producer | .loadSlot => isTrue trivial

end SmartNic.Queue
