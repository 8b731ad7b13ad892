import Mathlib
import SmartNic.Library.RoundRobin
import SmartNic.Library.Simulation
import SmartNic.Queue.Spsc

/-!
# The queues are linearizable

Every run of a queue with a capacity of `2 ^ k` has the calls and returns of a
run of the atomic queue that holds at most `2 ^ k - 1` elements, if the consumer uses
no slot that it has read before it was written.  A push takes effect when the tail is
published, or when the head is loaded if it fails; a pop takes effect when the head is
published, or when the tail is loaded if it fails.
-/

namespace SmartNic.Queue

open BoundedQueue (Pending State)

variable {α : Type}

/-! ## Indices -/

/-- Both queues advance an index modulo their capacity. -/
theorem Kind.next_mod (kind : Kind) (k i : ℕ) :
    kind.next (2 ^ k) (i % 2 ^ k) = (i + 1) % 2 ^ k := by
  cases kind with
  | spscQueue =>
      rw [Kind.next, Nat.and_two_pow_sub_one_eq_mod, Nat.mod_add_mod]
  | msgPool => rw [Kind.next, Nat.mod_add_mod]

/-! ## The simulation relation -/

/-- What the atomic queue knows of the push. -/
def PushPhase.pending : PushPhase α → Pending α Bool
  | .idle => .idle
  | .start elem => .called elem
  | .tailLoaded elem _ => .called elem
  | .writing elem _ _ => .called elem
  | .publishing elem _ => .called elem
  | .done result => .done result

/-- What the atomic queue knows of the pop. -/
def PopPhase.pending : PopPhase α → Pending Unit (Option α)
  | .idle => .idle
  | .start => .called ()
  | .headLoaded _ => .called ()
  | .slotLoaded _ _ => .called ()
  | .reading _ => .called ()
  | .publishing _ _ => .called ()
  | .done result => .done result

/-- The copies of the producer, and that there is still room. -/
def PushPhase.Ok (capacity : ℕ) (next : ℕ → ℕ) (tail : ℕ) (buf : ℕ → α)
    (len : ℕ) : PushPhase α → Prop
  | .tailLoaded _ t => t = tail
  | .writing _ t nxt => t = tail ∧ nxt = next tail ∧ len + 1 < capacity
  | .publishing elem nxt => nxt = next tail ∧ len + 1 < capacity ∧ buf tail = elem
  | _ => True

/-- The copies of the consumer, and that its element is still there. -/
def PopPhase.Ok (head : ℕ) (queue : List α) : PopPhase α → Prop
  | .headLoaded x => x = head
  | .slotLoaded x _ => x = head
  | .reading x => x = head ∧ queue ≠ []
  | .publishing x elem => x = head ∧ queue.head? = some elem
  | _ => True

/-- The slots from position `h` on hold the elements of the atomic queue. -/
structure Holds (capacity : ℕ) (s : Spsc α) (queue : List α) (h : ℕ) : Prop where
  head : s.head = h % capacity
  tail : s.tail = (h + queue.length) % capacity
  slots : ∀ j (hj : j < queue.length), s.buf ((h + j) % capacity) = queue[j]

/-- The queue in its array and the atomic queue. -/
structure Refines (capacity : ℕ) (next : ℕ → ℕ) (s : Spsc α) (a : State α) :
    Prop where
  holds : ∃ h, Holds capacity s a.queue h
  room : a.queue.length < capacity
  producer : a.producer = s.push.pending
  consumer : a.consumer = s.pop.pending
  push : s.push.Ok capacity next s.tail s.buf a.queue.length
  pop : s.pop.Ok s.head a.queue

theorem refines_init {capacity : ℕ} (hcap : 0 < capacity) (next : ℕ → ℕ)
    (garbage : ℕ → α) : Refines capacity next (Spsc.init garbage) State.init where
  holds := ⟨0, (Nat.zero_mod _).symm, (Nat.zero_mod _).symm, fun _ hj => by cases hj⟩
  room := hcap
  producer := rfl
  consumer := rfl
  push := trivial
  pop := trivial

section Step

variable {kind : Kind} {capacity : ℕ} {next : ℕ → ℕ} {s s' : Spsc α} {a : State α}
  {queue : List α} {h : ℕ}

/-- The slot at the tail holds no element. -/
theorem Holds.slot_ne_tail (hholds : Holds capacity s queue h)
    (hroom : queue.length < capacity) {j : ℕ} (hj : j < queue.length) :
    (h + j) % capacity ≠ s.tail := by
  rw [hholds.tail]
  exact RoundRobin.slot_ne (by omega) (by omega)

/-- Head and tail agree exactly if there is no element. -/
theorem Holds.head_eq_tail_iff (hholds : Holds capacity s queue h)
    (hroom : queue.length < capacity) : s.head = s.tail ↔ queue = [] := by
  constructor
  · intro heq
    by_contra hne
    have hpos : 0 < queue.length := List.length_pos_iff.mpr hne
    refine hholds.slot_ne_tail hroom hpos ?_
    rw [Nat.add_zero, ← hholds.head, heq]
  · rintro rfl
    rw [hholds.head, hholds.tail]
    rfl

/-- The index after the tail is the head exactly if all slots but one hold an
element. -/
theorem Holds.next_eq_head_iff (hholds : Holds capacity s queue h)
    (hnext : ∀ i, next (i % capacity) = (i + 1) % capacity)
    (hroom : queue.length < capacity) :
    next s.tail = s.head ↔ queue.length + 1 = capacity := by
  rw [hholds.tail, hholds.head, hnext]
  constructor
  · intro heq
    by_contra hne
    exact RoundRobin.slot_ne (by omega) (by omega) heq.symm
  · intro hfull
    rw [Nat.add_assoc, hfull, Nat.add_mod_right]

/-- An element is written to the slot at the tail. -/
theorem Holds.write (hholds : Holds capacity s queue h)
    (hroom : queue.length < capacity) (elem : α) (push : PushPhase α) :
    Holds capacity
      { s with buf := Function.update s.buf s.tail elem, push := push } queue h where
  head := hholds.head
  tail := hholds.tail
  slots j hj := by
    rw [← hholds.slots j hj]
    exact Function.update_of_ne (hholds.slot_ne_tail hroom hj) _ _

/-- The tail is advanced past a written slot. -/
theorem Holds.publish (hholds : Holds capacity s queue h)
    (hnext : ∀ i, next (i % capacity) = (i + 1) % capacity) {elem : α}
    (helem : s.buf s.tail = elem) (push : PushPhase α) :
    Holds capacity { s with tail := next s.tail, push := push }
      (queue ++ [elem]) h where
  head := hholds.head
  tail := by
    rw [hholds.tail, hnext, List.length_append, List.length_singleton,
      ← Nat.add_assoc]
  slots j hj := by
    rw [List.length_append, List.length_singleton] at hj
    rcases Nat.lt_succ_iff_lt_or_eq.mp hj with hlt | rfl
    · rw [List.getElem_append_left hlt]
      exact hholds.slots j hlt
    · rw [List.getElem_concat_length rfl, ← helem, hholds.tail]

/-- The head is advanced past an element that has been read. -/
theorem Holds.consume {elem : α} {rest : List α}
    (hholds : Holds capacity s (elem :: rest) h)
    (hnext : ∀ i, next (i % capacity) = (i + 1) % capacity) (pop : PopPhase α) :
    Holds capacity { s with head := next s.head, pop := pop } rest (h + 1) where
  head := by
    rw [hholds.head, hnext]
  tail := by
    rw [hholds.tail, List.length_cons]
    congr 1
    omega
  slots j hj := by
    have hslot := hholds.slots (j + 1) (Nat.succ_lt_succ hj)
    rw [List.getElem_cons_succ] at hslot
    have hpos : h + 1 + j = h + (j + 1) := by omega
    rw [hpos]
    exact hslot

/-- The first element is in the slot at the head. -/
theorem Holds.slot_head (hholds : Holds capacity s queue h) (hne : queue ≠ []) :
    queue.head? = some (s.buf s.head) := by
  cases queue with
  | nil => exact absurd rfl hne
  | cons elem rest =>
      have hslot := hholds.slots 0 (Nat.succ_pos _)
      rw [Nat.add_zero, ← hholds.head] at hslot
      rw [hslot]
      rfl

/-- The producer keeps its facts when elements leave the queue. -/
theorem PushPhase.Ok.of_le {push : PushPhase α} {tail : ℕ} {buf : ℕ → α}
    {len len' : ℕ} (hok : push.Ok capacity next tail buf len) (hle : len' ≤ len) :
    push.Ok capacity next tail buf len' := by
  cases push with
  | writing elem t nxt => exact ⟨hok.1, hok.2.1, by have := hok.2.2; omega⟩
  | publishing elem nxt => exact ⟨hok.1, by have := hok.2.1; omega, hok.2.2⟩
  | tailLoaded elem t => exact hok
  | idle => trivial
  | start elem => trivial
  | done result => trivial

/-- The consumer keeps its facts when an element enters the queue. -/
theorem PopPhase.Ok.append {pop : PopPhase α} {head : ℕ} (hok : pop.Ok head queue)
    (elem : α) : pop.Ok head (queue ++ [elem]) := by
  cases pop with
  | reading x =>
      refine ⟨hok.1, ?_⟩
      exact List.append_ne_nil_of_left_ne_nil hok.2 _
  | publishing x first =>
      refine ⟨hok.1, ?_⟩
      rw [List.head?_append, hok.2]
      rfl
  | headLoaded x => exact hok
  | slotLoaded x first => exact hok
  | idle => trivial
  | start => trivial
  | done result => trivial

/-- The array holds the elements of the atomic queue. -/
theorem Holds.contents (hholds : Holds capacity s queue h)
    (hroom : queue.length < capacity) : s.contents capacity = queue := by
  have hlen : (s.tail + (capacity - s.head)) % capacity = queue.length := by
    have hlt : h % capacity < capacity := Nat.mod_lt _ (by omega)
    calc (s.tail + (capacity - s.head)) % capacity
        = ((h % capacity + queue.length) % capacity + (capacity - h % capacity)) %
            capacity := by
          rw [hholds.tail, hholds.head, Nat.mod_add_mod h capacity queue.length]
      _ = (queue.length + capacity) % capacity := by
          rw [Nat.mod_add_mod]
          congr 1
          omega
      _ = queue.length := by
          rw [Nat.add_mod_right, Nat.mod_eq_of_lt hroom]
  rw [Spsc.contents, hlen]
  apply List.ext_getElem
  · rw [List.length_map, List.length_range]
  · intro j _ hj
    rw [List.getElem_map, List.getElem_range, hholds.head, Nat.mod_add_mod]
    exact hholds.slots j hj

/-- The two sides never access one slot at the same time. -/
theorem Refines.not_collision (hR : Refines capacity next s a) : ¬ s.Collision := by
  rintro ⟨elem, slot, nxt, hpush, hpop⟩
  obtain ⟨h, hholds⟩ := hR.holds
  have hpushOk := hR.push
  have hpopOk := hR.pop
  rw [hpush] at hpushOk
  rw [hpop] at hpopOk
  obtain ⟨htail, -, -⟩ := hpushOk
  obtain ⟨hhead, hqueue⟩ := hpopOk
  exact hqueue ((hholds.head_eq_tail_iff hR.room).mp (hhead.symm.trans htail))

variable [DecidableEq α]

/-- A step of the producer: nothing the atomic queue can see, or its push takes
effect. -/
theorem Refines.producer_step (hR : Refines capacity next s a)
    (hnext : ∀ i, next (i % capacity) = (i + 1) % capacity)
    (hstep : s.producer next = some s') :
    Refines capacity next s' a ∨ ∃ a',
      BoundedQueue.step (capacity - 1) a .push = some a' ∧
        Refines capacity next s' a' := by
  obtain ⟨h, hholds⟩ := hR.holds
  have hok := hR.push
  have hproducer := hR.producer
  unfold Spsc.producer at hstep
  cases hpush : s.push with
  | idle =>
      rw [hpush] at hstep
      cases hstep
  | start elem =>
      rw [hpush] at hstep hproducer
      obtain rfl := Option.some.inj hstep
      left
      exact ⟨⟨h, hholds.head, hholds.tail, hholds.slots⟩, hR.room, hproducer,
        hR.consumer, rfl, hR.pop⟩
  | tailLoaded elem tail =>
      rw [hpush] at hstep hproducer hok
      obtain rfl : tail = s.tail := hok
      dsimp only at hstep
      by_cases hfull : next s.tail = s.head
      · rw [if_pos hfull] at hstep
        obtain rfl := Option.some.inj hstep
        have hlen := (hholds.next_eq_head_iff hnext hR.room).mp hfull
        right
        refine ⟨{ a with producer := .done false }, ?_,
          ⟨h, hholds.head, hholds.tail, hholds.slots⟩, hR.room, rfl,
          hR.consumer, trivial, hR.pop⟩
        simp only [BoundedQueue.step, hproducer, PushPhase.pending, State.push]
        rw [if_neg (by omega)]
      · rw [if_neg hfull] at hstep
        obtain rfl := Option.some.inj hstep
        have hlen := mt (hholds.next_eq_head_iff hnext hR.room).mpr hfull
        left
        refine ⟨⟨h, hholds.head, hholds.tail, hholds.slots⟩, hR.room, hproducer,
          hR.consumer, ⟨rfl, rfl, ?_⟩, hR.pop⟩
        have := hR.room
        omega
  | writing elem tail nxt =>
      rw [hpush] at hstep hproducer hok
      obtain ⟨rfl, rfl, hlen⟩ := hok
      obtain rfl := Option.some.inj hstep
      left
      refine ⟨⟨h, hholds.write hR.room elem _⟩, hR.room, hproducer, hR.consumer,
        ⟨rfl, hlen, ?_⟩, hR.pop⟩
      exact Function.update_self _ _ _
  | publishing elem nxt =>
      rw [hpush] at hstep hproducer hok
      obtain ⟨rfl, hlen, helem⟩ := hok
      obtain rfl := Option.some.inj hstep
      right
      refine ⟨{ a with
          queue := a.queue ++ [elem]
          accepted := a.accepted ++ [elem]
          producer := .done true }, ?_,
        ⟨h, hholds.publish hnext helem _⟩, ?_, rfl, hR.consumer, trivial,
        hR.pop.append elem⟩
      · simp only [BoundedQueue.step, hproducer, PushPhase.pending, State.push]
        rw [if_pos (by omega)]
      · rw [List.length_append]
        exact hlen
  | done result =>
      rw [hpush] at hstep
      cases hstep

/-- A step of the consumer: nothing the atomic queue can see, or its pop takes
effect. -/
theorem Refines.consumer_step (hR : Refines capacity next s a)
    (hnext : ∀ i, next (i % capacity) = (i + 1) % capacity) (hfresh : s.Fresh .consumer)
    (hstep : s.consumer next = some s') :
    Refines capacity next s' a ∨ ∃ a',
      BoundedQueue.step (capacity - 1) a .pop = some a' ∧
        Refines capacity next s' a' := by
  obtain ⟨h, hholds⟩ := hR.holds
  have hok := hR.pop
  have hconsumer := hR.consumer
  unfold Spsc.consumer at hstep
  cases hpop : s.pop with
  | idle =>
      rw [hpop] at hstep
      cases hstep
  | start =>
      rw [hpop] at hstep hconsumer
      obtain rfl := Option.some.inj hstep
      left
      exact ⟨⟨h, hholds.head, hholds.tail, hholds.slots⟩, hR.room, hR.producer,
        hconsumer, hR.push, rfl⟩
  | headLoaded head =>
      rw [hpop] at hstep hconsumer hok
      obtain rfl : head = s.head := hok
      dsimp only at hstep
      by_cases hempty : s.head = s.tail
      · rw [if_pos hempty] at hstep
        obtain rfl := Option.some.inj hstep
        have hqueue := (hholds.head_eq_tail_iff hR.room).mp hempty
        right
        refine ⟨{ a with consumer := .done none }, ?_,
          ⟨h, hholds.head, hholds.tail, hholds.slots⟩, hR.room,
          hR.producer, rfl, hR.push, trivial⟩
        simp only [BoundedQueue.step, hconsumer, PopPhase.pending, State.pop, hqueue]
      · rw [if_neg hempty] at hstep
        obtain rfl := Option.some.inj hstep
        have hqueue := mt (hholds.head_eq_tail_iff hR.room).mpr hempty
        left
        exact ⟨⟨h, hholds.head, hholds.tail, hholds.slots⟩, hR.room, hR.producer,
          hconsumer, hR.push, rfl, hqueue⟩
  | slotLoaded head elem =>
      rw [hpop] at hstep hconsumer hok
      obtain rfl : head = s.head := hok
      dsimp only at hstep
      by_cases hempty : s.head = s.tail
      · rw [if_pos hempty] at hstep
        obtain rfl := Option.some.inj hstep
        have hqueue := (hholds.head_eq_tail_iff hR.room).mp hempty
        right
        refine ⟨{ a with consumer := .done none }, ?_,
          ⟨h, hholds.head, hholds.tail, hholds.slots⟩, hR.room,
          hR.producer, rfl, hR.push, trivial⟩
        simp only [BoundedQueue.step, hconsumer, PopPhase.pending, State.pop, hqueue]
      · rw [if_neg hempty] at hstep
        obtain rfl := Option.some.inj hstep
        have hqueue := mt (hholds.head_eq_tail_iff hR.room).mpr hempty
        have hread : s.pop.Fresh s.buf s.tail := hfresh
        rw [hpop] at hread
        obtain rfl : s.buf s.head = elem := hread hempty
        left
        exact ⟨⟨h, hholds.head, hholds.tail, hholds.slots⟩, hR.room, hR.producer,
          hconsumer, hR.push, rfl, hholds.slot_head hqueue⟩
  | reading head =>
      rw [hpop] at hstep hconsumer hok
      obtain ⟨rfl, hqueue⟩ := hok
      obtain rfl := Option.some.inj hstep
      left
      exact ⟨⟨h, hholds.head, hholds.tail, hholds.slots⟩, hR.room, hR.producer,
        hconsumer, hR.push, rfl, hholds.slot_head hqueue⟩
  | publishing head elem =>
      rw [hpop] at hstep hconsumer hok
      obtain ⟨rfl, hfirst⟩ := hok
      obtain rfl := Option.some.inj hstep
      obtain ⟨rest, hqueue⟩ := List.head?_eq_some_iff.mp hfirst
      rw [hqueue] at hholds
      have hlen : rest.length ≤ a.queue.length := by
        rw [hqueue]
        exact Nat.le_succ _
      right
      refine ⟨{ a with
          queue := rest
          taken := a.taken ++ [elem]
          consumer := .done (some elem) }, ?_,
        ⟨h + 1, hholds.consume hnext _⟩, hlen.trans_lt hR.room, hR.producer, rfl,
        hR.push.of_le hlen, trivial⟩
      simp only [BoundedQueue.step, hconsumer, PopPhase.pending, State.pop, hqueue]
  | done result =>
      rw [hpop] at hstep
      cases hstep

omit [DecidableEq α] in
/-- The atomic queue does not see that the slot is read ahead of the tail. -/
theorem Refines.loadSlot (hR : Refines capacity next s a) (hstep : s.loadSlot = some s') :
    Refines capacity next s' a := by
  obtain ⟨h, hholds⟩ := hR.holds
  have hok := hR.pop
  have hconsumer := hR.consumer
  unfold Spsc.loadSlot at hstep
  split at hstep
  next head hpop =>
    rw [hpop] at hconsumer hok
    obtain rfl := Option.some.inj hstep
    exact ⟨⟨h, hholds.head, hholds.tail, hholds.slots⟩, hR.room, hR.producer, hconsumer,
      hR.push, hok⟩
  · cases hstep

/-- A call or return is one of the atomic queue. -/
theorem Refines.visible_step (hR : Refines capacity next s a)
    {label : BoundedQueue.Label α}
    (hstep : s.step kind capacity (.visible label) = some s') :
    ∃ a', BoundedQueue.step (capacity - 1) a (.visible label) = some a' ∧
      Refines capacity next s' a' := by
  obtain ⟨h, hholds⟩ := hR.holds
  cases label with
  | pushCall elem =>
      obtain ⟨hphase, heq⟩ := Option.ite_none_right_eq_some.mp hstep
      obtain rfl := Option.some.inj heq
      refine ⟨{ a with producer := .called elem }, if_pos ?_,
        ⟨h, hholds.head, hholds.tail, hholds.slots⟩, hR.room,
        rfl, hR.consumer, trivial, hR.pop⟩
      rw [hR.producer, hphase]
      rfl
  | pushReturn result =>
      obtain ⟨hphase, heq⟩ := Option.ite_none_right_eq_some.mp hstep
      obtain rfl := Option.some.inj heq
      refine ⟨{ a with producer := .idle }, if_pos ?_,
        ⟨h, hholds.head, hholds.tail, hholds.slots⟩, hR.room,
        rfl, hR.consumer, trivial, hR.pop⟩
      rw [hR.producer, hphase]
      rfl
  | popCall =>
      obtain ⟨hphase, heq⟩ := Option.ite_none_right_eq_some.mp hstep
      obtain rfl := Option.some.inj heq
      refine ⟨{ a with consumer := .called () }, if_pos ?_,
        ⟨h, hholds.head, hholds.tail, hholds.slots⟩, hR.room,
        hR.producer, rfl, hR.push, trivial⟩
      rw [hR.consumer, hphase]
      rfl
  | popReturn result =>
      obtain ⟨hphase, heq⟩ := Option.ite_none_right_eq_some.mp hstep
      obtain rfl := Option.some.inj heq
      refine ⟨{ a with consumer := .idle }, if_pos ?_,
        ⟨h, hholds.head, hholds.tail, hholds.slots⟩, hR.room,
        hR.producer, rfl, hR.push, trivial⟩
      rw [hR.consumer, hphase]
      rfl

/-- The atomic queue simulates the queue in its array. -/
theorem simulates (hnext : ∀ i, kind.next capacity (i % capacity) = (i + 1) % capacity) :
    Simulation.Simulates (Spsc.step kind capacity) Spsc.Fresh (@Action.label α)
      (BoundedQueue.step (capacity - 1)) BoundedQueue.Action.label
      (Refines capacity (kind.next capacity)) := by
  intro s a act s' hR hfresh hstep
  cases act with
  | visible label =>
      obtain ⟨a', hstep', hR'⟩ := hR.visible_step hstep
      refine ⟨[.visible label], a', ?_, rfl, hR'⟩
      rw [Machine.run, hstep']
      rfl
  | producer =>
      rcases hR.producer_step hnext hstep with hR' | ⟨a', hstep', hR'⟩
      · exact ⟨[], a, rfl, rfl, hR'⟩
      · refine ⟨[.push], a', ?_, rfl, hR'⟩
        rw [Machine.run, hstep']
        rfl
  | consumer =>
      rcases hR.consumer_step hnext hfresh hstep with hR' | ⟨a', hstep', hR'⟩
      · exact ⟨[], a, rfl, rfl, hR'⟩
      · refine ⟨[.pop], a', ?_, rfl, hR'⟩
        rw [Machine.run, hstep']
        rfl
  | loadSlot =>
      simp only [Spsc.step] at hstep
      split at hstep
      · cases hstep
      · exact ⟨[], a, rfl, rfl, hR.loadSlot hstep⟩

end Step

/-! ## The order of the loads -/

section Order

variable [DecidableEq α] {kind : Kind} {capacity : ℕ} {s s' : Spsc α}

/-- A consumer that acquires the tail has never read a slot ahead of it. -/
def Spsc.InOrder (s : Spsc α) : Prop := ∀ head elem, s.pop ≠ .slotLoaded head elem

theorem Spsc.InOrder.step (h : s.InOrder) (hkind : kind.acquiresTail = true)
    {act : Action α} (hstep : s.step kind capacity act = some s') : s'.InOrder := by
  cases act with
  | visible label =>
      cases label <;> obtain ⟨-, heq⟩ := Option.ite_none_right_eq_some.mp hstep <;>
        obtain rfl := Option.some.inj heq
      · exact h
      · exact h
      · exact fun _ _ => by simp
      · exact fun _ _ => by simp
  | producer =>
      have hpop : s'.pop = s.pop := by
        simp only [Spsc.step, Spsc.producer] at hstep
        split at hstep
        · cases hstep; rfl
        · split at hstep <;> cases hstep <;> rfl
        · cases hstep; rfl
        · cases hstep; rfl
        · cases hstep
        · cases hstep
      intro head elem
      rw [hpop]
      exact h head elem
  | consumer =>
      simp only [Spsc.step, Spsc.consumer] at hstep
      intro head elem
      split at hstep
      · cases hstep; simp
      · split at hstep <;> cases hstep <;> simp
      next head' elem' hpop => exact absurd hpop (h head' elem')
      · cases hstep; simp
      · cases hstep; simp
      · cases hstep
      · cases hstep
  | loadSlot => simp [Spsc.step, hkind] at hstep

/-- So every run of such a queue uses only what has been written. -/
theorem Spsc.allFresh (hkind : kind.acquiresTail = true) (garbage : ℕ → α)
    (acts : List (Action α)) :
    Machine.AllSteps (Spsc.step kind capacity) Spsc.Fresh (Spsc.init garbage) acts := by
  refine (Machine.AllSteps.of_true _ _).imp (I := Spsc.InOrder) ?_ ?_ ?_
  · intro s act s' _ hstep h
    exact h.step hkind hstep
  · intro s act h _
    cases act with
    | consumer =>
        change s.pop.Fresh s.buf s.tail
        cases hpop : s.pop with
        | slotLoaded head elem => exact absurd hpop (h head elem)
        | _ => trivial
    | visible label => trivial
    | producer => trivial
    | loadSlot => trivial
  · exact fun _ _ => by simp [Spsc.init]

end Order

/-- For every capacity that is a power of two, every run in which the consumer uses no
slot that it has read before it was written, and so every run of a queue whose tail is
acquired, has the calls and returns of a run of the atomic queue that holds at most one
element less.  What the atomic queue gives out is what it took in, in the same order; it
fails to take an element in exactly when it is full and to give one out exactly when it
is empty; and it holds what is in the array.  No slot is read behind the tail while it is
written. -/
theorem Spsc.linearizable [DecidableEq α] (kind : Kind) (k : ℕ) (garbage : ℕ → α)
    (acts : List (Action α)) (s : Spsc α)
    (hrun : Machine.run (Spsc.step kind (2 ^ k)) (Spsc.init garbage) acts = some s)
    (hfresh : kind.acquiresTail = true ∨
      Machine.AllSteps (Spsc.step kind (2 ^ k)) Spsc.Fresh (Spsc.init garbage) acts) :
    ∃ acts' a,
      Machine.run (BoundedQueue.step (2 ^ k - 1)) State.init acts' = some a ∧
        acts'.filterMap BoundedQueue.Action.label = acts.filterMap Action.label ∧
        a.accepted = a.taken ++ a.queue ∧ a.queue.length ≤ 2 ^ k - 1 ∧
        s.contents (2 ^ k) = a.queue ∧ ¬ s.Collision := by
  have hpos : 0 < 2 ^ k := Nat.two_pow_pos k
  have hsteps : Machine.AllSteps (Spsc.step kind (2 ^ k)) Spsc.Fresh (Spsc.init garbage)
      acts := by
    rcases hfresh with hkind | hsteps
    · exact Spsc.allFresh hkind garbage acts
    · exact hsteps
  obtain ⟨acts', a, hrun', hlabels, hR⟩ :=
    (simulates (kind.next_mod k)).run (refines_init hpos _ garbage) hsteps hrun
  have hfifo := BoundedQueue.fifo_of_run hrun'
  obtain ⟨h, hholds⟩ := hR.holds
  exact ⟨acts', a, hrun', hlabels, hfifo.accepted, hfifo.bounded,
    hholds.contents hR.room, hR.not_collision⟩

/-- The worker of the message pool finds the queue empty with the slot already read, and
at the next call reads the slot ahead of the tail after it was written. -/
def readAhead : List (Action ℕ) :=
  [.visible .popCall, .consumer, .loadSlot, .consumer, .visible (.popReturn none),
    .visible (.pushCall 5), .producer, .producer, .producer, .visible .popCall,
    .consumer, .loadSlot, .producer, .visible (.pushReturn true), .consumer, .consumer,
    .visible (.popReturn (some 5))]

theorem Spsc.linearizable_readAhead :
    ∃ s, Machine.run (Spsc.step .msgPool (2 ^ 1)) (Spsc.init fun _ => 0) readAhead =
        some s ∧
      ∃ acts' a,
        Machine.run (BoundedQueue.step (2 ^ 1 - 1)) State.init acts' = some a ∧
          acts'.filterMap BoundedQueue.Action.label = readAhead.filterMap Action.label ∧
          a.accepted = a.taken ++ a.queue ∧ a.queue.length ≤ 2 ^ 1 - 1 ∧
          s.contents (2 ^ 1) = a.queue ∧ ¬ s.Collision := by
  have hsome : (Machine.run (Spsc.step .msgPool (2 ^ 1)) (Spsc.init fun _ => 0)
      readAhead).isSome := by
    decide
  have hrun := (Option.some_get hsome).symm
  exact ⟨_, hrun, Spsc.linearizable .msgPool 1 _ _ _ hrun (.inr (by decide))⟩

/-- The worker of the message pool reads the slot, then an element is pushed, then the
worker loads the tail. -/
def staleSlot : List (Action ℕ) :=
  [.visible .popCall, .consumer, .loadSlot, .visible (.pushCall 5), .producer, .producer,
    .producer, .producer, .visible (.pushReturn true), .consumer, .consumer,
    .visible (.popReturn (some 0))]

/-- It takes out what was never pushed, so no run of the atomic queue has these calls
and returns. -/
theorem Spsc.not_linearizable_staleSlot :
    (Machine.run (Spsc.step .msgPool (2 ^ 12)) (Spsc.init fun _ => 0)
        staleSlot).isSome = true ∧
      ¬ ∃ acts' a,
        Machine.run (BoundedQueue.step (2 ^ 12 - 1)) State.init acts' = some a ∧
          acts'.filterMap BoundedQueue.Action.label = staleSlot.filterMap Action.label := by
  refine ⟨by decide, ?_⟩
  rintro ⟨acts', a, hrun, hlabels⟩
  have hreturned : .popReturn (some 0) ∈ acts'.filterMap BoundedQueue.Action.label := by
    rw [hlabels]
    decide
  have hpushed := BoundedQueue.pushed_of_returned hrun hreturned
  rw [hlabels] at hpushed
  revert hpushed
  decide

end SmartNic.Queue
