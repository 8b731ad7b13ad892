import Mathlib
import SmartNic.Host.Jobs
import SmartNic.Library.References
import SmartNic.Library.RoundRobin

/-!
# The life of a job

A job waits in the queue, in the hand of the submit thread, in the ring and in
the hand of the completion thread, in this order; all that time the system holds
its reference.  Every job is submitted, completed and freed at most once and in
the order of the calls, and no job is accessed after it has been freed.
-/

namespace SmartNic.Host

open References

/-! ## Where the jobs are -/

/-- The job between the queue and the ring. -/
def SubmitPhase.hand : SubmitPhase → List ℕ
  | .idle => []
  | .popped a => [a]
  | .requested a => [a]
  | .admitted a => [a]
  | .written a => [a]

/-- The job whose request has not been sent. -/
def SubmitPhase.unsubmitted : SubmitPhase → List ℕ
  | .popped a => [a]
  | _ => []

/-- The job that the completion thread looks at in the ring. -/
def CompletionPhase.front : CompletionPhase → Option ℕ
  | .loaded a => some a
  | .arrived a => some a
  | .signalled a => some a
  | _ => none

/-- The job that is completed and still referenced. -/
def CompletionPhase.done : CompletionPhase → List ℕ
  | .signalled a => [a]
  | .advanced a => [a]
  | _ => []

/-- The job that has left the ring and is still referenced. -/
def CompletionPhase.taken : CompletionPhase → List ℕ
  | .advanced a => [a]
  | _ => []

/-- The job that the completion thread has to free. -/
def CompletionPhase.dying : CompletionPhase → List ℕ
  | .freeing a => [a]
  | _ => []

/-- What the submit thread knows of the ring. -/
def SubmitPhase.Ok (ring : ℕ → ℕ) (head tail : ℕ) : SubmitPhase → Prop
  | .admitted _ => tail < head + INFLIGHT_CAP
  | .written a => tail < head + INFLIGHT_CAP ∧ ring (tail % INFLIGHT_CAP) = a
  | _ => True

namespace Process

/-- The jobs in the ring, the oldest first. -/
def inRing (s : Process) : List ℕ :=
  (List.range' s.head (s.tail - s.head)).map fun k => s.ring (k % INFLIGHT_CAP)

/-- The jobs that the system references, the oldest first. -/
def pending (s : Process) : List ℕ :=
  s.completion.taken ++ (s.inRing ++ (s.submit.hand ++ s.queue))

def unsubmitted (s : Process) : List ℕ := s.submit.unsubmitted ++ s.queue

def dying (s : Process) : List ℕ := s.completion.dying ++ s.freeing

/-- The jobs as objects with two references. -/
def cells (s : Process) (a : ℕ) : Option Cell :=
  (s.heap a).map fun j => ⟨j.number, j.refcnt⟩

/-- The invariant of the process. -/
structure Inv (s : Process) : Prop where
  counted : Counted s.cells s.pending s.held s.dying s.history.enqueued.length
    s.history.released s.history.dropped s.history.freed
  enqueued : s.history.enqueued = List.range s.history.enqueued.length
  submitted : s.history.enqueued =
    s.history.submitted ++ numbers s.cells s.unsubmitted
  completed : s.history.completed =
    s.history.dropped ++ numbers s.cells s.completion.done
  head_le : s.head ≤ s.tail
  tail_le : s.tail ≤ s.head + INFLIGHT_CAP
  submit : s.submit.Ok s.ring s.head s.tail
  front : ∀ a ∈ s.completion.front, s.inRing.head? = some a
  head : s.head = s.history.dropped.length + s.completion.taken.length
  fault : s.fault = false

theorem inv_init : Process.init.Inv where
  counted := counted_init
  enqueued := rfl
  submitted := rfl
  completed := rfl
  head_le := le_rfl
  tail_le := Nat.zero_le _
  submit := trivial
  front := fun _ h => by cases h
  head := rfl
  fault := rfl

/-! ## The ring -/

section Ring

variable {s : Process} {a : ℕ}

theorem mask_eq (k : ℕ) : k &&& (INFLIGHT_CAP - 1) = k % INFLIGHT_CAP :=
  Nat.and_two_pow_sub_one_eq_mod k 8

/-- The slot at the tail is not one of a job in the ring. -/
theorem inRing_write {ring : ℕ → ℕ} (htail : s.tail < s.head + INFLIGHT_CAP)
    (hring : ring = Function.update s.ring (s.tail % INFLIGHT_CAP) a)
    (submit : SubmitPhase) :
    ({ s with ring := ring, submit := submit } : Process).inRing = s.inRing := by
  apply List.map_congr_left
  intro k hk
  dsimp only at hk
  rw [List.mem_range'_1] at hk
  subst hring
  exact Function.update_of_ne (RoundRobin.slot_ne (by omega) (by omega)) _ _

/-- Advancing the tail puts the job into the ring. -/
theorem inRing_push (hhead : s.head ≤ s.tail) (submit : SubmitPhase) :
    ({ s with tail := s.tail + 1, submit := submit } : Process).inRing =
      s.inRing ++ [s.ring (s.tail % INFLIGHT_CAP)] := by
  unfold inRing
  dsimp only
  rw [Nat.succ_sub hhead, List.range'_concat, List.map_append, List.map_singleton]
  congr 4
  omega

/-- Advancing the head takes the oldest job out of the ring. -/
theorem inRing_eq_cons (hlt : s.head < s.tail) (completion : CompletionPhase) :
    s.inRing = s.ring (s.head % INFLIGHT_CAP) ::
      ({ s with head := s.head + 1, completion := completion } : Process).inRing := by
  unfold inRing
  dsimp only
  obtain ⟨d, hd⟩ := Nat.exists_eq_add_of_lt hlt
  have hlen : s.tail - s.head = d + 1 := by omega
  have hlen' : s.tail - (s.head + 1) = d := by omega
  rw [hlen, hlen', List.range'_succ, List.map_cons]

theorem head_lt_of_front (ha : s.inRing.head? = some a) : s.head < s.tail := by
  by_contra hnot
  have hzero : s.tail - s.head = 0 := by omega
  rw [inRing, hzero] at ha
  cases ha

end Ring

/-! ## Access to jobs -/

section Access

variable {s : Process} {a : ℕ} {j : Job}

theorem cells_of_heap (hj : s.heap a = some j) :
    s.cells a = some ⟨j.number, j.refcnt⟩ := by
  rw [cells, hj]
  rfl

/-- A referenced or dying job can be accessed. -/
theorem Inv.exists_job (h : s.Inv) (ha : a ∈ s.pending ∨ a ∈ s.held ∨ a ∈ s.dying) :
    ∃ j, s.heap a = some j := by
  obtain ⟨c, hc⟩ := h.counted.exists_cell ha
  obtain ⟨j, hj, -⟩ := Option.map_eq_some_iff.mp hc
  exact ⟨j, hj⟩

theorem access_eq (hj : s.heap a = some j) (f : Job → Option Process) :
    s.access a f = f j := by
  rw [access, hj]

theorem cells_setJob (s : Process) (a : ℕ) (j : Job) :
    (s.setJob a j).cells = Function.update s.cells a (some ⟨j.number, j.refcnt⟩) := by
  funext b
  unfold cells setJob
  dsimp only
  by_cases hb : b = a
  · subst hb
    rw [Function.update_self, Function.update_self]
    rfl
  · rw [Function.update_of_ne hb, Function.update_of_ne hb]

/-- A write that leaves number and count alone is not seen by the references. -/
theorem cells_setJob_of_eq {j' : Job} (hj : s.heap a = some j)
    (hnumber : j'.number = j.number) (hrefcnt : j'.refcnt = j.refcnt) :
    (s.setJob a j').cells = s.cells := by
  rw [cells_setJob, hnumber, hrefcnt, ← cells_of_heap hj, Function.update_eq_self]

theorem cells_jobFree (s : Process) (a : ℕ) (j : Job) :
    (s.jobFree a j).cells = Function.update s.cells a none := by
  funext b
  unfold cells jobFree
  dsimp only
  by_cases hb : b = a
  · subst hb
    rw [Function.update_self, Function.update_self]
    rfl
  · rw [Function.update_of_ne hb, Function.update_of_ne hb]

theorem numbers_update_of_notMem {cells : ℕ → Option Cell} {addrs : List ℕ}
    (ha : a ∉ addrs) (c : Option Cell) :
    numbers (Function.update cells a c) addrs = numbers cells addrs := by
  apply numbers_congr
  intro b hb
  rw [Function.update_of_ne]
  rintro rfl
  exact ha hb

theorem unsubmitted_subset (h : a ∈ s.unsubmitted) : a ∈ s.pending := by
  unfold unsubmitted at h
  unfold pending
  rcases List.mem_append.mp h with h | h
  · cases hsubmit : s.submit with
    | popped b =>
        rw [hsubmit] at h
        simp [SubmitPhase.hand, List.mem_singleton.mp h]
    | idle => simp [hsubmit, SubmitPhase.unsubmitted] at h
    | requested b => simp [hsubmit, SubmitPhase.unsubmitted] at h
    | admitted b => simp [hsubmit, SubmitPhase.unsubmitted] at h
    | written b => simp [hsubmit, SubmitPhase.unsubmitted] at h
  · simp [h]

theorem Inv.front_mem (h : s.Inv) (ha : s.completion.front = some a) :
    a ∈ s.pending := by
  have hmem : a ∈ s.inRing := List.mem_of_head? (h.front a ha)
  simp [pending, hmem]

theorem Inv.done_subset (h : s.Inv) (ha : a ∈ s.completion.done) : a ∈ s.pending := by
  cases hcompletion : s.completion with
  | signalled b =>
      rw [hcompletion] at ha
      obtain rfl := List.mem_singleton.mp ha
      exact h.front_mem (by rw [hcompletion]; rfl)
  | advanced b =>
      rw [hcompletion] at ha
      obtain rfl := List.mem_singleton.mp ha
      simp [pending, hcompletion, CompletionPhase.taken]
  | idle => simp [hcompletion, CompletionPhase.done] at ha
  | loaded b => simp [hcompletion, CompletionPhase.done] at ha
  | arrived b => simp [hcompletion, CompletionPhase.done] at ha
  | freeing b => simp [hcompletion, CompletionPhase.done] at ha

end Access

/-! ## Steps of the callers -/

section Steps

variable {s s' : Process} {a : ℕ} {useDoorbell : Bool}

theorem Inv.enqueue (h : s.Inv) {id : ℕ} (hstep : s.enqueue a id = some s') :
    s'.Inv := by
  unfold Process.enqueue at hstep
  split at hstep
  · cases hstep
  next hnone =>
    obtain rfl := Option.some.inj hstep
    have hfree : s.heap a = none := by simpa using hnone
    have hcell : s.cells a = none := by
      rw [cells, hfree]
      rfl
    have hpending : a ∉ s.pending := by
      intro ha
      obtain ⟨j, hj⟩ := h.exists_job (.inl ha)
      cases hfree.symm.trans hj
    set number := s.history.enqueued.length with hnumber
    have hcells : (s.setJob a ⟨number, id, 0, false, 0, 2⟩).cells =
        Function.update s.cells a (some ⟨number, 2⟩) := cells_setJob _ _ _
    have hlen : (s.history.enqueued ++ [number]).length = number + 1 := by
      rw [List.length_append, List.length_singleton]
    constructor
    · have hcreate := h.counted.create hcell
      rw [← hcells, ← hlen] at hcreate
      have heq : s.pending ++ [a] = s.completion.taken ++
          (s.inRing ++ (s.submit.hand ++ (s.queue ++ [a]))) := by
        simp [pending]
      rw [heq] at hcreate
      exact hcreate
    · change s.history.enqueued ++ [number] =
        List.range (s.history.enqueued ++ [number]).length
      rw [hlen, List.range_succ, ← h.enqueued]
    · change s.history.enqueued ++ [number] = s.history.submitted ++
        numbers (s.setJob a ⟨number, id, 0, false, 0, 2⟩).cells
          (s.submit.unsubmitted ++ (s.queue ++ [a]))
      have hold : numbers (Function.update s.cells a (some ⟨number, 2⟩))
          s.unsubmitted = numbers s.cells s.unsubmitted :=
        numbers_update_of_notMem (fun ha => hpending (unsubmitted_subset ha)) _
      rw [hcells, ← List.append_assoc s.submit.unsubmitted, numbers_append,
        numbers_singleton (Function.update_self _ _ _), ← List.append_assoc]
      refine congrArg (· ++ [number]) ?_
      rw [h.submitted]
      exact congrArg _ hold.symm
    · change s.history.completed = s.history.dropped ++
        numbers (s.setJob a ⟨number, id, 0, false, 0, 2⟩).cells s.completion.done
      rw [hcells, numbers_update_of_notMem fun ha => hpending (h.done_subset ha)]
      exact h.completed
    · exact h.head_le
    · exact h.tail_le
    · exact h.submit
    · exact h.front
    · exact h.head
    · exact h.fault

theorem Inv.release (h : s.Inv) (hstep : s.release a = some s') : s'.Inv := by
  unfold Process.release at hstep
  split at hstep
  next ha =>
    obtain ⟨j, hj⟩ := h.exists_job (.inr (.inl ha))
    rw [access_eq hj] at hstep
    obtain rfl := Option.some.inj hstep
    have hcells : (s.setJob a { j with refcnt := j.refcnt - 1 }).cells =
        Function.update s.cells a (some ⟨j.number, j.refcnt - 1⟩) :=
      cells_setJob _ _ _
    have hnumbers : ∀ l, numbers (s.setJob a { j with refcnt := j.refcnt - 1 }).cells l =
        numbers s.cells l := by
      intro l
      rw [hcells]
      exact numbers_update (cells_of_heap hj) l
    constructor
    · have hrelease := h.counted.release ha (cells_of_heap hj)
      rw [← hcells] at hrelease
      refine hrelease.perm (List.Perm.of_eq ?_)
      change (if j.refcnt - 1 = 0 then (s.completion.dying ++ s.freeing) ++ [a]
        else s.completion.dying ++ s.freeing) =
          s.completion.dying ++ if j.refcnt - 1 = 0 then s.freeing ++ [a] else s.freeing
      split
      · exact List.append_assoc _ _ _
      · rfl
    · exact h.enqueued
    · exact h.submitted.trans (congrArg _ (hnumbers _).symm)
    · exact h.completed.trans (congrArg _ (hnumbers _).symm)
    · exact h.head_le
    · exact h.tail_le
    · exact h.submit
    · exact h.front
    · exact h.head
    · exact h.fault
  · cases hstep

/-- Whoever frees a job, the references stay counted. -/
theorem Inv.jobFree (h : s.Inv) {j : Job} (hj : s.heap a = some j)
    (ha : a ∈ s.dying) {completion : CompletionPhase} {freeing : List ℕ}
    (hdying : (s.dying.erase a).Perm (completion.dying ++ freeing))
    (htaken : completion.taken = s.completion.taken)
    (hdone : completion.done = s.completion.done)
    (hfront : completion.front = s.completion.front) :
    ({ s.jobFree a j with completion := completion, freeing := freeing } :
      Process).Inv := by
  obtain ⟨hpending, -⟩ := h.counted.apart a ha
  have hcells : (s.jobFree a j).cells = Function.update s.cells a none :=
    cells_jobFree _ _ _
  constructor
  · have hfree := (h.counted.free ha (cells_of_heap hj)).perm hdying
    rw [← hcells] at hfree
    have heq : s.pending =
        completion.taken ++ (s.inRing ++ (s.submit.hand ++ s.queue)) := by
      rw [htaken]
      rfl
    rw [heq] at hfree
    exact hfree
  · exact h.enqueued
  · change s.history.enqueued =
      s.history.submitted ++ numbers (s.jobFree a j).cells s.unsubmitted
    rw [hcells, numbers_update_of_notMem fun ha => hpending (unsubmitted_subset ha)]
    exact h.submitted
  · change s.history.completed =
      s.history.dropped ++ numbers (s.jobFree a j).cells completion.done
    rw [hcells, hdone,
      numbers_update_of_notMem fun ha => hpending (h.done_subset ha)]
    exact h.completed
  · exact h.head_le
  · exact h.tail_le
  · exact h.submit
  · intro b hb
    rw [hfront] at hb
    exact h.front b hb
  · change s.head = s.history.dropped.length + completion.taken.length
    rw [htaken]
    exact h.head
  · exact h.fault

theorem Inv.free (h : s.Inv) (hstep : s.free a = some s') : s'.Inv := by
  unfold Process.free at hstep
  split at hstep
  next ha =>
    have hdying : a ∈ s.dying := List.mem_append_right _ ha
    obtain ⟨j, hj⟩ := h.exists_job (.inr (.inr hdying))
    rw [access_eq hj] at hstep
    obtain rfl := Option.some.inj hstep
    have hnot : a ∉ s.completion.dying := by
      intro ha'
      exact (List.nodup_append.mp h.counted.nodup_dying).2.2 a ha' a ha rfl
    refine h.jobFree hj hdying (List.Perm.of_eq ?_) rfl rfl rfl
    exact List.erase_append_right _ hnot
  · cases hstep

/-! ### The submit thread -/

theorem pending_of_submit (hsubmit : SubmitPhase) (queue : List ℕ)
    (hsame : hsubmit.hand ++ queue = s.submit.hand ++ s.queue) :
    ({ s with submit := hsubmit, queue := queue } : Process).pending = s.pending := by
  change s.completion.taken ++ (s.inRing ++ (hsubmit.hand ++ queue)) = s.pending
  rw [hsame]
  rfl

/-- The submit thread takes a job from the queue. -/
theorem Inv.pop (h : s.Inv) {seq status : ℕ}
    (hsubmit : s.submit = .idle)
    (hstep : s.submitMain seq status = some s') : s'.Inv := by
  have hsubmitted := h.submitted
  unfold unsubmitted at hsubmitted
  unfold Process.submitMain at hstep
  rw [hsubmit] at hstep hsubmitted
  dsimp only at hstep
  split at hstep
  · cases hstep
  next a rest hqueue =>
    have ha : a ∈ s.pending := by simp [pending, hqueue]
    obtain ⟨j, hj⟩ := h.exists_job (.inl ha)
    rw [access_eq hj] at hstep
    obtain rfl := Option.some.inj hstep
    have hpending := pending_of_submit (.popped a) rest
      (by rw [hsubmit, hqueue]; rfl)
    constructor
    · rw [hpending]
      exact h.counted
    · exact h.enqueued
    · rw [hqueue] at hsubmitted
      exact hsubmitted
    · exact h.completed
    · exact h.head_le
    · exact h.tail_le
    · trivial
    · exact h.front
    · exact h.head
    · exact h.fault

/-- It has sent the request of its job. -/
theorem Inv.request (h : s.Inv) {seq status : ℕ}
    (hsubmit : s.submit = .popped a)
    (hstep : s.submitMain seq status = some s') : s'.Inv := by
  have hsubmitted := h.submitted
  unfold unsubmitted at hsubmitted
  unfold Process.submitMain at hstep
  rw [hsubmit] at hstep hsubmitted
  have ha : a ∈ s.pending := by simp [pending, hsubmit, SubmitPhase.hand]
  obtain ⟨j, hj⟩ := h.exists_job (.inl ha)
  dsimp only at hstep
  rw [access_eq hj] at hstep
  obtain rfl := Option.some.inj hstep
  have hcells : (s.setJob a { j with submitSeq := seq, resultU64 := status }).cells =
      s.cells := cells_setJob_of_eq hj rfl rfl
  have hpending := pending_of_submit (.requested a) s.queue
    (by rw [hsubmit]; rfl)
  constructor
  · have hcounted := h.counted
    rw [← hcells, ← hpending] at hcounted
    exact hcounted
  · exact h.enqueued
  · change s.history.enqueued = (s.history.submitted ++ [j.number]) ++
      numbers (s.setJob a _).cells s.queue
    rw [hcells, hsubmitted, List.append_assoc]
    exact congrArg _ (numbers_cons (cells_of_heap hj))
  · exact h.completed.trans (congrArg (fun cells =>
      s.history.dropped ++ numbers cells s.completion.done) hcells.symm)
  · exact h.head_le
  · exact h.tail_le
  · trivial
  · exact h.front
  · exact h.head
  · exact h.fault

/-- It has found room in the ring. -/
theorem Inv.admit (h : s.Inv) {seq status : ℕ}
    (hsubmit : s.submit = .requested a)
    (hstep : s.submitMain seq status = some s') : s'.Inv := by
  have hsubmitted := h.submitted
  unfold unsubmitted at hsubmitted
  unfold Process.submitMain at hstep
  rw [hsubmit] at hstep hsubmitted
  dsimp only at hstep
  split at hstep
  · cases hstep
  next hroom =>
    obtain rfl := Option.some.inj hstep
    have hpending := pending_of_submit (.admitted a) s.queue
      (by rw [hsubmit]; rfl)
    constructor
    · rw [hpending]
      exact h.counted
    · exact h.enqueued
    · exact hsubmitted
    · exact h.completed
    · exact h.head_le
    · exact h.tail_le
    · have hle := h.head_le
      change s.tail < s.head + INFLIGHT_CAP
      omega
    · exact h.front
    · exact h.head
    · exact h.fault

/-- It writes the job to the slot at the tail. -/
theorem Inv.writeSlot (h : s.Inv) {seq status : ℕ}
    (hsubmit : s.submit = .admitted a)
    (hstep : s.submitMain seq status = some s') : s'.Inv := by
  have hsubmitOk := h.submit
  have hsubmitted := h.submitted
  unfold unsubmitted at hsubmitted
  unfold Process.submitMain at hstep
  rw [hsubmit] at hstep hsubmitted hsubmitOk
  obtain rfl := Option.some.inj hstep
  rw [mask_eq]
  have hring : ∀ submit, ({ s with
      ring := Function.update s.ring (s.tail % INFLIGHT_CAP) a
      submit := submit } : Process).inRing = s.inRing :=
    fun submit => inRing_write hsubmitOk rfl submit
  constructor
  · have heq : ({ s with
        ring := Function.update s.ring (s.tail % INFLIGHT_CAP) a
        submit := .written a } : Process).pending = s.pending := by
      unfold pending
      rw [hring, hsubmit]
      rfl
    rw [heq]
    exact h.counted
  · exact h.enqueued
  · exact hsubmitted
  · exact h.completed
  · exact h.head_le
  · exact h.tail_le
  · exact ⟨hsubmitOk, Function.update_self _ _ _⟩
  · intro b hb
    rw [hring]
    exact h.front b hb
  · exact h.head
  · exact h.fault

/-- It advances the tail. -/
theorem Inv.advanceTail (h : s.Inv) {seq status : ℕ}
    (hsubmit : s.submit = .written a)
    (hstep : s.submitMain seq status = some s') : s'.Inv := by
  have hsubmitOk := h.submit
  have hsubmitted := h.submitted
  unfold unsubmitted at hsubmitted
  unfold Process.submitMain at hstep
  rw [hsubmit] at hstep hsubmitted hsubmitOk
  obtain rfl := Option.some.inj hstep
  obtain ⟨hroom, hslot⟩ := hsubmitOk
  have hring := inRing_push h.head_le .idle
  constructor
  · have heq : ({ s with tail := s.tail + 1, submit := .idle } : Process).pending =
        s.pending := by
      unfold pending
      rw [hring, hslot, hsubmit]
      simp [SubmitPhase.hand]
    rw [heq]
    exact h.counted
  · exact h.enqueued
  · exact hsubmitted
  · exact h.completed
  · exact h.head_le.trans (Nat.le_succ _)
  · exact hroom
  · trivial
  · intro b hb
    rw [hring, List.head?_append, h.front b hb]
    rfl
  · exact h.head
  · exact h.fault

theorem Inv.submitMain (h : s.Inv) {seq status : ℕ}
    (hstep : s.submitMain seq status = some s') : s'.Inv := by
  cases hsubmit : s.submit with
  | idle => exact h.pop hsubmit hstep
  | popped a => exact h.request hsubmit hstep
  | requested a => exact h.admit hsubmit hstep
  | admitted a => exact h.writeSlot hsubmit hstep
  | written a => exact h.advanceTail hsubmit hstep

/-! ### The completion thread -/

/-- The completion thread loads the job at the head. -/
theorem Inv.loadHead (h : s.Inv) (hcompletion : s.completion = .idle)
    (hstep : s.completionMain useDoorbell = some s') : s'.Inv := by
  have hhead := h.head
  have hcompleted := h.completed
  unfold Process.completionMain at hstep
  rw [hcompletion] at hstep
  dsimp only at hstep
  split at hstep
  · cases hstep
  next hlt =>
    obtain rfl := Option.some.inj hstep
    have hcons := inRing_eq_cons (Nat.lt_of_not_le hlt) s.completion
    constructor
    · have hcounted := h.counted
      unfold pending dying at hcounted
      rw [hcompletion] at hcounted
      exact hcounted
    · exact h.enqueued
    · exact h.submitted
    · rw [hcompletion] at hcompleted
      exact hcompleted
    · exact h.head_le
    · exact h.tail_le
    · exact h.submit
    · intro b hb
      obtain rfl := Option.some.inj hb
      change s.inRing.head? = _
      rw [hcons, mask_eq]
      rfl
    · rw [hcompletion] at hhead
      exact hhead
    · exact h.fault

/-- Its job has arrived. -/
theorem Inv.arrive (h : s.Inv) (hcompletion : s.completion = .loaded a)
    (hstep : s.completionMain useDoorbell = some s') : s'.Inv := by
  have hfront := h.front
  have hhead := h.head
  have hcompleted := h.completed
  unfold Process.completionMain at hstep
  rw [hcompletion] at hstep
  have ha := h.front_mem (by rw [hcompletion]; rfl)
  obtain ⟨j, hj⟩ := h.exists_job (.inl ha)
  dsimp only at hstep
  rw [access_eq hj] at hstep
  split at hstep
  · obtain rfl := Option.some.inj hstep
    constructor
    · have hcounted := h.counted
      unfold pending dying at hcounted
      rw [hcompletion] at hcounted
      exact hcounted
    · exact h.enqueued
    · exact h.submitted
    · rw [hcompletion] at hcompleted
      exact hcompleted
    · exact h.head_le
    · exact h.tail_le
    · exact h.submit
    · rw [hcompletion] at hfront
      exact hfront
    · rw [hcompletion] at hhead
      exact hhead
    · exact h.fault
  · cases hstep

/-- It marks the job as completed. -/
theorem Inv.signal (h : s.Inv) (hcompletion : s.completion = .arrived a)
    (hstep : s.completionMain useDoorbell = some s') : s'.Inv := by
  have hfront := h.front
  have hhead := h.head
  have hcompleted := h.completed
  unfold Process.completionMain at hstep
  rw [hcompletion] at hstep
  have ha := h.front_mem (by rw [hcompletion]; rfl)
  obtain ⟨j, hj⟩ := h.exists_job (.inl ha)
  dsimp only at hstep
  rw [access_eq hj] at hstep
  obtain rfl := Option.some.inj hstep
  have hcells : (s.setJob a { j with completed := true }).cells = s.cells :=
    cells_setJob_of_eq hj rfl rfl
  constructor
  · have hcounted := h.counted
    unfold pending dying at hcounted
    rw [hcompletion, ← hcells] at hcounted
    exact hcounted
  · exact h.enqueued
  · exact h.submitted.trans (congrArg (fun cells =>
      s.history.submitted ++ numbers cells s.unsubmitted) hcells.symm)
  · change s.history.completed ++ [j.number] = s.history.dropped ++
      numbers (s.setJob a { j with completed := true }).cells [a]
    have hnone : numbers s.cells (CompletionPhase.arrived a).done = [] := rfl
    rw [hcells, numbers_singleton (cells_of_heap hj), hcompleted, hcompletion,
      hnone, List.append_nil]
  · exact h.head_le
  · exact h.tail_le
  · exact h.submit
  · rw [hcompletion] at hfront
    exact hfront
  · rw [hcompletion] at hhead
    exact hhead
  · exact h.fault

/-- It advances the head. -/
theorem Inv.advanceHead (h : s.Inv) (hcompletion : s.completion = .signalled a)
    (hstep : s.completionMain useDoorbell = some s') : s'.Inv := by
  have hhead := h.head
  have hcompleted := h.completed
  unfold Process.completionMain at hstep
  rw [hcompletion] at hstep
  obtain rfl := Option.some.inj hstep
  have ha := h.front a (by rw [hcompletion]; rfl)
  have hlt := head_lt_of_front ha
  have hcons := inRing_eq_cons hlt (.advanced a)
  have hslot : s.ring (s.head % INFLIGHT_CAP) = a := by
    rw [hcons] at ha
    exact Option.some.inj ha
  rw [hslot] at hcons
  constructor
  · have hcounted := h.counted
    unfold pending dying at hcounted
    rw [hcompletion, hcons] at hcounted
    exact hcounted
  · exact h.enqueued
  · exact h.submitted
  · rw [hcompletion] at hcompleted
    exact hcompleted
  · exact hlt
  · have := h.tail_le
    change s.tail ≤ s.head + 1 + INFLIGHT_CAP
    omega
  · have hok := h.submit
    change s.submit.Ok s.ring (s.head + 1) s.tail
    cases hsubmit : s.submit with
    | admitted b =>
        rw [hsubmit] at hok
        have hok : s.tail < s.head + INFLIGHT_CAP := hok
        change s.tail < s.head + 1 + INFLIGHT_CAP
        omega
    | written b =>
        rw [hsubmit] at hok
        obtain ⟨hroom, hslot'⟩ := hok
        refine ⟨?_, hslot'⟩
        omega
    | idle => trivial
    | popped b => trivial
    | requested b => trivial
  · intro b hb
    cases hb
  · rw [hcompletion] at hhead
    change s.head + 1 = s.history.dropped.length + 1
    rw [hhead]
    rfl
  · exact h.fault

/-- It gives up the reference of the system. -/
theorem Inv.drop (h : s.Inv) (hcompletion : s.completion = .advanced a)
    (hstep : s.completionMain useDoorbell = some s') : s'.Inv := by
  have hhead := h.head
  have hcompleted := h.completed
  unfold Process.completionMain at hstep
  rw [hcompletion] at hstep
  have hpending : s.pending = a :: (s.inRing ++ (s.submit.hand ++ s.queue)) := by
    rw [pending, hcompletion]
    rfl
  have ha : a ∈ s.pending := by simp [hpending]
  obtain ⟨j, hj⟩ := h.exists_job (.inl ha)
  dsimp only at hstep
  rw [access_eq hj] at hstep
  obtain rfl := Option.some.inj hstep
  have hcells : (s.setJob a { j with refcnt := j.refcnt - 1 }).cells =
      Function.update s.cells a (some ⟨j.number, j.refcnt - 1⟩) :=
    cells_setJob _ _ _
  have hnumbers : ∀ l,
      numbers (s.setJob a { j with refcnt := j.refcnt - 1 }).cells l =
        numbers s.cells l := by
    intro l
    rw [hcells]
    exact numbers_update (cells_of_heap hj) l
  have hdying : s.dying = s.freeing := by
    rw [dying, hcompletion]
    rfl
  set next : CompletionPhase := if j.refcnt - 1 = 0 then .freeing a else .idle
    with hnext
  have hcases : (next = .freeing a ∧ j.refcnt - 1 = 0) ∨
      (next = .idle ∧ j.refcnt - 1 ≠ 0) := by
    by_cases hzero : j.refcnt - 1 = 0
    · exact .inl ⟨by rw [hnext, if_pos hzero], hzero⟩
    · exact .inr ⟨by rw [hnext, if_neg hzero], hzero⟩
  have htaken : next.taken = [] := by
    rcases hcases with ⟨heq, -⟩ | ⟨heq, -⟩ <;> rw [heq] <;> rfl
  have hdone : next.done = [] := by
    rcases hcases with ⟨heq, -⟩ | ⟨heq, -⟩ <;> rw [heq] <;> rfl
  have hnofront : next.front = none := by
    rcases hcases with ⟨heq, -⟩ | ⟨heq, -⟩ <;> rw [heq] <;> rfl
  constructor
  · have hcounted := h.counted
    rw [hpending, hdying] at hcounted
    have hdrop := hcounted.drop (cells_of_heap hj)
    rw [← hcells] at hdrop
    have hperm : (dyingAfter s.freeing a (j.refcnt - 1)).Perm
        (next.dying ++ s.freeing) := by
      unfold dyingAfter
      rcases hcases with ⟨heq, hzero⟩ | ⟨heq, hzero⟩
      · rw [heq, if_pos hzero]
        exact List.perm_append_comm
      · rw [heq, if_neg hzero]
        exact List.Perm.refl _
    have heq : s.inRing ++ (s.submit.hand ++ s.queue) =
        next.taken ++ (s.inRing ++ (s.submit.hand ++ s.queue)) := by
      rw [htaken]
      rfl
    have hfinal := hdrop.perm hperm
    rw [heq] at hfinal
    exact hfinal
  · exact h.enqueued
  · exact h.submitted.trans (congrArg _ (hnumbers _).symm)
  · change s.history.completed = (s.history.dropped ++ [j.number]) ++
      numbers (s.setJob a _).cells next.done
    rw [hdone, hcompleted, hcompletion, CompletionPhase.done,
      numbers_singleton (cells_of_heap hj), numbers, List.filterMap_nil,
      List.append_nil]
  · exact h.head_le
  · exact h.tail_le
  · exact h.submit
  · intro b hb
    change b ∈ next.front at hb
    rw [hnofront] at hb
    cases hb
  · change s.head = (s.history.dropped ++ [j.number]).length + next.taken.length
    rw [htaken, hhead, hcompletion, List.length_append]
    rfl
  · exact h.fault

/-- It frees a job to which nobody refers. -/
theorem Inv.freeCompleted (h : s.Inv) (hcompletion : s.completion = .freeing a)
    (hstep : s.completionMain useDoorbell = some s') : s'.Inv := by
  unfold Process.completionMain at hstep
  rw [hcompletion] at hstep
  have hdying : s.dying = a :: s.freeing := by
    rw [dying, hcompletion]
    rfl
  have ha : a ∈ s.dying := by simp [hdying]
  obtain ⟨j, hj⟩ := h.exists_job (.inr (.inr ha))
  dsimp only at hstep
  rw [access_eq hj] at hstep
  obtain rfl := Option.some.inj hstep
  refine h.jobFree hj ha (List.Perm.of_eq ?_) ?_ ?_ ?_
  · rw [hdying, List.erase_cons_head]
    rfl
  · rw [hcompletion]
    rfl
  · rw [hcompletion]
    rfl
  · rw [hcompletion]
    rfl

theorem Inv.completionMain (h : s.Inv)
    (hstep : s.completionMain useDoorbell = some s') : s'.Inv := by
  cases hcompletion : s.completion with
  | idle => exact h.loadHead hcompletion hstep
  | loaded a => exact h.arrive hcompletion hstep
  | arrived a => exact h.signal hcompletion hstep
  | signalled a => exact h.advanceHead hcompletion hstep
  | advanced a => exact h.drop hcompletion hstep
  | freeing a => exact h.freeCompleted hcompletion hstep

/-- Every step keeps the invariant. -/
theorem Inv.step (h : s.Inv) {act : Action}
    (hstep : s.step useDoorbell act = some s') : s'.Inv := by
  cases act with
  | enqueue a id => exact h.enqueue hstep
  | test a =>
      simp only [Process.step, Process.test] at hstep
      split at hstep
      next ha =>
        obtain ⟨j, hj⟩ := h.exists_job (.inr (.inl ha))
        rw [access_eq hj] at hstep
        exact Option.some.inj hstep ▸ h
      · cases hstep
  | wait a =>
      simp only [Process.step, Process.wait] at hstep
      split at hstep
      next ha =>
        obtain ⟨j, hj⟩ := h.exists_job (.inr (.inl ha))
        rw [access_eq hj] at hstep
        split at hstep
        · exact Option.some.inj hstep ▸ h
        · cases hstep
      · cases hstep
  | release a => exact h.release hstep
  | free a => exact h.free hstep
  | submit seq status => exact h.submitMain hstep
  | complete => exact h.completionMain hstep
  | doorbell value =>
      obtain rfl := Option.some.inj hstep
      exact { h with }
  | finishFlag id entry =>
      obtain rfl := Option.some.inj hstep
      exact { h with }

end Steps

/-! ## The life of a job -/

section Results

variable {s : Process} {useDoorbell : Bool}

/-- What holds of the jobs in every state. -/
structure Lifecycle (useDoorbell : Bool) (s : Process) : Prop where
  noFault : s.fault = false
  enqueued : s.history.enqueued = List.range s.history.enqueued.length
  submitted : s.history.submitted <+: s.history.enqueued
  completed : s.history.completed <+: s.history.submitted
  freedOnce : s.history.freed.Nodup
  freedAfter : ∀ i ∈ s.history.freed, i ∈ s.history.completed ∧
    i ∈ s.history.released ∧ i ∈ s.history.dropped
  freed : ∀ i ∈ s.history.released, i ∈ s.history.dropped →
    i ∈ s.history.freed ∨ ∃ a ∈ s.dying, ∃ j, s.heap a = some j ∧ j.number = i
  room : s.tail ≤ s.head + INFLIGHT_CAP
  ring : ∀ k, s.head ≤ k → k < s.tail →
    ∃ j, s.heap (s.ring (k % INFLIGHT_CAP)) = some j ∧ j.number = k
  progress : (∀ seq status, s.submitMain seq status = none) →
    s.completionMain useDoorbell = none →
    (∀ a j, s.completion = .loaded a → s.heap a = some j →
      s.arrived useDoorbell j = true) →
    s.history.completed = s.history.enqueued

/-- The numbers of referenced jobs, one for each address. -/
theorem Inv.numbers_eq_map (h : s.Inv) {l : List ℕ} (hl : ∀ a ∈ l, a ∈ s.pending) :
    numbers s.cells l = l.map fun a => ((s.cells a).map Cell.number).getD 0 := by
  rw [numbers, ← List.filterMap_eq_map]
  apply List.filterMap_congr
  intro a ha
  obtain ⟨c, hc⟩ := h.counted.exists_cell (.inl (hl a ha))
  rw [Function.comp_apply, hc]
  rfl

theorem Inv.length_numbers (h : s.Inv) {l : List ℕ} (hl : ∀ a ∈ l, a ∈ s.pending) :
    (numbers s.cells l).length = l.length := by
  rw [h.numbers_eq_map hl, List.length_map]

/-- The ring has seen no more jobs than were enqueued. -/
theorem Inv.tail_le_enqueued (h : s.Inv) : s.tail ≤ s.history.enqueued.length := by
  have hlen := congrArg List.length h.counted.order
  rw [List.length_range, List.length_append, h.length_numbers fun _ ha => ha] at hlen
  have hpending : s.completion.taken.length + (s.tail - s.head) ≤ s.pending.length := by
    simp only [pending, inRing, List.length_append, List.length_map, List.length_range']
    omega
  have hhead := h.head
  have hle := h.head_le
  omega

/-- Position `k` of the ring holds job number `k`. -/
theorem Inv.ring_number (h : s.Inv) {k : ℕ} (hge : s.head ≤ k) (hlt : k < s.tail) :
    ∃ j, s.heap (s.ring (k % INFLIGHT_CAP)) = some j ∧ j.number = k := by
  obtain ⟨i, rfl⟩ := Nat.exists_eq_add_of_le hge
  have hlen : s.inRing.length = s.tail - s.head := by
    rw [inRing, List.length_map, List.length_range']
  have hi : i < s.inRing.length := by omega
  have hget : s.inRing[i] = s.ring ((s.head + i) % INFLIGHT_CAP) := by
    simp [inRing]
  have hmem : s.ring ((s.head + i) % INFLIGHT_CAP) ∈ s.pending := by
    have := List.getElem_mem hi
    rw [hget] at this
    simp [pending, this]
  obtain ⟨j, hj⟩ := h.exists_job (.inl hmem)
  refine ⟨j, hj, ?_⟩
  have hring : ∀ a ∈ s.inRing, a ∈ s.pending := fun a ha => by simp [pending, ha]
  have htaken : ∀ a ∈ s.completion.taken, a ∈ s.pending :=
    fun a ha => by simp [pending, ha]
  have horder := h.counted.order
  rw [pending, numbers_append, numbers_append, ← List.append_assoc] at horder
  have hpre : (s.history.dropped ++ numbers s.cells s.completion.taken).length =
      s.head := by
    rw [List.length_append, h.length_numbers htaken, h.head]
  have hleft : (List.range s.history.enqueued.length)[s.head + i]? =
      some j.number := by
    rw [horder, List.getElem?_append_right (by omega), hpre, Nat.add_sub_cancel_left,
      List.getElem?_append_left (by rw [h.length_numbers hring]; exact hi),
      h.numbers_eq_map hring, List.getElem?_map, List.getElem?_eq_getElem hi, hget,
      Option.map_some, cells_of_heap hj]
    rfl
  rw [List.getElem?_eq_some_iff] at hleft
  obtain ⟨hk, hnumber⟩ := hleft
  rw [List.getElem_range] at hnumber
  exact hnumber.symm

/-- What is completed and still referenced are the oldest jobs. -/
theorem Inv.done_prefix (h : s.Inv) : s.completion.done <+: s.pending := by
  unfold pending
  cases hcompletion : s.completion with
  | signalled a =>
      obtain ⟨rest, hrest⟩ :=
        List.head?_eq_some_iff.mp (h.front a (by rw [hcompletion]; rfl))
      rw [hrest]
      exact List.prefix_append [a] _
  | advanced a => exact List.prefix_append [a] _
  | idle => exact List.nil_prefix
  | loaded a => exact List.nil_prefix
  | arrived a => exact List.nil_prefix
  | freeing a => exact List.nil_prefix

/-- The unsubmitted jobs come after all that the completion thread looks at. -/
theorem Inv.length_done (h : s.Inv) :
    s.completion.done.length + s.unsubmitted.length ≤ s.pending.length := by
  have hhand : s.submit.unsubmitted.length ≤ s.submit.hand.length := by
    cases s.submit <;> simp [SubmitPhase.unsubmitted, SubmitPhase.hand]
  have hdone : s.completion.done.length ≤
      s.completion.taken.length + s.inRing.length := by
    cases hcompletion : s.completion with
    | signalled a =>
        obtain ⟨rest, hrest⟩ :=
          List.head?_eq_some_iff.mp (h.front a (by rw [hcompletion]; rfl))
        rw [hrest]
        exact Nat.succ_le_succ (Nat.zero_le _)
    | advanced a => exact Nat.le_add_right _ _
    | idle => exact Nat.zero_le _
    | loaded a => exact Nat.zero_le _
    | arrived a => exact Nat.zero_le _
    | freeing a => exact Nat.zero_le _
  unfold pending unsubmitted
  simp only [List.length_append]
  omega

theorem Inv.completed_prefix (h : s.Inv) :
    s.history.completed <+: s.history.submitted := by
  have henqueued := h.enqueued.trans h.counted.order
  have hsubmitted : s.history.submitted <+: s.history.enqueued :=
    ⟨_, h.submitted.symm⟩
  have hcompleted : s.history.completed <+: s.history.enqueued := by
    rw [h.completed, henqueued]
    exact (List.prefix_append_right_inj _).mpr (h.done_prefix.filterMap _)
  refine List.prefix_of_prefix_length_le hcompleted hsubmitted ?_
  have hlen := congrArg List.length h.submitted
  have hlen' := congrArg List.length henqueued
  have hdone := congrArg List.length h.completed
  have hle := h.length_done
  rw [List.length_append, h.length_numbers fun a ha => unsubmitted_subset ha] at hlen
  rw [List.length_append, h.length_numbers fun a ha => ha] at hlen'
  rw [List.length_append, h.length_numbers fun a ha => h.done_subset ha] at hdone
  omega

/-- When both threads are stuck although the doorbell has arrived, all jobs have
been completed. -/
theorem Inv.all_completed (h : s.Inv)
    (hsubmit : ∀ seq status, s.submitMain seq status = none)
    (hcomplete : s.completionMain useDoorbell = none)
    (harrived : ∀ a j, s.completion = .loaded a → s.heap a = some j →
      s.arrived useDoorbell j = true) :
    s.history.completed = s.history.enqueued := by
  have hidle : s.completion = .idle ∧ s.tail ≤ s.head := by
    unfold Process.completionMain at hcomplete
    cases hcompletion : s.completion with
    | idle =>
        rw [hcompletion] at hcomplete
        dsimp only at hcomplete
        split at hcomplete
        next hle => exact ⟨rfl, hle⟩
        · cases hcomplete
    | loaded a =>
        have ha := h.front_mem (by rw [hcompletion]; rfl)
        obtain ⟨j, hj⟩ := h.exists_job (.inl ha)
        rw [hcompletion] at hcomplete
        dsimp only at hcomplete
        rw [access_eq hj, if_pos (harrived a j hcompletion hj)] at hcomplete
        cases hcomplete
    | arrived a =>
        have ha := h.front_mem (by rw [hcompletion]; rfl)
        obtain ⟨j, hj⟩ := h.exists_job (.inl ha)
        rw [hcompletion] at hcomplete
        dsimp only at hcomplete
        rw [access_eq hj] at hcomplete
        cases hcomplete
    | signalled a =>
        rw [hcompletion] at hcomplete
        cases hcomplete
    | advanced a =>
        have ha : a ∈ s.pending := by
          simp [pending, hcompletion, CompletionPhase.taken]
        obtain ⟨j, hj⟩ := h.exists_job (.inl ha)
        rw [hcompletion] at hcomplete
        dsimp only at hcomplete
        rw [access_eq hj] at hcomplete
        cases hcomplete
    | freeing a =>
        have ha : a ∈ s.dying := by simp [dying, hcompletion, CompletionPhase.dying]
        obtain ⟨j, hj⟩ := h.exists_job (.inr (.inr ha))
        rw [hcompletion] at hcomplete
        dsimp only at hcomplete
        rw [access_eq hj] at hcomplete
        cases hcomplete
  obtain ⟨hcompletion, hempty⟩ := hidle
  have hqueue : s.submit.hand ++ s.queue = [] := by
    have hnone := hsubmit 0 0
    unfold Process.submitMain at hnone
    cases hphase : s.submit with
    | idle =>
        rw [hphase] at hnone
        dsimp only at hnone
        split at hnone
        next hqueue => rw [hqueue]; rfl
        next a rest hqueue =>
          have ha : a ∈ s.pending := by simp [pending, hqueue]
          obtain ⟨j, hj⟩ := h.exists_job (.inl ha)
          rw [access_eq hj] at hnone
          cases hnone
    | popped a =>
        have ha : a ∈ s.pending := by simp [pending, hphase, SubmitPhase.hand]
        obtain ⟨j, hj⟩ := h.exists_job (.inl ha)
        rw [hphase] at hnone
        dsimp only at hnone
        rw [access_eq hj] at hnone
        cases hnone
    | requested a =>
        rw [hphase] at hnone
        dsimp only at hnone
        have hroom : ¬ INFLIGHT_CAP ≤ s.tail - s.head := by
          rw [Nat.sub_eq_zero_of_le hempty]
          decide
        rw [if_neg hroom] at hnone
        cases hnone
    | admitted a =>
        rw [hphase] at hnone
        cases hnone
    | written a =>
        rw [hphase] at hnone
        cases hnone
  have hpending : s.pending = [] := by
    rw [pending, hqueue, hcompletion, inRing, Nat.sub_eq_zero_of_le hempty]
    rfl
  have henqueued := h.enqueued.trans h.counted.order
  rw [hpending] at henqueued
  rw [h.completed, hcompletion, henqueued]
  rfl

theorem Inv.lifecycle (h : s.Inv) : s.Lifecycle useDoorbell where
  noFault := h.fault
  enqueued := h.enqueued
  submitted := ⟨_, h.submitted.symm⟩
  completed := h.completed_prefix
  freedOnce := h.counted.nodup_freed
  freedAfter i hi := by
    obtain ⟨hreleased, hdropped⟩ := h.counted.of_freed hi
    refine ⟨?_, hreleased, hdropped⟩
    rw [h.completed]
    exact List.mem_append_left _ hdropped
  freed i hreleased hdropped := by
    rcases h.counted.freed_or_dying hreleased hdropped with hi | ⟨a, ha, c, hc, rfl⟩
    · exact .inl hi
    · right
      obtain ⟨j, hj, rfl⟩ := Option.map_eq_some_iff.mp hc
      exact ⟨a, ha, j, hj, rfl⟩
  room := h.tail_le
  ring _ hge hlt := h.ring_number hge hlt
  progress := h.all_completed

end Results

/-- In every run, whichever way the completion is signalled: no job is accessed
after it has been freed; the jobs are submitted and completed at most once and in
the order of the calls; each is freed at most once, after both references were
dropped, and then it is; the ring never overflows and each of its positions holds
its job until it is consumed; and when both threads are stuck although the doorbell
has arrived, all jobs have been completed. -/
theorem job_lifecycle (useDoorbell : Bool) (acts : List Action) (s : Process)
    (hrun : Machine.run (Process.step useDoorbell) Process.init acts = some s) :
    s.Lifecycle useDoorbell := by
  have hinv : s.Inv :=
    Machine.run_invariant (fun _ _ _ hstep h => h.step hstep) hrun inv_init
  exact hinv.lifecycle

/-- A caller releases its job before it is completed and its memory is used again
for the next one. -/
def releasedEarly : List Action :=
  [.enqueue 8 1, .release 8, .submit 5 0, .submit 5 0, .submit 5 0, .submit 5 0,
    .submit 5 0, .complete, .doorbell 5, .complete, .complete, .complete, .complete,
    .complete, .enqueue 8 2, .submit 6 0]

theorem job_lifecycle_releasedEarly :
    ∃ s, Machine.run (Process.step true) Process.init releasedEarly = some s ∧
      s.history.freed = [0] ∧ s.Lifecycle true := by
  have hend : (Machine.run (Process.step true) Process.init releasedEarly).map
      (fun s => s.history.freed) = some [0] := by
    decide
  obtain ⟨s, hrun, hfreed⟩ := Option.map_eq_some_iff.mp hend
  exact ⟨s, hrun, hfreed, job_lifecycle true _ s hrun⟩

end Process

end SmartNic.Host
