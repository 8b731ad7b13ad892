import SmartNic.Host.Workers

/-!
# No wake-up of a worker is lost

A thread that sleeps has nothing to do, or whoever gives it something to do has yet
to signal.
-/

namespace SmartNic.Host

open References

namespace Process

/-! ## The steps of the two threads, by phase -/

section Effects

variable {s s' : Process} {useDoorbell : Bool}

/-- A step of the submit thread. -/
inductive SubmitEffect (s : Process) : Process → Prop where
  | pop (a : ℕ) (rest : List ℕ) (hsubmit : s.submit = .idle) (hqueue : s.queue = a :: rest) :
      SubmitEffect s { s with queue := rest, submit := .popped a }
  | request (a : ℕ) (j : Job) (seq status : ℕ) (hsubmit : s.submit = .popped a)
      (hj : s.heap a = some j) :
      SubmitEffect s
        { s.setJob a { j with submitSeq := seq, resultU64 := status } with
          submit := .requested a
          history := { s.history with submitted := s.history.submitted ++ [j.number] } }
  | room (a : ℕ) (hsubmit : s.submit = .requested a)
      (hroom : s.tail - s.head < INFLIGHT_CAP) :
      SubmitEffect s { s with submit := .admitted a }
  | write (a : ℕ) (hsubmit : s.submit = .admitted a) :
      SubmitEffect s
        { s with
          ring := Function.update s.ring (s.tail &&& (INFLIGHT_CAP - 1)) a
          submit := .written a }
  | advance (a : ℕ) (hsubmit : s.submit = .written a) :
      SubmitEffect s { s with tail := s.tail + 1, submit := .idle }

theorem Inv.submitEffect (h : s.Inv) {seq status : ℕ}
    (hstep : s.submitMain seq status = some s') : s.SubmitEffect s' := by
  unfold Process.submitMain at hstep
  cases hsubmit : s.submit with
  | idle =>
      cases hqueue : s.queue with
      | nil => simp [hsubmit, hqueue] at hstep
      | cons a rest =>
          have ha : a ∈ s.pending := by simp [pending, hqueue]
          obtain ⟨j, hj⟩ := h.exists_job (.inl ha)
          simp only [hsubmit, hqueue, access_eq hj] at hstep
          exact Option.some.inj hstep ▸ .pop a rest hsubmit hqueue
  | popped a =>
      have ha : a ∈ s.pending := by simp [pending, hsubmit, SubmitPhase.hand]
      obtain ⟨j, hj⟩ := h.exists_job (.inl ha)
      simp only [hsubmit, access_eq hj] at hstep
      exact Option.some.inj hstep ▸ .request a j seq status hsubmit hj
  | requested a =>
      simp only [hsubmit] at hstep
      split at hstep
      · cases hstep
      next hroom =>
        exact Option.some.inj hstep ▸ .room a hsubmit (Nat.not_le.mp hroom)
  | admitted a =>
      simp only [hsubmit] at hstep
      exact Option.some.inj hstep ▸ .write a hsubmit
  | written a =>
      simp only [hsubmit] at hstep
      exact Option.some.inj hstep ▸ .advance a hsubmit

/-- A step of the completion thread. -/
inductive CompletionEffect (useDoorbell : Bool) (s : Process) : Process → Prop where
  | load (hcompletion : s.completion = .idle) (hlt : s.head < s.tail) :
      CompletionEffect useDoorbell s
        { s with completion := .loaded (s.ring (s.head &&& (INFLIGHT_CAP - 1))) }
  | arrive (a : ℕ) (j : Job) (hcompletion : s.completion = .loaded a)
      (hj : s.heap a = some j) (harrived : s.arrived useDoorbell j = true) :
      CompletionEffect useDoorbell s { s with completion := .arrived a }
  | signal (a : ℕ) (j : Job) (hcompletion : s.completion = .arrived a)
      (hj : s.heap a = some j) :
      CompletionEffect useDoorbell s
        { s.setJob a { j with completed := true } with
          completion := .signalled a
          history := { s.history with completed := s.history.completed ++ [j.number] } }
  | advance (a : ℕ) (hcompletion : s.completion = .signalled a) :
      CompletionEffect useDoorbell s { s with head := s.head + 1, completion := .advanced a }
  | drop (a : ℕ) (j : Job) (hcompletion : s.completion = .advanced a)
      (hj : s.heap a = some j) :
      CompletionEffect useDoorbell s
        { s.setJob a { j with refcnt := j.refcnt - 1 } with
          completion := if j.refcnt - 1 = 0 then .freeing a else .idle
          history := { s.history with dropped := s.history.dropped ++ [j.number] } }
  | free (a : ℕ) (j : Job) (hcompletion : s.completion = .freeing a)
      (hj : s.heap a = some j) :
      CompletionEffect useDoorbell s { s.jobFree a j with completion := .idle }

/-- The job that the completion thread has in hand is there. -/
theorem Inv.exists_current (h : s.Inv) {a : ℕ}
    (ha : s.completion.front = some a ∨ a ∈ s.completion.taken ∨
      a ∈ s.completion.dying) : ∃ j, s.heap a = some j := by
  rcases ha with ha | ha | ha
  · exact h.exists_job (.inl (h.front_mem ha))
  · exact h.exists_job (.inl (List.mem_append_left _ ha))
  · exact h.exists_job (.inr (.inr (List.mem_append_left _ ha)))

theorem Inv.completionEffect (h : s.Inv)
    (hstep : s.completionMain useDoorbell = some s') : s.CompletionEffect useDoorbell s' := by
  unfold Process.completionMain at hstep
  cases hcompletion : s.completion with
  | idle =>
      simp only [hcompletion] at hstep
      split at hstep
      · cases hstep
      next hlt =>
        exact Option.some.inj hstep ▸ .load hcompletion (Nat.not_le.mp hlt)
  | loaded a =>
      obtain ⟨j, hj⟩ := h.exists_current (a := a) (by simp [hcompletion, CompletionPhase.front])
      simp only [hcompletion, access_eq hj] at hstep
      split at hstep
      next harrived => exact Option.some.inj hstep ▸ .arrive a j hcompletion hj harrived
      · cases hstep
  | arrived a =>
      obtain ⟨j, hj⟩ := h.exists_current (a := a) (by simp [hcompletion, CompletionPhase.front])
      simp only [hcompletion, access_eq hj] at hstep
      exact Option.some.inj hstep ▸ .signal a j hcompletion hj
  | signalled a =>
      simp only [hcompletion] at hstep
      exact Option.some.inj hstep ▸ .advance a hcompletion
  | advanced a =>
      obtain ⟨j, hj⟩ := h.exists_current (a := a) (by simp [hcompletion, CompletionPhase.taken])
      simp only [hcompletion, access_eq hj] at hstep
      exact Option.some.inj hstep ▸ .drop a j hcompletion hj
  | freeing a =>
      obtain ⟨j, hj⟩ := h.exists_current (a := a) (by simp [hcompletion, CompletionPhase.dying])
      simp only [hcompletion, access_eq hj] at hstep
      exact Option.some.inj hstep ▸ .free a j hcompletion hj

/-- The threads enqueue nothing. -/
theorem SubmitEffect.enqueued (heffect : s.SubmitEffect s') :
    s'.history.enqueued = s.history.enqueued := by
  cases heffect <;> rfl

theorem CompletionEffect.enqueued (heffect : s.CompletionEffect useDoorbell s') :
    s'.history.enqueued = s.history.enqueued := by
  cases heffect <;> rfl

theorem Inv.enqueued_of_free (h : s.Inv) {a : ℕ} (hstep : s.free a = some s') :
    s'.history.enqueued = s.history.enqueued := by
  unfold Process.free at hstep
  split at hstep
  next ha =>
    obtain ⟨j, hj⟩ := h.exists_job (.inr (.inr (List.mem_append_right _ ha)))
    rw [access_eq hj] at hstep
    obtain rfl := Option.some.inj hstep
    rfl
  · cases hstep

end Effects

/-! ## The flag that waiters look at -/

section Flagged

variable {s s' : Process} {useDoorbell : Bool} {a : ℕ} {j : Job}

/-- A job in the history of completions says so. -/
def Flagged (s : Process) : Prop :=
  ∀ a j, s.heap a = some j → j.number ∈ s.history.completed → j.completed = true

theorem Flagged.of_eq (h : s.Flagged) (hheap : s'.heap = s.heap)
    (hcompleted : s'.history.completed = s.history.completed) : s'.Flagged := by
  intro b i hb hi
  rw [hheap] at hb
  rw [hcompleted] at hi
  exact h b i hb hi

theorem Flagged.update (h : s.Flagged) (j' : Job) (hj : s.heap a = some j)
    (hnumber : j'.number = j.number) (hflag : j'.completed = j.completed)
    (hheap : s'.heap = Function.update s.heap a (some j'))
    (hcompleted : s'.history.completed = s.history.completed) : s'.Flagged := by
  intro b i hb hi
  rw [hheap] at hb
  rw [hcompleted] at hi
  by_cases hba : b = a
  · subst hba
    rw [Function.update_self] at hb
    obtain rfl := Option.some.inj hb
    rw [hflag]
    exact h b j hj (hnumber ▸ hi)
  · rw [Function.update_of_ne hba] at hb
    exact h b i hb hi

theorem Flagged.jobFree (h : s.Flagged) (hheap : s'.heap = Function.update s.heap a none)
    (hcompleted : s'.history.completed = s.history.completed) : s'.Flagged := by
  intro b i hb hi
  rw [hheap] at hb
  rw [hcompleted] at hi
  by_cases hba : b = a
  · subst hba
    rw [Function.update_self] at hb
    cases hb
  · rw [Function.update_of_ne hba] at hb
    exact h b i hb hi

theorem Flagged.enqueue (hf : s.Flagged) (h : s.Inv) {id : ℕ}
    (hstep : s.enqueue a id = some s') : s'.Flagged := by
  unfold Process.enqueue at hstep
  split at hstep
  · cases hstep
  · obtain rfl := Option.some.inj hstep
    intro b i hb hi
    change Function.update s.heap a _ b = some i at hb
    by_cases hba : b = a
    · subst hba
      rw [Function.update_self] at hb
      obtain rfl := Option.some.inj hb
      have hmem : s.history.enqueued.length ∈ s.history.enqueued :=
        (h.completed_prefix.trans ⟨_, h.submitted.symm⟩).subset hi
      rw [h.enqueued, List.mem_range, List.length_range] at hmem
      exact absurd hmem (lt_irrefl _)
    · rw [Function.update_of_ne hba] at hb
      exact hf b i hb hi

theorem Flagged.release (hf : s.Flagged) (h : s.Inv) (hstep : s.release a = some s') :
    s'.Flagged := by
  unfold Process.release at hstep
  split at hstep
  next ha =>
    obtain ⟨j, hj⟩ := h.exists_job (.inr (.inl ha))
    rw [access_eq hj] at hstep
    obtain rfl := Option.some.inj hstep
    exact hf.update { j with refcnt := j.refcnt - 1 } hj rfl rfl rfl rfl
  · cases hstep

theorem Flagged.free (hf : s.Flagged) (h : s.Inv) (hstep : s.free a = some s') :
    s'.Flagged := by
  unfold Process.free at hstep
  split at hstep
  next ha =>
    obtain ⟨j, hj⟩ := h.exists_job (.inr (.inr (List.mem_append_right _ ha)))
    rw [access_eq hj] at hstep
    obtain rfl := Option.some.inj hstep
    exact hf.jobFree rfl rfl
  · cases hstep

theorem Flagged.submit (hf : s.Flagged) (heffect : s.SubmitEffect s') : s'.Flagged := by
  cases heffect with
  | pop a rest hsubmit hqueue => exact hf.of_eq rfl rfl
  | request a j seq status hsubmit hj =>
      exact hf.update { j with submitSeq := seq, resultU64 := status } hj rfl rfl rfl rfl
  | room a hsubmit hroom => exact hf.of_eq rfl rfl
  | write a hsubmit => exact hf.of_eq rfl rfl
  | advance a hsubmit => exact hf.of_eq rfl rfl

theorem Flagged.complete (hf : s.Flagged) (h : s.Inv)
    (heffect : s.CompletionEffect useDoorbell s') : s'.Flagged := by
  cases heffect with
  | load hcompletion hlt => exact hf.of_eq rfl rfl
  | arrive a j hcompletion hj harrived => exact hf.of_eq rfl rfl
  | signal a j hcompletion hj =>
      intro b i hb hi
      change Function.update s.heap a (some { j with completed := true }) b = some i at hb
      by_cases hba : b = a
      · subst hba
        rw [Function.update_self] at hb
        obtain rfl := Option.some.inj hb
        rfl
      · rw [Function.update_of_ne hba] at hb
        rcases List.mem_append.mp hi with hi | hi
        · exact hf b i hb hi
        · have hnumber : i.number = j.number := List.mem_singleton.mp hi
          exact absurd (h.counted.injective b a _ _ (cells_of_heap hb) (cells_of_heap hj)
            hnumber) hba
  | advance a hcompletion => exact hf.of_eq rfl rfl
  | drop a j hcompletion hj =>
      exact hf.update { j with refcnt := j.refcnt - 1 } hj rfl rfl rfl rfl
  | free a j hcompletion hj => exact hf.jobFree rfl rfl

end Flagged

/-! ## What a step leaves to the others -/

section Frames

variable {s s' : Process} {useDoorbell : Bool} {a b : ℕ} {j : Job}

/-- A step of a caller: the threads, the queue and the ring are where they were. -/
structure SameThreads (s s' : Process) : Prop where
  submit : s'.submit = s.submit
  completion : s'.completion = s.completion
  head : s'.head = s.head
  tail : s'.tail = s.tail
  queue : s'.queue = s.queue

/-- A caller with the handle `b` keeps it and sees the same flag. -/
structure Undisturbed (s s' : Process) (b : ℕ) : Prop where
  held : b ∈ s.held → b ∈ s'.held
  flag : ∀ i', s'.heap b = some i' → ∃ i, s.heap b = some i ∧ i'.completed = i.completed

theorem Undisturbed.of_eq (hheld : s'.held = s.held) (hheap : s'.heap = s.heap) :
    s.Undisturbed s' b where
  held hb := hheld ▸ hb
  flag i' hi' := ⟨i', hheap ▸ hi', rfl⟩

theorem Undisturbed.update (j' : Job) (hj : s.heap a = some j)
    (hflag : j'.completed = j.completed) (hheld : b ∈ s.held → b ∈ s'.held)
    (hheap : s'.heap = Function.update s.heap a (some j')) : s.Undisturbed s' b where
  held := hheld
  flag i' hi' := by
    rw [hheap] at hi'
    by_cases hba : b = a
    · subst hba
      rw [Function.update_self] at hi'
      obtain rfl := Option.some.inj hi'
      exact ⟨j, hj, hflag⟩
    · rw [Function.update_of_ne hba] at hi'
      exact ⟨i', hi', rfl⟩

/-- Nobody sees a write to another job. -/
theorem Undisturbed.other {c : Option Job} (hba : b ≠ a) (hheld : b ∈ s.held → b ∈ s'.held)
    (hheap : s'.heap = Function.update s.heap a c) : s.Undisturbed s' b where
  held := hheld
  flag i' hi' := by
    rw [hheap, Function.update_of_ne hba] at hi'
    exact ⟨i', hi', rfl⟩

/-- A new job is only in the queue. -/
theorem enqueue_same {id : ℕ} (hstep : s.enqueue a id = some s') :
    s'.submit = s.submit ∧ s'.completion = s.completion ∧ s'.head = s.head ∧
      s'.tail = s.tail := by
  unfold Process.enqueue at hstep
  split at hstep
  · cases hstep
  · obtain rfl := Option.some.inj hstep
    exact ⟨rfl, rfl, rfl, rfl⟩

theorem Inv.enqueue_undisturbed (h : s.Inv) {id : ℕ} (hstep : s.enqueue a id = some s')
    (hb : b ∈ s.held) : s.Undisturbed s' b := by
  obtain ⟨i, hi⟩ := h.exists_job (.inr (.inl hb))
  unfold Process.enqueue at hstep
  split at hstep
  · cases hstep
  next hnone =>
    obtain rfl := Option.some.inj hstep
    have hba : b ≠ a := by
      rintro rfl
      simp [hi] at hnone
    exact .other hba (fun hb => List.mem_append_left _ hb) rfl

theorem Inv.release_undisturbed (h : s.Inv) (hstep : s.release a = some s') (hba : b ≠ a) :
    s.Undisturbed s' b := by
  unfold Process.release at hstep
  split at hstep
  next ha =>
    obtain ⟨j, hj⟩ := h.exists_job (.inr (.inl ha))
    rw [access_eq hj] at hstep
    obtain rfl := Option.some.inj hstep
    exact .other hba (fun hb => (List.mem_erase_of_ne hba).mpr hb) rfl
  · cases hstep

/-- A job that is being freed is held by nobody. -/
theorem Inv.ne_of_held (h : s.Inv) (ha : a ∈ s.dying) (hb : b ∈ s.held) : b ≠ a := by
  rintro rfl
  exact (h.counted.apart b ha).2 hb

theorem Inv.free_undisturbed (h : s.Inv) (hstep : s.free a = some s') (hb : b ∈ s.held) :
    s.Undisturbed s' b := by
  unfold Process.free at hstep
  split at hstep
  next ha =>
    have hdying : a ∈ s.dying := List.mem_append_right _ ha
    obtain ⟨j, hj⟩ := h.exists_job (.inr (.inr hdying))
    rw [access_eq hj] at hstep
    obtain rfl := Option.some.inj hstep
    exact .other (h.ne_of_held hdying hb) id rfl
  · cases hstep

theorem SubmitEffect.undisturbed (heffect : s.SubmitEffect s') : s.Undisturbed s' b := by
  cases heffect with
  | pop a rest hsubmit hqueue => exact .of_eq rfl rfl
  | request a j seq status hsubmit hj =>
      exact .update { j with submitSeq := seq, resultU64 := status } hj rfl id rfl
  | room a hsubmit hroom => exact .of_eq rfl rfl
  | write a hsubmit => exact .of_eq rfl rfl
  | advance a hsubmit => exact .of_eq rfl rfl

/-- Only the callers that wait for the job that is completed see a difference. -/
theorem CompletionEffect.undisturbed (h : s.Inv)
    (heffect : s.CompletionEffect useDoorbell s') (hb : b ∈ s.held)
    (hsignal : s'.completion ≠ .signalled b) : s.Undisturbed s' b := by
  cases heffect with
  | load hcompletion hlt => exact .of_eq rfl rfl
  | arrive a j hcompletion hj harrived => exact .of_eq rfl rfl
  | signal a j hcompletion hj =>
      have hba : b ≠ a := by
        rintro rfl
        exact hsignal rfl
      exact .other hba id rfl
  | advance a hcompletion => exact .of_eq rfl rfl
  | drop a j hcompletion hj =>
      exact .update { j with refcnt := j.refcnt - 1 } hj rfl id rfl
  | free a j hcompletion hj =>
      have hdying : a ∈ s.dying := by simp [dying, hcompletion, CompletionPhase.dying]
      exact .other (h.ne_of_held hdying hb) id rfl

end Frames

end Process

/-! ## The invariant of the workers -/

namespace Workers

/-- Where the threads are agrees with what they have in hand, and a thread that sleeps
has nothing to do or whoever gives it something to do has yet to signal. -/
structure Threads (w : Workers) : Prop where
  submitting : w.process.submit = .idle ↔ w.submit ≠ .working
  completing : w.completion ≠ .working → w.process.completion = .idle
  loading : w.completion = .working → w.process.completion = .idle →
    w.process.head < w.process.tail
  unlocked : w.completion = .unlocked → w.process.head < w.process.tail ∨ w.stop = true
  sleepSubmit : w.submit = .asleep → w.process.queue = [] ∧ w.stop = false
  sleepCompletion : w.completion = .asleep →
    (w.process.tail ≤ w.process.head ∨ w.submit = .notify) ∧
      (w.stop = false ∨ w.shutdown = .stopped)
  exited : w.submit = .exited ∨ w.completion = .exited → w.stop = true

/-- Which threads there are. -/
structure Control (w : Workers) : Prop where
  started : w.running = false →
    w.submit = .absent ∧ w.completion = .absent ∧ w.shutdown = .idle
  stopped : w.running = true → (w.stop = true ↔ w.shutdown ≠ .idle)
  submitJoined : w.running = true →
    (w.submit = .absent ↔ w.shutdown = .joinCompletion ∨ w.shutdown = .joined)
  completionJoined : w.running = true → (w.completion = .absent ↔ w.shutdown = .joined)

/-- Who waits has a handle, and who sleeps waits for a job that is not completed. -/
structure Callers (w : Workers) : Prop where
  sleepers : ∀ a ∈ w.sleepers, a ∈ w.process.held ∧
    ∀ j, w.process.heap a = some j → j.completed = false
  woken : ∀ a ∈ w.woken, a ∈ w.process.held

structure Inv (w : Workers) : Prop where
  process : w.process.Inv
  flagged : w.process.Flagged
  threads : w.Threads
  control : w.Control
  callers : w.Callers

theorem inv_init : init.Inv where
  process := Process.inv_init
  flagged a j hj := by cases hj
  threads := by constructor <;> simp [init, Process.init]
  control := by constructor <;> simp [init]
  callers := by constructor <;> simp [init]

section Steps

variable {w w' : Workers} {process : Process} {useDoorbell : Bool} {a : ℕ}

/-! ### What a step does not touch -/

/-- The callers do not see a step that leaves their handles and flags alone. -/
theorem Callers.undisturbed (h : w.Callers) (hsleepers : ∀ b ∈ w'.sleepers, b ∈ w.sleepers)
    (hwoken : ∀ b ∈ w'.woken, b ∈ w.woken ∨ b ∈ w.sleepers)
    (hkeep : ∀ b, b ∈ w.sleepers ∨ b ∈ w.woken → b ∈ w'.process.held)
    (hflag : ∀ b ∈ w'.sleepers, w.process.Undisturbed w'.process b) : w'.Callers where
  sleepers b hb := by
    obtain ⟨hheld, hopen⟩ := h.sleepers b (hsleepers b hb)
    refine ⟨(hflag b hb).held hheld, ?_⟩
    intro j' hj'
    obtain ⟨j, hj, hsame⟩ := (hflag b hb).flag j' hj'
    rw [hsame]
    exact hopen j hj
  woken b hb := by
    rcases hwoken b hb with hold | hold
    · exact hkeep b (.inr hold)
    · exact hkeep b (.inl hold)

/-- The threads do not see a step of a caller. -/
theorem Threads.same (h : w.Threads) (hsame : w.process.SameThreads process) :
    ({ w with process } : Workers).Threads := by
  obtain ⟨hsubmit, hcompletion, hhead, htail, hqueue⟩ := hsame
  constructor
  · simpa only [hsubmit] using h.submitting
  · simpa only [hcompletion] using h.completing
  · simpa only [hcompletion, hhead, htail] using h.loading
  · simpa only [hhead, htail] using h.unlocked
  · simpa only [hqueue] using h.sleepSubmit
  · simpa only [hhead, htail] using h.sleepCompletion
  · exact h.exited

theorem Callers.same (h : w.Callers) (hsleepers : w'.sleepers = w.sleepers)
    (hwoken : w'.woken = w.woken)
    (hkeep : ∀ b, b ∈ w.sleepers ∨ b ∈ w.woken → w.process.Undisturbed w'.process b) :
    w'.Callers := by
  refine h.undisturbed (by simp [hsleepers]) (by simp +contextual [hwoken]) ?_ ?_
  · intro b hb
    rcases hb with hb | hb
    · exact (hkeep b (.inl hb)).held (h.sleepers b hb).1
    · exact (hkeep b (.inr hb)).held (h.woken b hb)
  · intro b hb
    exact hkeep b (.inl (hsleepers ▸ hb))

theorem Callers.held (h : w.Callers) {b : ℕ} (hb : b ∈ w.sleepers ∨ b ∈ w.woken) :
    b ∈ w.process.held := by
  rcases hb with hb | hb
  · exact (h.sleepers b hb).1
  · exact h.woken b hb

theorem Inv.ensure (h : w.Inv) : w.ensure.Inv := by
  obtain ⟨hprocess, hflagged, hthreads, hcontrol, hcallers⟩ := h
  unfold Workers.ensure
  dsimp only
  split
  next hrunning =>
    exact ⟨hprocess, hflagged, { hthreads with }, { hcontrol with }, { hcallers with }⟩
  next hrunning =>
    obtain ⟨hsubmit, hcompletion, hshutdown⟩ := hcontrol.started (by simpa using hrunning)
    refine ⟨hprocess, hflagged, ?_, ?_, { hcallers with }⟩
    · have hidle := hthreads.submitting
      have hidle' := hthreads.completing
      constructor <;> simp_all
    · constructor <;> simp_all

/-! ### The signals -/

/-- Whoever signals to the submit thread has given it something to do, or wakes both
threads in turn. -/
theorem Threads.signalQueue (h : w.Threads) {stop : Bool} {shutdown : Shutdown}
    (hsubmit : process.submit = w.process.submit)
    (hcompletion : process.completion = w.process.completion)
    (hhead : process.head = w.process.head) (htail : process.tail = w.process.tail)
    (hstop : stop = w.stop ∧ shutdown = w.shutdown ∨ stop = true ∧ shutdown = .stopped) :
    ({ w.signalQueue with process, stop, shutdown } : Workers).Threads := by
  obtain ⟨hsubmitting, hcompleting, hloading, hunlocked, hsleep, hsleep', hexited⟩ := h
  constructor <;> simp only [Workers.signalQueue, hsubmit, hcompletion, hhead, htail] <;> grind

theorem Control.signalQueue (h : w.Control) : w.signalQueue.Control := by
  obtain ⟨hstarted, hstopped, hsubmit, hcompletion⟩ := h
  constructor <;> simp only [Workers.signalQueue] <;> grind

/-- The completion thread is awake, so what is in the ring does not matter. -/
theorem Threads.signalInflight (h : w.Threads) {submit : SubmitLoop} {shutdown : Shutdown}
    (hsubmit : submit = w.submit ∨ w.submit = .notify ∧ submit = .test) :
    ({ w.signalInflight with submit, shutdown } : Workers).Threads := by
  obtain ⟨hsubmitting, hcompleting, hloading, hunlocked, hsleep, hsleep', hexited⟩ := h
  constructor <;> simp only [Workers.signalInflight] <;> grind

theorem Control.signalInflight (h : w.Control) : w.signalInflight.Control := by
  obtain ⟨hstarted, hstopped, hsubmit, hcompletion⟩ := h
  constructor <;> simp only [Workers.signalInflight] <;> grind

theorem Inv.signalQueue (h : w.Inv) : w.signalQueue.Inv where
  process := h.process
  flagged := h.flagged
  threads := h.threads.signalQueue rfl rfl rfl rfl (.inl ⟨rfl, rfl⟩)
  control := h.control.signalQueue
  callers := { h.callers with }

theorem Inv.signalInflight (h : w.Inv) : w.signalInflight.Inv where
  process := h.process
  flagged := h.flagged
  threads := h.threads.signalInflight (.inl rfl)
  control := h.control.signalInflight
  callers := { h.callers with }

/-! ### The callers -/

theorem Inv.enqueue (h : w.Inv) {id : ℕ} (hstep : w.enqueue a id = some w') : w'.Inv := by
  unfold Workers.enqueue at hstep
  split at hstep
  · cases hstep
  · obtain ⟨process, henqueue, rfl⟩ := Option.map_eq_some_iff.mp hstep
    obtain ⟨hsubmit, hcompletion, hhead, htail⟩ := Process.enqueue_same henqueue
    have hthreads := h.threads.signalQueue hsubmit hcompletion hhead htail (.inl ⟨rfl, rfl⟩)
    refine ⟨h.process.enqueue henqueue, h.flagged.enqueue h.process henqueue,
      { hthreads with }, { h.control.signalQueue with }, ?_⟩
    exact h.callers.same rfl rfl fun b hb =>
      h.process.enqueue_undisturbed henqueue (h.callers.held hb)

theorem Inv.release (h : w.Inv) (hidle : ¬ (a ∈ w.sleepers ∨ a ∈ w.woken))
    (hstep : w.process.release a = some process) : ({ w with process } : Workers).Inv := by
  refine ⟨h.process.release hstep, h.flagged.release h.process hstep, ?_, { h.control with }, ?_⟩
  · apply h.threads.same
    unfold Process.release at hstep
    split at hstep
    next ha =>
      obtain ⟨j, hj⟩ := h.process.exists_job (.inr (.inl ha))
      rw [Process.access_eq hj] at hstep
      obtain rfl := Option.some.inj hstep
      exact ⟨rfl, rfl, rfl, rfl, rfl⟩
    · cases hstep
  · refine h.callers.same rfl rfl ?_
    intro b hb
    apply h.process.release_undisturbed hstep
    rintro rfl
    exact hidle hb

theorem Inv.free (h : w.Inv) (hstep : w.process.free a = some process) :
    ({ w with process } : Workers).Inv := by
  refine ⟨h.process.free hstep, h.flagged.free h.process hstep, ?_, { h.control with }, ?_⟩
  · apply h.threads.same
    unfold Process.free at hstep
    split at hstep
    next ha =>
      obtain ⟨j, hj⟩ := h.process.exists_job (.inr (.inr (List.mem_append_right _ ha)))
      rw [Process.access_eq hj] at hstep
      obtain rfl := Option.some.inj hstep
      exact ⟨rfl, rfl, rfl, rfl, rfl⟩
    · cases hstep
  · refine h.callers.same rfl rfl ?_
    intro b hb
    exact h.process.free_undisturbed hstep (h.callers.held hb)

/-- The DPU writes a doorbell or a finish flag. -/
theorem Inv.signalled (h : w.Inv) (doorbell : ℕ) (finishFlags : ℕ → Option Bool) :
    ({ w with process := { w.process with doorbell, finishFlags } } : Workers).Inv where
  process := { h.process with }
  flagged := h.flagged.of_eq rfl rfl
  threads := h.threads.same ⟨rfl, rfl, rfl, rfl, rfl⟩
  control := { h.control with }
  callers := h.callers.same rfl rfl fun _ _ => .of_eq rfl rfl

theorem Inv.test (h : w.Inv) (hstep : w.process.test a = some process) :
    process = w.process := by
  unfold Process.test at hstep
  split at hstep
  next ha =>
    obtain ⟨j, hj⟩ := h.process.exists_job (.inr (.inl ha))
    rw [Process.access_eq hj] at hstep
    exact (Option.some.inj hstep).symm
  · cases hstep

/-- A caller sees that its job is completed, or goes to sleep. -/
theorem Inv.wait (h : w.Inv) (hstep : w.wait a = some w') : w'.Inv := by
  unfold Workers.wait at hstep
  split at hstep
  next ha =>
    obtain ⟨j, hj⟩ := h.process.exists_job (.inr (.inl ha))
    simp only [hj] at hstep
    obtain rfl := Option.some.inj hstep
    split
    · exact h
    next hopen =>
      refine ⟨h.process, h.flagged, { h.threads with }, { h.control with }, ?_, h.callers.woken⟩
      intro b hb
      rcases List.mem_cons.mp hb with rfl | hb
      · refine ⟨ha, ?_⟩
        intro i hi
        obtain rfl := Option.some.inj (hj.symm.trans hi)
        simpa using hopen
      · exact h.callers.sleepers b hb
  · cases hstep

theorem Inv.wake (h : w.Inv) (hstep : w.wake a = some w') : w'.Inv := by
  unfold Workers.wake at hstep
  split at hstep
  next ha =>
    have hheld := h.callers.woken a ha
    obtain ⟨j, hj⟩ := h.process.exists_job (.inr (.inl hheld))
    simp only [hj] at hstep
    obtain rfl := Option.some.inj hstep
    have hwoken : ∀ b ∈ w.woken.erase a, b ∈ w.process.held :=
      fun b hb => h.callers.woken b (List.mem_of_mem_erase hb)
    split
    · exact ⟨h.process, h.flagged, { h.threads with }, { h.control with },
        h.callers.sleepers, hwoken⟩
    next hopen =>
      refine ⟨h.process, h.flagged, { h.threads with }, { h.control with }, ?_, hwoken⟩
      intro b hb
      rcases List.mem_cons.mp hb with rfl | hb
      · refine ⟨hheld, ?_⟩
        intro i hi
        obtain rfl := Option.some.inj (hj.symm.trans hi)
        simpa using hopen
      · exact h.callers.sleepers b hb
  · cases hstep

theorem Inv.spuriousWait (h : w.Inv) (ha : a ∈ w.sleepers) :
    ({ w with sleepers := w.sleepers.erase a, woken := a :: w.woken } : Workers).Inv := by
  refine ⟨h.process, h.flagged, { h.threads with }, { h.control with }, ?_, ?_⟩
  · intro b hb
    exact h.callers.sleepers b (List.mem_of_mem_erase hb)
  · intro b hb
    rcases List.mem_cons.mp hb with rfl | hb
    · exact (h.callers.sleepers b ha).1
    · exact h.callers.woken b hb

/-! ### The shutdown -/

theorem Inv.beginShutdown (h : w.Inv) (hstep : w.beginShutdown = some w') : w'.Inv := by
  unfold Workers.beginShutdown at hstep
  split at hstep
  next hidle =>
    obtain rfl := Option.some.inj hstep
    split
    next hrunning =>
      refine ⟨h.process, h.flagged, ?_, ?_, { h.callers with }⟩
      · exact h.threads.signalQueue rfl rfl rfl rfl (.inr ⟨rfl, rfl⟩)
      · obtain ⟨hstarted, hstopped, hsubmit, hcompletion⟩ := h.control.signalQueue
        constructor <;> simp only <;> grind [Workers.signalQueue]
    · exact h
  · cases hstep

theorem Inv.nextShutdown_stopped (h : w.Inv) (hshutdown : w.shutdown = .stopped) :
    ({ w.signalInflight with shutdown := .joinSubmit } : Workers).Inv := by
  refine ⟨h.process, h.flagged, h.threads.signalInflight (.inl rfl), ?_, { h.callers with }⟩
  obtain ⟨hstarted, hstopped, hsubmit, hcompletion⟩ := h.control.signalInflight
  constructor <;> simp only <;> grind [Workers.signalInflight]

theorem Inv.nextShutdown_joinSubmit (h : w.Inv) (hshutdown : w.shutdown = .joinSubmit)
    (hexit : w.submit = .exited) :
    ({ w with submit := .absent, shutdown := .joinCompletion } : Workers).Inv := by
  refine ⟨h.process, h.flagged, ?_, ?_, { h.callers with }⟩
  · obtain ⟨hsubmitting, hcompleting, hloading, hunlocked, hsleep, hsleep', hexited⟩ := h.threads
    constructor <;> simp only <;> grind
  · obtain ⟨hstarted, hstopped, hsubmit, hcompletion⟩ := h.control
    constructor <;> simp only <;> grind

theorem Inv.nextShutdown_joinCompletion (h : w.Inv) (hshutdown : w.shutdown = .joinCompletion)
    (hexit : w.completion = .exited) :
    ({ w with completion := .absent, shutdown := .joined } : Workers).Inv := by
  refine ⟨h.process, h.flagged, ?_, ?_, { h.callers with }⟩
  · obtain ⟨hsubmitting, hcompleting, hloading, hunlocked, hsleep, hsleep', hexited⟩ := h.threads
    constructor <;> simp only <;> grind
  · obtain ⟨hstarted, hstopped, hsubmit, hcompletion⟩ := h.control
    constructor <;> simp only <;> grind

theorem Inv.nextShutdown_joined (h : w.Inv) (hshutdown : w.shutdown = .joined) :
    ({ w with running := false, shutdown := .idle } : Workers).Inv := by
  obtain ⟨hstarted, hstopped, hsubmit, hcompletion⟩ := h.control
  refine ⟨h.process, h.flagged, ?_, ?_, { h.callers with }⟩
  · obtain ⟨hsubmitting, hcompleting, hloading, hunlocked, hsleep, hsleep', hexited⟩ := h.threads
    constructor <;> simp only <;> grind
  · constructor <;> simp only <;> grind

theorem Inv.nextShutdown (h : w.Inv) (hstep : w.nextShutdown = some w') : w'.Inv := by
  unfold Workers.nextShutdown at hstep
  split at hstep
  · cases hstep
  next hshutdown => exact Option.some.inj hstep ▸ h.nextShutdown_stopped hshutdown
  next hshutdown =>
    split at hstep
    next hexit => exact Option.some.inj hstep ▸ h.nextShutdown_joinSubmit hshutdown hexit
    · cases hstep
  next hshutdown =>
    split at hstep
    next hexit => exact Option.some.inj hstep ▸ h.nextShutdown_joinCompletion hshutdown hexit
    · cases hstep
  next hshutdown => exact Option.some.inj hstep ▸ h.nextShutdown_joined hshutdown

/-! ### The submit thread -/

/-- The submit thread goes on.  If it has put a job into the ring it has yet to signal. -/
theorem Inv.moveSubmit (h : w.Inv) {submit : SubmitLoop} (hinv : process.Inv)
    (hflagged : process.Flagged) (hcallers : ∀ b, w.process.Undisturbed process b)
    (hold : w.submit ≠ .absent ∧ w.submit ≠ .notify) (hnew : submit ≠ .absent)
    (hsubmitting : process.submit = .idle ↔ submit ≠ .working)
    (hcompletion : process.completion = w.process.completion)
    (hhead : process.head = w.process.head)
    (htail : process.tail = w.process.tail ∨
      w.process.tail ≤ process.tail ∧ submit = .notify)
    (hasleep : submit = .asleep → process.queue = [] ∧ w.stop = false)
    (hexited : submit = .exited → w.stop = true) :
    ({ w with process, submit } : Workers).Inv := by
  have hthreads := h.threads
  have hcontrol := h.control
  have hmono : w.process.tail ≤ process.tail := by
    rcases htail with heq | ⟨hle, -⟩
    · exact heq.ge
    · exact hle
  refine ⟨hinv, hflagged, ?_, ?_, h.callers.same rfl rfl fun b _ => hcallers b⟩
  · constructor
    · exact hsubmitting
    · intro hidle
      exact hcompletion.trans (hthreads.completing hidle)
    · intro hworking hidle
      have hlt := hthreads.loading hworking (hcompletion.symm.trans hidle)
      exact hhead ▸ hlt.trans_le hmono
    · intro hunlocked
      rcases hthreads.unlocked hunlocked with hlt | hstop
      · exact .inl (hhead ▸ hlt.trans_le hmono)
      · exact .inr hstop
    · exact hasleep
    · intro hsleep
      obtain ⟨hring, hstop⟩ := hthreads.sleepCompletion hsleep
      refine ⟨?_, hstop⟩
      rcases htail with heq | ⟨-, hnotify⟩
      · left
        have hempty := hring.resolve_right hold.2
        exact (heq.trans_le hempty).trans_eq hhead.symm
      · exact .inr hnotify
    · rintro (hexit | hexit)
      · exact hexited hexit
      · exact hthreads.exited (.inr hexit)
  · constructor
    · intro hrunning
      exact absurd (hcontrol.started hrunning).1 hold.1
    · exact hcontrol.stopped
    · intro hrunning
      have hjoined := hcontrol.submitJoined hrunning
      simp only [hnew, hold.1] at hjoined ⊢
      exact hjoined
    · exact hcontrol.completionJoined

theorem Inv.submitMain (h : w.Inv) {seq status : ℕ}
    (hstep : w.submitMain seq status = some w') : w'.Inv := by
  have hsame : ∀ b, w.process.Undisturbed w.process b := fun b => .of_eq rfl rfl
  have hsubmitting := h.threads.submitting
  unfold Workers.submitMain at hstep
  split at hstep
  next htest =>
    have hidle : w.process.submit = .idle := hsubmitting.mpr (by simp [htest])
    split at hstep
    next hstop =>
      obtain rfl := Option.some.inj hstep
      exact h.moveSubmit h.process h.flagged hsame (by simp [htest]) (by simp)
        (by simp [hidle]) rfl rfl (.inl rfl) (by simp) fun _ => hstop
    next hstop =>
      split at hstep
      next hqueue =>
        obtain rfl := Option.some.inj hstep
        exact h.moveSubmit h.process h.flagged hsame (by simp [htest]) (by simp)
          (by simp [hidle]) rfl rfl (.inl rfl) (fun _ => ⟨hqueue, by simpa using hstop⟩)
          (by simp)
      next hqueue =>
        obtain ⟨process, hprocess, rfl⟩ := Option.map_eq_some_iff.mp hstep
        have heffect := h.process.submitEffect hprocess
        have hinv := h.process.submitMain hprocess
        have hflagged := h.flagged.submit heffect
        refine h.moveSubmit hinv hflagged (fun b => heffect.undisturbed) (by simp [htest])
          (by simp) ?_ ?_ ?_ ?_ (by simp) (by simp)
        · cases heffect <;> simp_all
        · cases heffect <;> rfl
        · cases heffect <;> rfl
        · cases heffect <;> simp_all
  next hworking =>
    obtain ⟨process, hprocess, rfl⟩ := Option.map_eq_some_iff.mp hstep
    have heffect := h.process.submitEffect hprocess
    have hinv := h.process.submitMain hprocess
    have hflagged := h.flagged.submit heffect
    refine h.moveSubmit hinv hflagged (fun b => heffect.undisturbed) (by simp [hworking])
      ?_ ?_ ?_ ?_ ?_ ?_ ?_
    · split <;> simp
    · split <;> simp_all
    · cases heffect <;> rfl
    · cases heffect <;> rfl
    · cases heffect <;> simp [Process.setJob]
    · split <;> simp
    · split <;> simp
  next hnotify =>
    obtain rfl := Option.some.inj hstep
    refine ⟨h.process, h.flagged, h.threads.signalInflight (.inr ⟨hnotify, rfl⟩), ?_,
      { h.callers with }⟩
    obtain ⟨hstarted, hstopped, hsubmit, hcompletion⟩ := h.control.signalInflight
    constructor <;> simp only <;> grind [Workers.signalInflight]
  · cases hstep

/-! ### The completion thread -/

/-- The completion thread signals: whoever sleeps for the job has to look again. -/
theorem Callers.signalJob (h : w.Callers) (hprocess : w'.process.held = w.process.held)
    (hsleepers : w'.sleepers = w.sleepers.filter (· ≠ a))
    (hwoken : w'.woken = w.woken ++ w.sleepers.filter (· = a))
    (hflag : ∀ b ∈ w.process.held, b ≠ a → w.process.Undisturbed w'.process b) :
    w'.Callers := by
  refine h.undisturbed ?_ ?_ ?_ ?_
  · intro b hb
    rw [hsleepers] at hb
    exact (List.mem_filter.mp hb).1
  · intro b hb
    rw [hwoken] at hb
    rcases List.mem_append.mp hb with hb | hb
    · exact .inl hb
    · exact .inr (List.mem_filter.mp hb).1
  · intro b hb
    rw [hprocess]
    exact h.held hb
  · intro b hb
    rw [hsleepers] at hb
    obtain ⟨hb, hba⟩ := List.mem_filter.mp hb
    exact hflag b (h.sleepers b hb).1 (by simpa using hba)

/-- The completion thread goes on without touching a job. -/
theorem Inv.moveCompletion (h : w.Inv) {completion : CompletionLoop}
    (hold : w.completion ≠ .absent ∧ w.completion ≠ .working)
    (hnew : completion ≠ .absent)
    (hworking : completion = .working → w.process.head < w.process.tail)
    (hunlocked : completion = .unlocked → w.process.head < w.process.tail ∨ w.stop = true)
    (hasleep : completion = .asleep → w.process.tail ≤ w.process.head ∧ w.stop = false)
    (hexited : completion = .exited → w.stop = true) :
    ({ w with completion } : Workers).Inv := by
  have hthreads := h.threads
  have hcontrol := h.control
  refine ⟨h.process, h.flagged, ?_, ?_, { h.callers with }⟩
  · constructor
    · exact hthreads.submitting
    · exact fun _ => hthreads.completing hold.2
    · exact fun heq _ => hworking heq
    · exact hunlocked
    · exact hthreads.sleepSubmit
    · exact fun heq => ⟨.inl (hasleep heq).1, .inl (hasleep heq).2⟩
    · rintro (heq | heq)
      · exact hthreads.exited (.inl heq)
      · exact hexited heq
  · constructor
    · intro hrunning
      exact absurd (hcontrol.started hrunning).2.1 hold.1
    · exact hcontrol.stopped
    · exact hcontrol.submitJoined
    · intro hrunning
      have hjoined := hcontrol.completionJoined hrunning
      simp only [hnew, hold.1] at hjoined ⊢
      exact hjoined

/-- The completion thread works on the job in its hand. -/
theorem Inv.workCompletion (h : w.Inv) (hworking : w.completion = .working)
    (hstep : w.process.completionMain useDoorbell = some process) :
    ({ w with
        process
        completion := if process.completion = .idle then .top else .working } :
      Workers).Threads ∧
    ({ w with
        process
        completion := if process.completion = .idle then .top else .working } :
      Workers).Control := by
  constructor
  · obtain ⟨hsubmitting, hcompleting, hloading, hunlocked, hsleep, hsleep', hexited⟩ := h.threads
    cases h.process.completionEffect hstep <;> constructor <;>
      simp only [Process.setJob, Process.jobFree] <;> grind
  · obtain ⟨hstarted, hstopped, hsubmit, hcompletion⟩ := h.control
    constructor <;> simp only <;> grind

theorem Inv.completionMain (h : w.Inv) (hstep : w.completionMain useDoorbell = some w') :
    w'.Inv := by
  unfold Workers.completionMain at hstep
  split at hstep
  next htop =>
    obtain rfl := Option.some.inj hstep
    apply h.moveCompletion <;> grind
  next hlook =>
    obtain rfl := Option.some.inj hstep
    apply h.moveCompletion <;> grind
  next hlocked =>
    obtain rfl := Option.some.inj hstep
    apply h.moveCompletion <;> grind
  next hunlocked =>
    obtain rfl := Option.some.inj hstep
    have hready := h.threads.unlocked hunlocked
    apply h.moveCompletion <;> grind
  next hworking =>
    obtain ⟨process, hprocess, rfl⟩ := Option.map_eq_some_iff.mp hstep
    have hinv := h.process.completionMain hprocess
    have heffect := h.process.completionEffect hprocess
    have hflagged := h.flagged.complete h.process heffect
    have hkeep : ∀ b, process.completion ≠ .signalled b → b ∈ w.process.held →
        w.process.Undisturbed process b := fun b hb hheld =>
      heffect.undisturbed h.process hheld hb
    obtain ⟨hthreads, hcontrol⟩ := h.workCompletion hworking hprocess
    dsimp only
    split
    next a hsignal =>
      refine ⟨hinv, hflagged, { hthreads with }, { hcontrol with }, ?_⟩
      refine h.callers.signalJob ?_ rfl rfl ?_
      · cases heffect <;> rfl
      · intro b hb hba
        refine hkeep b ?_ hb
        rw [hsignal]
        intro heq
        cases heq
        exact hba rfl
    next hsignal =>
      refine ⟨hinv, hflagged, hthreads, hcontrol, ?_⟩
      exact h.callers.same rfl rfl fun b hb => hkeep b (hsignal b) (h.callers.held hb)
  · cases hstep

/-- Every step keeps the invariant. -/
theorem Inv.step (h : w.Inv) {act : WorkersAction}
    (hstep : w.step useDoorbell act = some w') : w'.Inv := by
  cases act with
  | ensure => exact Option.some.inj hstep ▸ h.ensure
  | enqueue a id => exact h.enqueue hstep
  | outOfMemory =>
      simp only [Workers.step] at hstep
      split at hstep
      · cases hstep
      · obtain rfl := Option.some.inj hstep
        exact ⟨h.process, h.flagged, { h.threads with }, { h.control with },
          { h.callers with }⟩
  | test a =>
      obtain ⟨process, htest, rfl⟩ := Option.map_eq_some_iff.mp hstep
      rw [h.test htest]
      exact h
  | wait a => exact h.wait hstep
  | wake a => exact h.wake hstep
  | release a =>
      simp only [Workers.step] at hstep
      split at hstep
      · cases hstep
      next hidle =>
        obtain ⟨process, hrelease, rfl⟩ := Option.map_eq_some_iff.mp hstep
        exact h.release hidle hrelease
  | free a =>
      obtain ⟨process, hfree, rfl⟩ := Option.map_eq_some_iff.mp hstep
      exact h.free hfree
  | submit seq status => exact h.submitMain hstep
  | complete => exact h.completionMain hstep
  | answer =>
      simp only [Workers.step, Workers.answer] at hstep
      split at hstep
      next a hloaded =>
        split at hstep
        · cases hstep
        next j hj =>
          split_ifs at hstep with harrived hdoorbell
          · obtain rfl := Option.some.inj hstep
            exact h.signalled _ _
          · obtain rfl := Option.some.inj hstep
            exact h.signalled _ _
      · cases hstep
  | doorbell value => exact Option.some.inj hstep ▸ h.signalled _ _
  | finishFlag id entry => exact Option.some.inj hstep ▸ h.signalled _ _
  | beginShutdown => exact h.beginShutdown hstep
  | nextShutdown => exact h.nextShutdown hstep
  | spuriousSubmit =>
      simp only [Workers.step] at hstep
      split at hstep
      · exact Option.some.inj hstep ▸ h.signalQueue
      · cases hstep
  | spuriousCompletion =>
      simp only [Workers.step] at hstep
      split at hstep
      · exact Option.some.inj hstep ▸ h.signalInflight
      · cases hstep
  | spuriousWait a =>
      simp only [Workers.step] at hstep
      split at hstep
      next ha => exact Option.some.inj hstep ▸ h.spuriousWait ha
      · cases hstep

end Steps

end Workers

end SmartNic.Host
