import SmartNic.Host.WorkersInvariant

/-!
# The workers go on

Every step of work that is under way makes a measure smaller.  Where none is
possible while the threads run, all jobs have been completed and nobody waits,
unless a shutdown has found the ring full.
-/

namespace SmartNic.Host

/-! ## The measure -/

/-- How much the submit thread has left to do with the job in its hand.  Advancing
the tail leaves the job to the completion thread. -/
def SubmitPhase.left : SubmitPhase → ℕ
  | .idle => 0
  | .popped _ => 24
  | .requested _ => 22
  | .admitted _ => 21
  | .written _ => 20

def SubmitLoop.left (phase : SubmitPhase) : SubmitLoop → ℕ
  | .test => 1
  | .working => phase.left
  | .notify => 8
  | _ => 0

def CompletionLoop.left (working : ℕ) : CompletionLoop → ℕ
  | .top => 8
  | .look => 7
  | .locked => 6
  | .unlocked => 5
  | .working => working
  | _ => 0

theorem CompletionLoop.left_signalled (working : ℕ) (completion : CompletionLoop) :
    (if completion = .asleep then .locked else completion : CompletionLoop).left working ≤
      completion.left working + 6 := by
  cases completion <;> simp [CompletionLoop.left]

def Shutdown.left : Shutdown → ℕ
  | .idle => 0
  | .stopped => 10
  | .joinSubmit => 3
  | .joinCompletion => 2
  | .joined => 1

namespace Process

/-- The same for the completion thread. -/
def completionLeft (useDoorbell : Bool) (s : Process) : ℕ :=
  match s.completion with
  | .idle => 4
  | .loaded a =>
      match s.heap a with
      | some j => if s.arrived useDoorbell j then 2 else 3
      | none => 2
  | .arrived _ => 1
  | .signalled _ => 0
  | .advanced _ => 10
  | .freeing _ => 9

/-- How often a caller that was woken looks at its job. -/
def lookLeft (s : Process) (a : ℕ) : ℕ :=
  match s.heap a with
  | some j => if j.completed then 1 else 3
  | none => 1

def looksLeft (s : Process) : List ℕ → ℕ
  | [] => 0
  | a :: rest => s.lookLeft a + s.looksLeft rest

section Looks

variable {s s' : Process} {useDoorbell : Bool} {a b : ℕ} {j : Job}

theorem looksLeft_append (s : Process) (l l' : List ℕ) :
    s.looksLeft (l ++ l') = s.looksLeft l + s.looksLeft l' := by
  induction l with
  | nil => rw [List.nil_append, looksLeft, Nat.zero_add]
  | cons a l ih => rw [List.cons_append, looksLeft, looksLeft, ih, Nat.add_assoc]

theorem looksLeft_erase {l : List ℕ} (ha : a ∈ l) :
    s.looksLeft l = s.lookLeft a + s.looksLeft (l.erase a) := by
  induction l with
  | nil => cases ha
  | cons b l ih =>
      by_cases hba : b = a
      · rw [hba, List.erase_cons_head, looksLeft]
      · have ha' := (List.mem_cons.mp ha).resolve_left fun heq => hba heq.symm
        rw [List.erase_cons_tail (by simpa using hba), looksLeft, looksLeft, ih ha']
        omega

theorem looksLeft_mono {l : List ℕ} (h : ∀ b ∈ l, s'.lookLeft b ≤ s.lookLeft b) :
    s'.looksLeft l ≤ s.looksLeft l := by
  induction l with
  | nil => exact le_rfl
  | cons b l ih =>
      have hhead := h b (List.mem_cons_self ..)
      have htail := ih fun c hc => h c (List.mem_cons_of_mem _ hc)
      exact Nat.add_le_add hhead htail

theorem looksLeft_le_length {l : List ℕ} (h : ∀ b ∈ l, s.lookLeft b ≤ 1) :
    s.looksLeft l ≤ l.length := by
  induction l with
  | nil => exact le_rfl
  | cons b l ih =>
      have hhead := h b (List.mem_cons_self ..)
      have htail := ih fun c hc => h c (List.mem_cons_of_mem _ hc)
      rw [looksLeft, List.length_cons]
      omega

theorem lookLeft_of_completed (hj : s.heap a = some j) (hflag : j.completed = true) :
    s.lookLeft a = 1 := by
  rw [lookLeft, hj]
  exact if_pos hflag

/-- A caller has no more to look at than before. -/
theorem lookLeft_le (hheap : ∀ i', s'.heap b = some i' →
    i'.completed = true ∨ ∃ i, s.heap b = some i ∧ i'.completed = i.completed) :
    s'.lookLeft b ≤ s.lookLeft b := by
  unfold lookLeft
  cases hb : s'.heap b with
  | none =>
      dsimp only
      split
      · split <;> decide
      · exact le_rfl
  | some i' =>
      rcases hheap i' hb with hflag | ⟨i, hi, hsame⟩
      · dsimp only
        rw [if_pos hflag]
        split
        · split <;> decide
        · exact le_rfl
      · simp only [hi, hsame, le_refl]

theorem Undisturbed.lookLeft_le (h : s.Undisturbed s' b) : s'.lookLeft b ≤ s.lookLeft b :=
  Process.lookLeft_le fun i' hi' => .inr (h.flag i' hi')

theorem completionLeft_loaded_le (useDoorbell : Bool) (h : s.completion = .loaded a) :
    2 ≤ s.completionLeft useDoorbell ∧ s.completionLeft useDoorbell ≤ 3 := by
  simp only [completionLeft, h]
  split
  · split <;> decide
  · decide

/-- The request of another job may be the one that the completion thread waits for. -/
theorem SubmitEffect.completionLeft_le (heffect : s.SubmitEffect s') :
    s'.completionLeft useDoorbell ≤ s.completionLeft useDoorbell + 1 := by
  have hcompletion : s'.completion = s.completion := by cases heffect <;> rfl
  cases hphase : s.completion with
  | loaded a =>
      have hnew := completionLeft_loaded_le useDoorbell (hcompletion.trans hphase)
      have hold := completionLeft_loaded_le useDoorbell hphase
      omega
  | idle => simp [completionLeft, hcompletion, hphase]
  | arrived a => simp [completionLeft, hcompletion, hphase]
  | signalled a => simp [completionLeft, hcompletion, hphase]
  | advanced a => simp [completionLeft, hcompletion, hphase]
  | freeing a => simp [completionLeft, hcompletion, hphase]

theorem SubmitEffect.completionLeft_eq (useDoorbell : Bool) (heffect : s.SubmitEffect s')
    (hrequest : ∀ a, s'.submit ≠ .requested a) :
    s'.completionLeft useDoorbell = s.completionLeft useDoorbell := by
  cases heffect with
  | pop a rest hsubmit hqueue => rfl
  | request a j seq status hsubmit hj => exact absurd rfl (hrequest a)
  | room a hsubmit hroom => rfl
  | write a hsubmit => rfl
  | advance a hsubmit => rfl

/-- The completion thread is at the top of its loop again when it has dropped a job. -/
theorem CompletionEffect.left_lt (h : s.Inv) (heffect : s.CompletionEffect useDoorbell s') :
    11 * (s'.tail - s'.head) +
        (if s'.completion = .idle then .top else .working : CompletionLoop).left
          (s'.completionLeft useDoorbell) <
      11 * (s.tail - s.head) + s.completionLeft useDoorbell := by
  cases heffect with
  | load hcompletion hlt =>
      have hold : s.completionLeft useDoorbell = 4 := by simp [completionLeft, hcompletion]
      have hnew := completionLeft_loaded_le useDoorbell (s := { s with
        completion := .loaded (s.ring (s.head &&& (INFLIGHT_CAP - 1))) }) rfl
      rw [hold, if_neg (by simp), CompletionLoop.left]
      exact Nat.add_lt_add_left (Nat.lt_succ_of_le hnew.2) _
  | arrive a j hcompletion hj harrived =>
      have hold : s.completionLeft useDoorbell = 2 := by
        simp [completionLeft, hcompletion, hj, harrived]
      rw [hold]
      exact Nat.lt_succ_self _
  | signal a j hcompletion hj =>
      have hold : s.completionLeft useDoorbell = 1 := by simp [completionLeft, hcompletion]
      rw [hold]
      exact Nat.lt_succ_self _
  | advance a hcompletion =>
      have hold : s.completionLeft useDoorbell = 0 := by simp [completionLeft, hcompletion]
      have hlt := head_lt_of_front (h.front a (by rw [hcompletion]; rfl))
      rw [hold]
      change 11 * (s.tail - (s.head + 1)) + 10 < _
      omega
  | drop a j hcompletion hj =>
      have hold : s.completionLeft useDoorbell = 10 := by simp [completionLeft, hcompletion]
      rw [hold]
      by_cases hzero : j.refcnt - 1 = 0
      · simp only [hzero, if_true]
        exact Nat.lt_succ_self _
      · simp only [hzero, if_false]
        exact Nat.add_lt_add_left (show 8 < 10 by decide) _
  | free a j hcompletion hj =>
      have hold : s.completionLeft useDoorbell = 9 := by simp [completionLeft, hcompletion]
      rw [hold]
      exact Nat.lt_succ_self _

end Looks

end Process

namespace Workers

/-- What is left to do. -/
def left (useDoorbell : Bool) (w : Workers) : ℕ :=
  24 * w.process.queue.length + w.submit.left w.process.submit +
    11 * (w.process.tail - w.process.head) +
    w.completion.left (w.process.completionLeft useDoorbell) + w.shutdown.left +
    2 * w.sleepers.length + w.process.looksLeft w.woken + w.process.freeing.length

section Measure

variable {w w' : Workers} {process : Process} {useDoorbell : Bool} {a : ℕ}

/-- A step of the submit thread. -/
theorem left_lt_of_submit {submit : SubmitLoop} (hfreeing : process.freeing = w.process.freeing)
    (hlooks : process.looksLeft w.woken ≤ w.process.looksLeft w.woken)
    (hlt : 24 * process.queue.length + submit.left process.submit +
        11 * (process.tail - process.head) +
        w.completion.left (process.completionLeft useDoorbell) <
      24 * w.process.queue.length + w.submit.left w.process.submit +
        11 * (w.process.tail - w.process.head) +
        w.completion.left (w.process.completionLeft useDoorbell)) :
    ({ w with process, submit } : Workers).left useDoorbell < w.left useDoorbell := by
  simp only [left, hfreeing]
  omega

/-- A step of the completion thread, which may wake callers. -/
theorem left_lt_of_completion {completion : CompletionLoop} {sleepers woken : List ℕ}
    (hqueue : process.queue = w.process.queue) (hsubmit : process.submit = w.process.submit)
    (hfreeing : process.freeing = w.process.freeing)
    (hcallers : 2 * sleepers.length + process.looksLeft woken ≤
      2 * w.sleepers.length + w.process.looksLeft w.woken)
    (hlt : 11 * (process.tail - process.head) +
        completion.left (process.completionLeft useDoorbell) <
      11 * (w.process.tail - w.process.head) +
        w.completion.left (w.process.completionLeft useDoorbell)) :
    ({ w with process, completion, sleepers, woken } : Workers).left useDoorbell <
      w.left useDoorbell := by
  simp only [left, hqueue, hsubmit, hfreeing]
  omega

theorem Inv.wake_left (h : w.Inv) (hstep : w.wake a = some w') :
    w'.left useDoorbell < w.left useDoorbell := by
  unfold Workers.wake at hstep
  split at hstep
  next ha =>
    obtain ⟨j, hj⟩ := h.process.exists_job (.inr (.inl (h.callers.woken a ha)))
    simp only [hj] at hstep
    obtain rfl := Option.some.inj hstep
    have herase := Process.looksLeft_erase (s := w.process) ha
    split
    next hdone =>
      rw [Process.lookLeft_of_completed hj hdone] at herase
      simp only [left]
      omega
    next hopen =>
      have hlook : w.process.lookLeft a = 3 := by
        rw [Process.lookLeft, hj]
        exact if_neg hopen
      simp only [left, List.length_cons]
      omega
  · cases hstep

/-- The completion thread waits for another job than the one that a caller frees. -/
theorem Inv.free_completionLeft (h : w.Inv) (hstep : w.process.free a = some process) :
    process.completionLeft useDoorbell = w.process.completionLeft useDoorbell := by
  unfold Process.free at hstep
  split at hstep
  next ha =>
    have hdying : a ∈ w.process.dying := List.mem_append_right _ ha
    obtain ⟨j, hj⟩ := h.process.exists_job (.inr (.inr hdying))
    rw [Process.access_eq hj] at hstep
    obtain rfl := Option.some.inj hstep
    unfold Process.completionLeft
    cases hphase : w.process.completion with
    | loaded b =>
        have hba : b ≠ a := by
          rintro rfl
          have hb := h.process.front_mem (a := b) (by rw [hphase]; rfl)
          exact (h.process.counted.apart b hdying).1 hb
        simp only [Process.jobFree, hphase, Function.update_of_ne hba]
        rfl
    | idle => simp [Process.jobFree, hphase]
    | arrived b => simp [Process.jobFree, hphase]
    | signalled b => simp [Process.jobFree, hphase]
    | advanced b => simp [Process.jobFree, hphase]
    | freeing b => simp [Process.jobFree, hphase]
  · cases hstep

theorem Inv.free_left (h : w.Inv) (hstep : w.process.free a = some process) :
    ({ w with process } : Workers).left useDoorbell < w.left useDoorbell := by
  have hlooks : process.looksLeft w.woken ≤ w.process.looksLeft w.woken :=
    Process.looksLeft_mono fun b hb =>
      (h.process.free_undisturbed hstep (h.callers.woken b hb)).lookLeft_le
  have hwork : process.completionLeft useDoorbell = w.process.completionLeft useDoorbell :=
    h.free_completionLeft hstep
  simp only [left, hwork]
  unfold Process.free at hstep
  split at hstep
  next ha =>
    obtain ⟨j, hj⟩ := h.process.exists_job (.inr (.inr (List.mem_append_right _ ha)))
    rw [Process.access_eq hj] at hstep
    have hfreeing := List.length_erase_of_mem ha
    have hpos := List.length_pos_of_mem ha
    generalize process.looksLeft w.woken = looks at hlooks ⊢
    obtain rfl := Option.some.inj hstep
    simp only [Process.jobFree, hfreeing]
    omega
  · cases hstep

theorem Inv.submitMain_left (h : w.Inv) {seq status : ℕ}
    (hstep : w.submitMain seq status = some w') :
    w'.left useDoorbell < w.left useDoorbell := by
  unfold Workers.submitMain at hstep
  split at hstep
  next htest =>
    split at hstep
    next hstop =>
      obtain rfl := Option.some.inj hstep
      simp [left, htest, SubmitLoop.left]
    next hstop =>
      split at hstep
      next hqueue =>
        obtain rfl := Option.some.inj hstep
        simp [left, htest, SubmitLoop.left]
      next hqueue =>
        obtain ⟨process, hprocess, rfl⟩ := Option.map_eq_some_iff.mp hstep
        have hidle := h.threads.submitting.mpr (by simp [htest])
        have heffect := h.process.submitEffect hprocess
        have hlooks : process.looksLeft w.woken ≤ w.process.looksLeft w.woken :=
          Process.looksLeft_mono fun b _ => heffect.undisturbed.lookLeft_le
        cases heffect with
        | pop a rest hsubmit hqueue =>
            refine left_lt_of_submit rfl hlooks ?_
            have hwork : ({ w.process with queue := rest, submit := .popped a } :
                Process).completionLeft useDoorbell = w.process.completionLeft useDoorbell := rfl
            simp only [htest, hqueue, hwork, SubmitLoop.left, SubmitPhase.left,
              List.length_cons]
            omega
        | request a j seq status hsubmit hj => simp [hidle] at hsubmit
        | room a hsubmit hroom => simp [hidle] at hsubmit
        | write a hsubmit => simp [hidle] at hsubmit
        | advance a hsubmit => simp [hidle] at hsubmit
  next hworking =>
    obtain ⟨process, hprocess, rfl⟩ := Option.map_eq_some_iff.mp hstep
    have hhead := h.process.head_le
    have heffect := h.process.submitEffect hprocess
    have hfreeing : process.freeing = w.process.freeing := by cases heffect <;> rfl
    have hlooks : process.looksLeft w.woken ≤ w.process.looksLeft w.woken :=
      Process.looksLeft_mono fun b _ => heffect.undisturbed.lookLeft_le
    have hloop : w.completion.left (process.completionLeft useDoorbell) ≤
        w.completion.left (w.process.completionLeft useDoorbell) + 1 := by
      cases w.completion <;> simp [CompletionLoop.left]
      exact heffect.completionLeft_le
    have hsame : (∀ a, process.submit ≠ .requested a) →
        w.completion.left (process.completionLeft useDoorbell) =
          w.completion.left (w.process.completionLeft useDoorbell) := fun hrequest =>
      congrArg w.completion.left (heffect.completionLeft_eq useDoorbell hrequest)
    refine left_lt_of_submit hfreeing hlooks ?_
    generalize w.completion.left (process.completionLeft useDoorbell) = work at hloop hsame ⊢
    cases heffect with
    | pop a rest hsubmit hqueue =>
        exact absurd hworking (h.threads.submitting.mp hsubmit)
    | request a j seq status hsubmit hj =>
        simp only [Process.setJob, hworking, hsubmit, SubmitLoop.left, SubmitPhase.left,
          reduceCtorEq, if_false]
        omega
    | room a hsubmit hroom =>
        have hwork := hsame (by simp)
        simp only [hworking, hsubmit, SubmitLoop.left, SubmitPhase.left, reduceCtorEq, if_false]
        omega
    | write a hsubmit =>
        have hwork := hsame (by simp)
        simp only [hworking, hsubmit, SubmitLoop.left, SubmitPhase.left, reduceCtorEq, if_false]
        omega
    | advance a hsubmit =>
        have hwork := hsame (by simp)
        simp only [hworking, hsubmit, SubmitLoop.left, SubmitPhase.left, if_true]
        omega
  next hnotify =>
    obtain rfl := Option.some.inj hstep
    have hsignal := w.completion.left_signalled (w.process.completionLeft useDoorbell)
    simp only [left, Workers.signalInflight, hnotify, SubmitLoop.left]
    omega
  · cases hstep

/-- The callers that slept for the completed job look at it once more. -/
theorem Inv.signal_left (h : w.Inv) (hj : ∃ j, process.heap a = some j ∧ j.completed = true)
    (hkeep : ∀ b ∈ w.process.held, b ≠ a → w.process.Undisturbed process b) :
    2 * (w.sleepers.filter (· ≠ a)).length +
        process.looksLeft (w.woken ++ w.sleepers.filter (· = a)) ≤
      2 * w.sleepers.length + w.process.looksLeft w.woken := by
  obtain ⟨j, hj, hdone⟩ := hj
  have hwoken : process.looksLeft w.woken ≤ w.process.looksLeft w.woken := by
    apply Process.looksLeft_mono
    intro b hb
    by_cases hba : b = a
    · subst hba
      exact Process.lookLeft_le fun i' hi' =>
        .inl (Option.some.inj (hj.symm.trans hi') ▸ hdone)
    · exact (hkeep b (h.callers.woken b hb) hba).lookLeft_le
  have hnew : process.looksLeft (w.sleepers.filter (· = a)) ≤
      (w.sleepers.filter (· = a)).length := by
    apply Process.looksLeft_le_length
    intro b hb
    obtain rfl : b = a := by simpa using (List.mem_filter.mp hb).2
    exact (Process.lookLeft_of_completed hj hdone).le
  have hsplit := List.length_eq_length_filter_add (fun b => decide (b = a)) (l := w.sleepers)
  simp only [← decide_not] at hsplit
  simp only [ne_eq, Process.looksLeft_append]
  omega

theorem Inv.workCompletion_left (h : w.Inv) (hworking : w.completion = .working)
    (hstep : w.completionMain useDoorbell = some w') :
    w'.left useDoorbell < w.left useDoorbell := by
  unfold Workers.completionMain at hstep
  simp only [hworking] at hstep
  obtain ⟨process, hprocess, rfl⟩ := Option.map_eq_some_iff.mp hstep
  have heffect := h.process.completionEffect hprocess
  have hkeep : ∀ b ∈ w.process.held, process.completion ≠ .signalled b →
      w.process.Undisturbed process b := fun b hb hne =>
    heffect.undisturbed h.process hb hne
  have hqueue : process.queue = w.process.queue := by cases heffect <;> rfl
  have hsubmit : process.submit = w.process.submit := by cases heffect <;> rfl
  have hfreeing : process.freeing = w.process.freeing := by cases heffect <;> rfl
  have hlt := heffect.left_lt h.process
  have hwork : w.completion.left (w.process.completionLeft useDoorbell) =
      w.process.completionLeft useDoorbell := by rw [hworking, CompletionLoop.left]
  rw [← hwork] at hlt
  split
  next a hsignal =>
    have hdone : ∃ j, process.heap a = some j ∧ j.completed = true := by
      cases heffect with
      | signal b j hcompletion hj =>
          obtain rfl : b = a := by simpa using hsignal
          exact ⟨{ j with completed := true }, Function.update_self _ _ _, rfl⟩
      | drop b j hcompletion hj =>
          dsimp only at hsignal
          split at hsignal <;> cases hsignal
      | _ => cases hsignal
    refine left_lt_of_completion hqueue hsubmit hfreeing (h.signal_left hdone ?_) hlt
    intro b hb hba
    exact hkeep b hb (by simpa [hsignal] using Ne.symm hba)
  next hsignal =>
    refine left_lt_of_completion hqueue hsubmit hfreeing (Nat.add_le_add_left ?_ _) hlt
    exact Process.looksLeft_mono fun b hb =>
      (hkeep b (h.callers.woken b hb) (hsignal b)).lookLeft_le

theorem Inv.completionMain_left (h : w.Inv) (hstep : w.completionMain useDoorbell = some w') :
    w'.left useDoorbell < w.left useDoorbell := by
  by_cases hworking : w.completion = .working
  · exact h.workCompletion_left hworking hstep
  · have hwork : w.process.completionLeft useDoorbell = 4 := by
      simp [Process.completionLeft, h.threads.completing hworking]
    unfold Workers.completionMain at hstep
    split at hstep
    next htop =>
      obtain rfl := Option.some.inj hstep
      simp only [left, htop]
      split <;> simp [CompletionLoop.left]
    next hlook =>
      obtain rfl := Option.some.inj hstep
      simp only [left, hlook, hwork]
      split <;> simp [CompletionLoop.left]
    next hlocked =>
      obtain rfl := Option.some.inj hstep
      simp only [left, hlocked]
      split <;> simp [CompletionLoop.left]
    next hunlocked =>
      obtain rfl := Option.some.inj hstep
      simp only [left, hunlocked, hwork]
      split <;> simp [CompletionLoop.left]
    next hw => exact absurd hw hworking
    · cases hstep

/-- The job that the completion thread waits for has arrived. -/
theorem Inv.arrived_left (h : w.Inv) {j : Job} (hloaded : w.process.completion = .loaded a)
    (hj : w.process.heap a = some j) (hwaits : ¬ w.process.arrived useDoorbell j = true)
    (hsame : process = { w.process with
      doorbell := process.doorbell, finishFlags := process.finishFlags })
    (harrived : process.arrived useDoorbell j = true) :
    ({ w with process } : Workers).left useDoorbell < w.left useDoorbell := by
  have hworking : w.completion = .working := by
    by_contra hnot
    simp [h.threads.completing hnot] at hloaded
  have hheap : process.heap = w.process.heap := by rw [hsame]
  have hlooks : process.looksLeft w.woken ≤ w.process.looksLeft w.woken :=
    Process.looksLeft_mono fun b _ =>
      (Process.Undisturbed.of_eq (by rw [hsame]) hheap).lookLeft_le
  have hold : w.process.completionLeft useDoorbell = 3 := by
    simp [Process.completionLeft, hloaded, hj, hwaits]
  have hnew : process.completionLeft useDoorbell = 2 := by
    have hphase : process.completion = .loaded a := by rw [hsame, ← hloaded]
    simp [Process.completionLeft, hphase, hheap, hj, harrived]
  have hqueue : process.queue = w.process.queue := by rw [hsame]
  have hsubmit : process.submit = w.process.submit := by rw [hsame]
  have hhead : process.head = w.process.head := by rw [hsame]
  have htail : process.tail = w.process.tail := by rw [hsame]
  have hfreeing : process.freeing = w.process.freeing := by rw [hsame]
  simp only [left, hworking, CompletionLoop.left, hold, hnew, hqueue, hsubmit, hhead, htail,
    hfreeing]
  omega

theorem Inv.answer_left (h : w.Inv) (hstep : w.answer useDoorbell = some w') :
    w'.left useDoorbell < w.left useDoorbell := by
  unfold Workers.answer at hstep
  split at hstep
  next a hloaded =>
    split at hstep
    · cases hstep
    next j hj =>
      split_ifs at hstep with hwaits hdoorbell
      · obtain rfl := Option.some.inj hstep
        exact h.arrived_left hloaded hj hwaits rfl (by simp [Process.arrived, hdoorbell])
      · obtain rfl := Option.some.inj hstep
        exact h.arrived_left hloaded hj hwaits rfl (by simp [Process.arrived, hdoorbell])
  · cases hstep

theorem nextShutdown_left (hstep : w.nextShutdown = some w') :
    w'.left useDoorbell < w.left useDoorbell := by
  unfold Workers.nextShutdown at hstep
  split at hstep
  · cases hstep
  next hshutdown =>
    obtain rfl := Option.some.inj hstep
    have hsignal := w.completion.left_signalled (w.process.completionLeft useDoorbell)
    simp only [left, signalInflight, hshutdown, Shutdown.left]
    omega
  next hshutdown =>
    split at hstep
    next hexit =>
      obtain rfl := Option.some.inj hstep
      simp [left, hshutdown, hexit, Shutdown.left, SubmitLoop.left]
    · cases hstep
  next hshutdown =>
    split at hstep
    next hexit =>
      obtain rfl := Option.some.inj hstep
      simp [left, hshutdown, hexit, Shutdown.left, CompletionLoop.left]
    · cases hstep
  next hshutdown =>
    obtain rfl := Option.some.inj hstep
    simp [left, hshutdown, Shutdown.left]

/-- A step of work that is under way makes the measure smaller. -/
theorem Inv.left_lt (h : w.Inv) {act : WorkersAction} (hact : act.goesOn = true)
    (hstep : w.step useDoorbell act = some w') : w'.left useDoorbell < w.left useDoorbell := by
  cases act with
  | wake a => exact h.wake_left hstep
  | free a =>
      obtain ⟨process, hfree, rfl⟩ := Option.map_eq_some_iff.mp hstep
      exact h.free_left hfree
  | submit seq status => exact h.submitMain_left hstep
  | complete => exact h.completionMain_left hstep
  | answer => exact h.answer_left hstep
  | nextShutdown => exact nextShutdown_left hstep
  | _ => cases hact

end Measure

/-! ## What work under way leaves alone -/

section Enqueued

variable {w w' : Workers} {useDoorbell : Bool}

theorem Inv.enqueued_of_submitMain (h : w.Inv) {seq status : ℕ}
    (hstep : w.submitMain seq status = some w') :
    w'.process.history.enqueued = w.process.history.enqueued := by
  unfold Workers.submitMain at hstep
  split at hstep
  · split at hstep
    · obtain rfl := Option.some.inj hstep
      rfl
    · split at hstep
      · obtain rfl := Option.some.inj hstep
        rfl
      · obtain ⟨process, hprocess, rfl⟩ := Option.map_eq_some_iff.mp hstep
        exact (h.process.submitEffect hprocess).enqueued
  · obtain ⟨process, hprocess, rfl⟩ := Option.map_eq_some_iff.mp hstep
    exact (h.process.submitEffect hprocess).enqueued
  · obtain rfl := Option.some.inj hstep
    rfl
  · cases hstep

theorem Inv.enqueued_of_completionMain (h : w.Inv)
    (hstep : w.completionMain useDoorbell = some w') :
    w'.process.history.enqueued = w.process.history.enqueued := by
  unfold Workers.completionMain at hstep
  split at hstep
  case h_5 =>
    obtain ⟨process, hprocess, rfl⟩ := Option.map_eq_some_iff.mp hstep
    have henqueued := (h.process.completionEffect hprocess).enqueued
    dsimp only
    split <;> split <;> exact henqueued
  case h_6 => cases hstep
  all_goals
    obtain rfl := Option.some.inj hstep
    rfl

theorem enqueued_of_answer (hstep : w.answer useDoorbell = some w') :
    w'.process.history.enqueued = w.process.history.enqueued := by
  unfold Workers.answer at hstep
  split at hstep
  · split at hstep
    · cases hstep
    · split_ifs at hstep
      all_goals
        obtain rfl := Option.some.inj hstep
        rfl
  · cases hstep

theorem enqueued_of_nextShutdown (hstep : w.nextShutdown = some w') :
    w'.process.history.enqueued = w.process.history.enqueued := by
  unfold Workers.nextShutdown at hstep
  split at hstep
  · cases hstep
  · obtain rfl := Option.some.inj hstep
    rfl
  · split at hstep
    · obtain rfl := Option.some.inj hstep
      rfl
    · cases hstep
  · split at hstep
    · obtain rfl := Option.some.inj hstep
      rfl
    · cases hstep
  · obtain rfl := Option.some.inj hstep
    rfl

theorem enqueued_of_wake {a : ℕ} (hstep : w.wake a = some w') :
    w'.process.history.enqueued = w.process.history.enqueued := by
  unfold Workers.wake at hstep
  split at hstep
  · split at hstep
    · obtain rfl := Option.some.inj hstep
      rfl
    · obtain rfl := Option.some.inj hstep
      dsimp only
      split <;> rfl
  · cases hstep

/-- The work that is under way enqueues no job. -/
theorem Inv.enqueued_of_goesOn (h : w.Inv) {act : WorkersAction} (hact : act.goesOn = true)
    (hstep : w.step useDoorbell act = some w') :
    w'.process.history.enqueued = w.process.history.enqueued := by
  cases act with
  | wake a => exact enqueued_of_wake hstep
  | free a =>
      obtain ⟨process, hfree, rfl⟩ := Option.map_eq_some_iff.mp hstep
      exact h.process.enqueued_of_free hfree
  | submit seq status => exact h.enqueued_of_submitMain hstep
  | complete => exact h.enqueued_of_completionMain hstep
  | answer => exact enqueued_of_answer hstep
  | nextShutdown => exact enqueued_of_nextShutdown hstep
  | _ => cases hact

end Enqueued

/-! ## Where no step is possible -/

section Blocked

variable {w w' : Workers} {process : Process} {useDoorbell : Bool} {a : ℕ}

/-- All jobs have been completed, what was released is freed, and nobody waits. -/
structure Served (w : Workers) : Prop where
  completed : w.process.history.completed = w.process.history.enqueued
  freed : ∀ i ∈ w.process.history.released, i ∈ w.process.history.freed
  sleepers : w.sleepers = []
  woken : w.woken = []

/-- A shutdown waits for the submit thread, which waits for room in a ring that nobody
empties any more. -/
structure Hung (w : Workers) : Prop where
  shutdown : w.shutdown = .joinSubmit
  completion : w.completion = .exited
  submit : ∃ a, w.process.submit = .requested a
  full : w.process.tail = w.process.head + INFLIGHT_CAP

/-- No work is under way. -/
def Blocked (useDoorbell : Bool) (w : Workers) : Prop :=
  ∀ act : WorkersAction, act.goesOn = true → w.step useDoorbell act = none

/-- The submit thread is not there, is asleep or waits for room in the ring. -/
theorem Inv.submit_blocked (h : w.Inv) (hblocked : w.Blocked useDoorbell) :
    w.submit = .absent ∨ w.submit = .asleep ∨ w.submit = .exited ∨
      ∃ a, w.process.submit = .requested a ∧
        w.process.tail = w.process.head + INFLIGHT_CAP := by
  have hnone : w.submitMain 0 0 = none := hblocked (.submit 0 0) rfl
  unfold Workers.submitMain at hnone
  cases hsubmit : w.submit with
  | absent => exact .inl rfl
  | asleep => exact .inr (.inl rfl)
  | exited => exact .inr (.inr (.inl rfl))
  | notify => simp [hsubmit] at hnone
  | test =>
      have hidle := h.threads.submitting.mpr (by simp [hsubmit])
      simp only [hsubmit] at hnone
      split at hnone
      · cases hnone
      · split at hnone
        · cases hnone
        next a rest hqueue =>
          obtain ⟨j, hj⟩ := h.process.exists_job (a := a)
            (.inl (by simp [Process.pending, hqueue]))
          simp [Process.submitMain, hidle, hqueue, Process.access_eq hj] at hnone
  | working =>
      simp only [hsubmit, Option.map_eq_none_iff] at hnone
      unfold Process.submitMain at hnone
      cases hphase : w.process.submit with
      | idle => exact absurd hsubmit (h.threads.submitting.mp hphase)
      | popped a =>
          obtain ⟨j, hj⟩ := h.process.exists_job (a := a)
            (.inl (by simp [Process.pending, hphase, SubmitPhase.hand]))
          simp [hphase, Process.access_eq hj] at hnone
      | requested a =>
          simp only [hphase] at hnone
          split at hnone
          next hfull =>
            have hroom := h.process.tail_le
            have hhead := h.process.head_le
            exact .inr (.inr (.inr ⟨a, rfl, by omega⟩))
          · cases hnone
      | admitted a => simp [hphase] at hnone
      | written a => simp [hphase] at hnone

/-- The completion thread is not there, is asleep or has stopped. -/
theorem Inv.completion_blocked (h : w.Inv) (hblocked : w.Blocked useDoorbell) :
    w.completion = .absent ∨ w.completion = .asleep ∨ w.completion = .exited := by
  have hnone : w.completionMain useDoorbell = none := hblocked .complete rfl
  have hanswer : w.answer useDoorbell = none := hblocked .answer rfl
  cases hcompletion : w.completion with
  | absent => exact .inl rfl
  | asleep => exact .inr (.inl rfl)
  | exited => exact .inr (.inr rfl)
  | top => simp [Workers.completionMain, hcompletion] at hnone
  | look => simp [Workers.completionMain, hcompletion] at hnone
  | locked => simp [Workers.completionMain, hcompletion] at hnone
  | unlocked => simp [Workers.completionMain, hcompletion] at hnone
  | working =>
      simp only [Workers.completionMain, hcompletion, Option.map_eq_none_iff] at hnone
      unfold Process.completionMain at hnone
      cases hphase : w.process.completion with
      | idle =>
          have hlt := h.threads.loading hcompletion hphase
          simp [hphase, Nat.not_le.mpr hlt] at hnone
      | loaded a =>
          obtain ⟨j, hj⟩ := h.process.exists_current (a := a)
            (by simp [hphase, CompletionPhase.front])
          simp only [hphase, Process.access_eq hj] at hnone
          simp only [Workers.answer, hphase, hj] at hanswer
          by_cases harrived : w.process.arrived useDoorbell j = true
          · simp [harrived] at hnone
          · cases useDoorbell <;> simp [harrived] at hanswer
      | arrived a =>
          obtain ⟨j, hj⟩ := h.process.exists_current (a := a)
            (by simp [hphase, CompletionPhase.front])
          simp [hphase, Process.access_eq hj] at hnone
      | signalled a => simp [hphase] at hnone
      | advanced a =>
          obtain ⟨j, hj⟩ := h.process.exists_current (a := a)
            (by simp [hphase, CompletionPhase.taken])
          simp [hphase, Process.access_eq hj] at hnone
      | freeing a =>
          obtain ⟨j, hj⟩ := h.process.exists_current (a := a)
            (by simp [hphase, CompletionPhase.dying])
          simp [hphase, Process.access_eq hj] at hnone

/-- Both threads sleep, the queue and the ring are empty, and nobody has been woken. -/
theorem Inv.served (h : w.Inv) (hblocked : w.Blocked useDoorbell) (hsubmit : w.submit = .asleep)
    (hcompletion : w.completion = .asleep) : w.Served := by
  have hqueue := (h.threads.sleepSubmit hsubmit).1
  have hring : w.process.tail ≤ w.process.head := by
    have hsleep := (h.threads.sleepCompletion hcompletion).1
    simpa [hsubmit] using hsleep
  have hphase : w.process.submit = .idle := h.threads.submitting.mpr (by simp [hsubmit])
  have hphase' : w.process.completion = .idle := h.threads.completing (by simp [hcompletion])
  have hidle : ∀ seq status, w.process.submitMain seq status = none := by
    intro seq status
    simp [Process.submitMain, hphase, hqueue]
  have hidle' : w.process.completionMain useDoorbell = none := by
    simp [Process.completionMain, hphase', hring]
  have hcompleted : w.process.history.completed = w.process.history.enqueued :=
    h.process.all_completed hidle hidle' fun a j hloaded => by simp [hphase'] at hloaded
  have hdone : ∀ a j, w.process.heap a = some j → j.completed = true := by
    intro a j hj
    apply h.flagged a j hj
    rw [hcompleted, h.process.enqueued]
    exact List.mem_range.mpr (h.process.counted.lt a _ (Process.cells_of_heap hj))
  refine ⟨hcompleted, ?_, ?_, ?_⟩
  · intro i hi
    have hdropped : i ∈ w.process.history.dropped := by
      have hmem := (h.process.counted.mem_released i).mp hi
      have hmem' : i ∈ w.process.history.completed := by
        rw [hcompleted, h.process.enqueued]
        exact List.mem_range.mpr hmem.1
      rw [h.process.completed, hphase'] at hmem'
      simpa [CompletionPhase.done, References.numbers] using hmem'
    have hlife : w.process.Lifecycle useDoorbell := h.process.lifecycle
    rcases hlife.freed i hi hdropped with hfreed | ⟨a, ha, -⟩
    · exact hfreed
    · have ha' : a ∈ w.process.freeing := by
        simpa [Process.dying, hphase', CompletionPhase.dying] using ha
      obtain ⟨j, hj⟩ := h.process.exists_job (.inr (.inr ha))
      have hnone := hblocked (.free a) rfl
      simp [Workers.step, Process.free, ha', Process.access_eq hj] at hnone
  · rw [List.eq_nil_iff_forall_not_mem]
    intro a ha
    obtain ⟨hheld, hopen⟩ := h.callers.sleepers a ha
    obtain ⟨j, hj⟩ := h.process.exists_job (.inr (.inl hheld))
    have hflag := hopen j hj
    rw [hdone a j hj] at hflag
    cases hflag
  · rw [List.eq_nil_iff_forall_not_mem]
    intro a ha
    have hnone := hblocked (.wake a) rfl
    obtain ⟨j, hj⟩ := h.process.exists_job (.inr (.inl (h.callers.woken a ha)))
    simp [Workers.step, Workers.wake, ha, hj] at hnone

/-- Where no work is under way: the threads do not run, all jobs are served, or a
shutdown hangs. -/
theorem Inv.of_blocked (h : w.Inv) (hblocked : w.Blocked useDoorbell) :
    w.running = false ∨ w.Served ∨ w.Hung := by
  cases hrunning : w.running with
  | false => exact .inl rfl
  | true =>
      right
      have hnext : w.nextShutdown = none := hblocked .nextShutdown rfl
      have hsubmit := h.submit_blocked hblocked
      have hcompletion := h.completion_blocked hblocked
      have hstop := h.control.stopped hrunning
      have hsubmitJoined := h.control.submitJoined hrunning
      have hcompletionJoined := h.control.completionJoined hrunning
      unfold Workers.nextShutdown at hnext
      cases hshutdown : w.shutdown with
      | idle =>
          left
          have hgoing : w.stop = false := by simpa [hshutdown] using hstop
          have hexited := h.threads.exited
          simp only [hgoing, Bool.false_eq_true, imp_false, not_or] at hexited
          have hasleep : w.completion = .asleep := by
            rcases hcompletion with habsent | hasleep | hexit
            · simp [habsent, hshutdown] at hcompletionJoined
            · exact hasleep
            · exact absurd hexit hexited.2
          rcases hsubmit with habsent | hasleep' | hexit | ⟨a, hphase, hfull⟩
          · simp [habsent, hshutdown] at hsubmitJoined
          · exact h.served hblocked hasleep' hasleep
          · exact absurd hexit hexited.1
          · have hring := (h.threads.sleepCompletion hasleep).1
            have hworking : w.submit = .working := by
              by_contra hnot
              simp [h.threads.submitting.mpr hnot] at hphase
            simp only [hworking, reduceCtorEq, or_false] at hring
            simp only [INFLIGHT_CAP] at hfull
            omega
      | stopped => simp [hshutdown] at hnext
      | joinSubmit =>
          right
          have hstopped : w.stop = true := hstop.mpr (by simp [hshutdown])
          have hexit : w.completion = .exited := by
            rcases hcompletion with habsent | hasleep | hexit
            · simp [habsent, hshutdown] at hcompletionJoined
            · simpa [hstopped, hshutdown] using (h.threads.sleepCompletion hasleep).2
            · exact hexit
          rcases hsubmit with habsent | hasleep | hexit' | ⟨a, hphase, hfull⟩
          · simp [habsent, hshutdown] at hsubmitJoined
          · simpa [hstopped] using (h.threads.sleepSubmit hasleep).2
          · simp [hshutdown, hexit'] at hnext
          · exact ⟨hshutdown, hexit, ⟨a, hphase⟩, hfull⟩
      | joinCompletion =>
          have hstopped : w.stop = true := hstop.mpr (by simp [hshutdown])
          rcases hcompletion with habsent | hasleep | hexit
          · simp [habsent, hshutdown] at hcompletionJoined
          · simpa [hstopped, hshutdown] using (h.threads.sleepCompletion hasleep).2
          · simp [hshutdown, hexit] at hnext
      | joined => simp [hshutdown] at hnext

end Blocked

theorem Inv.run {useDoorbell : Bool} {acts : List WorkersAction} {w w' : Workers} (h : w.Inv)
    (hrun : Machine.run (Workers.step useDoorbell) w acts = some w') : w'.Inv :=
  Machine.run_invariant (fun _ _ _ hstep h => h.step hstep) hrun h

/-- As many steps of work can be taken as the measure says. -/
theorem Inv.length_le_left {useDoorbell : Bool} {acts : List WorkersAction} {w w' : Workers}
    (h : w.Inv) (hacts : ∀ act ∈ acts, act.goesOn = true)
    (hrun : Machine.run (Workers.step useDoorbell) w acts = some w') :
    acts.length + w'.left useDoorbell ≤ w.left useDoorbell := by
  induction acts generalizing w with
  | nil =>
      obtain rfl := Option.some.inj hrun
      exact (Nat.zero_add _).le
  | cons act acts ih =>
      obtain ⟨w₁, hstep, hrest⟩ := Option.bind_eq_some_iff.mp hrun
      have hlt := h.left_lt (hacts act (List.mem_cons_self ..)) hstep
      have hle := ih (h.step hstep) (fun b hb => hacts b (List.mem_cons_of_mem _ hb)) hrest
      rw [List.length_cons]
      omega

theorem Inv.enqueued_of_run {useDoorbell : Bool} {acts : List WorkersAction}
    {w w' : Workers} (h : w.Inv) (hacts : ∀ act ∈ acts, act.goesOn = true)
    (hrun : Machine.run (Workers.step useDoorbell) w acts = some w') :
    w'.process.history.enqueued = w.process.history.enqueued := by
  induction acts generalizing w with
  | nil =>
      obtain rfl := Option.some.inj hrun
      rfl
  | cons act acts ih =>
      obtain ⟨w₁, hstep, hrest⟩ := Option.bind_eq_some_iff.mp hrun
      rw [ih (h.step hstep) (fun b hb => hacts b (List.mem_cons_of_mem _ hb)) hrest]
      exact h.enqueued_of_goesOn (hacts act (List.mem_cons_self ..)) hstep

/-- The counters of the ring are in order and have not reached the end of `uint64_t`. -/
def Counts (w : Workers) : Prop :=
  w.process.head ≤ w.process.tail ∧ w.process.tail < 2 ^ 64

theorem Inv.counts {w : Workers} (h : w.Inv)
    (hjobs : w.process.history.enqueued.length < 2 ^ 64) :
    w.Counts :=
  ⟨h.process.head_le, h.process.tail_le_enqueued.trans_lt hjobs⟩

/-- In every run of callers, threads, DPU, spurious wake-ups and shutdowns in which fewer
than `2 ^ 64` jobs are enqueued, with the threads started again as often as one likes:
what holds of the jobs holds in every state, and the counters of the ring have not
wrapped; the work under way comes to an end in a number of steps that is bounded
beforehand, and does not make them wrap; and where it has come to an end, either the
threads do not run, or every job has been completed and nobody waits, or a shutdown has
found the ring full and hangs.  So no wake-up is lost. -/
theorem workers_serve (useDoorbell : Bool) (acts : List WorkersAction) (w : Workers)
    (hrun : Machine.run (Workers.step useDoorbell) init acts = some w)
    (hjobs : w.process.history.enqueued.length < 2 ^ 64) :
    w.process.Lifecycle useDoorbell ∧ w.Counts ∧
      (∀ acts' w', (∀ act ∈ acts', act.goesOn = true) →
        Machine.run (Workers.step useDoorbell) w acts' = some w' →
        acts'.length + w'.left useDoorbell ≤ w.left useDoorbell ∧ w'.Counts) ∧
      (w.Blocked useDoorbell → w.running = false ∨ w.Served ∨ w.Hung) := by
  have hinv := inv_init.run hrun
  refine ⟨hinv.process.lifecycle, hinv.counts hjobs, ?_, hinv.of_blocked⟩
  intro acts' w' hacts hrun'
  refine ⟨hinv.length_le_left hacts hrun', (hinv.run hrun').counts ?_⟩
  rw [hinv.enqueued_of_run hacts hrun']
  exact hjobs

/-- A job is enqueued and waited for, the threads are shut down before they see it, and
the next call starts them again. -/
def restarted : List WorkersAction :=
  ([.ensure, .enqueue 8 1, .wait 8, .beginShutdown, .submit 0 0, .complete, .nextShutdown,
    .nextShutdown, .nextShutdown, .nextShutdown, .ensure, .enqueue 16 2] :
      List WorkersAction) ++
    ([.complete, .complete, .complete] : List WorkersAction) ++
    ([.submit 5 0, .submit 5 0, .submit 5 0, .submit 5 0, .submit 5 0, .submit 5 0] :
      List WorkersAction) ++
    ([.complete, .complete, .complete, .answer, .complete, .complete, .complete, .complete] :
      List WorkersAction) ++
    ([.wake 8, .release 8, .free 8] : List WorkersAction) ++
    ([.submit 6 0, .submit 6 0, .submit 6 0, .submit 6 0, .submit 6 0, .submit 6 0] :
      List WorkersAction) ++
    ([.complete, .complete, .complete, .answer, .complete, .complete, .complete, .complete] :
      List WorkersAction)

theorem workers_serve_restarted :
    ∃ w, Machine.run (Workers.step true) init restarted = some w ∧
      w.process.history.completed = [0, 1] ∧ w.process.history.freed = [0] ∧
      w.sleepers = [] ∧ w.process.Lifecycle true ∧ w.Counts := by
  have hend : (Machine.run (Workers.step true) init restarted).map
      (fun w => (w.process.history.completed, w.process.history.freed, w.sleepers,
        w.process.history.enqueued)) = some ([0, 1], [0], [], [0, 1]) := by
    decide
  obtain ⟨w, hrun, hw⟩ := Option.map_eq_some_iff.mp hend
  simp only [Prod.mk.injEq] at hw
  obtain ⟨hcompleted, hfreed, hsleepers, henqueued⟩ := hw
  have hserve := workers_serve true restarted w hrun (by rw [henqueued]; decide)
  exact ⟨w, hrun, hcompleted, hfreed, hsleepers, hserve.1, hserve.2.1⟩

end Workers

end SmartNic.Host
