import Mathlib
import SmartNic.Dispatch.Messages
import SmartNic.Library.Machine

/-!
# Release of the messages

Every block that was allocated for a message is owned by the argument or the job
that will free it, or has been freed.  Four steps break this: the callback frees a
copy twice if it has no memory for the argument, the thread of the pool loses an
argument whose slot it has read too early, a create-ring command drops the jobs that
wait in the queues of the rings, and nobody frees the jobs that are left in them in
the end.
-/

namespace SmartNic.Dispatch

open SmartNic.Codec SmartNic.Bytes

attribute [local instance] neZero_two

namespace Server

/-- The arguments and jobs together own what has not been freed. -/
structure Inv (s : Server) : Prop where
  balanced : s.heap.Balanced s.owned
  args : ∀ w ∈ s.args, w.recvCmd = w.bufCopy ∧ w.bufCopy ∈ s.received
  jobs : ∀ i, ∀ job ∈ s.jobs i, job.bufCopy ∈ s.received
  received : ∀ b ∈ s.received, b < s.heap.next
  gone : s.msgPool = false → s.poolThread = .exited ∧ s.poolQueue = []

theorem inv_init : Server.init.Inv where
  balanced := Heap.balanced_empty
  args _ h := by cases h
  jobs _ _ h := by cases h
  received _ h := by cases h
  gone h := by cases h

end Server

/-- A sum over the rings when one of them changes. -/
theorem ringSum_eq {f g : RingId → ℕ} {d : ℕ} (i : RingId) (hi : g i = f i + d)
    (hother : ∀ j, j ≠ i → g j = f j) : g 0 + g 1 = f 0 + f 1 + d := by
  by_cases h : i = 0
  · subst h
    rw [hi, hother 1 (by decide)]
    omega
  · obtain rfl : i = 1 := Fin.eq_one_of_ne_zero i h
    rw [hi, hother 0 (by decide)]
    omega

namespace Server

variable {s s' : Server} {useRingQueues : Bool}

/-! ## The callback -/

/-- The argument is queued, or it and the copy are freed. -/
theorem submitOrDrop_cases (s : Server) (w : MessageWorkerArg) :
    (s.msgPool = true ∧ s.submitOrDrop w = { s with poolQueue := s.poolQueue ++ [w] }) ∨
      s.submitOrDrop w = (s.free w.self).free w.bufCopy := by
  unfold submitOrDrop
  by_cases hpool : s.msgPool = true
  · rw [if_pos hpool]
    unfold msgPoolTrySubmit
    by_cases hstop : s.poolStop = true
    · right
      rw [if_pos hstop]
    · rw [if_neg hstop]
      by_cases hfull : s.poolQueue.length = msgQueueCap - 1
      · right
        rw [if_pos hfull]
      · left
        rw [if_neg hfull]
        exact ⟨hpool, rfl⟩
  · right
    rw [if_neg hpool]

/-- The server once a message is copied. -/
def copied (s : Server) : Server := { s.alloc with received := s.heap.next :: s.received }

/-- What the callback does: nothing, copy the message and free the copy, free it
twice, or make an argument for it. -/
theorem messageRecvCallback_cases (s : Server) (msg : Message) (env : CallbackEnv) :
    (¬ ArgFails msg env ∧
      (s.messageRecvCallback msg env = s ∨
        s.messageRecvCallback msg env = s.copied.free s.heap.next ∨
        ∃ content, s.messageRecvCallback msg env = s.copied.alloc.submitOrDrop
          ⟨s.heap.next + 1, s.heap.next, s.heap.next, content⟩)) ∨
      (ArgFails msg env ∧ s.messageRecvCallback msg env =
        (s.copied.free s.heap.next).free s.heap.next) := by
  unfold messageRecvCallback
  by_cases huser : env.hasUserData = true
  · by_cases hcopy : env.copyAllocated = true
    · rw [if_neg (by rw [huser]; decide), if_neg (by rw [hcopy]; decide)]
      dsimp only
      cases hunpack : controlCmdUnpack msg.bytes msg.len with
      | error e =>
          left
          refine ⟨?_, .inr (.inl rfl)⟩
          rintro ⟨-, -, ⟨content, hcontent⟩, -⟩
          rw [hunpack] at hcontent
          cases hcontent
      | ok content =>
          dsimp only
          by_cases harg : env.argAllocated = true
          · left
            rw [if_neg (by rw [harg]; decide)]
            refine ⟨?_, .inr (.inr ⟨content, rfl⟩)⟩
            rintro ⟨-, -, -, hfails⟩
            rw [harg] at hfails
            cases hfails
          · right
            rw [Bool.not_eq_true] at harg
            rw [if_pos (by rw [harg]; decide)]
            exact ⟨⟨huser, hcopy, ⟨content, hunpack⟩, harg⟩, rfl⟩
    · left
      refine ⟨fun h => hcopy h.2.1, .inl ?_⟩
      rw [Bool.not_eq_true] at hcopy
      rw [if_neg (by rw [huser]; decide), if_pos (by rw [hcopy]; decide)]
  · left
    refine ⟨fun h => huser h.1, .inl ?_⟩
    rw [Bool.not_eq_true] at huser
    rw [if_pos (by rw [huser]; decide)]

theorem owned_append (s : Server) (w : MessageWorkerArg) (b : ℕ) :
    ({ s with poolQueue := s.poolQueue ++ [w] } : Server).owned b =
      s.owned b + w.owns b := by
  have hargs : ({ s with poolQueue := s.poolQueue ++ [w] } : Server).args = s.args ++ [w] :=
    (List.append_assoc _ _ _).symm
  have hjobs : ({ s with poolQueue := s.poolQueue ++ [w] } : Server).jobsOwn = s.jobsOwn :=
    rfl
  unfold owned argsOwn
  rw [hargs, hjobs, List.map_append, List.sum_append, List.map_singleton,
    List.sum_singleton]
  omega

/-- Without the failure the callback keeps the invariant. -/
theorem Inv.receive (h : s.Inv) (msg : Message) (env : CallbackEnv)
    (hargs : ¬ ArgFails msg env) : (s.messageRecvCallback msg env).Inv := by
  have hnew : ∀ b ∈ s.heap.next :: s.received, b < s.heap.next + 1 := by
    intro b hb
    rcases List.mem_cons.mp hb with rfl | hb
    · exact Nat.lt_succ_self _
    · exact Nat.lt_succ_of_lt (h.received b hb)
  have hcopied : s.copied.heap.Balanced fun b =>
      s.owned b + if b = s.heap.next then 1 else 0 :=
    h.balanced.alloc fun b => rfl
  rcases messageRecvCallback_cases s msg env with ⟨-, heq | heq | ⟨content, heq⟩⟩ |
    ⟨hfails, -⟩
  · rw [heq]
    exact h
  · rw [heq]
    refine ⟨?_, ?_, ?_, hnew, h.gone⟩
    · exact hcopied.free fun b => rfl
    · intro w hw
      exact ⟨(h.args w hw).1, List.mem_cons_of_mem _ (h.args w hw).2⟩
    · intro i job hjob
      exact List.mem_cons_of_mem _ (h.jobs i job hjob)
  · have harg : s.copied.alloc.heap.Balanced fun b =>
        s.owned b + MessageWorkerArg.owns
          ⟨s.heap.next + 1, s.heap.next, s.heap.next, content⟩ b := by
      apply hcopied.alloc
      intro b
      exact (Nat.add_assoc _ _ _).symm
    have hnew' : ∀ b ∈ s.heap.next :: s.received, b < s.heap.next + 1 + 1 :=
      fun b hb => Nat.lt_succ_of_lt (hnew b hb)
    rw [heq]
    rcases submitOrDrop_cases s.copied.alloc
        ⟨s.heap.next + 1, s.heap.next, s.heap.next, content⟩ with ⟨hpool, heq'⟩ | heq'
    · rw [heq']
      refine ⟨?_, ?_, ?_, hnew', ?_⟩
      · intro b
        rw [owned_append]
        exact harg b
      · intro w hw
        rcases List.mem_append.mp hw with hw | hw
        · have hold := h.args w (List.mem_append_left _ hw)
          exact ⟨hold.1, List.mem_cons_of_mem _ hold.2⟩
        · rcases List.mem_append.mp hw with hw | hw
          · have hold := h.args w (List.mem_append_right _ hw)
            exact ⟨hold.1, List.mem_cons_of_mem _ hold.2⟩
          · obtain rfl := List.mem_singleton.mp hw
            exact ⟨rfl, List.mem_cons_self⟩
      · intro i job hjob
        exact List.mem_cons_of_mem _ (h.jobs i job hjob)
      · intro hnone
        rw [show s.copied.alloc.msgPool = s.msgPool from rfl] at hpool
        rw [show s.msgPool = false from hnone] at hpool
        cases hpool
    · rw [heq']
      refine ⟨?_, ?_, ?_, hnew', h.gone⟩
      · have hfirst : (s.copied.alloc.heap.free (s.heap.next + 1)).Balanced fun b =>
            s.owned b + if b = s.heap.next then 1 else 0 :=
          harg.free fun b => (Nat.add_assoc _ _ _).symm
        exact hfirst.free fun b => rfl
      · intro w hw
        exact ⟨(h.args w hw).1, List.mem_cons_of_mem _ (h.args w hw).2⟩
      · intro i job hjob
        exact List.mem_cons_of_mem _ (h.jobs i job hjob)
  · exact absurd hfails hargs

/-! ## The message pool -/

/-- The server with other settings of the rings. -/
def withRings (s : Server) (enabled : Bool) (checking : RingId → ℕ) (agSeq : ℕ) :
    Server :=
  { s with ringR1Enabled := enabled, checking := checking, agSeqCounter := agSeq }

/-- Apart from the settings of the rings a message ends with both blocks freed, or
with its command in a job. -/
def Handled (s : Server) (w : MessageWorkerArg) (s' : Server) : Prop :=
  ∃ enabled checking agSeq,
    s' = (s.withRings enabled checking agSeq).freeBoth w ∨
      ∃ i, s' = ((s.withRings enabled checking agSeq).alloc.ringQueuePush i
        ⟨s.heap.next, w.recvCmd, w.bufCopy⟩).free w.self

theorem createRing_handled (useRingQueues : Bool) (s : Server) (w : MessageWorkerArg)
    (queuesReady : Bool) (env : WorkerEnv) :
    s.Handled w (createRing useRingQueues s w queuesReady env) := by
  cases useRingQueues with
  | false => exact ⟨_, s.checking, s.agSeqCounter, .inl rfl⟩
  | true => exact ⟨_, _, s.agSeqCounter, .inl rfl⟩

theorem messageWorkerThread_handled {w : MessageWorkerArg} {env : WorkerEnv}
    (hstep : messageWorkerThread useRingQueues s w env = some s') : s.Handled w s' := by
  unfold messageWorkerThread at hstep
  split at hstep
  · cases hstep
  next m =>
    by_cases hqueues : useRingQueues = true
    · rw [if_pos hqueues] at hstep
      obtain rfl := Option.some.inj hstep
      unfold enqueueCollective
      dsimp only
      by_cases hjob : env.jobAllocated = true
      · rw [if_neg (by rw [hjob]; decide)]
        exact ⟨s.ringR1Enabled, s.checking, _, .inr ⟨_, rfl⟩⟩
      · rw [Bool.not_eq_true] at hjob
        rw [if_pos (by rw [hjob]; decide)]
        exact ⟨s.ringR1Enabled, s.checking, _, .inl rfl⟩
    · rw [if_neg hqueues] at hstep
      obtain rfl := Option.some.inj hstep
      exact ⟨s.ringR1Enabled, s.checking, s.agSeqCounter, .inl rfl⟩
  all_goals
    obtain rfl := Option.some.inj hstep
    exact ⟨s.ringR1Enabled, s.checking, s.agSeqCounter, .inl rfl⟩

/-- The thread of the pool comes to the end of a message. -/
theorem poolFinish_cases {env : WorkerEnv}
    (hstep : s.poolFinish useRingQueues env = some s') :
    ∃ w, s.poolThread.args = [w] ∧ s.poolThread ≠ .exited ∧
      ({ s with poolThread := .check } : Server).Handled w s' := by
  unfold poolFinish at hstep
  cases hthread : s.poolThread with
  | running w =>
      rw [hthread] at hstep
      exact ⟨w, rfl, nofun, messageWorkerThread_handled hstep⟩
  | creating w queuesReady =>
      rw [hthread] at hstep
      obtain rfl := Option.some.inj hstep
      exact ⟨w, rfl, nofun, createRing_handled useRingQueues _ w queuesReady env⟩
  | check => rw [hthread] at hstep; cases hstep
  | body => rw [hthread] at hstep; cases hstep
  | slotLoaded read => rw [hthread] at hstep; cases hstep
  | exited => rw [hthread] at hstep; cases hstep
  | faulted => rw [hthread] at hstep; cases hstep

/-- `ring_queues_init` leaves the blocks and the arguments as they are, and makes
queues empty. -/
theorem poolInitQueues_cases {fails : Option RingId}
    (hstep : s.poolInitQueues fails = some s') :
    ∃ w, s.poolThread = .running w ∧ s.CreatesRing ∧
      s' = { s.ringQueuesInit fails with poolThread := .creating w fails.isNone } := by
  unfold poolInitQueues at hstep
  cases hthread : s.poolThread with
  | running w =>
      rw [hthread] at hstep
      dsimp only at hstep
      split at hstep
      next m hcontent => exact ⟨w, rfl, ⟨w, m, hthread, hcontent⟩, (Option.some.inj hstep).symm⟩
      all_goals cases hstep
  | creating w queuesReady => rw [hthread] at hstep; cases hstep
  | check => rw [hthread] at hstep; cases hstep
  | body => rw [hthread] at hstep; cases hstep
  | slotLoaded read => rw [hthread] at hstep; cases hstep
  | exited => rw [hthread] at hstep; cases hstep
  | faulted => rw [hthread] at hstep; cases hstep

/-- The invariant without the argument that the thread of the pool is at. -/
structure HoldsArg (s : Server) (w : MessageWorkerArg) : Prop where
  balanced : s.heap.Balanced fun b => s.owned b + w.owns b
  arg : w.recvCmd = w.bufCopy ∧ w.bufCopy ∈ s.received
  args : ∀ w ∈ s.args, w.recvCmd = w.bufCopy ∧ w.bufCopy ∈ s.received
  jobs : ∀ i, ∀ job ∈ s.jobs i, job.bufCopy ∈ s.received
  received : ∀ b ∈ s.received, b < s.heap.next
  gone : s.msgPool = false → s.poolThread = .exited ∧ s.poolQueue = []

theorem HoldsArg.freeBoth {w : MessageWorkerArg} (h : s.HoldsArg w) :
    (s.freeBoth w).Inv := by
  refine ⟨?_, h.args, h.jobs, h.received, h.gone⟩
  have hfirst : (s.heap.free w.recvCmd).Balanced fun b =>
      s.owned b + if b = w.self then 1 else 0 := by
    apply h.balanced.free
    intro b
    unfold MessageWorkerArg.owns
    omega
  exact hfirst.free fun b => rfl

theorem jobsOwn_push (s : Server) (i : RingId) (job : RingJob) (b : ℕ) :
    (s.ringQueuePush i job).jobsOwn 0 b + (s.ringQueuePush i job).jobsOwn 1 b =
      s.jobsOwn 0 b + s.jobsOwn 1 b + job.owns b := by
  apply ringSum_eq (f := fun j => s.jobsOwn j b)
    (g := fun j => (s.ringQueuePush i job).jobsOwn j b) i
  · unfold jobsOwn jobs ringQueuePush
    dsimp only
    rw [Function.update_self, ← List.append_assoc, List.map_append, List.sum_append,
      List.map_singleton, List.sum_singleton]
  · intro j hj
    unfold jobsOwn jobs ringQueuePush
    dsimp only
    rw [Function.update_of_ne hj]

theorem HoldsArg.push {w : MessageWorkerArg} (h : s.HoldsArg w) (i : RingId) :
    ((s.alloc.ringQueuePush i ⟨s.heap.next, w.recvCmd, w.bufCopy⟩).free w.self).Inv := by
  set job : RingJob := ⟨s.heap.next, w.recvCmd, w.bufCopy⟩
  refine ⟨?_, h.args, ?_, ?_, h.gone⟩
  · have halloc : s.heap.alloc.Balanced fun b =>
        s.owned b + w.owns b + if b = s.heap.next then 1 else 0 :=
      h.balanced.alloc fun b => rfl
    apply halloc.free
    intro b
    have hpush := jobsOwn_push s.alloc i job b
    have hsame : s.alloc.jobsOwn = s.jobsOwn := rfl
    rw [hsame] at hpush
    show s.argsOwn b + (s.jobsOwn 0 b + s.jobsOwn 1 b) + w.owns b +
        (if b = s.heap.next then 1 else 0) =
      s.argsOwn b + ((s.alloc.ringQueuePush i job).jobsOwn 0 b +
        (s.alloc.ringQueuePush i job).jobsOwn 1 b) + if b = w.self then 1 else 0
    have hown : job.owns b = (if b = w.recvCmd then 1 else 0) +
        if b = s.heap.next then 1 else 0 := by
      rw [h.arg.1]
      rfl
    rw [hpush, hown, MessageWorkerArg.owns]
    omega
  · intro j job' hmem
    have hmem' : job' ∈ s.busy j ++
        Function.update s.ringQueue i (s.ringQueue i ++ [job]) j := hmem
    rcases List.mem_append.mp hmem' with hmem | hmem
    · exact h.jobs j job' (List.mem_append_left _ hmem)
    · by_cases hj : j = i
      · rw [hj, Function.update_self] at hmem
        rcases List.mem_append.mp hmem with hmem | hmem
        · exact h.jobs i job' (List.mem_append_right _ hmem)
        · obtain rfl := List.mem_singleton.mp hmem
          exact h.arg.2
      · rw [Function.update_of_ne hj] at hmem
        exact h.jobs j job' (List.mem_append_right _ hmem)
  · intro b hb
    exact Nat.lt_succ_of_lt (h.received b hb)

theorem HoldsArg.withRings {w : MessageWorkerArg} (h : s.HoldsArg w) (enabled : Bool)
    (checking : RingId → ℕ) (agSeq : ℕ) :
    (s.withRings enabled checking agSeq).HoldsArg w :=
  ⟨h.balanced, h.arg, h.args, h.jobs, h.received, h.gone⟩

/-- Handling a message keeps the invariant. -/
theorem HoldsArg.handled {w : MessageWorkerArg} (h : s.HoldsArg w)
    (hhandled : s.Handled w s') : s'.Inv := by
  obtain ⟨enabled, checking, agSeq, rfl | ⟨i, rfl⟩⟩ := hhandled
  · exact (h.withRings enabled checking agSeq).freeBoth
  · exact (h.withRings enabled checking agSeq).push i

/-- The thread that has an argument lets it go. -/
theorem Inv.holdsArg (h : s.Inv) {w : MessageWorkerArg} (hthread : s.poolThread.args = [w])
    (hrunning : s.poolThread ≠ .exited) :
    ({ s with poolThread := .check } : Server).HoldsArg w := by
  have hargs : s.args = w :: s.poolQueue := by
    unfold Server.args
    rw [hthread]
    rfl
  refine ⟨?_, h.args w (hargs ▸ List.mem_cons_self), ?_, h.jobs, h.received, ?_⟩
  · have hbal := h.balanced
    have howned : s.owned = fun b =>
        ({ s with poolThread := .check } : Server).owned b + w.owns b := by
      funext b
      unfold owned argsOwn
      rw [hargs, List.map_cons, List.sum_cons]
      show w.owns b + (s.poolQueue.map fun w => w.owns b).sum + _ =
        (s.poolQueue.map fun w => w.owns b).sum + (s.jobsOwn 0 b + s.jobsOwn 1 b) + _
      omega
    rw [howned] at hbal
    exact hbal
  · intro w' hw'
    exact h.args w' (hargs ▸ List.mem_cons_of_mem _ hw')
  · intro hnone
    exact absurd (h.gone hnone).1 hrunning

/-- The loop at the end frees what the arguments own. -/
theorem drain_balanced (ws : List MessageWorkerArg) {s : Server} {owned : ℕ → ℕ}
    (h : s.heap.Balanced fun b => owned b + (ws.map fun w => w.owns b).sum) :
    (s.drain ws).heap.Balanced owned := by
  induction ws generalizing s with
  | nil => exact h
  | cons w ws ih =>
      apply ih
      have hfirst : (s.heap.free w.recvCmd).Balanced fun b =>
          owned b + (ws.map fun w => w.owns b).sum + if b = w.self then 1 else 0 := by
        apply h.free
        intro b
        rw [List.map_cons, List.sum_cons]
        unfold MessageWorkerArg.owns
        omega
      exact hfirst.free fun b => rfl

/-- It does nothing else. -/
theorem drain_eq (ws : List MessageWorkerArg) (s : Server) :
    s.drain ws = { s with heap := (s.drain ws).heap } ∧
      (s.drain ws).heap.next = s.heap.next := by
  induction ws generalizing s with
  | nil => exact ⟨rfl, rfl⟩
  | cons w ws ih => exact ih ((s.free w.recvCmd).free w.self)

/-! ## Steps -/

theorem jobsOwn_perm (h : ∀ i, (s'.jobs i).Perm (s.jobs i)) : s'.jobsOwn = s.jobsOwn := by
  funext i b
  exact ((h i).map _).sum_eq

/-- A step that moves arguments and jobs keeps the invariant. -/
theorem Inv.of_perm (h : s.Inv) (hheap : s'.heap = s.heap)
    (hreceived : s'.received = s.received) (hargs : s'.args.Perm s.args)
    (hjobs : ∀ i, (s'.jobs i).Perm (s.jobs i))
    (hgone : s'.msgPool = false → s'.poolThread = .exited ∧ s'.poolQueue = []) :
    s'.Inv := by
  refine ⟨?_, ?_, ?_, ?_, hgone⟩
  · have howned : s'.owned = s.owned := by
      funext b
      unfold owned argsOwn
      rw [jobsOwn_perm hjobs, (hargs.map fun w => w.owns b).sum_eq]
    rw [hheap, howned]
    exact h.balanced
  · intro w hw
    rw [hreceived]
    exact h.args w (hargs.mem_iff.mp hw)
  · intro i job hjob
    rw [hreceived]
    exact h.jobs i job ((hjobs i).mem_iff.mp hjob)
  · rw [hreceived, hheap]
    exact h.received

/-- A thread takes the first job of its queue. -/
theorem take_perm {i : RingId} {job : RingJob} {jobs : List RingJob}
    (hqueue : s.ringQueue i = job :: jobs) (j : RingId) :
    (Function.update s.busy i (job :: s.busy i) j ++
      Function.update s.ringQueue i jobs j).Perm (s.jobs j) := by
  unfold Server.jobs
  by_cases hj : j = i
  · rw [hj, Function.update_self, Function.update_self, hqueue]
    exact List.perm_middle.symm
  · rw [Function.update_of_ne hj, Function.update_of_ne hj]

/-- The job of a thread and what else its ring has. -/
theorem finish_perm {i : RingId} {k : ℕ} {job : RingJob} (hjob : (s.busy i)[k]? = some job) :
    (s.jobs i).Perm (job :: ((s.busy i).eraseIdx k ++ s.ringQueue i)) := by
  obtain ⟨hlt, heq⟩ := List.getElem?_eq_some_iff.mp hjob
  have hperm := (List.getElem_cons_eraseIdx_perm hlt).symm
  rw [heq] at hperm
  exact hperm.append_right _

theorem Inv.ringFinish (h : s.Inv) {i : RingId} {k : ℕ} {job : RingJob}
    (hjob : (s.busy i)[k]? = some job) (checking : RingId → ℕ) :
    ((({ s with
        busy := Function.update s.busy i ((s.busy i).eraseIdx k)
        checking := checking } : Server).free job.bufCopy).free job.self).Inv := by
  set s' : Server := { s with
    busy := Function.update s.busy i ((s.busy i).eraseIdx k)
    checking := checking } with hs'
  have hself : s'.jobs i = (s.busy i).eraseIdx k ++ s.ringQueue i := by
    show Function.update s.busy i ((s.busy i).eraseIdx k) i ++ s.ringQueue i = _
    rw [Function.update_self]
  have hother : ∀ j, j ≠ i → s'.jobs j = s.jobs j := by
    intro j hj
    show Function.update s.busy i ((s.busy i).eraseIdx k) j ++ s.ringQueue j = _
    rw [Function.update_of_ne hj]
    rfl
  refine ⟨?_, h.args, ?_, h.received, h.gone⟩
  · have howned : ∀ b, s.owned b = s'.owned b + job.owns b := by
      intro b
      have hsum := ringSum_eq (f := fun j => s'.jobsOwn j b) (g := fun j => s.jobsOwn j b)
        (d := job.owns b) i
        (by
          unfold jobsOwn
          rw [((finish_perm hjob).map fun job => job.owns b).sum_eq, hself, List.map_cons,
            List.sum_cons]
          exact Nat.add_comm _ _)
        (by
          intro j hj
          unfold jobsOwn
          rw [hother j hj])
      have hargs : s.argsOwn b = s'.argsOwn b := rfl
      unfold owned
      omega
    have hfirst : (s.heap.free job.bufCopy).Balanced fun b =>
        s'.owned b + if b = job.self then 1 else 0 := by
      apply h.balanced.free
      intro b
      rw [howned b]
      unfold RingJob.owns
      omega
    exact hfirst.free fun b => rfl
  · intro j job' hmem
    have hmem' : job' ∈ s'.jobs j := hmem
    by_cases hj : j = i
    · rw [hj, hself] at hmem'
      exact h.jobs i job' ((finish_perm hjob).mem_iff.mpr (List.mem_cons_of_mem _ hmem'))
    · rw [hother j hj] at hmem'
      exact h.jobs j job' hmem'

theorem Inv.destroyPool (h : s.Inv) (hexited : s.poolThread = .exited) :
    ({ s.drain s.poolQueue with poolQueue := [], msgPool := false } : Server).Inv := by
  have hargs : s.args = s.poolQueue := by
    unfold Server.args
    rw [hexited]
    rfl
  obtain ⟨heq, hnext⟩ := drain_eq s.poolQueue s
  rw [heq]
  refine ⟨?_, ?_, h.jobs, ?_, fun _ => ⟨hexited, rfl⟩⟩
  · apply drain_balanced
    have hbal := h.balanced
    have howned : s.owned = fun b => ({ s with
        heap := (s.drain s.poolQueue).heap, poolQueue := [], msgPool := false } :
          Server).owned b + (s.poolQueue.map fun w => w.owns b).sum := by
      funext b
      unfold owned argsOwn
      rw [hargs]
      unfold Server.args
      rw [hexited]
      show _ + (s.jobsOwn 0 b + s.jobsOwn 1 b) =
        0 + (s.jobsOwn 0 b + s.jobsOwn 1 b) + _
      omega
    rw [howned] at hbal
    exact hbal
  · intro w hw
    unfold Server.args at hw
    rw [hexited] at hw
    cases hw
  · intro b hb
    rw [hnext]
    exact h.received b hb

theorem Inv.msgPool_of_thread (h : s.Inv) (hthread : s.poolThread ≠ .exited) :
    s.msgPool = true := by
  by_contra hnone
  rw [Bool.not_eq_true] at hnone
  exact hthread (h.gone hnone).1

/-- A step that leaves the message pool and the jobs as they are. -/
theorem Inv.of_flags (h : s.Inv) (hheap : s'.heap = s.heap)
    (hreceived : s'.received = s.received) (hthread : s'.poolThread = s.poolThread)
    (hqueue : s'.poolQueue = s.poolQueue) (hpool : s'.msgPool = s.msgPool)
    (hjobs : s'.jobs = s.jobs) : s'.Inv := by
  apply h.of_perm hheap hreceived
  · unfold Server.args
    rw [hthread, hqueue]
  · intro i
    rw [hjobs]
  · rw [hthread, hqueue, hpool]
    exact h.gone

/-- The thread of the pool moves its arguments. -/
theorem Inv.of_thread (h : s.Inv) (hthread : s.poolThread ≠ .exited)
    {thread : PoolThread} {queue taken : List MessageWorkerArg}
    (hargs : (thread.args ++ queue).Perm s.args) :
    ({ s with poolThread := thread, poolQueue := queue, poolTaken := taken } :
      Server).Inv := by
  have hpool := h.msgPool_of_thread hthread
  refine h.of_perm rfl rfl hargs (fun i => List.Perm.refl _) ?_
  intro hnone
  rw [show s.msgPool = false from hnone] at hpool
  cases hpool

theorem poolCheck_cases (hstep : s.poolCheck = some s') :
    s.poolThread = .check ∧
      s' = { s with poolThread := if s.poolStop then .exited else .body } := by
  unfold Server.poolCheck at hstep
  split at hstep
  next hthread => exact ⟨hthread, (Option.some.inj hstep).symm⟩
  all_goals cases hstep

theorem poolLoadSlot_cases (hstep : s.poolLoadSlot = some s') :
    s.poolThread = .body ∧ s' = { s with poolThread := .slotLoaded s.poolSlot } := by
  unfold Server.poolLoadSlot at hstep
  split at hstep
  next hthread => exact ⟨hthread, (Option.some.inj hstep).symm⟩
  all_goals cases hstep

/-- The thread of the pool finds its queue empty, or takes an argument and handles what
it has read. -/
theorem poolTake_cases (hstep : s.poolTake = some s') :
    s.poolThread.args = [] ∧ s.poolThread ≠ .exited ∧
      ((s.poolQueue = [] ∧ s' = { s with poolThread := .check }) ∨
        ∃ w ws read, s.poolQueue = w :: ws ∧
          (s.poolThread = .body ∧ read = some w ∨ s.poolThread = .slotLoaded read) ∧
          s' = { s with
            poolThread := handle read
            poolQueue := ws
            poolTaken := s.poolTaken ++ [w] }) := by
  unfold Server.poolTake at hstep
  split at hstep
  next hthread hqueue =>
    rw [hthread]
    exact ⟨rfl, nofun, .inl ⟨hqueue, (Option.some.inj hstep).symm⟩⟩
  next w ws hthread hqueue =>
    rw [hthread]
    exact ⟨rfl, nofun, .inr ⟨w, ws, some w, hqueue, .inl ⟨rfl, rfl⟩,
      (Option.some.inj hstep).symm⟩⟩
  next read hthread hqueue =>
    rw [hthread]
    exact ⟨rfl, nofun, .inl ⟨hqueue, (Option.some.inj hstep).symm⟩⟩
  next read w ws hthread hqueue =>
    rw [hthread]
    exact ⟨rfl, nofun, .inr ⟨w, ws, read, hqueue, .inr rfl,
      (Option.some.inj hstep).symm⟩⟩
  all_goals cases hstep

theorem Inv.poolCheck (h : s.Inv) (hstep : s.poolCheck = some s') : s'.Inv := by
  obtain ⟨hthread, rfl⟩ := poolCheck_cases hstep
  apply h.of_thread (by rw [hthread]; exact nofun)
  unfold Server.args
  rw [hthread]
  split
  · exact List.Perm.refl _
  · exact List.Perm.refl _

theorem Inv.poolLoadSlot (h : s.Inv) (hstep : s.poolLoadSlot = some s') : s'.Inv := by
  obtain ⟨hthread, rfl⟩ := poolLoadSlot_cases hstep
  apply h.of_thread (by rw [hthread]; exact nofun)
  unfold Server.args
  rw [hthread]
  exact List.Perm.refl _

/-- If the slot was not read too early, the argument stays with the thread. -/
theorem Inv.poolTake (h : s.Inv) (hfresh : s.Fresh) (hstep : s.poolTake = some s') :
    s'.Inv := by
  obtain ⟨hthread, hrunning, ⟨hqueue, rfl⟩ | ⟨w, ws, read, hqueue, hread, rfl⟩⟩ :=
    poolTake_cases hstep
  · apply h.of_thread hrunning
    unfold Server.args
    rw [hthread]
    exact List.Perm.refl _
  · have hsame : read = some w := by
      rcases hread with ⟨-, hread⟩ | hread
      · exact hread
      · exact hfresh read w ws hread hqueue
    subst hsame
    apply h.of_thread hrunning
    unfold Server.args
    rw [hthread, hqueue]
    exact List.Perm.refl _

/-! ### The slots of the queue -/

/-- The arguments that went through the queue of the pool and those that wait there
have blocks of their own, and what was read ahead of the tail is one of the former or
the first of the latter. -/
structure Slots (s : Server) : Prop where
  apart : (s.poolTaken ++ s.poolQueue).Pairwise fun w' w => w'.owns w.bufCopy = 0
  old : ∀ w ∈ s.poolTaken ++ s.poolQueue, w.recvCmd < s.heap.next ∧ w.self < s.heap.next
  read : ∀ w, s.poolThread = .slotLoaded (some w) →
    w ∈ s.poolTaken ∨ s.poolQueue.head? = some w

theorem slots_init : Server.init.Slots where
  apart := List.Pairwise.nil
  old _ h := by cases h
  read _ h := by cases h

/-- A step that leaves the queue as it is. -/
theorem Slots.of_same (h : s.Slots) (htaken : s'.poolTaken = s.poolTaken)
    (hqueue : s'.poolQueue = s.poolQueue) (hnext : s.heap.next ≤ s'.heap.next)
    (hread : ∀ w, s'.poolThread = .slotLoaded (some w) →
      w ∈ s.poolTaken ∨ s.poolQueue.head? = some w) : s'.Slots := by
  refine ⟨?_, ?_, ?_⟩
  · rw [htaken, hqueue]
    exact h.apart
  · rw [htaken, hqueue]
    intro w hw
    have hold := h.old w hw
    exact ⟨hold.1.trans_le hnext, hold.2.trans_le hnext⟩
  · rw [htaken, hqueue]
    exact hread

theorem Slots.of_thread (h : s.Slots) (htaken : s'.poolTaken = s.poolTaken)
    (hqueue : s'.poolQueue = s.poolQueue) (hnext : s.heap.next ≤ s'.heap.next)
    (hthread : s'.poolThread = s.poolThread) : s'.Slots := by
  refine h.of_same htaken hqueue hnext ?_
  rw [hthread]
  exact h.read

/-- A new argument has new blocks. -/
theorem Slots.receive (h : s.Slots) (msg : Message) (env : CallbackEnv) :
    (s.messageRecvCallback msg env).Slots := by
  have hkept : s.heap.next ≤ s.heap.next + 1 := Nat.le_succ _
  have hkept' : s.heap.next ≤ s.heap.next + 1 + 1 := hkept.trans (Nat.le_succ _)
  rcases messageRecvCallback_cases s msg env with ⟨-, heq | heq | ⟨content, heq⟩⟩ |
    ⟨-, heq⟩
  · rw [heq]
    exact h
  · rw [heq]
    exact h.of_thread rfl rfl hkept rfl
  · rw [heq]
    rcases submitOrDrop_cases s.copied.alloc
        ⟨s.heap.next + 1, s.heap.next, s.heap.next, content⟩ with ⟨-, heq'⟩ | heq'
    · rw [heq']
      refine ⟨?_, ?_, ?_⟩
      · show (s.poolTaken ++ (s.poolQueue ++ [_])).Pairwise _
        rw [← List.append_assoc, List.pairwise_append]
        refine ⟨h.apart, List.pairwise_singleton _ _, ?_⟩
        intro w hw w' hw'
        obtain rfl := List.mem_singleton.mp hw'
        have hold := h.old w hw
        unfold MessageWorkerArg.owns
        dsimp only
        rw [if_neg (by omega), if_neg (by omega)]
      · show ∀ w ∈ s.poolTaken ++ (s.poolQueue ++ [_]), _
        rw [← List.append_assoc]
        intro w hw
        rcases List.mem_append.mp hw with hw | hw
        · have hold := h.old w hw
          exact ⟨hold.1.trans_le hkept', hold.2.trans_le hkept'⟩
        · obtain rfl := List.mem_singleton.mp hw
          exact ⟨Nat.lt_succ_of_lt (Nat.lt_succ_self _), Nat.lt_succ_self _⟩
      · intro w hw
        rcases h.read w hw with hread | hread
        · exact .inl hread
        · right
          show (s.poolQueue ++ [_]).head? = some w
          rw [List.head?_append, hread]
          rfl
    · rw [heq']
      exact h.of_thread rfl rfl hkept' rfl
  · rw [heq]
    exact h.of_thread rfl rfl hkept rfl

theorem Slots.poolTake (h : s.Slots) (hstep : s.poolTake = some s') : s'.Slots := by
  obtain ⟨-, -, ⟨-, rfl⟩ | ⟨w, ws, read, hqueue, -, rfl⟩⟩ := poolTake_cases hstep
  · exact h.of_same rfl rfl le_rfl (by simp)
  · have hsame : s.poolTaken ++ [w] ++ ws = s.poolTaken ++ s.poolQueue := by
      rw [hqueue, List.append_assoc]
      rfl
    refine ⟨?_, ?_, ?_⟩
    · show (s.poolTaken ++ [w] ++ ws).Pairwise _
      rw [hsame]
      exact h.apart
    · show ∀ w' ∈ s.poolTaken ++ [w] ++ ws, _
      rw [hsame]
      exact h.old
    · intro w' hw'
      cases read <;> cases hw'

theorem Handled.slots {w : MessageWorkerArg}
    (h : ({ s with poolThread := .check } : Server).Handled w s') (hslots : s.Slots) :
    s'.Slots := by
  obtain ⟨enabled, checking, agSeq, rfl | ⟨i, rfl⟩⟩ := h
  · exact hslots.of_same rfl rfl le_rfl (by simp [freeBoth, withRings, free])
  · exact hslots.of_same rfl rfl (Nat.le_succ _) (by simp [ringQueuePush, withRings, alloc, free])

theorem Slots.step (h : s.Slots) {a : Action}
    (hstep : Server.step useRingQueues s a = some s') : s'.Slots := by
  cases a with
  | receive msg env =>
      obtain rfl := Option.some.inj hstep
      exact h.receive msg env
  | poolCheck =>
      obtain ⟨-, rfl⟩ := poolCheck_cases hstep
      refine h.of_same rfl rfl le_rfl ?_
      intro w hw
      dsimp only at hw
      split at hw <;> cases hw
  | poolLoadSlot =>
      obtain ⟨-, rfl⟩ := poolLoadSlot_cases hstep
      refine h.of_same rfl rfl le_rfl ?_
      intro w hw
      have hslot : s.poolSlot = some w := by simpa using hw
      unfold poolSlot at hslot
      split at hslot
      next w' ws hqueue =>
        right
        rw [hqueue]
        exact hslot
      · split at hslot
        · cases hslot
        · exact .inl (List.mem_of_getElem? hslot)
  | poolTake => exact h.poolTake hstep
  | poolInitQueues fails =>
      obtain ⟨w, -, -, rfl⟩ := poolInitQueues_cases hstep
      exact h.of_same rfl rfl le_rfl (by simp)
  | poolFinish env =>
      obtain ⟨w, -, -, hhandled⟩ := poolFinish_cases hstep
      exact hhandled.slots h
  | ringCheck i =>
      have hcheck : s.ringCheck i = some s' := hstep
      unfold ringCheck at hcheck
      split at hcheck
      · cases hcheck
      · split at hcheck
        all_goals
          obtain rfl := Option.some.inj hcheck
          exact h.of_thread rfl rfl le_rfl rfl
  | ringTake i =>
      have htake : s.ringTake i = some s' := hstep
      unfold ringTake at htake
      split at htake
      · cases htake
      · split at htake
        · cases htake
        · obtain rfl := Option.some.inj htake
          exact h.of_thread rfl rfl le_rfl rfl
  | ringStopped i =>
      have hstopped : s.ringStopped i = some s' := hstep
      unfold ringStopped at hstopped
      split at hstopped
      · cases hstopped
      · split at hstopped
        · obtain rfl := Option.some.inj hstopped
          exact h.of_thread rfl rfl le_rfl rfl
        · cases hstopped
  | ringFinish i k =>
      have hfinish : s.ringFinish i k = some s' := hstep
      unfold Server.ringFinish at hfinish
      split at hfinish
      · cases hfinish
      · obtain rfl := Option.some.inj hfinish
        exact h.of_thread rfl rfl le_rfl rfl
  | stopRings =>
      obtain rfl := Option.some.inj hstep
      exact h.of_thread rfl rfl le_rfl rfl
  | stopPool =>
      have hstop : s.stopPool = some s' := hstep
      unfold stopPool at hstop
      split at hstop
      · obtain rfl := Option.some.inj hstop
        exact h.of_thread rfl rfl le_rfl rfl
      · cases hstop
  | destroyPool =>
      have hdestroy : s.destroyPool = some s' := hstep
      unfold Server.destroyPool at hdestroy
      split at hdestroy
      next hthread =>
        split at hdestroy
        · obtain rfl := Option.some.inj hdestroy
          obtain ⟨heq, hnext⟩ := drain_eq s.poolQueue s
          rw [heq]
          refine ⟨?_, ?_, ?_⟩
          · show (s.poolTaken ++ []).Pairwise _
            rw [List.append_nil]
            exact (List.pairwise_append.mp h.apart).1
          · show ∀ w ∈ s.poolTaken ++ [], _
            intro w hw
            rw [List.append_nil] at hw
            show w.recvCmd < (s.drain s.poolQueue).heap.next ∧ _
            rw [hnext]
            exact h.old w (List.mem_append_left _ hw)
          · intro w hw
            rw [hthread] at hw
            cases hw
        · cases hdestroy
      all_goals cases hdestroy

/-- A copy that loses its owner without being freed is not released. -/
theorem Inv.not_releasedOnce_of_lost (h : s.Inv) {b : ℕ} (hb : b ∈ s.received)
    (hheap : s'.heap = s.heap) (hreceived : s'.received = s.received)
    (hlost : s'.owned b < s.owned b) : ¬ s'.ReleasedOnce := by
  intro hreleased
  have hbal := h.balanced b
  rw [if_pos (h.received b hb)] at hbal
  have hone := (hreleased b (hreceived ▸ hb)).1
  rw [hheap] at hone
  omega

/-- The copy of an argument whose slot was read too early has no owner any more. -/
theorem Inv.not_releasedOnce_of_stale (h : s.Inv) (hslots : s.Slots)
    {read : Option MessageWorkerArg} {w : MessageWorkerArg} {ws : List MessageWorkerArg}
    (hthread : s.poolThread = .slotLoaded read) (hqueue : s.poolQueue = w :: ws)
    (hstale : read ≠ some w) :
    ∃ s', s.poolTake = some s' ∧ ¬ s'.ReleasedOnce := by
  have hstep : s.poolTake = some { s with
      poolThread := handle read
      poolQueue := ws
      poolTaken := s.poolTaken ++ [w] } := by
    unfold Server.poolTake
    rw [hthread, hqueue]
  have hargs : s.args = w :: ws := by
    unfold Server.args
    rw [hthread, hqueue]
    rfl
  have harg := h.args w (hargs ▸ List.mem_cons_self)
  refine ⟨_, hstep, h.not_releasedOnce_of_lost harg.2 rfl rfl ?_⟩
  have hother : ((handle read).args.map fun w' => w'.owns w.bufCopy).sum = 0 := by
    cases hread : read with
    | none => rfl
    | some w' =>
        have htaken : w' ∈ s.poolTaken := by
          rcases hslots.read w' (hread ▸ hthread) with htaken | hhead
          · exact htaken
          · rw [hqueue] at hhead
            exact absurd (hread.trans hhead.symm) hstale
        have hmem : w ∈ s.poolQueue := hqueue ▸ List.mem_cons_self
        have hzero := (List.pairwise_append.mp hslots.apart).2.2 w' htaken w hmem
        show w'.owns w.bufCopy + 0 = 0
        rw [hzero]
  have howns : 0 < w.owns w.bufCopy := by
    unfold MessageWorkerArg.owns
    rw [if_pos harg.1.symm]
    omega
  have hold : s.argsOwn w.bufCopy =
      w.owns w.bufCopy + (ws.map fun w' => w'.owns w.bufCopy).sum := by
    unfold argsOwn
    rw [hargs, List.map_cons, List.sum_cons]
  refine Nat.add_lt_add_right (?_ : argsOwn _ w.bufCopy < s.argsOwn w.bufCopy) _
  rw [hold]
  unfold argsOwn Server.args
  dsimp only
  rw [List.map_append, List.sum_append, hother]
  omega

/-- If it drops no job, `ring_queues_init` keeps the invariant. -/
theorem Inv.poolInitQueues (h : s.Inv) {fails : Option RingId}
    (hclears : s.CreatesRing → ∀ i, clears fails i = true → s.ringQueue i = [])
    (hstep : s.poolInitQueues fails = some s') : s'.Inv := by
  obtain ⟨w, hthread, hcreates, heq⟩ := poolInitQueues_cases hstep
  have hqueue : s'.ringQueue = s.ringQueue := by
    rw [heq]
    funext i
    show (if clears fails i then [] else s.ringQueue i) = s.ringQueue i
    split
    next hclear => exact (hclears hcreates i hclear).symm
    · rfl
  have hbusy : s'.busy = s.busy := by
    rw [heq]
    rfl
  have hargs : s'.args = s.args := by
    unfold Server.args
    rw [hthread, heq]
    rfl
  apply h.of_perm (by rw [heq]; rfl) (by rw [heq]; rfl) (List.Perm.of_eq hargs)
  · intro i
    unfold Server.jobs
    rw [hqueue, hbusy]
  · intro hnone
    have hexited := (h.gone (by rw [heq] at hnone; exact hnone)).1
    rw [hthread] at hexited
    cases hexited

/-- A job in a queue that `ring_queues_init` sets to `NULL` has no owner any more. -/
theorem Inv.not_releasedOnce_of_clears (h : s.Inv) {fails : Option RingId}
    (hcreates : s.CreatesRing) {i : RingId} (hclear : clears fails i = true)
    (hqueue : s.ringQueue i ≠ []) :
    ∃ s', s.poolInitQueues fails = some s' ∧ ¬ s'.ReleasedOnce := by
  obtain ⟨w, m, hthread, hcontent⟩ := hcreates
  have hstep : s.poolInitQueues fails =
      some { s.ringQueuesInit fails with poolThread := .creating w fails.isNone } := by
    unfold Server.poolInitQueues
    rw [hthread]
    dsimp only
    rw [hcontent]
  obtain ⟨job, rest, hjobs⟩ := List.exists_cons_of_ne_nil hqueue
  have hmem : job ∈ s.jobs i := by
    apply List.mem_append_right
    rw [hjobs]
    exact List.mem_cons_self
  refine ⟨_, hstep, h.not_releasedOnce_of_lost (h.jobs i job hmem) rfl rfl ?_⟩
  obtain ⟨s', heq⟩ : ∃ s' : Server,
      s' = { s.ringQueuesInit fails with poolThread := .creating w fails.isNone } :=
    ⟨_, rfl⟩
  rw [← heq]
  have howns : 0 < job.owns job.bufCopy := by
    unfold RingJob.owns
    rw [if_pos rfl]
    omega
  have hkept : ∀ j, s'.jobs j = s.busy j ++ if clears fails j then [] else s.ringQueue j := by
    intro j
    rw [heq]
    rfl
  have hle : ∀ j, s'.jobsOwn j job.bufCopy ≤ s.jobsOwn j job.bufCopy := by
    intro j
    unfold jobsOwn
    rw [hkept j]
    split
    · rw [List.append_nil, Server.jobs, List.map_append, List.sum_append]
      exact Nat.le_add_right _ _
    · exact le_rfl
  have hless : s'.jobsOwn i job.bufCopy + job.owns job.bufCopy ≤ s.jobsOwn i job.bufCopy := by
    unfold jobsOwn
    rw [hkept i, if_pos hclear, List.append_nil, Server.jobs, hjobs, List.map_append,
      List.sum_append, List.map_cons, List.sum_cons]
    omega
  have hargs : s'.argsOwn job.bufCopy = s.argsOwn job.bufCopy := by
    unfold argsOwn Server.args
    rw [hthread, heq]
    rfl
  have hzero := hle 0
  have hone := hle 1
  unfold owned
  rw [hargs]
  fin_cases i
  · have hless' : s'.jobsOwn 0 job.bufCopy + job.owns job.bufCopy ≤
        s.jobsOwn 0 job.bufCopy := hless
    omega
  · have hless' : s'.jobsOwn 1 job.bufCopy + job.owns job.bufCopy ≤
        s.jobsOwn 1 job.bufCopy := hless
    omega

/-- A step keeps the invariant, unless a message has no argument or an argument or a
job is lost. -/
theorem Inv.step (h : s.Inv) {a : Action}
    (hargs : ∀ msg env, a = .receive msg env → ¬ ArgFails msg env)
    (hfresh : a = .poolTake → s.Fresh)
    (hclears : ∀ fails, a = .poolInitQueues fails → s.CreatesRing →
      ∀ i, clears fails i = true → s.ringQueue i = [])
    (hstep : step useRingQueues s a = some s') : s'.Inv := by
  cases a with
  | receive msg env =>
      obtain rfl := Option.some.inj hstep
      exact h.receive msg env (hargs msg env rfl)
  | poolCheck => exact h.poolCheck hstep
  | poolLoadSlot => exact h.poolLoadSlot hstep
  | poolTake => exact h.poolTake (hfresh rfl) hstep
  | poolInitQueues fails => exact h.poolInitQueues (hclears fails rfl) hstep
  | poolFinish env =>
      obtain ⟨w, hthread, hrunning, hhandled⟩ := poolFinish_cases hstep
      exact (h.holdsArg hthread hrunning).handled hhandled
  | ringCheck i =>
      have hcheck : s.ringCheck i = some s' := hstep
      unfold ringCheck at hcheck
      split at hcheck
      · cases hcheck
      · split at hcheck
        · obtain rfl := Option.some.inj hcheck
          exact h.of_flags rfl rfl rfl rfl rfl rfl
        · obtain rfl := Option.some.inj hcheck
          exact h.of_flags rfl rfl rfl rfl rfl rfl
  | ringTake i =>
      have htake : s.ringTake i = some s' := hstep
      unfold ringTake at htake
      split at htake
      · cases htake
      · split at htake
        · cases htake
        next hqueue =>
          obtain rfl := Option.some.inj htake
          exact h.of_perm rfl rfl (List.Perm.refl _) (take_perm hqueue) h.gone
  | ringStopped i =>
      have hstopped : s.ringStopped i = some s' := hstep
      unfold ringStopped at hstopped
      split at hstopped
      · cases hstopped
      · split at hstopped
        · obtain rfl := Option.some.inj hstopped
          exact h.of_flags rfl rfl rfl rfl rfl rfl
        · cases hstopped
  | ringFinish i k =>
      have hfinish : s.ringFinish i k = some s' := hstep
      unfold Server.ringFinish at hfinish
      split at hfinish
      · cases hfinish
      next job hjob =>
        obtain rfl := Option.some.inj hfinish
        exact h.ringFinish hjob _
  | stopRings =>
      obtain rfl := Option.some.inj hstep
      exact h.of_flags rfl rfl rfl rfl rfl rfl
  | stopPool =>
      have hstop : s.stopPool = some s' := hstep
      unfold stopPool at hstop
      split at hstop
      · obtain rfl := Option.some.inj hstop
        exact h.of_flags rfl rfl rfl rfl rfl rfl
      · cases hstop
  | destroyPool =>
      have hdestroy : s.destroyPool = some s' := hstep
      unfold Server.destroyPool at hdestroy
      cases hthread : s.poolThread with
      | exited =>
          rw [hthread] at hdestroy
          dsimp only at hdestroy
          split at hdestroy
          · obtain rfl := Option.some.inj hdestroy
            have hinv := h.destroyPool hthread
            exact hinv
          · cases hdestroy
      | check => rw [hthread] at hdestroy; cases hdestroy
      | body => rw [hthread] at hdestroy; cases hdestroy
      | running w => rw [hthread] at hdestroy; cases hdestroy
      | creating w queuesReady => rw [hthread] at hdestroy; cases hdestroy
      | slotLoaded read => rw [hthread] at hdestroy; cases hdestroy
      | faulted => rw [hthread] at hdestroy; cases hdestroy

/-! ## The end -/

/-- Which threads of the rings a step leaves. -/
theorem ringCheck_cases {i : RingId} (hstep : s.ringCheck i = some s') :
    0 < s.checking i ∧ s'.msgPool = s.msgPool ∧ s'.ringQueue = s.ringQueue ∧
      ((s.ringQueueStop i = true ∧ s'.threads i + 1 = s.threads i ∧
          ∀ j, j ≠ i → s'.threads j = s.threads j) ∨
        (s.ringQueueStop i = false ∧ 0 < s'.threads i)) := by
  unfold ringCheck at hstep
  cases hchecking : s.checking i with
  | zero => rw [hchecking] at hstep; cases hstep
  | succ n =>
      rw [hchecking] at hstep
      dsimp only at hstep
      by_cases hstop : s.ringQueueStop i = true
      · rw [if_pos hstop] at hstep
        obtain rfl := Option.some.inj hstep
        refine ⟨Nat.succ_pos n, rfl, rfl, .inl ⟨hstop, ?_, ?_⟩⟩
        · unfold threads
          dsimp only
          rw [Function.update_self, hchecking]
          omega
        · intro j hj
          unfold threads
          dsimp only
          rw [Function.update_of_ne hj]
      · rw [if_neg hstop] at hstep
        obtain rfl := Option.some.inj hstep
        rw [Bool.not_eq_true] at hstop
        refine ⟨Nat.succ_pos n, rfl, rfl, .inr ⟨hstop, ?_⟩⟩
        unfold threads
        dsimp only
        rw [Function.update_self, Function.update_self]
        omega

theorem ringStopped_cases {i : RingId} (hstep : s.ringStopped i = some s') :
    0 < s.popping i ∧ s'.msgPool = s.msgPool ∧ s'.ringQueue = s.ringQueue ∧
      s.ringQueueStop i = true ∧ s'.threads i + 1 = s.threads i ∧
      ∀ j, j ≠ i → s'.threads j = s.threads j := by
  unfold ringStopped at hstep
  cases hpopping : s.popping i with
  | zero => rw [hpopping] at hstep; cases hstep
  | succ n =>
      rw [hpopping] at hstep
      dsimp only at hstep
      by_cases hstop : s.ringQueueStop i = true
      · rw [if_pos hstop] at hstep
        obtain rfl := Option.some.inj hstep
        refine ⟨Nat.succ_pos n, rfl, rfl, hstop, ?_, ?_⟩
        · unfold threads
          dsimp only
          rw [Function.update_self, hpopping]
          omega
        · intro j hj
          unfold threads
          dsimp only
          rw [Function.update_of_ne hj]
      · rw [if_neg hstop] at hstep
        cases hstep

/-- With one thread less there is none. -/
theorem onlyThread_iff {i : RingId} (hless : s'.threads i + 1 = s.threads i)
    (hother : ∀ j, j ≠ i → s'.threads j = s.threads j) :
    (∀ j, s'.threads j = 0) ↔ s.OnlyThread i := by
  constructor
  · intro h j
    by_cases hj : j = i
    · subst hj
      rw [if_pos rfl, ← hless, h j]
    · rw [if_neg hj, ← hother j hj, h j]
  · intro h j
    have hthreads := h j
    by_cases hj : j = i
    · subst hj
      rw [if_pos rfl] at hthreads
      omega
    · rw [if_neg hj] at hthreads
      rw [hother j hj, hthreads]

theorem destroyPool_cases (hstep : s.destroyPool = some s') :
    s.poolThread = .exited ∧ s.msgPool = true ∧ s.poolStop = true ∧
      s'.msgPool = false ∧ s'.ringQueue = s.ringQueue ∧ s'.threads = s.threads := by
  unfold Server.destroyPool at hstep
  cases hthread : s.poolThread with
  | exited =>
      rw [hthread] at hstep
      dsimp only at hstep
      split at hstep
      next hboth =>
        obtain ⟨hpool, hstop⟩ := (Bool.and_eq_true _ _).mp hboth
        obtain rfl := Option.some.inj hstep
        rw [(drain_eq s.poolQueue s).1]
        exact ⟨rfl, hpool, hstop, rfl, rfl, rfl⟩
      · cases hstep
  | check => rw [hthread] at hstep; cases hstep
  | body => rw [hthread] at hstep; cases hstep
  | running w => rw [hthread] at hstep; cases hstep
  | creating w queuesReady => rw [hthread] at hstep; cases hstep
  | slotLoaded read => rw [hthread] at hstep; cases hstep
  | faulted => rw [hthread] at hstep; cases hstep

/-- What a step leaves of the rings and whether there is a pool. -/
structure SameRings (s s' : Server) : Prop where
  msgPool : s'.msgPool = s.msgPool
  ringQueue : s'.ringQueue = s.ringQueue
  threads : s'.threads = s.threads

theorem messageRecvCallback_sameRings (s : Server) (msg : Message) (env : CallbackEnv) :
    SameRings s (s.messageRecvCallback msg env) := by
  rcases messageRecvCallback_cases s msg env with ⟨-, heq | heq | ⟨content, heq⟩⟩ |
    ⟨-, heq⟩
  · rw [heq]
    exact ⟨rfl, rfl, rfl⟩
  · rw [heq]
    exact ⟨rfl, rfl, rfl⟩
  · rw [heq]
    rcases submitOrDrop_cases s.copied.alloc
        ⟨s.heap.next + 1, s.heap.next, s.heap.next, content⟩ with ⟨-, heq'⟩ | heq'
    · rw [heq']
      exact ⟨rfl, rfl, rfl⟩
    · rw [heq']
      exact ⟨rfl, rfl, rfl⟩
  · rw [heq]
    exact ⟨rfl, rfl, rfl⟩

theorem SameRings.ended_iff (h : SameRings s s') : s'.Ended ↔ s.Ended := by
  unfold Ended
  rw [h.msgPool, h.threads]

theorem SameRings.queuesEmpty_iff (h : SameRings s s') :
    s'.QueuesEmpty ↔ s.QueuesEmpty := by
  unfold QueuesEmpty
  rw [h.ringQueue]

/-- A thread that is about to do something is counted. -/
theorem not_ended_of_threads {i : RingId} (h : 0 < s.threads i) : ¬ s.Ended := by
  intro hended
  have hnone := hended.2 i
  omega

theorem not_ended_of_msgPool (h : s.msgPool = true) : ¬ s.Ended := by
  intro hended
  rw [hended.1] at h
  cases h

theorem Handled.msgPool {w : MessageWorkerArg} (h : s.Handled w s') :
    s'.msgPool = s.msgPool := by
  obtain ⟨enabled, checking, agSeq, rfl | ⟨i, rfl⟩⟩ := h
  · rfl
  · rfl

/-- While its thread is not over the pool stays. -/
theorem Inv.pool_stays (h : s.Inv) {a : Action}
    (ha : a = .poolCheck ∨ a = .poolLoadSlot ∨ a = .poolTake ∨
      (∃ fails, a = .poolInitQueues fails) ∨ ∃ env, a = .poolFinish env)
    (hstep : Server.step useRingQueues s a = some s') : s'.msgPool = true := by
  have hthread : s.poolThread ≠ .exited ∧ s'.msgPool = s.msgPool := by
    rcases ha with rfl | rfl | rfl | ⟨fails, rfl⟩ | ⟨env, rfl⟩
    · obtain ⟨hthread, rfl⟩ := poolCheck_cases hstep
      exact ⟨by rw [hthread]; exact nofun, rfl⟩
    · obtain ⟨hthread, rfl⟩ := poolLoadSlot_cases hstep
      exact ⟨by rw [hthread]; exact nofun, rfl⟩
    · obtain ⟨-, hrunning, ⟨-, rfl⟩ | ⟨w, ws, read, -, -, rfl⟩⟩ := poolTake_cases hstep
      · exact ⟨hrunning, rfl⟩
      · exact ⟨hrunning, rfl⟩
    · obtain ⟨w, hthread, -, rfl⟩ := poolInitQueues_cases hstep
      exact ⟨by rw [hthread]; exact nofun, rfl⟩
    · obtain ⟨w, -, hrunning, hhandled⟩ := poolFinish_cases hstep
      exact ⟨hrunning, hhandled.msgPool⟩
  rw [hthread.2]
  exact h.msgPool_of_thread hthread.1

/-- In the end the queues of the rings are empty. -/
theorem Inv.step_ended (h : s.Inv) {a : Action} (hcareful : s.Careful a)
    (hempty : s.Ended → s.QueuesEmpty) (hstep : Server.step useRingQueues s a = some s') :
    s'.Ended → s'.QueuesEmpty := by
  intro hended
  cases a with
  | receive msg env =>
      obtain rfl := Option.some.inj hstep
      have hsame := messageRecvCallback_sameRings s msg env
      exact hsame.queuesEmpty_iff.mpr (hempty (hsame.ended_iff.mp hended))
  | poolCheck => exact absurd hended (not_ended_of_msgPool (h.pool_stays (.inl rfl) hstep))
  | poolLoadSlot =>
      exact absurd hended (not_ended_of_msgPool (h.pool_stays (.inr (.inl rfl)) hstep))
  | poolTake =>
      have hstays := h.pool_stays (.inr (.inr (.inl rfl))) hstep
      exact absurd hended (not_ended_of_msgPool hstays)
  | poolInitQueues fails =>
      have hstays := h.pool_stays (.inr (.inr (.inr (.inl ⟨fails, rfl⟩)))) hstep
      exact absurd hended (not_ended_of_msgPool hstays)
  | poolFinish env =>
      have hstays := h.pool_stays (.inr (.inr (.inr (.inr ⟨env, rfl⟩)))) hstep
      exact absurd hended (not_ended_of_msgPool hstays)
  | ringCheck i =>
      obtain ⟨hpos, hpool, hqueue, ⟨hstop, hless, hother⟩ | ⟨-, hmore⟩⟩ :=
        ringCheck_cases hstep
      · have honly := (onlyThread_iff hless hother).mp hended.2
        have hall := hcareful.jobs ⟨hpool ▸ hended.1, hstop, hpos, honly⟩
        unfold QueuesEmpty
        rw [hqueue]
        exact hall
      · exact absurd hended (not_ended_of_threads hmore)
  | ringTake i =>
      have htake : s.ringTake i = some s' := hstep
      unfold ringTake at htake
      split at htake
      · cases htake
      · split at htake
        · cases htake
        · obtain rfl := Option.some.inj htake
          refine absurd hended (not_ended_of_threads (i := i) ?_)
          unfold threads
          dsimp only
          rw [Function.update_self, Function.update_self, List.length_cons]
          omega
  | ringStopped i =>
      obtain ⟨hpos, hpool, hqueue, hstop, hless, hother⟩ := ringStopped_cases hstep
      have honly := (onlyThread_iff hless hother).mp hended.2
      have hall := hcareful.jobs ⟨hpool ▸ hended.1, hstop, hpos, honly⟩
      unfold QueuesEmpty
      rw [hqueue]
      exact hall
  | ringFinish i k =>
      have hfinish : s.ringFinish i k = some s' := hstep
      unfold Server.ringFinish at hfinish
      split at hfinish
      · cases hfinish
      · obtain rfl := Option.some.inj hfinish
        refine absurd hended (not_ended_of_threads (i := i) ?_)
        unfold threads
        show 0 < Function.update s.checking i (s.checking i + 1) i + _ + _
        rw [Function.update_self]
        omega
  | stopRings =>
      obtain rfl := Option.some.inj hstep
      exact hempty hended
  | stopPool =>
      have hstop : s.stopPool = some s' := hstep
      unfold stopPool at hstop
      split at hstop
      · obtain rfl := Option.some.inj hstop
        exact hempty hended
      · cases hstop
  | destroyPool =>
      obtain ⟨hthread, hpool, hstop, -, hqueue, hthreads⟩ := destroyPool_cases hstep
      have hnone : ∀ i, s.threads i = 0 := by
        rw [← hthreads]
        exact hended.2
      have hall := hcareful.jobs ⟨hpool, hstop, hthread, hnone⟩
      unfold QueuesEmpty
      rw [hqueue]
      exact hall

/-- With empty queues nothing is owned in the end. -/
theorem Inv.releasedOnce (h : s.Inv) (hempty : s.Ended → s.QueuesEmpty) :
    s.ReleasedOnce := by
  intro b hb
  constructor
  · have hbal := h.balanced b
    rw [if_pos (h.received b hb)] at hbal
    exact hbal
  intro hended
  apply h.balanced.count_eq_one (h.received b hb)
  have hargs : s.args = [] := by
    obtain ⟨hthread, hqueue⟩ := h.gone hended.1
    unfold Server.args
    rw [hthread, hqueue]
    rfl
  have hjobs : ∀ i, s.jobs i = [] := by
    intro i
    have hthreads := hended.2 i
    have hbusy : s.busy i = [] := by
      apply List.length_eq_zero_iff.mp
      unfold threads at hthreads
      omega
    unfold Server.jobs
    rw [hbusy, hempty hended i]
    rfl
  unfold owned argsOwn jobsOwn
  rw [hargs, hjobs 0, hjobs 1]
  rfl

/-- A job that is left in a queue in the end is never freed. -/
theorem Inv.queuesEmpty_of_releasedOnce (h : s.Inv) (hended : s.Ended)
    (hreleased : s.ReleasedOnce) : s.QueuesEmpty := by
  intro i
  by_contra hne
  obtain ⟨job, rest, hqueue⟩ := List.exists_cons_of_ne_nil hne
  have hmem : job ∈ s.jobs i := by
    apply List.mem_append_right
    rw [hqueue]
    exact List.mem_cons_self
  have hcount := (hreleased job.bufCopy (h.jobs i job hmem)).2 hended
  have howns : 0 < job.owns job.bufCopy := by
    unfold RingJob.owns
    rw [if_pos rfl]
    omega
  have hsum : job.owns job.bufCopy ≤ s.jobsOwn i job.bufCopy :=
    List.single_le_sum (fun x _ => Nat.zero_le x) _ (List.mem_map_of_mem hmem)
  have howned : 0 < s.owned job.bufCopy := by
    unfold owned
    fin_cases i
    · have hzero : job.owns job.bufCopy ≤ s.jobsOwn 0 job.bufCopy := hsum
      omega
    · have hone : job.owns job.bufCopy ≤ s.jobsOwn 1 job.bufCopy := hsum
      omega
  rw [h.balanced.count_eq_zero howned] at hcount
  cases hcount

/-- After the last step the server has ended, with its queues as they were. -/
theorem exists_step_of_lastStep (useRingQueues : Bool) {a : Action} (h : s.LastStep a) :
    ∃ s', Server.step useRingQueues s a = some s' ∧ s'.Ended ∧
      s'.ringQueue = s.ringQueue := by
  cases a with
  | destroyPool =>
      obtain ⟨hpool, hstop, hthread, hnone⟩ := h
      have hstep : s.destroyPool =
          some { s.drain s.poolQueue with poolQueue := [], msgPool := false } := by
        unfold Server.destroyPool
        rw [hthread, hpool, hstop]
        rfl
      obtain ⟨-, -, -, hgone, hqueue, hthreads⟩ := destroyPool_cases hstep
      refine ⟨_, hstep, ⟨hgone, ?_⟩, hqueue⟩
      intro i
      rw [hthreads]
      exact hnone i
  | ringCheck i =>
      obtain ⟨hpool, hstop, hpos, honly⟩ := h
      obtain ⟨n, hchecking⟩ := Nat.exists_eq_succ_of_ne_zero hpos.ne'
      have hstep : s.ringCheck i =
          some { s with checking := Function.update s.checking i n } := by
        unfold ringCheck
        rw [hchecking, hstop]
        rfl
      obtain ⟨-, hgone, hqueue, ⟨-, hless, hother⟩ | ⟨hrun, -⟩⟩ := ringCheck_cases hstep
      · exact ⟨_, hstep, ⟨hpool, (onlyThread_iff hless hother).mpr honly⟩, hqueue⟩
      · rw [hstop] at hrun
        cases hrun
  | ringStopped i =>
      obtain ⟨hpool, hstop, hpos, honly⟩ := h
      obtain ⟨n, hpopping⟩ := Nat.exists_eq_succ_of_ne_zero hpos.ne'
      have hstep : s.ringStopped i =
          some { s with popping := Function.update s.popping i n } := by
        unfold ringStopped
        rw [hpopping, hstop]
        rfl
      obtain ⟨-, hgone, hqueue, -, hless, hother⟩ := ringStopped_cases hstep
      exact ⟨_, hstep, ⟨hpool, (onlyThread_iff hless hother).mpr honly⟩, hqueue⟩
  | receive msg env => exact h.elim
  | poolCheck => exact h.elim
  | poolLoadSlot => exact h.elim
  | poolTake => exact h.elim
  | poolInitQueues fails => exact h.elim
  | poolFinish env => exact h.elim
  | ringTake i => exact h.elim
  | ringFinish i k => exact h.elim
  | stopRings => exact h.elim
  | stopPool => exact h.elim

/-- After the failure the copy has been freed twice. -/
theorem not_releasedOnce_of_argFails (s : Server) {msg : Message} {env : CallbackEnv}
    (hfails : ArgFails msg env) : ¬ (s.messageRecvCallback msg env).ReleasedOnce := by
  intro hreleased
  rcases messageRecvCallback_cases s msg env with ⟨hnot, -⟩ | ⟨-, heq⟩
  · exact hnot hfails
  · rw [heq] at hreleased
    have hcount := (hreleased s.heap.next List.mem_cons_self).1
    have htwice : ((s.copied.free s.heap.next).free s.heap.next).heap.freed =
        s.heap.next :: s.heap.next :: s.heap.freed := rfl
    rw [htwice, List.count_cons_self, List.count_cons_self] at hcount
    omega

end Server

/-- In every state of a run each copy of a message has been freed once or has the one
owner that will free it, and when the server is gone each has been freed, exactly if
every step was careful. -/
theorem releasedOnce_iff (useRingQueues : Bool) (acts : List Server.Action) :
    Machine.AllStates (Server.step useRingQueues) Server.ReleasedOnce Server.init acts ↔
      Machine.AllSteps (Server.step useRingQueues) Server.Careful Server.init acts := by
  apply Machine.allStates_iff_allSteps
    (I := fun s => s.Inv ∧ s.Slots ∧ (s.Ended → s.QueuesEmpty))
  · rintro s a s' hcareful hstep ⟨h, hslots, hempty⟩
    exact ⟨h.step hcareful.args hcareful.fresh hcareful.clears hstep, hslots.step hstep,
      h.step_ended hcareful hempty hstep⟩
  · rintro s ⟨h, -, hempty⟩
    exact h.releasedOnce hempty
  · rintro s a ⟨h, hslots, hempty⟩ hnext
    refine ⟨?_, ?_, ?_, ?_⟩
    · rintro msg env rfl hfails
      exact Server.not_releasedOnce_of_argFails s hfails (hnext _ rfl)
    · rintro rfl read w ws hthread hqueue
      by_contra hstale
      obtain ⟨s', hstep, hnot⟩ :=
        h.not_releasedOnce_of_stale hslots hthread hqueue hstale
      exact hnot (hnext s' hstep)
    · rintro fails rfl hcreates i hclear
      by_contra hqueue
      obtain ⟨s', hstep, hnot⟩ := h.not_releasedOnce_of_clears hcreates hclear hqueue
      exact hnot (hnext s' hstep)
    · intro hlast
      obtain ⟨s', hstep, hended, hqueue⟩ :=
        Server.exists_step_of_lastStep useRingQueues hlast
      have h' : s'.Inv := by
        apply h.step _ _ _ hstep
        · rintro msg env rfl
          exact hlast.elim
        · rintro rfl
          exact hlast.elim
        · rintro fails rfl
          exact hlast.elim
      have hall := h'.queuesEmpty_of_releasedOnce hended (hnext s' hstep)
      unfold Server.QueuesEmpty at hall
      rw [hqueue] at hall
      exact hall
  · refine ⟨Server.inv_init, Server.slots_init, ?_⟩
    rintro - i
    rfl

/-- A collective command with empty fields. -/
def collectiveMessage : Message where
  bytes := (2 :: List.replicate 33 0).flatMap le64
  length_lt := by
    rw [length_flatMap_le64]
    decide

/-- A create-ring command. -/
def createRingMessage : Message where
  bytes := (1 :: List.replicate 33 0).flatMap le64
  length_lt := by
    rw [length_flatMap_le64]
    decide

/-- There is no memory for the argument of the command, so its copy is freed
twice.  With ring queues the command is put into the queue of a ring that was not
created, and at the end of the server it is still there; or it is there when a
create-ring command sets the queue to `NULL`, and nothing refers to it any more.  Or the
pool reads the slot before the argument is written to it, and takes the argument without
having seen it. -/
theorem not_releasedOnce_argFails_queued :
    (¬ Machine.AllStates (Server.step false) Server.ReleasedOnce Server.init
        [.receive collectiveMessage ⟨true, true, false⟩]) ∧
      (¬ Machine.AllStates (Server.step true) Server.ReleasedOnce Server.init
        [.receive collectiveMessage ⟨true, true, true⟩, .poolCheck, .poolTake,
          .poolFinish ⟨false, 0, true⟩, .stopRings, .stopPool, .poolCheck,
          .destroyPool]) ∧
      (¬ Machine.AllStates (Server.step true) Server.ReleasedOnce Server.init
        [.receive collectiveMessage ⟨true, true, true⟩, .poolCheck, .poolTake,
          .poolFinish ⟨false, 0, true⟩, .receive createRingMessage ⟨true, true, true⟩,
          .poolCheck, .poolTake, .poolInitQueues none]) ∧
      ¬ Machine.AllStates (Server.step false) Server.ReleasedOnce Server.init
        [.poolCheck, .poolLoadSlot, .receive collectiveMessage ⟨true, true, true⟩,
          .poolTake] := by
  refine ⟨?_, ?_, ?_, ?_⟩
  · intro h
    have hrun : (Machine.run (Server.step false) Server.init
        [.receive collectiveMessage ⟨true, true, false⟩]).map
          (fun s => (s.received, s.heap.freed.count 0)) = some ([0], 2) := by
      decide +kernel
    obtain ⟨s, hrun, heq⟩ := Option.map_eq_some_iff.mp hrun
    obtain ⟨hreceived, hcount⟩ := Prod.mk.inj heq
    have hone := (h.last hrun 0 (by rw [hreceived]; decide)).1
    omega
  · intro h
    have hrun : (Machine.run (Server.step true) Server.init
        [.receive collectiveMessage ⟨true, true, true⟩, .poolCheck, .poolTake,
          .poolFinish ⟨false, 0, true⟩, .stopRings, .stopPool, .poolCheck,
          .destroyPool]).map
          (fun s => ((s.received, s.heap.freed), s.msgPool, s.threads 0, s.threads 1)) =
        some (([0], [1]), false, 0, 0) := by
      decide +kernel
    obtain ⟨s, hrun, heq⟩ := Option.map_eq_some_iff.mp hrun
    obtain ⟨hblocks, hend⟩ := Prod.mk.inj heq
    obtain ⟨hreceived, hfreed⟩ := Prod.mk.inj hblocks
    obtain ⟨hpool, hthreads⟩ := Prod.mk.inj hend
    obtain ⟨hzero, hone⟩ := Prod.mk.inj hthreads
    have hended : s.Ended := by
      refine ⟨hpool, ?_⟩
      intro i
      fin_cases i
      · exact hzero
      · exact hone
    have hcount := (h.last hrun 0 (by rw [hreceived]; decide)).2 hended
    rw [hfreed] at hcount
    exact absurd hcount (by decide)
  · intro h
    have hrun : (Machine.run (Server.step true) Server.init
        [.receive collectiveMessage ⟨true, true, true⟩, .poolCheck, .poolTake,
          .poolFinish ⟨false, 0, true⟩, .receive createRingMessage ⟨true, true, true⟩,
          .poolCheck, .poolTake, .poolInitQueues none]).map
          (fun s => (s.received, s.heap.freed.count 0, s.owned 0)) =
        some ([3, 0], 0, 0) := by
      decide +kernel
    obtain ⟨s, hrun, heq⟩ := Option.map_eq_some_iff.mp hrun
    obtain ⟨hreceived, hblock⟩ := Prod.mk.inj heq
    obtain ⟨hcount, howned⟩ := Prod.mk.inj hblock
    have hone := (h.last hrun 0 (by rw [hreceived]; decide)).1
    omega
  · intro h
    have hrun : (Machine.run (Server.step false) Server.init
        [.poolCheck, .poolLoadSlot, .receive collectiveMessage ⟨true, true, true⟩,
          .poolTake]).map (fun s => (s.received, s.heap.freed.count 0, s.owned 0)) =
        some ([0], 0, 0) := by
      decide +kernel
    obtain ⟨s, hrun, heq⟩ := Option.map_eq_some_iff.mp hrun
    obtain ⟨hreceived, hblock⟩ := Prod.mk.inj heq
    obtain ⟨hcount, howned⟩ := Prod.mk.inj hblock
    have hone := (h.last hrun 0 (by rw [hreceived]; decide)).1
    omega

end SmartNic.Dispatch
