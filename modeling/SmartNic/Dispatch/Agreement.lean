import SmartNic.Dispatch.Rings

/-!
# Agreement of the ranks on the rings

Which ring a command goes to depends on the AllGathers dispatched before it.
`assigned` computes, from the dispatched commands alone, what a ring gets; each
rank has started a prefix of that.  Of the commands that it has started and that are
no longer on their way to the collective, it has called the collectives of those that
it has not left.
-/

namespace SmartNic.Dispatch

open SmartNic.Codec SmartNic.Completion SmartNic.Machine SmartNic.CallLog

attribute [local instance] neZero_two

/-! ## What is kept and where it goes -/

/-- The commands that were not dropped on arrival. -/
def keep : List Job → List Bool → List Job
  | job :: cmds, dropped :: decided =>
      if dropped then keep cmds decided else job :: keep cmds decided
  | _, _ => []

theorem keep_concat {cmds : List Job} {decided : List Bool} {job : Job}
    {rest : List Job} (h : cmds.drop decided.length = job :: rest)
    (dropped : Bool) :
    keep cmds (decided ++ [dropped]) =
      keep cmds decided ++ if dropped then [] else [job] := by
  induction cmds generalizing decided with
  | nil => simp at h
  | cons head cmds ih =>
      cases decided with
      | nil =>
          obtain ⟨rfl, rfl⟩ := List.cons.inj h
          cases dropped <;> simp [keep]
      | cons d decided =>
          have htail := ih h
          cases d <;> simp [keep, htail]

theorem prefix_keep {cmds : List Job} {ds ds' : List Bool} (h : ds <+: ds') :
    keep cmds ds <+: keep cmds ds' := by
  induction cmds generalizing ds ds' with
  | nil => simp [keep]
  | cons head cmds ih =>
      cases ds with
      | nil => simp [keep]
      | cons d ds =>
          obtain ⟨tail, rfl⟩ := h
          have htail := ih (List.prefix_append ds tail)
          cases d
          · simpa [keep, List.cons_prefix_cons] using htail
          · simpa [keep] using htail

theorem keep_sublist (cmds : List Job) (decided : List Bool) :
    (keep cmds decided).Sublist cmds := by
  induction cmds generalizing decided with
  | nil => simp [keep]
  | cons head cmds ih =>
      cases decided with
      | nil => simp [keep]
      | cons d decided =>
          cases d
          · simpa [keep] using ih decided
          · simpa [keep] using (ih decided).cons head

/-- The ring of a command when `agSeq` AllGathers were dispatched before it. -/
def ringIndex (cfg : Config) (agSeq : ℕ) (job : Job) : RingId :=
  if cfg.useRingQueues ∧ job.op = .allGather ∧ cfg.ringR1Enabled ∧
    agSeq % 2 = 1 then 1 else 0

def agCount (jobs : List Job) : ℕ := jobs.countP fun job => job.op = .allGather

/-- The dispatched commands that go to ring `i`. -/
def assigned (cfg : Config) (i : RingId) : ℕ → List Job → List Job
  | _, [] => []
  | agSeq, job :: jobs =>
      (if ringIndex cfg agSeq job = i then [job] else []) ++
        assigned cfg i (agSeq + if job.op = .allGather then 1 else 0) jobs

theorem assigned_append (cfg : Config) (i : RingId) (agSeq : ℕ)
    (xs ys : List Job) :
    assigned cfg i agSeq (xs ++ ys) =
      assigned cfg i agSeq xs ++ assigned cfg i (agSeq + agCount xs) ys := by
  induction xs generalizing agSeq with
  | nil => simp [assigned, agCount]
  | cons x xs ih =>
      have hcount : agCount (x :: xs) =
          (if x.op = .allGather then 1 else 0) + agCount xs := by
        simp [agCount, List.countP_cons, Nat.add_comm]
      rw [List.cons_append, assigned, assigned, ih, hcount, List.append_assoc,
        Nat.add_assoc]

theorem prefix_assigned (cfg : Config) (i : RingId) {xs ys : List Job}
    (h : xs <+: ys) : assigned cfg i 0 xs <+: assigned cfg i 0 ys := by
  obtain ⟨tail, rfl⟩ := h
  rw [assigned_append]
  exact List.prefix_append _ _

theorem assigned_sublist (cfg : Config) (i : RingId) (agSeq : ℕ) (jobs : List Job) :
    (assigned cfg i agSeq jobs).Sublist jobs := by
  induction jobs generalizing agSeq with
  | nil => exact List.Sublist.refl _
  | cons x jobs ih =>
      rw [assigned]
      split
      · exact (ih _).cons_cons x
      · exact (ih _).cons x

theorem mem_of_mem_assigned {cfg : Config} {i : RingId} {agSeq : ℕ}
    {jobs : List Job} {job : Job} (h : job ∈ assigned cfg i agSeq jobs) :
    job ∈ jobs :=
  (assigned_sublist cfg i agSeq jobs).subset h

/-- A command goes to one ring. -/
theorem assigned_unique {cfg : Config} {i j : RingId} {agSeq : ℕ}
    {jobs : List Job} {job : Job} (hnodup : jobs.Nodup)
    (hi : job ∈ assigned cfg i agSeq jobs)
    (hj : job ∈ assigned cfg j agSeq jobs) : i = j := by
  induction jobs generalizing agSeq with
  | nil => simp [assigned] at hi
  | cons x jobs ih =>
      rw [List.nodup_cons] at hnodup
      have hhead : ∀ k, job ∈ assigned cfg k agSeq (x :: jobs) →
          (job = x ∧ ringIndex cfg agSeq x = k) ∨ (job ≠ x ∧ job ∈
            assigned cfg k (agSeq + if x.op = .allGather then 1 else 0)
              jobs) := by
        intro k hk
        rw [assigned, List.mem_append] at hk
        rcases hk with hx | hrest
        · split at hx
          next hring => exact .inl ⟨List.mem_singleton.mp hx, hring⟩
          · simp at hx
        · refine .inr ⟨?_, hrest⟩
          rintro rfl
          exact hnodup.1 (mem_of_mem_assigned hrest)
      rcases hhead i hi with ⟨hjob, hi⟩ | ⟨hne, hi⟩
      · rcases hhead j hj with ⟨-, hj⟩ | ⟨hne, -⟩
        · exact hi.symm.trans hj
        · exact absurd hjob hne
      · rcases hhead j hj with ⟨hjob, -⟩ | ⟨-, hj⟩
        · exact absurd hjob hne
        · exact ih hnodup.2 hi hj

theorem assigned_concat (cfg : Config) (i : RingId) (jobs : List Job)
    (job : Job) :
    assigned cfg i 0 (jobs ++ [job]) = assigned cfg i 0 jobs ++
      if ringIndex cfg (agCount jobs) job = i then [job] else [] := by
  rw [assigned_append]
  simp [assigned]

/-- With queues the dispatcher sends a command to the ring that its index
says. -/
theorem ringOf_eq {cfg : Config} {d : Dpu}
    (huse : cfg.useRingQueues = true) (job : Job) :
    d.ringOf cfg job = (ringIndex cfg d.agSeq job).thread := by
  unfold Dpu.ringOf ringIndex
  by_cases h : job.op = .allGather ∧ cfg.ringR1Enabled ∧ d.agSeq % 2 = 1
  · rw [if_pos h, if_pos ⟨huse, h⟩]
    rfl
  · rw [if_neg h, if_neg fun hring => h hring.2]
    rfl

/-- The next value of `ag_seq_counter`. -/
def bump (agSeq : ℕ) (job : Job) : ℕ :=
  if job.op = .allGather then agSeq + 1 else agSeq

theorem queue_push (d : Dpu) (job : Job) (i j : RingId) :
    queue (d.push job i.thread) j =
      queue d j ++ if i = j then [job] else [] := by
  match i, j with
  | 0, 0 | 1, 1 => rfl
  | 0, 1 | 1, 0 => exact (List.append_nil _).symm

theorem agCount_concat (jobs : List Job) (job : Job) :
    agCount (jobs ++ [job]) = bump (agCount jobs) job := by
  unfold agCount bump
  rw [List.countP_append, List.countP_singleton]
  split <;> simp_all

/-- What a dispatch changes besides the queues and the threads. -/
structure Dispatches (cfg : Config) (d : Dpu) (job : Job) (pool : List Job)
    (d' : Dpu) : Prop where
  idle : d.thread .message = none
  channel : d'.channel = d.channel
  pool : d'.pool = pool
  agSeq : cfg.useRingQueues → d'.agSeq = bump d.agSeq job

/-- A command is queued on its ring, or executed by the message thread: without
queues, and with them if there is no `ring_job`. -/
theorem dispatch_cases {cfg : Config} {alloc : Bool} {d d' : Dpu} {job : Job}
    {pool : List Job} (hpool : d.pool = job :: pool)
    (h : d.dispatch cfg alloc = some d') :
    Dispatches cfg d job pool d' ∧
      ((cfg.useRingQueues && alloc) = true ∧ d'.thread = d.thread ∧
          (∀ i, queue d' i = queue d i ++
            if ringIndex cfg d.agSeq job = i then [job] else []) ∨
        (cfg.useRingQueues && alloc) = false ∧
          d'.thread = Function.update d.thread .message (some (job, .starting)) ∧
          ∀ i, queue d' i = queue d i) := by
  unfold Dpu.dispatch at h
  rw [hpool] at h
  split at h
  next hidle heq =>
    obtain ⟨rfl, rfl⟩ := List.cons.inj heq
    cases huse : cfg.useRingQueues with
    | false =>
        simp only [huse, Bool.false_eq_true, if_false] at h
        cases h
        refine ⟨⟨hidle, rfl, rfl, fun hcfg => ?_⟩, .inr ⟨by simp, rfl, ?_⟩⟩
        · rw [huse] at hcfg
          cases hcfg
        · intro i
          match i with
          | 0 | 1 => rfl
    | true =>
        simp only [huse, if_true] at h
        cases alloc with
        | false =>
            cases h
            refine ⟨⟨hidle, rfl, rfl, fun _ => rfl⟩, .inr ⟨by simp, rfl, ?_⟩⟩
            intro i
            match i with
            | 0 | 1 => rfl
        | true =>
            simp only [if_true, ringOf_eq huse] at h
            cases h
            have hpush := queue_push { d with pool := pool } job
              (ringIndex cfg d.agSeq job)
            generalize ringIndex cfg d.agSeq job = i at hpush ⊢
            match i with
            | 0 | 1 =>
                exact ⟨⟨hidle, rfl, rfl, fun _ => rfl⟩,
                  .inl ⟨by simp, rfl, hpush⟩⟩
  · cases h

/-- A ring thread that takes a command empties the front of its queue only. -/
structure Takes (d : Dpu) (i : RingId) (job : Job) (rest : List Job) (d' : Dpu) : Prop where
  idle : d.thread i.thread = none
  channel : d'.channel = d.channel
  pool : d'.pool = d.pool
  agSeq : d'.agSeq = d.agSeq
  thread : d'.thread = Function.update d.thread i.thread (some (job, .starting))
  queue : ∀ j, queue d' j = if j = i then rest else queue d j

theorem take_cases {d d' : Dpu} {i : RingId} {job : Job} {rest : List Job}
    (hqueue : queue d i = job :: rest) (h : d.take i.thread = some d') :
    Takes d i job rest d' := by
  match i with
  | 0 =>
      simp only [RingId.thread, Dpu.take] at h
      split at h
      next job' ring hidle heq =>
        cases h
        obtain ⟨rfl, rfl⟩ := List.cons.inj (heq.symm.trans hqueue)
        refine ⟨hidle, rfl, rfl, rfl, rfl, ?_⟩
        intro j
        match j with
        | 0 | 1 => rfl
      · cases h
  | 1 =>
      simp only [RingId.thread, Dpu.take] at h
      split at h
      next job' ring hidle heq =>
        cases h
        obtain ⟨rfl, rfl⟩ := List.cons.inj (heq.symm.trans hqueue)
        refine ⟨hidle, rfl, rfl, rfl, rfl, ?_⟩
        intro j
        match j with
        | 0 | 1 => rfl
      · cases h

/-! ## Commands on their way to the collective -/

/-- The command that a thread has started and whose collective it has not called. -/
def preparing : Option (Job × Phase) → List Job
  | some (job, .starting) => [job]
  | _ => []

/-- The commands of a ring that are started and not settled. -/
def pending (thread : Thread → Option (Job × Phase)) : RingId → List Job
  | 0 => preparing (thread .message) ++ preparing (thread .ring0)
  | 1 => preparing (thread .ring1)

theorem pending_update {thread : Thread → Option (Job × Phase)} {t : Thread}
    {x : Option (Job × Phase)} (hx : preparing x = preparing (thread t)) (i : RingId) :
    pending (Function.update thread t x) i = pending thread i := by
  match i with
  | 0 | 1 =>
      cases t <;> simp [pending, hx]

/-- A thread has no say on the other ring. -/
theorem pending_update_of_ne {thread : Thread → Option (Job × Phase)} {t : Thread}
    (x : Option (Job × Phase)) {i : RingId} (hi : i ≠ ringOfThread t) :
    pending (Function.update thread t x) i = pending thread i := by
  match i, t with
  | 0, .message | 0, .ring0 | 1, .ring1 => exact absurd rfl hi
  | 0, .ring1 | 1, .message | 1, .ring0 => simp [pending]

/-- One thread of a ring is idle, so the other decides what is pending. -/
theorem pending_update_self {thread : Thread → Option (Job × Phase)} {t : Thread}
    (x : Option (Job × Phase))
    (hfree : ∀ u, u ≠ t → ringOfThread u = ringOfThread t → thread u = none) :
    pending (Function.update thread t x) (ringOfThread t) = preparing x := by
  match t with
  | .message =>
      have hother := hfree .ring0 nofun rfl
      simp [pending, ringOfThread, hother, preparing]
  | .ring0 =>
      have hother := hfree .message nofun rfl
      simp [pending, ringOfThread, hother, preparing]
  | .ring1 => simp [pending, ringOfThread]

/-! ## The invariant of a rank -/

section Rank

variable {ι : Type} {setup : Setup ι} {cmds : List Job} {r : ι} {x x' : Rank}

/-- The commands `dispatched` account for everything that a rank has started or
queued, and would have gone to the same rings on the other ranks. -/
structure Rank.Dispatched (setup : Setup ι) (r : ι) (x : Rank)
    (dispatched : List Job) : Prop where
  agSeq : setup.env.useRingQueues → x.dpu.agSeq = agCount dispatched
  assigned : ∀ i, assigned (setup.config r) i 0 dispatched =
    x.started i ++ queue x.dpu i
  uniform : ∀ q i, Dispatch.assigned (setup.config q) i 0 dispatched =
    Dispatch.assigned (setup.config r) i 0 dispatched

/-- The first commands of a ring are settled: their collectives are called, or they are
left. -/
def Rank.Settled (x : Rank) (i : RingId) (settled : List Job) : Prop :=
  x.started i = settled ++ pending x.dpu.thread i ∧
    x.entered i = settled.filter (fun job => job ∉ x.aborted i) ∧
      ∀ job ∈ x.aborted i, job ∈ settled

structure Rank.Inv (setup : Setup ι) (cmds : List Job) (r : ι) (x : Rank) :
    Prop where
  channel : x.dpu.channel = cmds.drop x.decided.length
  dispatched : ∃ jobs, keep cmds x.decided = jobs ++ x.dpu.pool ∧
    x.Dispatched setup r jobs
  exclusive : x.dpu.thread .message = none ∨
    (x.dpu.thread .ring0 = none ∧ x.dpu.ring0 = [])
  inline : setup.env.useRingQueues = false →
    x.dpu.thread .ring0 = none ∧ ∀ i, queue x.dpu i = []
  settled : ∀ i, ∃ settled, x.Settled i settled

theorem Rank.Inv.init : (Rank.init cmds).Inv setup cmds r where
  channel := rfl
  dispatched := ⟨[], by cases cmds <;> rfl, fun _ => rfl,
    fun i => by
      match i with
      | 0 | 1 => rfl, fun _ _ => rfl⟩
  exclusive := .inl rfl
  inline _ := ⟨rfl, fun i => by
    match i with
    | 0 | 1 => rfl⟩
  settled i := ⟨[], by
    match i with
    | 0 | 1 => exact ⟨rfl, rfl, nofun⟩⟩

/-- Nothing happens between the start of a command and its collective. -/
theorem Rank.Settled.of_eq {i : RingId} {settled : List Job} (h : x.Settled i settled)
    (hstarted : x'.started = x.started) (hentered : x'.entered = x.entered)
    (haborted : x'.aborted = x.aborted)
    (hpending : pending x'.dpu.thread i = pending x.dpu.thread i) :
    x'.Settled i settled := by
  unfold Rank.Settled
  rw [hstarted, hentered, haborted, hpending]
  exact h

theorem Rank.start_started (x : Rank) (i j : RingId) (job : Job) (d : Dpu) :
    (x.start i job d).started j =
      x.started j ++ if i = j then [job] else [] := by
  unfold Rank.start
  by_cases hij : i = j
  · subst hij
    simp only [Function.update_self, if_pos]
  · simp only [Function.update_of_ne (Ne.symm hij), if_neg hij,
      List.append_nil]

/-- The other threads of a ring are idle when a command is started on it. -/
theorem Rank.Settled.start {t : Thread} {job : Job} {d : Dpu} {i : RingId}
    {settled : List Job} (h : x.Settled i settled)
    (hfree : ∀ u, ringOfThread u = ringOfThread t → x.dpu.thread u = none)
    (hthread : d.thread = Function.update x.dpu.thread t (some (job, .starting))) :
    (x.start (ringOfThread t) job d).Settled i settled := by
  refine ⟨?_, h.2⟩
  rw [Rank.start_started, h.1]
  show settled ++ pending x.dpu.thread i ++ _ = settled ++ pending d.thread i
  rw [hthread, List.append_assoc]
  congr 1
  by_cases hi : i = ringOfThread t
  · subst hi
    rw [if_pos rfl, pending_update_self _ fun u _ hu => hfree u hu]
    have hidle := pending_update_self (t := t) (x.dpu.thread t) fun u _ hu => hfree u hu
    rw [Function.update_eq_self, hfree t rfl] at hidle
    rw [hidle]
    rfl
  · rw [if_neg (Ne.symm hi), List.append_nil, pending_update_of_ne _ hi]

/-- The pending command of a ring is settled. -/
theorem Rank.Settled.settle {t : Thread} {job : Job} {i : RingId} {settled : List Job}
    (h : x.Settled i settled) (ht : x.dpu.thread t = some (job, .starting))
    (hfree : ∀ u, u ≠ t → ringOfThread u = ringOfThread t → x.dpu.thread u = none)
    (hnodup : (x.started i).Nodup) {y : Option (Job × Phase)} (hy : preparing y = [])
    (hstarted : x'.started = x.started)
    (hthread : x'.dpu.thread = Function.update x.dpu.thread t y)
    (hsettle :
      (x'.aborted = x.aborted ∧ x'.entered = Function.update x.entered (ringOfThread t)
          (x.entered (ringOfThread t) ++ [job])) ∨
        (x'.entered = x.entered ∧ x'.aborted = Function.update x.aborted (ringOfThread t)
          (x.aborted (ringOfThread t) ++ [job]))) :
    ∃ settled', x'.Settled i settled' := by
  obtain ⟨hsplit, hentered, haborted⟩ := h
  by_cases hi : i = ringOfThread t
  · subst hi
    have hpending : pending x.dpu.thread (ringOfThread t) = [job] := by
      have hself := pending_update_self (t := t) (x.dpu.thread t) hfree
      rw [Function.update_eq_self, ht] at hself
      exact hself
    have hafter : pending x'.dpu.thread (ringOfThread t) = [] := by
      rw [hthread, pending_update_self _ hfree, hy]
    rw [hsplit, hpending] at hnodup
    have hnew : job ∉ settled := fun hmem =>
      (List.nodup_append.mp hnodup).2.2 job hmem job (List.mem_singleton_self _) rfl
    refine ⟨settled ++ [job], ?_, ?_, ?_⟩
    · rw [hstarted, hafter, hsplit, hpending, List.append_nil]
    · rcases hsettle with ⟨hkept, hmore⟩ | ⟨hkept, hmore⟩
      · have hnot : job ∉ x.aborted (ringOfThread t) := fun hmem => hnew (haborted job hmem)
        rw [hmore, hkept, Function.update_self, List.filter_append, ← hentered]
        simp [hnot]
      · rw [hkept, hmore, Function.update_self, List.filter_append, hentered]
        have hcongr : settled.filter (fun j => j ∉ x.aborted (ringOfThread t) ++ [job]) =
            settled.filter fun j => j ∉ x.aborted (ringOfThread t) := by
          apply List.filter_congr
          intro j hj
          have hne : j ≠ job := fun heq => hnew (heq ▸ hj)
          simp [hne]
        rw [hcongr]
        simp
    · intro j hj
      rcases hsettle with ⟨hkept, -⟩ | ⟨-, hmore⟩
      · rw [hkept] at hj
        exact List.mem_append_left _ (haborted j hj)
      · rw [hmore, Function.update_self] at hj
        exact List.mem_append.mpr ((List.mem_append.mp hj).imp_left (haborted j))
  · refine ⟨settled, ?_, ?_, ?_⟩
    · rw [hstarted, hthread, pending_update_of_ne _ hi, hsplit]
    · rcases hsettle with ⟨hkept, hmore⟩ | ⟨hkept, hmore⟩
      · rw [hmore, hkept, Function.update_of_ne hi, hentered]
      · rw [hkept, hmore, Function.update_of_ne hi, hentered]
    · rcases hsettle with ⟨hkept, -⟩ | ⟨-, hmore⟩
      · rw [hkept]
        exact haborted
      · rw [hmore, Function.update_of_ne hi]
        exact haborted

theorem Rank.Inv.receive (h : x.Inv setup cmds r) {dropped : Bool}
    (hstep : x.step (setup.config r) (.receive dropped) = some x') :
    x'.Inv setup cmds r := by
  obtain ⟨d, hd, rfl⟩ := Option.map_eq_some_iff.mp hstep
  unfold Dpu.receive at hd
  split at hd <;> cases hd
  next job channel hchannel =>
  have hdrop : cmds.drop x.decided.length = job :: channel :=
    h.channel.symm.trans hchannel
  obtain ⟨jobs, hkeep, hdispatched⟩ := h.dispatched
  refine ⟨?_, ⟨jobs, ?_, ?_⟩, h.exclusive, h.inline, h.settled⟩
  · rw [List.length_append, List.length_singleton, ← List.drop_drop, hdrop]
    rfl
  · rw [keep_concat hdrop, hkeep]
    cases dropped <;> simp
  · exact ⟨hdispatched.agSeq, hdispatched.assigned, hdispatched.uniform⟩

/-- One more command is dispatched and started or queued on its ring. -/
theorem Rank.Dispatched.concat {jobs : List Job} {job : Job}
    (h : x.Dispatched setup r jobs)
    (hring : ∀ q, ringIndex (setup.config q) (agCount jobs) job =
      ringIndex (setup.config r) (agCount jobs) job)
    (hagSeq : setup.env.useRingQueues →
      x'.dpu.agSeq = bump x.dpu.agSeq job)
    (hgets : ∀ i, x'.started i ++ queue x'.dpu i =
      x.started i ++ queue x.dpu i ++
        if ringIndex (setup.config r) (agCount jobs) job = i then [job]
        else []) :
    x'.Dispatched setup r (jobs ++ [job]) where
  agSeq huse := by
    rw [hagSeq huse, agCount_concat, h.agSeq huse]
  assigned i := by
    rw [assigned_concat, h.assigned, hgets]
  uniform q i := by
    rw [assigned_concat, assigned_concat, h.uniform, hring]

/-- Without queues everything is for ring 0; with them the condition says that
the other ranks choose the same ring. -/
theorem ringIndex_uniform (agSeq : ℕ) (job : Job)
    (h : setup.env.useRingQueues → job.op = .allGather → agSeq % 2 = 1 →
      ∀ q, setup.ringR1Enabled q = setup.ringR1Enabled r) (q : ι) :
    ringIndex (setup.config q) agSeq job =
      ringIndex (setup.config r) agSeq job := by
  unfold ringIndex Setup.config
  dsimp only
  by_cases hdue : setup.env.useRingQueues ∧ job.op = .allGather ∧
      agSeq % 2 = 1
  · rw [h hdue.1 hdue.2.1 hdue.2.2 q]
  · rw [if_neg fun hring => hdue ⟨hring.1, hring.2.1, hring.2.2.2⟩,
      if_neg fun hring => hdue ⟨hring.1, hring.2.1, hring.2.2.2⟩]

/-- Inline execution starts a command for ring 0, whose queue is empty. -/
theorem Rank.start_gets {i : RingId} {job : Job} {d : Dpu}
    (hqueue : queue x.dpu 0 = []) (hsame : queue d i = queue x.dpu i) :
    (x.start 0 job d).started i ++ queue d i =
      x.started i ++ queue x.dpu i ++ if 0 = i then [job] else [] := by
  rw [Rank.start_started, hsame]
  match i with
  | 0 => simp [hqueue]
  | 1 => simp

theorem Rank.Inv.dispatch {s : State ι} (h : (s r).Inv setup cmds r)
    {alloc : Bool} (huniform : Uniform setup s (r, .dispatch alloc))
    (hstep : (s r).step (setup.config r) (.dispatch alloc) = some x') :
    x'.Inv setup cmds r := by
  simp only [Rank.step] at hstep
  split at hstep
  next job pool hpool =>
    obtain ⟨jobs, hkeep, hdispatched⟩ := h.dispatched
    rw [hpool] at hkeep
    have hkeep' : keep cmds (s r).decided = jobs ++ [job] ++ pool := by
      rw [hkeep, List.append_assoc]
      rfl
    have hcond := fun huse => huniform huse job (by rw [hpool]; rfl)
    have hring := ringIndex_uniform (r := r) (agCount jobs) job
      fun huse hop hodd =>
        (hcond huse).1 hop ((hdispatched.agSeq huse).symm ▸ hodd)
    obtain ⟨d, hd, rfl⟩ := Option.map_eq_some_iff.mp hstep
    obtain ⟨hdisp, hcases⟩ := dispatch_cases hpool hd
    have hchannel := hdisp.channel.trans h.channel
    have hqueued : setup.env.useRingQueues → (s r).dpu.agSeq = agCount jobs :=
      hdispatched.agSeq
    rcases hcases with ⟨hqueue, hthread, hgets⟩ | ⟨hinline, hthread, hsame⟩
    · have huse : setup.env.useRingQueues = true :=
        (Bool.and_eq_true_iff.mp hqueue).1
      rw [if_pos hqueue]
      refine ⟨hchannel, ⟨jobs ++ [job], ?_, ?_⟩, .inl ?_, ?_, ?_⟩
      · rw [hkeep', hdisp.pool]
      · refine hdispatched.concat hring hdisp.agSeq ?_
        intro i
        rw [hgets, List.append_assoc, hqueued huse]
      · exact (congrFun hthread _).trans hdisp.idle
      · intro hnone
        rw [huse] at hnone
        cases hnone
      · intro i
        obtain ⟨settled, hsettled⟩ := h.settled i
        exact ⟨settled, hsettled.of_eq rfl rfl rfl (congrArg (pending · i) hthread)⟩
    · have hzero : ringIndex (setup.config r) (agCount jobs) job = 0 ∧
          (s r).dpu.ring0 = [] ∧ (s r).dpu.thread .ring0 = none := by
        cases huse : setup.env.useRingQueues with
        | false =>
            obtain ⟨hfree, hempty⟩ := h.inline huse
            refine ⟨?_, hempty 0, hfree⟩
            exact if_neg fun hring => by
              rw [show (setup.config r).useRingQueues = false from huse]
                at hring
              exact absurd hring.1 (by decide)
        | true =>
            have halloc : alloc = false := by
              simpa [Setup.config, huse] using hinline
            obtain ⟨hringOf, hempty, hfree⟩ := (hcond huse).2 halloc
            refine ⟨?_, hempty, hfree⟩
            have hof := ringOf_eq (d := (s r).dpu) (show
              (setup.config r).useRingQueues = true from huse) job
            rw [hof, hqueued huse] at hringOf
            generalize ringIndex (setup.config r) (agCount jobs) job = i
              at hringOf
            match i with
            | 0 => rfl
            | 1 => cases hringOf
      rw [if_neg (by simp [hinline])]
      refine ⟨hchannel, ⟨jobs ++ [job], ?_, ?_⟩, .inr ⟨?_, ?_⟩, ?_, ?_⟩
      · change keep cmds (s r).decided = jobs ++ [job] ++ d.pool
        rw [hkeep', hdisp.pool]
      · refine hdispatched.concat hring hdisp.agSeq ?_
        intro i
        rw [hzero.1]
        exact Rank.start_gets hzero.2.1 (hsame i)
      · refine (congrFun hthread _).trans ?_
        rw [Function.update_of_ne (by nofun)]
        exact hzero.2.2
      · exact (hsame 0).trans hzero.2.1
      · intro hnone
        refine ⟨?_, fun i => (hsame i).trans ((h.inline hnone).2 i)⟩
        refine (congrFun hthread _).trans ?_
        rw [Function.update_of_ne (by nofun)]
        exact hzero.2.2
      · intro i
        obtain ⟨settled, hsettled⟩ := h.settled i
        refine ⟨settled, hsettled.start ?_ hthread⟩
        intro u hu
        match u with
        | .message => exact hdisp.idle
        | .ring0 => exact hzero.2.2
        | .ring1 => cases hu
  · cases hstep

/-- What was read is what is there. -/
theorem Rank.misread_eq {cfg : Config} {read : Job} {alloc : Bool}
    (hread : x.dpu.pool.head? = some read) :
    x.step cfg (.misread read alloc) = x.step cfg (.dispatch alloc) := by
  obtain ⟨pool, hpool⟩ := List.head?_eq_some_iff.mp hread
  simp only [Rank.step, Dpu.misread_eq hread, hpool]

theorem Rank.Inv.take (h : x.Inv setup cmds r) {i : RingId}
    (hstep : x.step (setup.config r) (.take i) = some x') :
    x'.Inv setup cmds r := by
  simp only [Rank.step] at hstep
  split at hstep
  next job rest hqueue =>
    obtain ⟨d, hd, rfl⟩ := Option.map_eq_some_iff.mp hstep
    have htakes := take_cases hqueue hd
    obtain ⟨jobs, hkeep, hdispatched⟩ := h.dispatched
    have htotal : ∀ j, (x.start i job d).started j ++ queue d j =
        x.started j ++ queue x.dpu j := by
      intro j
      rw [Rank.start_started, htakes.queue]
      by_cases hij : i = j
      · subst hij
        rw [if_pos rfl, if_pos rfl, hqueue, List.append_assoc]
        rfl
      · rw [if_neg hij, if_neg (Ne.symm hij), List.append_nil]
    have hring : ringOfThread i.thread = i := by
      match i with
      | 0 | 1 => rfl
    have hfree : ∀ u, ringOfThread u = ringOfThread i.thread → x.dpu.thread u = none := by
      intro u hu
      rw [hring] at hu
      match i, u with
      | 0, .ring0 | 1, .ring1 => exact htakes.idle
      | 0, .message =>
          rcases h.exclusive with hidle | ⟨-, hempty⟩
          · exact hidle
          · rw [show queue x.dpu 0 = [] from hempty] at hqueue
            cases hqueue
      | 0, .ring1 | 1, .message | 1, .ring0 => cases hu
    refine ⟨htakes.channel.trans h.channel, ⟨jobs, ?_, ?_⟩, ?_, ?_, ?_⟩
    · change keep cmds x.decided = jobs ++ d.pool
      rw [hkeep, htakes.pool]
    · exact
        { agSeq := fun huse => htakes.agSeq.trans (hdispatched.agSeq huse)
          assigned := fun j => (hdispatched.assigned j).trans (htotal j).symm
          uniform := hdispatched.uniform }
    · match i with
      | 0 =>
          left
          refine (congrFun htakes.thread _).trans ?_
          rw [Function.update_of_ne (by nofun)]
          exact hfree .message rfl
      | 1 =>
          rcases h.exclusive with hidle | ⟨hzero, hempty⟩
          · left
            refine (congrFun htakes.thread _).trans ?_
            rw [Function.update_of_ne (by nofun)]
            exact hidle
          · right
            refine ⟨(congrFun htakes.thread _).trans ?_, (htakes.queue 0).trans hempty⟩
            rw [Function.update_of_ne (by nofun)]
            exact hzero
    · intro huse
      rw [(h.inline huse).2 i] at hqueue
      cases hqueue
    · intro j
      obtain ⟨settled, hsettled⟩ := h.settled j
      have hstart := hsettled.start hfree htakes.thread
      rw [hring] at hstart
      exact ⟨settled, hstart⟩
  · cases hstep

/-- A thread that was idle still is. -/
theorem update_none {thread : Thread → Option (Job × Phase)} {t u : Thread}
    {x : Job × Phase} {y : Option (Job × Phase)} (ht : thread t = some x)
    (hu : thread u = none) : Function.update thread t y u = none := by
  have hut : u ≠ t := by
    rintro rfl
    rw [ht] at hu
    cases hu
  rw [Function.update_of_ne hut]
  exact hu

/-- One thread of a rank goes on with its command. -/
theorem Rank.Inv.goOn (h : x.Inv setup cmds r) {t : Thread} {p : Job × Phase}
    {y : Option (Job × Phase)} (ht : x.dpu.thread t = some p)
    (hchannel : x'.dpu.channel = x.dpu.channel) (hpool : x'.dpu.pool = x.dpu.pool)
    (hagSeq : x'.dpu.agSeq = x.dpu.agSeq) (hqueue : queue x'.dpu = queue x.dpu)
    (hthread : x'.dpu.thread = Function.update x.dpu.thread t y)
    (hdecided : x'.decided = x.decided) (hstarted : x'.started = x.started)
    (hsettled : ∀ i, ∃ settled, x'.Settled i settled) : x'.Inv setup cmds r := by
  obtain ⟨jobs, hkeep, hdispatched⟩ := h.dispatched
  refine ⟨?_, ⟨jobs, ?_, ?_⟩, ?_, ?_, hsettled⟩
  · rw [hchannel, hdecided]
    exact h.channel
  · rw [hdecided, hpool]
    exact hkeep
  · refine ⟨fun huse => hagSeq.trans (hdispatched.agSeq huse), ?_, hdispatched.uniform⟩
    intro i
    rw [hstarted, hqueue]
    exact hdispatched.assigned i
  · rw [hthread]
    rcases h.exclusive with hmessage | ⟨hfree, hempty⟩
    · exact .inl (update_none ht hmessage)
    · exact .inr ⟨update_none ht hfree, (congrFun hqueue 0).trans hempty⟩
  · intro huse
    obtain ⟨hfree, hempty⟩ := h.inline huse
    rw [hthread, hqueue]
    exact ⟨update_none ht hfree, hempty⟩

/-- The thread that has a command is the only one on its ring. -/
theorem Rank.Inv.free (h : x.Inv setup cmds r) {t : Thread} {p : Job × Phase}
    (ht : x.dpu.thread t = some p) (u : Thread) (hne : u ≠ t)
    (hu : ringOfThread u = ringOfThread t) : x.dpu.thread u = none := by
  match t, u with
  | .message, .message | .ring0, .ring0 | .ring1, .ring1 => exact absurd rfl hne
  | .message, .ring0 =>
      rcases h.exclusive with hidle | ⟨hfree, -⟩
      · rw [hidle] at ht
        cases ht
      · exact hfree
  | .ring0, .message =>
      rcases h.exclusive with hidle | ⟨hfree, -⟩
      · exact hidle
      · rw [hfree] at ht
        cases ht
  | .message, .ring1 | .ring0, .ring1 | .ring1, .message | .ring1, .ring0 => cases hu

/-- A rank does not start a command twice. -/
theorem Rank.Inv.started_nodup (h : x.Inv setup cmds r) (hnodup : cmds.Nodup)
    (i : RingId) : (x.started i).Nodup := by
  obtain ⟨jobs, hkeep, hdispatched⟩ := h.dispatched
  have hjobs : jobs.Sublist cmds := by
    have hsub := keep_sublist cmds x.decided
    rw [hkeep] at hsub
    exact (List.sublist_append_left _ _).trans hsub
  have hall := hnodup.sublist ((assigned_sublist (setup.config r) i 0 jobs).trans hjobs)
  rw [hdispatched.assigned i] at hall
  exact (List.nodup_append.mp hall).1

theorem Rank.Inv.abort (h : x.Inv setup cmds r) (hnodup : cmds.Nodup) {t : Thread}
    (hstep : x.step (setup.config r) (.abort t) = some x') : x'.Inv setup cmds r := by
  simp only [Rank.step] at hstep
  split at hstep
  next job ht =>
    obtain ⟨d, hd, rfl⟩ := Option.map_eq_some_iff.mp hstep
    unfold Dpu.abort at hd
    rw [ht] at hd
    obtain rfl := Option.some.inj hd
    refine h.goOn ht rfl rfl rfl ?_ rfl rfl rfl ?_
    · funext i
      match i with
      | 0 | 1 => rfl
    · intro i
      obtain ⟨settled, hsettled⟩ := h.settled i
      exact hsettled.settle ht (h.free ht) (h.started_nodup hnodup i) rfl rfl rfl
        (.inr ⟨rfl, rfl⟩)
  · cases hstep

theorem Rank.Inv.enter (h : x.Inv setup cmds r) (hnodup : cmds.Nodup) {t : Thread}
    (hstep : x.step (setup.config r) (.enter t) = some x') : x'.Inv setup cmds r := by
  simp only [Rank.step] at hstep
  split at hstep
  next job ht =>
    obtain ⟨d, hd, rfl⟩ := Option.map_eq_some_iff.mp hstep
    unfold Dpu.enter at hd
    rw [ht] at hd
    obtain rfl := Option.some.inj hd
    refine h.goOn ht rfl rfl rfl ?_ rfl rfl rfl ?_
    · funext i
      match i with
      | 0 | 1 => rfl
    · intro i
      obtain ⟨settled, hsettled⟩ := h.settled i
      exact hsettled.settle ht (h.free ht) (h.started_nodup hnodup i) rfl rfl rfl
        (.inl ⟨rfl, rfl⟩)
  · cases hstep

theorem Rank.Inv.done (h : x.Inv setup cmds r) {t : Thread}
    (hstep : x.step (setup.config r) (.done t) = some x') :
    x'.Inv setup cmds r := by
  simp only [Rank.step] at hstep
  split at hstep
  next job ht =>
    obtain rfl := Option.some.inj hstep
    refine h.goOn ht rfl rfl rfl ?_ rfl rfl rfl ?_
    · funext i
      match i with
      | 0 | 1 => rfl
    · intro i
      obtain ⟨settled, hsettled⟩ := h.settled i
      exact ⟨settled, hsettled.of_eq rfl rfl rfl (pending_update (by rw [ht]; rfl) i)⟩
  · cases hstep

end Rank

/-! ## All ranks -/

section System

variable {ι : Type} {setup : Setup ι} {cmds : List Job} {s s' : State ι}

structure State.Inv (setup : Setup ι) (cmds : List Job) (s : State ι) :
    Prop where
  rank : ∀ r, (s r).Inv setup cmds r
  decided : Log.Agrees fun r => (s r).decided
  apart : ∀ r q i, ∀ job ∈ (s r).entered i, job ∉ (s q).aborted i

theorem State.Inv.init : (State.init cmds : State ι).Inv setup cmds where
  rank _ := .init
  decided := Log.Sound.empty.agrees
  apart _ _ _ _ h := by cases h

/-- What a rank has started on a ring is a prefix of what the ring is assigned,
by the setup of any rank, among the commands that were not dropped. -/
theorem State.Inv.started_prefix (h : s.Inv setup cmds) (r q : ι)
    (i : RingId) : (s r).started i <+:
      assigned (setup.config q) i 0 (keep cmds (s r).decided) := by
  obtain ⟨jobs, hkeep, hdispatched⟩ := (h.rank r).dispatched
  have hstarted : (s r).started i <+: assigned (setup.config q) i 0 jobs := by
    rw [hdispatched.uniform q i, hdispatched.assigned i]
    exact List.prefix_append _ _
  refine hstarted.trans (prefix_assigned _ i ?_)
  rw [hkeep]
  exact List.prefix_append _ _

/-- Two ranks have started prefixes of one assignment. -/
theorem State.Inv.common (h : s.Inv setup cmds) (r q : ι) :
    ∃ jobs, jobs.Sublist cmds ∧
      (∀ i, (s r).started i <+: assigned (setup.config r) i 0 jobs) ∧
      ∀ i, (s q).started i <+: assigned (setup.config r) i 0 jobs := by
  have hr := h.started_prefix r r
  have hq := h.started_prefix q r
  rcases h.decided.prefix_or_prefix r q with hle | hle
  · exact ⟨_, keep_sublist cmds (s q).decided,
      fun i => (hr i).trans (prefix_assigned _ i (prefix_keep hle)), hq⟩
  · exact ⟨_, keep_sublist cmds (s r).decided, hr,
      fun i => (hq i).trans (prefix_assigned _ i (prefix_keep hle))⟩

/-- What ranks keep of a common list is in one order if they leave out the same. -/
theorem filter_of_extends {xs ys left left' : List Job} (h : xs <+: ys)
    (hx : ∀ job ∈ xs.filter (fun job => job ∉ left), job ∉ left')
    (hy : ∀ job ∈ ys.filter (fun job => job ∉ left'), job ∉ left) :
    xs.filter (fun job => job ∉ left) <+: ys.filter fun job => job ∉ left' := by
  have hsame : xs.filter (fun job => job ∉ left) = xs.filter fun job => job ∉ left' := by
    apply List.filter_congr
    intro job hjob
    rw [decide_eq_decide]
    constructor
    · intro hnot
      exact hx job (List.mem_filter.mpr ⟨hjob, decide_eq_true hnot⟩)
    · intro hnot
      exact hy job (List.mem_filter.mpr ⟨h.subset hjob, decide_eq_true hnot⟩)
  rw [hsame]
  exact h.filter _

/-- The ranks call the collectives of a ring in one order. -/
theorem State.Inv.entered_prefix (h : s.Inv setup cmds) (r q : ι) (i : RingId) :
    (s r).entered i <+: (s q).entered i ∨ (s q).entered i <+: (s r).entered i := by
  obtain ⟨jobs, -, hr, hq⟩ := h.common r q
  obtain ⟨xs, hxs, hx, -⟩ := (h.rank r).settled i
  obtain ⟨ys, hys, hy, -⟩ := (h.rank q).settled i
  have hxr : xs <+: (s r).started i := by
    rw [hxs]
    exact List.prefix_append _ _
  have hyq : ys <+: (s q).started i := by
    rw [hys]
    exact List.prefix_append _ _
  have hrq := h.apart r q i
  have hqr := h.apart q r i
  rw [hx] at hrq ⊢
  rw [hy] at hqr ⊢
  rcases List.prefix_or_prefix_of_prefix (hxr.trans (hr i)) (hyq.trans (hq i)) with
    hle | hle
  · exact .inl (filter_of_extends hle hrq hqr)
  · exact .inr (filter_of_extends hle hqr hrq)

theorem State.Inv.agree (h : s.Inv setup cmds) (hnodup : cmds.Nodup) :
    s.Agree where
  sameRing r q i j job hi hj := by
    obtain ⟨jobs, hsub, hr, hq⟩ := h.common r q
    exact assigned_unique (hnodup.sublist hsub) ((hr i).subset hi)
      ((hq j).subset hj)
  sameOrder r q i := by
    obtain ⟨jobs, -, hr, hq⟩ := h.common r q
    exact List.prefix_or_prefix_of_prefix (hr i) (hq i)
  sameCommand r q i job job' := by
    rintro ⟨n, hjob, hjob'⟩
    rcases h.entered_prefix r q i with ⟨rest, heq⟩ | ⟨rest, heq⟩
    · rw [← heq, List.getElem?_append_left (List.getElem?_eq_some_iff.mp hjob).1] at hjob'
      exact Option.some.inj (hjob.symm.trans hjob')
    · rw [← heq, List.getElem?_append_left (List.getElem?_eq_some_iff.mp hjob').1] at hjob
      exact Option.some.inj (hjob.symm.trans hjob')
  exclusive r := by
    rcases (h.rank r).exclusive with hidle | ⟨hfree, -⟩
    · exact .inl hidle
    · exact .inr hfree

/-- Only an arrival is decided about. -/
theorem Rank.decided_step {cfg : Config} {x x' : Rank} {a : RankAction}
    (hstep : x.step cfg a = some x') :
    x'.decided = x.decided ∨ ∃ dropped, a = .receive dropped ∧
      x'.decided = x.decided ++ [dropped] := by
  cases a with
  | receive dropped =>
      obtain ⟨d, -, rfl⟩ := Option.map_eq_some_iff.mp hstep
      exact .inr ⟨dropped, rfl, rfl⟩
  | dispatch alloc =>
      simp only [Rank.step] at hstep
      split at hstep
      · obtain ⟨d, -, rfl⟩ := Option.map_eq_some_iff.mp hstep
        left
        split <;> rfl
      · cases hstep
  | misread read alloc =>
      obtain ⟨d, -, rfl⟩ := Option.map_eq_some_iff.mp hstep
      left
      split <;> rfl
  | take i =>
      simp only [Rank.step] at hstep
      split at hstep
      · obtain ⟨d, -, rfl⟩ := Option.map_eq_some_iff.mp hstep
        exact .inl rfl
      · cases hstep
  | abort t =>
      simp only [Rank.step] at hstep
      split at hstep
      · obtain ⟨d, -, rfl⟩ := Option.map_eq_some_iff.mp hstep
        exact .inl rfl
      · cases hstep
  | enter t =>
      simp only [Rank.step] at hstep
      split at hstep
      · obtain ⟨d, -, rfl⟩ := Option.map_eq_some_iff.mp hstep
        exact .inl rfl
      · cases hstep
  | done t =>
      simp only [Rank.step] at hstep
      split at hstep
      · cases hstep
        exact .inl rfl
      · cases hstep

/-- Which collectives are called and which commands are left. -/
theorem Rank.settle_step {cfg : Config} {x x' : Rank} {a : RankAction}
    (hstep : x.step cfg a = some x') :
    (x'.entered = x.entered ∧ x'.aborted = x.aborted) ∨
      ∃ t job, x.dpu.thread t = some (job, .starting) ∧
        ((a = .enter t ∧ x'.aborted = x.aborted ∧
            x'.entered = Function.update x.entered (ringOfThread t)
              (x.entered (ringOfThread t) ++ [job])) ∨
          (a = .abort t ∧ x'.entered = x.entered ∧
            x'.aborted = Function.update x.aborted (ringOfThread t)
              (x.aborted (ringOfThread t) ++ [job]))) := by
  cases a with
  | receive dropped =>
      obtain ⟨d, -, rfl⟩ := Option.map_eq_some_iff.mp hstep
      exact .inl ⟨rfl, rfl⟩
  | dispatch alloc =>
      simp only [Rank.step] at hstep
      split at hstep
      · obtain ⟨d, -, rfl⟩ := Option.map_eq_some_iff.mp hstep
        left
        split <;> exact ⟨rfl, rfl⟩
      · cases hstep
  | misread read alloc =>
      obtain ⟨d, -, rfl⟩ := Option.map_eq_some_iff.mp hstep
      left
      split <;> exact ⟨rfl, rfl⟩
  | take i =>
      simp only [Rank.step] at hstep
      split at hstep
      · obtain ⟨d, -, rfl⟩ := Option.map_eq_some_iff.mp hstep
        exact .inl ⟨rfl, rfl⟩
      · cases hstep
  | abort t =>
      simp only [Rank.step] at hstep
      split at hstep
      next job ht =>
        obtain ⟨d, -, rfl⟩ := Option.map_eq_some_iff.mp hstep
        exact .inr ⟨t, job, ht, .inr ⟨rfl, rfl, rfl⟩⟩
      · cases hstep
  | enter t =>
      simp only [Rank.step] at hstep
      split at hstep
      next job ht =>
        obtain ⟨d, -, rfl⟩ := Option.map_eq_some_iff.mp hstep
        exact .inr ⟨t, job, ht, .inl ⟨rfl, rfl, rfl⟩⟩
      · cases hstep
  | done t =>
      simp only [Rank.step] at hstep
      split at hstep
      · cases hstep
        exact .inl ⟨rfl, rfl⟩
      · cases hstep

theorem Rank.entered_step {cfg : Config} {x x' : Rank} {a : RankAction}
    (hstep : x.step cfg a = some x') {i : RingId} {job : Job} (hjob : job ∈ x'.entered i) :
    job ∈ x.entered i ∨ ∃ t, a = .enter t ∧ i = ringOfThread t ∧
      x.dpu.thread t = some (job, .starting) := by
  rcases Rank.settle_step hstep with ⟨hsame, -⟩ | ⟨t, new, ht, ⟨rfl, -, hmore⟩ |
    ⟨rfl, hsame, -⟩⟩
  · exact .inl (hsame ▸ hjob)
  · by_cases hi : i = ringOfThread t
    · rw [hmore, hi, Function.update_self] at hjob
      rcases List.mem_append.mp hjob with hold | hnew
      · exact .inl (hi ▸ hold)
      · obtain rfl := List.mem_singleton.mp hnew
        exact .inr ⟨t, rfl, hi, ht⟩
    · rw [hmore, Function.update_of_ne hi] at hjob
      exact .inl hjob
  · exact .inl (hsame ▸ hjob)

theorem Rank.aborted_step {cfg : Config} {x x' : Rank} {a : RankAction}
    (hstep : x.step cfg a = some x') {i : RingId} {job : Job} (hjob : job ∈ x'.aborted i) :
    job ∈ x.aborted i ∨ ∃ t, a = .abort t ∧ i = ringOfThread t ∧
      x.dpu.thread t = some (job, .starting) := by
  rcases Rank.settle_step hstep with ⟨-, hsame⟩ | ⟨t, new, ht, ⟨rfl, hsame, -⟩ |
    ⟨rfl, -, hmore⟩⟩
  · exact .inl (hsame ▸ hjob)
  · exact .inl (hsame ▸ hjob)
  · by_cases hi : i = ringOfThread t
    · rw [hmore, hi, Function.update_self] at hjob
      rcases List.mem_append.mp hjob with hold | hnew
      · exact .inl (hi ▸ hold)
      · obtain rfl := List.mem_singleton.mp hnew
        exact .inr ⟨t, rfl, hi, ht⟩
    · rw [hmore, Function.update_of_ne hi] at hjob
      exact .inl hjob

/-- A command is still left by all ranks or by none. -/
theorem State.Inv.apart_step [DecidableEq ι] (h : s.Inv setup cmds) {r : ι}
    {a : RankAction} {x : Rank} (huniform : Uniform setup s (r, a))
    (hx : (s r).step (setup.config r) a = some x) (p q : ι) (i : RingId) (job : Job)
    (hentered : job ∈ (Function.update s r x p).entered i) :
    job ∉ (Function.update s r x q).aborted i := by
  intro haborted
  have hcalled : job ∈ (s p).entered i ∨ ∃ t, a = .enter t ∧ i = ringOfThread t ∧
      (s r).dpu.thread t = some (job, .starting) := by
    by_cases hp : p = r
    · rw [hp, Function.update_self] at hentered
      rw [hp]
      exact Rank.entered_step hx hentered
    · rw [Function.update_of_ne hp] at hentered
      exact .inl hentered
  have hleft : job ∈ (s q).aborted i ∨ ∃ t, a = .abort t ∧ i = ringOfThread t ∧
      (s r).dpu.thread t = some (job, .starting) := by
    by_cases hq : q = r
    · rw [hq, Function.update_self] at haborted
      rw [hq]
      exact Rank.aborted_step hx haborted
    · rw [Function.update_of_ne hq] at haborted
      exact .inl haborted
  rcases hcalled with hcalled | ⟨t, rfl, rfl, ht⟩
  · rcases hleft with hleft | ⟨t, rfl, rfl, ht⟩
    · exact h.apart p q i job hcalled hleft
    · exact huniform (job, .starting) ht p hcalled
  · rcases hleft with hleft | ⟨t', heq, -, -⟩
    · exact huniform (job, .starting) ht q hleft
    · cases heq

theorem State.Inv.step [DecidableEq ι] (h : s.Inv setup cmds) (hnodup : cmds.Nodup)
    {a : ι × RankAction} (huniform : Uniform setup s a)
    (hstep : s.step setup a = some s') : s'.Inv setup cmds := by
  obtain ⟨r, a⟩ := a
  obtain ⟨x, hx, rfl⟩ := Option.map_eq_some_iff.mp hstep
  dsimp only at hx ⊢
  have hrank : x.Inv setup cmds r := by
    cases a with
    | receive dropped => exact (h.rank r).receive hx
    | dispatch alloc => exact (h.rank r).dispatch huniform hx
    | misread read alloc =>
        rw [Rank.misread_eq huniform.1] at hx
        exact (h.rank r).dispatch huniform.2 hx
    | take i => exact (h.rank r).take hx
    | abort t => exact (h.rank r).abort hnodup hx
    | enter t => exact (h.rank r).enter hnodup hx
    | done t => exact (h.rank r).done hx
  constructor
  · intro q
    by_cases hq : q = r
    · subst hq
      rw [Function.update_self]
      exact hrank
    · rw [Function.update_of_ne hq]
      exact h.rank q
  · have hupdate : (fun q => (Function.update s r x q).decided) =
        Function.update (fun q => (s q).decided) r x.decided := by
      funext q
      by_cases hq : q = r
      · subst hq
        rw [Function.update_self, Function.update_self]
      · rw [Function.update_of_ne hq, Function.update_of_ne hq]
    rw [hupdate]
    rcases Rank.decided_step hx with heq | ⟨dropped, rfl, heq⟩
    · rw [heq, Function.update_eq_self r fun q => (s q).decided]
      exact h.decided
    · rw [heq]
      exact h.decided.enter huniform
  · exact h.apart_step huniform hx

/-- If the ranks drop the same commands, leave the same commands before the collective,
find the same ring 1 and never lack a `ring_job` for a busy ring, they execute every
command on the same ring and in the same order, and the collectives that meet on a ring
are of one command. -/
theorem rings_agree_of_uniform [DecidableEq ι] (setup : Setup ι)
    (ops : List CollectiveCommunication) (acts : List (ι × RankAction))
    (s : State ι)
    (hrun : run (State.step setup) (State.init (commands ops)) acts = some s)
    (huniform : AllSteps (State.step setup) (Uniform setup)
      (State.init (commands ops)) acts) : s.Agree := by
  have hnodup : (commands ops).Nodup := by
    refine List.Nodup.of_map Job.handle ?_
    have hhandles : (commands ops).map Job.handle = List.range ops.length := by
      refine List.ext_getElem (by simp [commands]) ?_
      intro k _ _
      simp [commands]
    rw [hhandles]
    exact List.nodup_range
  have hinv : s.Inv setup (commands ops) :=
    huniform.invariant (fun s a s' ha hstep h => h.step hnodup ha hstep) hrun .init
  exact hinv.agree hnodup

end System

/-- Two AllGathers; each rank has ring 1 or not. -/
def twoGathers (enabled : Bool) (last : RingId) : List (Fin 2 × RankAction) :=
  [(0, .receive false), (0, .dispatch true), (1, .receive false),
    (1, .dispatch true), (0, .take 0), (1, .take 0), (0, .enter .ring0),
    (1, .enter .ring0), (0, .receive false), (0, .dispatch true), (0, .take 1),
    (0, .enter .ring1), (1, .receive false), (1, .dispatch true)] ++
    (if enabled then [] else [(1, .done .ring0)]) ++
    [(1, .take last), (1, .enter last.thread)]

def ringSetup (enabled : Bool) : Setup (Fin 2) where
  env := { doorbell := true, useRingQueues := true, ringR1Enabled := true }
  ringR1Enabled := fun r => r = 0 || enabled

theorem rings_agree_of_uniform_two :
    ∃ s, run (State.step (ringSetup true))
        (State.init (commands [.allGather, .allGather])) (twoGathers true 1) =
        some s ∧ s.Agree := by
  have hend : (run (State.step (ringSetup true))
      (State.init (commands [.allGather, .allGather]))
      (twoGathers true 1)).isSome := by decide +kernel
  have huniform : AllSteps (State.step (ringSetup true))
      (Uniform (ringSetup true))
      (State.init (commands [.allGather, .allGather])) (twoGathers true 1) := by
    decide +kernel
  obtain ⟨s, hrun⟩ := Option.isSome_iff_exists.mp hend
  exact ⟨s, hrun, rings_agree_of_uniform _ _ _ s hrun huniform⟩

/-- The second AllGather goes to ring 1 on rank 0 and to ring 0 on rank 1, where
the setup of ring 1 failed. -/
theorem lone_ring1_setup_disagrees :
    ∃ s, run (State.step (ringSetup false))
        (State.init (commands [.allGather, .allGather])) (twoGathers false 0) =
        some s ∧ ¬ s.Agree := by
  have hend : (run (State.step (ringSetup false))
      (State.init (commands [.allGather, .allGather]))
      (twoGathers false 0)).map (fun s => ((s 0).started 1, (s 1).started 0)) =
      some ([⟨1, 1, .allGather⟩], [⟨0, 0, .allGather⟩, ⟨1, 1, .allGather⟩]) := by
    decide +kernel
  obtain ⟨s, hrun, hstarted⟩ := Option.map_eq_some_iff.mp hend
  refine ⟨s, hrun, ?_⟩
  intro hagree
  have hring := hagree.sameRing 0 1 1 0 ⟨1, 1, .allGather⟩
    (by rw [(Prod.mk.inj hstarted).1]; decide)
    (by rw [(Prod.mk.inj hstarted).2]; decide)
  exact absurd hring (by decide)

end SmartNic.Dispatch
