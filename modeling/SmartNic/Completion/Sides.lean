import Mathlib.Algebra.Order.Group.Multiset
import Mathlib.Tactic.Abel
import SmartNic.Completion.Doorbell

/-!
# The two sides of a completion

What the steps of the DPU do to the commands that are not yet counted, and the
invariant of the host: jobs are handed over in the order of their handles, and
the sequence number of a job is its place in that order.
-/

namespace SmartNic.Completion

open SmartNic.Codec SmartNic.Machine

/-! ## The commands on the DPU -/

/-- The command has been counted by `doorbell_seq`. -/
def Phase.isCounted : Phase → Bool
  | .starting | .running | .finished | .counting _ => false
  | .counted | .staged _ | .posted _ => true

/-- The collective is over. -/
def Phase.isDone : Phase → Bool
  | .starting | .running => false
  | .finished | .counting _ | .counted | .staged _ | .posted _ => true

/-- The number that the thread holds. -/
def Phase.value : Phase → Option ℕ
  | .starting | .running | .finished | .counted => none
  | .counting seq => some seq
  | .staged value | .posted value => some value

/-- The job that a thread is executing and that is not counted. -/
def held : Option (Job × Phase) → List Job
  | some (job, phase) => if phase.isCounted then [] else [job]
  | none => []

def heldAll (thread : Thread → Option (Job × Phase)) : Multiset Job :=
  held (thread .message) + held (thread .ring0) + held (thread .ring1)

/-- The commands that are not counted by `doorbell_seq`. -/
def Dpu.unclosed (d : Dpu) : Multiset Job :=
  d.channel + d.pool + d.ring0 + d.ring1 + heldAll d.thread

theorem heldAll_update (thread : Thread → Option (Job × Phase)) (t : Thread)
    (x : Option (Job × Phase)) :
    heldAll (Function.update thread t x) + held (thread t) =
      heldAll thread + held x := by
  cases t
  all_goals
    simp only [heldAll, Function.update_self, ne_eq, reduceCtorEq,
      not_false_eq_true, Function.update_of_ne]
    abel

theorem mem_held {x : Option (Job × Phase)} {j : Job} (hj : j ∈ held x) :
    j ∈ executing x ∨ ∃ phase, x = some (j, phase) ∧ phase.isDone = true := by
  match x with
  | none => cases hj
  | some (job, phase) =>
      cases phase with
      | starting => exact .inl hj
      | running => exact .inl hj
      | finished => exact .inr ⟨_, by rw [List.mem_singleton.mp hj], rfl⟩
      | counting seq => exact .inr ⟨_, by rw [List.mem_singleton.mp hj], rfl⟩
      | counted => cases hj
      | staged value => cases hj
      | posted value => cases hj

/-- A command that is not counted is unfinished, or it waits to be counted. -/
theorem Dpu.mem_unclosed {d : Dpu} {j : Job} (hj : j ∈ d.unclosed) :
    j ∈ d.unfinished ∨ ∃ t phase, d.thread t = some (j, phase) ∧ phase.isDone = true := by
  simp only [unclosed, heldAll, Multiset.mem_add, Multiset.mem_coe] at hj
  simp only [unfinished, List.mem_append]
  rcases hj with (((hj | hj) | hj) | hj) | (hj | hj) | hj
  · simp [hj]
  · simp [hj]
  · simp [hj]
  · simp [hj]
  · rcases mem_held hj with hj | hj
    · simp [hj]
    · exact .inr ⟨_, hj⟩
  · rcases mem_held hj with hj | hj
    · simp [hj]
    · exact .inr ⟨_, hj⟩
  · rcases mem_held hj with hj | hj
    · simp [hj]
    · exact .inr ⟨_, hj⟩

/-- The work of the DPU between two commands that are counted.  A thread takes over no
number that is greater than `doorbell_seq`. -/
structure Dpu.Internal (d d' : Dpu) : Prop where
  unclosed_le : d'.unclosed ≤ d.unclosed
  doorbellSeq_eq : d'.doorbellSeq = d.doorbellSeq
  closed_eq : d'.closed = d.closed
  written_mono : ∀ j ∈ d.written, j ∈ d'.written
  done : ∀ t j phase, d'.thread t = some (j, phase) → phase.isDone = true →
    (∃ phase', d.thread t = some (j, phase') ∧ phase'.isDone = true) ∨ j ∈ d'.written
  value : ∀ t j phase v, d'.thread t = some (j, phase) → v ∈ phase.value →
    (∃ phase', d.thread t = some (j, phase') ∧ v ∈ phase'.value) ∨ v ≤ d.doorbellSeq

namespace Dpu

variable {d d' : Dpu}

/-- One thread goes on. -/
theorem Internal.of_update {t : Thread} {x : Option (Job × Phase)}
    (hunclosed : d'.unclosed ≤ d.unclosed)
    (hseq : d'.doorbellSeq = d.doorbellSeq) (hclosed : d'.closed = d.closed)
    (hwritten : ∀ j ∈ d.written, j ∈ d'.written)
    (hthread : d'.thread = Function.update d.thread t x)
    (hdone : ∀ j phase, x = some (j, phase) → phase.isDone = true →
      (∃ phase', d.thread t = some (j, phase') ∧ phase'.isDone = true) ∨ j ∈ d'.written)
    (hvalue : ∀ j phase v, x = some (j, phase) → v ∈ phase.value →
      (∃ phase', d.thread t = some (j, phase') ∧ v ∈ phase'.value) ∨
        v ≤ d.doorbellSeq) : d.Internal d' where
  unclosed_le := hunclosed
  doorbellSeq_eq := hseq
  closed_eq := hclosed
  written_mono := hwritten
  done t' j phase ht hphase := by
    rw [hthread] at ht
    by_cases heq : t' = t
    · rw [heq, Function.update_self] at ht
      rw [heq]
      exact hdone j phase ht hphase
    · rw [Function.update_of_ne heq] at ht
      exact .inl ⟨phase, ht, hphase⟩
  value t' j phase v ht hv := by
    rw [hthread] at ht
    by_cases heq : t' = t
    · rw [heq, Function.update_self] at ht
      rw [heq]
      exact hvalue j phase v ht hv
    · rw [Function.update_of_ne heq] at ht
      exact .inl ⟨phase, ht, hv⟩

theorem Internal.of_eq (hunclosed : d'.unclosed ≤ d.unclosed)
    (hseq : d'.doorbellSeq = d.doorbellSeq) (hclosed : d'.closed = d.closed)
    (hwritten : d'.written = d.written) (hthread : d'.thread = d.thread) :
    d.Internal d' where
  unclosed_le := hunclosed
  doorbellSeq_eq := hseq
  closed_eq := hclosed
  written_mono _ hj := hwritten ▸ hj
  done _ _ phase ht hphase := .inl ⟨phase, hthread ▸ ht, hphase⟩
  value _ _ phase _ ht hv := .inl ⟨phase, hthread ▸ ht, hv⟩

theorem receive_unclosed {dropped : Bool} (h : d.receive dropped = some d') :
    d.Internal d' ∧ (dropped = false → d'.unclosed = d.unclosed) := by
  unfold receive at h
  split at h
  next job channel hchannel =>
    obtain rfl := Option.some.inj h
    have hkeep : dropped = false →
        (↑channel + ↑(if dropped then d.pool else d.pool ++ [job]) :
          Multiset Job) = ↑d.channel + ↑d.pool := by
      rintro rfl
      simp only [Bool.false_eq_true, if_false, hchannel, ← Multiset.cons_coe,
        ← Multiset.singleton_add, ← Multiset.coe_add]
      abel
    have heq : dropped = false → unclosed { d with
        channel := channel
        pool := if dropped then d.pool else d.pool ++ [job] } = d.unclosed := by
      intro hdropped
      rw [unclosed, unclosed, hkeep hdropped]
    refine ⟨.of_eq ?_ rfl rfl rfl rfl, heq⟩
    cases dropped with
    | true =>
        simp only [unclosed, hchannel, if_true]
        gcongr
        exact Multiset.le_cons_self _ _
    | false => exact le_of_eq (heq rfl)
  · cases h

theorem channel_unclosed (job : Job) :
    unclosed { d with channel := d.channel ++ [job] } = job ::ₘ d.unclosed := by
  simp only [unclosed, ← Multiset.coe_add, Multiset.coe_singleton,
    ← Multiset.singleton_add]
  abel

/-- A thread that was free executes a job that was taken from elsewhere. -/
theorem start_unclosed {t : Thread} {job : Job} (ht : d.thread t = none) :
    (d.start t job).unclosed = d.unclosed + {job} := by
  have hupdate := heldAll_update d.thread t (some (job, .starting))
  rw [ht, show held none = [] from rfl,
    show held (some (job, .starting)) = [job] from rfl, Multiset.coe_nil, add_zero,
    Multiset.coe_singleton] at hupdate
  simp only [unclosed, start, hupdate]
  abel

theorem push_unclosed (job : Job) (t : Thread) :
    (d.push job t).unclosed = d.unclosed + {job} := by
  cases t
  all_goals
    simp only [unclosed, push, ← Multiset.coe_add, Multiset.coe_singleton]
    abel

theorem push_fields (job : Job) (t : Thread) :
    (d.push job t).thread = d.thread ∧
      (d.push job t).doorbellSeq = d.doorbellSeq ∧
      (d.push job t).closed = d.closed ∧ (d.push job t).written = d.written := by
  cases t
  all_goals exact ⟨rfl, rfl, rfl, rfl⟩

theorem pool_unclosed {job : Job} {pool : List Job} (h : d.pool = job :: pool) :
    d.unclosed = unclosed { d with pool := pool } + {job} := by
  simp only [unclosed, h, ← Multiset.cons_coe, ← Multiset.singleton_add]
  abel

/-- A thread starts a job from a queue; `d` is the DPU without the job. -/
theorem start_internal {d₀ : Dpu} {t : Thread} {job : Job}
    (hunclosed : (d.start t job).unclosed = d₀.unclosed)
    (hseq : d.doorbellSeq = d₀.doorbellSeq) (hclosed : d.closed = d₀.closed)
    (hwritten : d.written = d₀.written)
    (hthread : d.thread = d₀.thread) : d₀.Internal (d.start t job) := by
  refine .of_update (t := t) (x := some (job, .starting)) (le_of_eq hunclosed)
    hseq hclosed ?_ ?_ ?_ ?_
  · intro j hj
    rw [← hwritten] at hj
    exact hj
  · rw [← hthread]
    rfl
  · intro j phase heq hphase
    obtain ⟨-, rfl⟩ := Prod.mk.inj (Option.some.inj heq)
    cases hphase
  · intro j phase v heq hv
    obtain ⟨-, rfl⟩ := Prod.mk.inj (Option.some.inj heq)
    cases hv

theorem dispatch_unclosed {cfg : Config} {alloc : Bool}
    (h : d.dispatch cfg alloc = some d') :
    d.Internal d' ∧ d'.unclosed = d.unclosed := by
  unfold dispatch at h
  split at h
  next job pool hthread hpool =>
    have hinline : (start { d with pool := pool } .message job).unclosed =
        d.unclosed := by
      rw [start_unclosed (d := { d with pool := pool }) hthread,
        pool_unclosed hpool]
    have hqueued (t : Thread) : (push { d with pool := pool } job t).unclosed =
        d.unclosed := by
      rw [push_unclosed, pool_unclosed hpool]
    have hinternal : d.Internal (start { d with pool := pool } .message job) :=
      start_internal hinline rfl rfl rfl rfl
    dsimp only at h
    split at h
    · obtain rfl := Option.some.inj h
      cases alloc with
      | true =>
          have hqueue := hqueued (ringOf { d with pool := pool } cfg job)
          obtain ⟨hthread', hseq, hclosed, hwritten⟩ := push_fields
            (d := { d with pool := pool }) job (ringOf { d with pool := pool } cfg job)
          exact ⟨.of_eq (le_of_eq hqueue) hseq hclosed hwritten hthread', hqueue⟩
      | false => exact ⟨⟨hinternal.1, hinternal.2, hinternal.3, hinternal.4,
          hinternal.5, hinternal.6⟩, hinline⟩
    · obtain rfl := Option.some.inj h
      exact ⟨hinternal, hinline⟩
  · cases h

theorem ringQueuesInit_unclosed {fails : Option Thread}
    (h : d.ringQueuesInit fails = some d') :
    d.Internal d' ∧ (d.ring0 = [] ∧ (fails ≠ some .ring0 → d.ring1 = []) →
      d'.ring0 = d.ring0 ∧ d'.ring1 = d.ring1 ∧ d'.unclosed = d.unclosed) := by
  unfold ringQueuesInit at h
  split at h
  · obtain rfl := Option.some.inj h
    refine ⟨.of_eq ?_ rfl rfl rfl rfl, ?_⟩
    · have hring1 : (↑(if fails = some .ring0 then d.ring1 else []) : Multiset Job) ≤
          ↑d.ring1 := by
        split
        · exact le_rfl
        · exact Multiset.zero_le _
      simp only [unclosed]
      gcongr
      exact Multiset.zero_le _
    · rintro ⟨hring0, hring1⟩
      have hsame : (if fails = some .ring0 then d.ring1 else []) = d.ring1 := by
        split
        · rfl
        next hfails => exact (hring1 hfails).symm
      refine ⟨hring0.symm, hsame, ?_⟩
      simp only [unclosed, hsame, hring0]
  · cases h

theorem take_unclosed {t : Thread} (h : d.take t = some d') :
    d.Internal d' ∧ d'.unclosed = d.unclosed := by
  cases t with
  | message => cases h
  | ring0 =>
      simp only [take] at h
      split at h
      next job ring hthread hring =>
        obtain rfl := Option.some.inj h
        have hstart : (start { d with ring0 := ring } .ring0 job).unclosed =
            d.unclosed := by
          rw [start_unclosed (d := { d with ring0 := ring }) hthread]
          simp only [unclosed, hring, ← Multiset.cons_coe,
            ← Multiset.singleton_add]
          abel
        exact ⟨start_internal (d := { d with ring0 := ring }) hstart rfl rfl rfl rfl,
          hstart⟩
      · cases h
  | ring1 =>
      simp only [take] at h
      split at h
      next job ring hthread hring =>
        obtain rfl := Option.some.inj h
        have hstart : (start { d with ring1 := ring } .ring1 job).unclosed =
            d.unclosed := by
          rw [start_unclosed (d := { d with ring1 := ring }) hthread]
          simp only [unclosed, hring, ← Multiset.cons_coe,
            ← Multiset.singleton_add]
          abel
        exact ⟨start_internal (d := { d with ring1 := ring }) hstart rfl rfl rfl rfl,
          hstart⟩
      · cases h

/-- What replacing the state of one thread does. -/
theorem update_unclosed (t : Thread) (x : Option (Job × Phase)) :
    unclosed { d with thread := Function.update d.thread t x } +
        held (d.thread t) = d.unclosed + held x := by
  have hupdate := heldAll_update d.thread t x
  simp only [unclosed]
  rw [add_assoc, hupdate]
  abel

theorem abort_internal {t : Thread} (h : d.abort t = some d') :
    d.Internal d' := by
  unfold abort at h
  split at h
  next hthread =>
    obtain rfl := Option.some.inj h
    refine .of_update (t := t) (x := none) ?_ rfl rfl (fun _ hj => hj) rfl nofun nofun
    have hupdate := update_unclosed (d := d) t none
    rw [show held none = [] from rfl, Multiset.coe_nil, add_zero] at hupdate
    rw [← hupdate]
    exact Multiset.le_add_right _ _
  · cases h

/-- A thread comes to a phase in which its command is counted and done if it was, and
takes over no number that is too great. -/
def Advances (d : Dpu) (t : Thread) (d' : Dpu) : Prop :=
  ∃ job phase phase', d.thread t = some (job, phase) ∧ d' = d.advance t job phase' ∧
    phase'.isCounted = phase.isCounted ∧ phase'.isDone = phase.isDone ∧
      ∀ v ∈ phase'.value, v ∈ phase.value ∨ v ≤ d.doorbellSeq

theorem Advances.internal {t : Thread} (h : d.Advances t d') :
    d.Internal d' ∧ d'.unclosed = d.unclosed := by
  obtain ⟨job, phase, phase', hthread, rfl, hcounted, hdone, hvalue⟩ := h
  have hunclosed : (d.advance t job phase').unclosed = d.unclosed := by
    have hupdate := update_unclosed (d := d) t (some (job, phase'))
    rw [hthread, held, held, hcounted] at hupdate
    exact add_right_cancel hupdate
  refine ⟨.of_update (t := t) (x := some (job, phase')) (le_of_eq hunclosed) rfl rfl
    (fun _ hj => hj) rfl ?_ ?_, hunclosed⟩
  · intro j p heq hp
    obtain ⟨rfl, rfl⟩ := Prod.mk.inj (Option.some.inj heq)
    rw [hdone] at hp
    exact .inl ⟨phase, hthread, hp⟩
  · intro j p v heq hv
    obtain ⟨rfl, rfl⟩ := Prod.mk.inj (Option.some.inj heq)
    rcases hvalue v hv with hv | hle
    · exact .inl ⟨phase, hthread, hv⟩
    · exact .inr hle

theorem enter_advances {t : Thread} (h : d.enter t = some d') : d.Advances t d' := by
  unfold enter at h
  split at h
  next job hthread =>
    obtain rfl := Option.some.inj h
    exact ⟨job, _, _, hthread, rfl, rfl, rfl, nofun⟩
  · cases h

theorem load_advances {cfg : Config} {t : Thread} (h : d.load cfg t = some d') :
    d.Advances t d' := by
  unfold load at h
  split at h
  next job hthread =>
    split at h
    · obtain rfl := Option.some.inj h
      refine ⟨job, _, _, hthread, rfl, rfl, rfl, ?_⟩
      intro v hv
      obtain rfl := Option.some.inj hv
      exact .inr le_rfl
    · cases h
  · cases h

theorem stage_advances {t : Thread} (h : d.stage t = some d') : d.Advances t d' := by
  unfold stage at h
  split at h
  next job hthread =>
    obtain rfl := Option.some.inj h
    refine ⟨job, _, _, hthread, rfl, rfl, rfl, ?_⟩
    intro v hv
    obtain rfl := Option.some.inj hv
    exact .inr le_rfl
  · cases h

theorem overwrite_advances {t : Thread} {value : ℕ} (hle : value ≤ d.doorbellSeq)
    (h : d.overwrite t value = some d') : d.Advances t d' := by
  unfold overwrite at h
  split at h
  next job old hthread =>
    obtain rfl := Option.some.inj h
    refine ⟨job, _, _, hthread, rfl, rfl, rfl, ?_⟩
    intro v hv
    obtain rfl := Option.some.inj hv
    exact .inr hle
  · cases h

theorem post_advances {t : Thread} (h : d.post t = some d') : d.Advances t d' := by
  unfold post at h
  split at h
  next job value hthread =>
    obtain rfl := Option.some.inj h
    exact ⟨job, _, _, hthread, rfl, rfl, rfl, fun v hv => .inl hv⟩
  · cases h

theorem finish_thread {t : Thread} {written : Bool}
    (h : d.finish t written = some d') :
    ∃ job, d.thread t = some (job, .running) := by
  unfold finish at h
  split at h
  next job hthread => exact ⟨job, hthread⟩
  · cases h

theorem finish_unclosed {t : Thread} {job : Job}
    {phase : Phase} (hthread : d.thread t = some (job, phase))
    (himplemented : implemented job.op) (h : d.finish t true = some d') :
    d.Internal d' ∧ d'.unclosed = d.unclosed := by
  unfold finish at h
  split at h
  next job' hrunning =>
    obtain rfl : job' = job := by
      rw [hthread] at hrunning
      exact (Prod.mk.inj (Option.some.inj hrunning)).1.symm
    rw [himplemented, Bool.true_and, if_pos rfl] at h
    obtain rfl := Option.some.inj h
    have hunclosed : unclosed { d with
        thread := Function.update d.thread t (some (job', .finished)) } =
        d.unclosed := by
      have hupdate := update_unclosed (d := d) t (some (job', .finished))
      rw [hrunning] at hupdate
      exact add_right_cancel hupdate
    refine ⟨.of_update (t := t) (x := some (job', .finished)) (le_of_eq hunclosed)
      rfl rfl ?_ rfl ?_ ?_, hunclosed⟩
    · exact fun j hj => List.mem_append_left _ hj
    · intro j p heq _
      obtain ⟨rfl, -⟩ := Prod.mk.inj (Option.some.inj heq)
      exact .inr (List.mem_append_right _ (List.mem_singleton_self _))
    · intro j p v heq hv
      obtain ⟨-, rfl⟩ := Prod.mk.inj (Option.some.inj heq)
      cases hv
  · cases h

end Dpu

/-! ## The host -/

/-- Jobs are handed over in the order of their handles, and a job in the
inflight ring has its place among them as its sequence number. -/
structure HostInv (h : Host) : Prop where
  order : (h.accepted ++ h.queue).Pairwise fun j j' => j.handle < j'.handle
  handle_lt : ∀ j ∈ h.accepted ++ h.queue, j.handle < h.jobs.length
  mem_jobs : ∀ j ∈ h.accepted ++ h.queue, j ∈ h.jobs
  length : h.accepted.length = h.submitSeq + h.submitting.toList.length
  submitting : ∀ j, h.submitting = some j → h.accepted[h.submitSeq]? = some j
  inflight : ∀ e ∈ h.inflight, e.result = .success →
    ∃ k, e.submitSeq = k + 1 ∧ h.accepted[k]? = some e.job

namespace HostInv

variable {h h' : Host} {job : Job}

theorem pop_eq (hpop : h.pop = some (job, h')) :
    h.submitting = none ∧ h.queue = job :: h'.queue ∧
      h' = { h with queue := h'.queue } := by
  unfold Host.pop at hpop
  split at hpop
  next hsubmitting hqueue =>
    obtain ⟨rfl, rfl⟩ := Prod.mk.inj (Option.some.inj hpop)
    exact ⟨hsubmitting, hqueue, rfl⟩
  · cases hpop

theorem enqueue (hinv : HostInv h) (id : ℕ) (op : CollectiveCommunication) :
    HostInv (h.enqueue id op) where
  order := by
    rw [Host.enqueue, ← List.append_assoc, List.pairwise_append]
    refine ⟨hinv.order, List.pairwise_singleton _ _, ?_⟩
    intro j hj j' hj'
    rw [List.mem_singleton.mp hj']
    exact hinv.handle_lt j hj
  handle_lt j hj := by
    rw [Host.enqueue, ← List.append_assoc, List.mem_append] at hj
    rw [Host.enqueue, List.length_append, List.length_singleton]
    rcases hj with hj | hj
    · exact Nat.lt_succ_of_lt (hinv.handle_lt j hj)
    · rw [List.mem_singleton.mp hj]
      exact Nat.lt_succ_self _
  mem_jobs j hj := by
    rw [Host.enqueue, ← List.append_assoc, List.mem_append] at hj
    rcases hj with hj | hj
    · exact List.mem_append_left _ (hinv.mem_jobs j hj)
    · exact List.mem_append_right _ hj
  length := hinv.length
  submitting := hinv.submitting
  inflight := hinv.inflight

theorem fail (hinv : HostInv h) (hpop : h.pop = some (job, h')) :
    HostInv { h' with inflight := h'.inflight ++ [⟨job, 0, .badState⟩] } := by
  obtain ⟨-, hqueue, heq⟩ := pop_eq hpop
  have hsub : List.Sublist (h.accepted ++ h'.queue) (h.accepted ++ h.queue) := by
    rw [hqueue]
    exact (List.sublist_cons_self _ _).append_left _
  rw [heq]
  exact
    { order := hinv.order.sublist hsub
      handle_lt := fun j hj => hinv.handle_lt j (hsub.subset hj)
      mem_jobs := fun j hj => hinv.mem_jobs j (hsub.subset hj)
      length := hinv.length
      submitting := hinv.submitting
      inflight := fun e he hsuccess => by
        rcases List.mem_append.mp he with he | he
        · exact hinv.inflight e he hsuccess
        · rw [List.mem_singleton.mp he] at hsuccess
          cases hsuccess }

theorem send (hinv : HostInv h) (hpop : h.pop = some (job, h')) :
    HostInv { h' with
      submitting := some job
      accepted := h'.accepted ++ [job] } := by
  obtain ⟨hsubmitting, hqueue, heq⟩ := pop_eq hpop
  have happend : h.accepted ++ [job] ++ h'.queue = h.accepted ++ h.queue := by
    rw [hqueue, List.append_assoc, List.singleton_append]
  have hlength := hinv.length
  rw [hsubmitting, Option.toList_none, List.length_nil, Nat.add_zero] at hlength
  rw [heq]
  refine
    { order := happend.symm ▸ hinv.order
      handle_lt := fun j hj => hinv.handle_lt j (happend ▸ hj)
      mem_jobs := fun j hj => hinv.mem_jobs j (happend ▸ hj)
      length := ?_
      submitting := ?_
      inflight := ?_ }
  · rw [List.length_append, hlength]
    rfl
  · intro j hj
    obtain rfl := Option.some.inj hj
    rw [List.getElem?_append_right (le_of_eq hlength), hlength, Nat.sub_self]
    rfl
  · intro e he hsuccess
    obtain ⟨k, hseq, hjob⟩ := hinv.inflight e he hsuccess
    refine ⟨k, hseq, ?_⟩
    rw [List.getElem?_append_left (List.getElem?_eq_some_iff.mp hjob).1]
    exact hjob

/-- A job that is handed over was not handed over before. -/
theorem pop_notMem (hinv : HostInv h) (hpop : h.pop = some (job, h')) :
    job ∉ h.accepted := by
  obtain ⟨-, hqueue, -⟩ := pop_eq hpop
  intro hmem
  have hlt := (List.pairwise_append.mp hinv.order).2.2 job hmem job
    (hqueue ▸ List.mem_cons_self)
  exact Nat.lt_irrefl _ hlt

theorem assign (hinv : HostInv h) (hassign : h.assign = some h') :
    HostInv h' ∧ h'.accepted = h.accepted ∧ h'.queue = h.queue ∧
      h'.handedOver.Perm h.handedOver := by
  unfold Host.assign at hassign
  split at hassign
  next job hsubmitting =>
    obtain rfl := Option.some.inj hassign
    refine ⟨?_, rfl, rfl, ?_⟩
    swap
    · simp [Host.handedOver, hsubmitting]
    refine
      { order := hinv.order
        handle_lt := hinv.handle_lt
        mem_jobs := hinv.mem_jobs
        length := ?_
        submitting := nofun
        inflight := ?_ }
    · rw [hinv.length, hsubmitting]
      rfl
    · intro e he hsuccess
      rcases List.mem_append.mp he with he | he
      · exact hinv.inflight e he hsuccess
      · rw [List.mem_singleton.mp he]
        exact ⟨h.submitSeq, rfl, hinv.submitting job hsubmitting⟩
  · cases hassign

theorem complete (hinv : HostInv h) {e : Inflight} {inflight : List Inflight}
    (hinflight : h.inflight = e :: inflight) :
    HostInv { h with inflight := inflight } where
  order := hinv.order
  handle_lt := hinv.handle_lt
  mem_jobs := hinv.mem_jobs
  length := hinv.length
  submitting := hinv.submitting
  inflight e' he' := hinv.inflight e' (hinflight ▸ List.mem_cons_of_mem _ he')

end HostInv

end SmartNic.Completion
