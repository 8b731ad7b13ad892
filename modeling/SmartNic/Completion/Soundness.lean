import SmartNic.Completion.Sides

/-!
# Completion is sound in faultless runs

The ledger counts a command from its hand-over to the channel until
`doorbell_seq` is incremented for it.  While no command is lost and none is
overtaken, the job whose sequence number the doorbell has reached is done.
-/

namespace SmartNic.Completion

open SmartNic.Codec SmartNic.Machine

/-! ## Invariants -/

/-- The commands as numbered jobs. -/
def ledger (accepted : List Job) (d : Dpu) : Ledger Job :=
  ⟨accepted, d.unclosed, d.closed, d.written⟩

/-- Without ring queues the DPU works on the commands in their order. -/
structure Inline (accepted : List Job) (d : Dpu) : Prop where
  ring0 : d.ring0 = []
  ring1 : d.ring1 = []
  thread0 : d.thread .ring0 = none
  thread1 : d.thread .ring1 = none
  suffix : held (d.thread .message) ++ d.pool ++ d.channel <:+ accepted

/-- Without a doorbell the flag of a waiting job rises only when that job has
been notified. -/
structure Notified (h : Host) (flag : ℕ → Option Bool) (d : Dpu) : Prop where
  nodup : (h.waiting.map Job.id).Nodup
  entry : ∀ j ∈ h.handedOver, flag j.id ≠ none
  raised : ∀ j ∈ h.handedOver, flag j.id = some true →
    j ∈ d.written ∧ j ∉ d.unclosed
  unclosed : ∀ j ∈ d.unclosed, j ∈ h.handedOver
  unclosed_nodup : d.unclosed.Nodup

structure Inv (cfg : Config) (s : State) : Prop where
  host : HostInv s.host
  unclosed : ∀ j ∈ s.dpu.unclosed, j ∈ s.host.accepted
  done : ∀ t j phase, s.dpu.thread t = some (j, phase) → phase.isDone = true →
    j ∈ s.dpu.written
  value : ∀ t j phase v, s.dpu.thread t = some (j, phase) → v ∈ phase.value →
    v ≤ s.dpu.closed
  doorbellSeq : s.dpu.doorbellSeq ≤ s.dpu.closed
  doorbell : s.doorbell ≤ s.dpu.closed
  completed : ∀ j, (j, .success) ∈ s.completed → j ∈ s.dpu.written
  counted : cfg.doorbell → (ledger s.host.accepted s.dpu).Sound
  inline : cfg.doorbell → cfg.useRingQueues = false →
    Inline s.host.accepted s.dpu
  notified : cfg.doorbell = false →
    Notified s.host s.finishFlag s.dpu

theorem Inv.init (cfg : Config) : Inv cfg State.init where
  host :=
    { order := List.Pairwise.nil
      handle_lt := nofun
      mem_jobs := nofun
      length := rfl
      submitting := nofun
      inflight := nofun }
  unclosed := by decide
  done _ _ _ h := by cases h
  value _ _ _ _ h := by cases h
  doorbellSeq := le_rfl
  doorbell := le_rfl
  completed := nofun
  counted _ := .empty
  inline _ _ := ⟨rfl, rfl, rfl, rfl, List.suffix_rfl⟩
  notified _ := ⟨List.nodup_nil, nofun, nofun, by decide, by decide⟩

variable {cfg : Config} {s s' : State} {d' : Dpu}

theorem Notified.internal {h : Host} {flag : ℕ → Option Bool} {d : Dpu}
    (hnotified : Notified h flag d) (hinternal : d.Internal d') :
    Notified h flag d' where
  nodup := hnotified.nodup
  entry := hnotified.entry
  raised j hj hflag := by
    obtain ⟨hwritten, hnot⟩ := hnotified.raised j hj hflag
    exact ⟨hinternal.written_mono j hwritten, fun hmem =>
      hnot (Multiset.mem_of_le hinternal.unclosed_le hmem)⟩
  unclosed j hj :=
    hnotified.unclosed j (Multiset.mem_of_le hinternal.unclosed_le hj)
  unclosed_nodup :=
    Multiset.nodup_of_le hinternal.unclosed_le hnotified.unclosed_nodup

/-- The host goes on without handing over a job. -/
theorem Notified.of_host {h h' : Host} {flag : ℕ → Option Bool} {d : Dpu}
    (hnotified : Notified h flag d)
    (hmem : ∀ j, j ∈ h'.handedOver ↔ j ∈ h.handedOver)
    (hnodup : (h'.waiting.map Job.id).Nodup) : Notified h' flag d where
  nodup := hnodup
  entry j hj := hnotified.entry j ((hmem j).mp hj)
  raised j hj := hnotified.raised j ((hmem j).mp hj)
  unclosed j hj := (hmem j).mpr (hnotified.unclosed j hj)
  unclosed_nodup := hnotified.unclosed_nodup

/-- Some flags are lowered. -/
theorem Notified.lower {h : Host} {flag flag' : ℕ → Option Bool} {d : Dpu}
    (hnotified : Notified h flag d)
    (hflag : ∀ i, flag' i = flag i ∨ flag' i = some false) :
    Notified h flag' d where
  nodup := hnotified.nodup
  entry j hj := by
    rcases hflag j.id with heq | heq
    · rw [heq]
      exact hnotified.entry j hj
    · rw [heq]
      nofun
  raised j hj hraised := by
    rcases hflag j.id with heq | heq
    · exact hnotified.raised j hj (heq ▸ hraised)
    · cases heq.symm.trans hraised
  unclosed := hnotified.unclosed
  unclosed_nodup := hnotified.unclosed_nodup

theorem update_lowers (flag : ℕ → Option Bool) (id i : ℕ) :
    Function.update flag id (some false) i = flag i ∨
      Function.update flag id (some false) i = some false := by
  by_cases hi : i = id
  · rw [hi, Function.update_self]
    exact .inr rfl
  · rw [Function.update_of_ne hi]
    exact .inl rfl

/-- Waiting jobs of one id are one job. -/
theorem Notified.eq_of_id {h : Host} {flag : ℕ → Option Bool} {d : Dpu}
    (hnotified : Notified h flag d) {j j' : Job} (hj : j ∈ h.waiting)
    (hj' : j' ∈ h.waiting) (hid : j.id = j'.id) : j = j' :=
  List.inj_on_of_nodup_map hnotified.nodup hj hj' hid

/-- The DPU works between two commands that are counted. -/
theorem Inv.internal (h : Inv cfg s) (hinternal : s.dpu.Internal d')
    (hkeep : cfg.doorbell → d'.unclosed = s.dpu.unclosed)
    (hinline : cfg.doorbell → cfg.useRingQueues = false →
      Inline s.host.accepted d') :
    Inv cfg { s with dpu := d' } where
  host := h.host
  unclosed j hj := h.unclosed j (Multiset.mem_of_le hinternal.unclosed_le hj)
  done t j phase ht hphase := by
    rcases hinternal.done t j phase ht hphase with ⟨phase', ht', hphase'⟩ | hj
    · exact hinternal.written_mono j (h.done t j phase' ht' hphase')
    · exact hj
  value t j phase v ht hv := by
    rw [hinternal.closed_eq]
    rcases hinternal.value t j phase v ht hv with ⟨phase', ht', hv'⟩ | hle
    · exact h.value t j phase' v ht' hv'
    · exact hle.trans h.doorbellSeq
  doorbellSeq := by
    rw [hinternal.doorbellSeq_eq, hinternal.closed_eq]
    exact h.doorbellSeq
  doorbell := hinternal.closed_eq ▸ h.doorbell
  completed j hj := hinternal.written_mono j (h.completed j hj)
  counted hdoorbell := by
    have hsound := (h.counted hdoorbell).finish hinternal.written_mono
    rw [ledger, hkeep hdoorbell, hinternal.closed_eq]
    exact hsound
  inline := hinline
  notified hdoorbell := (h.notified hdoorbell).internal hinternal

/-! ## The host's steps -/

theorem Inv.enqueue (h : Inv cfg s) {id : ℕ} {op : CollectiveCommunication}
    (hid : cfg.doorbell ∨ id ∉ s.host.waiting.map Job.id) :
    Inv cfg { s with host := s.host.enqueue id op } where
  host := h.host.enqueue id op
  unclosed := h.unclosed
  done := h.done
  value := h.value
  doorbellSeq := h.doorbellSeq
  doorbell := h.doorbell
  completed := h.completed
  counted := h.counted
  inline := h.inline
  notified hdoorbell :=
    { h.notified hdoorbell with
      nodup := by
        have hfresh := hid.resolve_left (by simp [hdoorbell])
        have hnodup := (h.notified hdoorbell).nodup
        have hperm : ((s.host.enqueue id op).waiting.map Job.id).Perm
            (id :: s.host.waiting.map Job.id) := by
          simp only [Host.waiting, Host.enqueue, List.append_assoc,
            List.map_append, List.singleton_append, List.map_cons]
          exact List.perm_middle
        exact hperm.nodup_iff.mpr (List.nodup_cons.mpr ⟨hfresh, hnodup⟩) }

theorem Inv.submitFail (h : Inv cfg s) {entry : Bool}
    (hstep : s.submitFail entry = some s') : Inv cfg s' := by
  obtain ⟨⟨job, host⟩, hpop, rfl⟩ := Option.map_eq_some_iff.mp hstep
  obtain ⟨-, hqueue, heq⟩ := HostInv.pop_eq hpop
  have haccepted : host.accepted = s.host.accepted := by rw [heq]
  refine
    { host := h.host.fail hpop
      unclosed := haccepted ▸ h.unclosed
      done := h.done
      value := h.value
      doorbellSeq := h.doorbellSeq
      doorbell := h.doorbell
      completed := h.completed
      counted := fun hdoorbell => haccepted ▸ h.counted hdoorbell
      inline := fun hdoorbell hqueues => haccepted ▸ h.inline hdoorbell hqueues
      notified := fun hdoorbell => ?_ }
  have hnotified := h.notified hdoorbell
  have hhanded : Host.handedOver { host with
      inflight := host.inflight ++ [⟨job, 0, .badState⟩] } =
      s.host.handedOver := by
    rw [heq]
    simp [Host.handedOver]
  have hsub : List.Sublist (Host.waiting { host with
      inflight := host.inflight ++ [⟨job, 0, .badState⟩] }) s.host.waiting := by
    rw [Host.waiting, hhanded, Host.waiting, hqueue]
    exact (List.sublist_cons_self _ _).append_right _
  refine (hnotified.lower fun i => ?_).of_host (fun j => by rw [hhanded])
    (hnotified.nodup.sublist (hsub.map _))
  dsimp only
  split
  · exact update_lowers _ _ i
  · exact .inl rfl

theorem Inv.send (h : Inv cfg s) {lost : Bool}
    (hlost : cfg.doorbell → lost = false) (hstep : s.send lost = some s') :
    Inv cfg s' := by
  obtain ⟨⟨job, host⟩, hpop, rfl⟩ := Option.map_eq_some_iff.mp hstep
  obtain ⟨hsubmitting, hqueue, heq⟩ := HostInv.pop_eq hpop
  have haccepted : host.accepted = s.host.accepted := by rw [heq]
  have hkeep : lost = false → Dpu.unclosed { s.dpu with
      channel := if lost then s.dpu.channel else s.dpu.channel ++ [job] } =
      job ::ₘ s.dpu.unclosed := by
    rintro rfl
    exact Dpu.channel_unclosed job
  refine
    { host := h.host.send hpop
      unclosed := fun j hj => ?_
      done := h.done
      value := h.value
      doorbellSeq := h.doorbellSeq
      doorbell := h.doorbell
      completed := h.completed
      counted := fun hdoorbell => ?_
      inline := fun hdoorbell hqueues => ?_
      notified := fun hdoorbell => ?_ }
  · dsimp only at hj ⊢
    rw [haccepted, List.mem_append, List.mem_singleton]
    cases lost with
    | true => exact .inl (h.unclosed j hj)
    | false =>
        rw [hkeep rfl, Multiset.mem_cons] at hj
        exact hj.symm.imp (h.unclosed j) id
  · have hissue := (h.counted hdoorbell).issue (h.host.pop_notMem hpop)
    dsimp only [ledger]
    rw [hkeep (hlost hdoorbell), haccepted]
    exact hissue
  · have hinline := h.inline hdoorbell hqueues
    obtain ⟨pre, hpre⟩ := hinline.suffix
    refine ⟨hinline.ring0, hinline.ring1, hinline.thread0, hinline.thread1, pre, ?_⟩
    simp [hlost hdoorbell, haccepted, ← hpre]
  · have hnotified := (h.notified hdoorbell).lower
      (update_lowers s.finishFlag job.id)
    have hhanded : Host.handedOver { host with
        submitting := some job
        accepted := host.accepted ++ [job] } = job :: s.host.handedOver := by
      rw [heq]
      simp [Host.handedOver, hsubmitting]
    have hperm : (Host.waiting { host with
        submitting := some job
        accepted := host.accepted ++ [job] }).Perm s.host.waiting := by
      rw [Host.waiting, hhanded, Host.waiting, hqueue]
      exact List.perm_middle
    have hfresh : job ∉ s.host.handedOver := by
      have hnodup := hnotified.nodup.of_map
      rw [Host.waiting, hqueue, List.cons_append, List.nodup_cons] at hnodup
      exact fun hmem => hnodup.1 (List.mem_append_right _ hmem)
    have hqueued : job ∈ s.host.waiting := by
      rw [Host.waiting, hqueue]
      exact List.mem_cons_self
    have hle : Dpu.unclosed { s.dpu with
        channel := if lost then s.dpu.channel else s.dpu.channel ++ [job] } ≤
        job ::ₘ s.dpu.unclosed := by
      cases lost with
      | true => exact Multiset.le_cons_self _ _
      | false => exact le_of_eq (hkeep rfl)
    refine ⟨(hperm.map _).nodup_iff.mpr hnotified.nodup, fun j hj => ?_,
      fun j hj hraised => ?_, fun j hj => ?_, ?_⟩
    · rcases List.mem_cons.mp (hhanded ▸ hj) with rfl | hold
      · simp
      · exact hnotified.entry j hold
    · rcases List.mem_cons.mp (hhanded ▸ hj) with rfl | hold
      · simp at hraised
      · obtain ⟨hwritten, hnot⟩ := hnotified.raised j hold hraised
        refine ⟨hwritten, fun hmem => ?_⟩
        rcases Multiset.mem_cons.mp (Multiset.mem_of_le hle hmem) with heq | hmem
        · exact hfresh (heq ▸ hold)
        · exact hnot hmem
    · rw [hhanded]
      rcases Multiset.mem_cons.mp (Multiset.mem_of_le hle hj) with rfl | hmem
      · exact List.mem_cons_self
      · exact List.mem_cons_of_mem _ (hnotified.unclosed j hmem)
    · refine Multiset.nodup_of_le hle (Multiset.nodup_cons.mpr ⟨?_,
        hnotified.unclosed_nodup⟩)
      exact fun hmem => hfresh (hnotified.unclosed job hmem)

theorem Inv.assign (h : Inv cfg s) {host : Host}
    (hassign : s.host.assign = some host) : Inv cfg { s with host := host } := by
  obtain ⟨hhost, haccepted, hqueue, hperm⟩ := h.host.assign hassign
  exact
    { host := hhost
      unclosed := haccepted ▸ h.unclosed
      done := h.done
      value := h.value
      doorbellSeq := h.doorbellSeq
      doorbell := h.doorbell
      completed := h.completed
      counted := fun hdoorbell => haccepted ▸ h.counted hdoorbell
      inline := fun hdoorbell hqueues => haccepted ▸ h.inline hdoorbell hqueues
      notified := fun hdoorbell => by
        have hnotified := h.notified hdoorbell
        have hwaiting : host.waiting.Perm s.host.waiting := by
          rw [Host.waiting, Host.waiting, hqueue]
          exact hperm.append_left _
        exact hnotified.of_host (fun _ => hperm.mem_iff)
          ((hwaiting.map _).nodup_iff.mpr hnotified.nodup) }

/-- A waiting job is completed when its flag is raised. -/
theorem Notified.complete {h : Host} {flag : ℕ → Option Bool} {d : Dpu}
    (hnotified : Notified h flag d) {e : Inflight} {inflight : List Inflight}
    (hinflight : h.inflight = e :: inflight)
    (hraised : e.result = .success → flag e.job.id = some true) :
    Notified { h with inflight := inflight } flag d := by
  have hsub : List.Sublist (Host.handedOver { h with inflight := inflight })
      h.handedOver := by
    rw [Host.handedOver, Host.handedOver, hinflight]
    exact (((List.sublist_cons_self e _).filter _).map _).append_left _
  refine ⟨hnotified.nodup.sublist ((hsub.append_left _).map _),
    fun j hj => hnotified.entry j (hsub.subset hj),
    fun j hj => hnotified.raised j (hsub.subset hj), fun j hj => ?_,
    hnotified.unclosed_nodup⟩
  have hmem := hnotified.unclosed j hj
  simp only [Host.handedOver, hinflight, List.filter_cons, decide_eq_true_eq,
    List.mem_append] at hmem ⊢
  split at hmem
  next hsuccess =>
    rw [List.map_cons, List.mem_cons] at hmem
    rcases hmem with hmem | rfl | hmem
    · exact .inl hmem
    · have hjob : e.job ∈ h.handedOver := by
        simp [Host.handedOver, hinflight, hsuccess]
      exact absurd hj (hnotified.raised e.job hjob (hraised hsuccess)).2
    · exact .inr hmem
  · exact hmem

theorem Notified.of_ready {h : Host} {flag : ℕ → Option Bool} {d : Dpu}
    (hnotified : Notified h flag d) {e : Inflight} (he : e ∈ h.inflight)
    (hsuccess : e.result = .success) (hready : flag e.job.id ≠ some false) :
    flag e.job.id = some true ∧ e.job ∈ d.written := by
  have hjob : e.job ∈ h.handedOver := by
    refine List.mem_append_right _ (List.mem_map_of_mem ?_)
    exact List.mem_filter.mpr ⟨he, decide_eq_true hsuccess⟩
  have hflag : flag e.job.id = some true := by
    cases hentry : flag e.job.id with
    | none => exact absurd hentry (hnotified.entry _ hjob)
    | some raised =>
        cases raised with
        | true => rfl
        | false => exact absurd hentry hready
  exact ⟨hflag, (hnotified.raised _ hjob hflag).1⟩

/-- The completion thread only lets go of a job that is done. -/
theorem Inv.complete (h : Inv cfg s) (hstep : s.complete cfg = some s') :
    Inv cfg s' := by
  unfold State.complete at hstep
  split at hstep
  next e inflight hinflight =>
    split at hstep
    next hready =>
      obtain rfl := Option.some.inj hstep
      have he : e ∈ s.host.inflight := hinflight ▸ List.mem_cons_self
      have hflag : cfg.doorbell = false → s.finishFlag e.job.id ≠ some false := by
        intro hoff
        simp only [State.ready, hoff, Bool.false_eq_true, if_false] at hready
        exact of_decide_eq_true hready
      refine
        { host := h.host.complete hinflight
          unclosed := h.unclosed
          done := h.done
          value := h.value
          doorbellSeq := h.doorbellSeq
          doorbell := h.doorbell
          completed := fun j hj => ?_
          counted := h.counted
          inline := h.inline
          notified := fun hoff => (h.notified hoff).complete hinflight
            fun hsuccess => ((h.notified hoff).of_ready he hsuccess
              (hflag hoff)).1 }
      rcases List.mem_append.mp hj with hj | hj
      · exact h.completed j hj
      · obtain ⟨rfl, hresult⟩ := Prod.mk.inj (List.mem_singleton.mp hj)
        cases hdoorbell : cfg.doorbell with
        | true =>
            obtain ⟨k, hseq, haccepted⟩ := h.host.inflight e he hresult.symm
            simp only [State.ready, hdoorbell, if_true] at hready
            have hle : k + 1 ≤ s.doorbell := hseq ▸ of_decide_eq_true hready
            exact (h.counted hdoorbell).done_of_lt (hle.trans h.doorbell)
              haccepted
        | false =>
            exact ((h.notified hdoorbell).of_ready he hresult.symm
              (hflag hdoorbell)).2
    · cases hstep
  · cases hstep

/-! ## The DPU's steps -/

/-- The commands of an inline DPU after a step that keeps their order. -/
theorem Inline.of_eq {accepted : List Job} {d : Dpu} (h : Inline accepted d)
    (hring0 : d'.ring0 = d.ring0) (hring1 : d'.ring1 = d.ring1)
    (hthread0 : d'.thread .ring0 = d.thread .ring0)
    (hthread1 : d'.thread .ring1 = d.thread .ring1)
    (hcommands : held (d'.thread .message) ++ d'.pool ++ d'.channel =
      held (d.thread .message) ++ d.pool ++ d.channel) :
    Inline accepted d' where
  ring0 := hring0.trans h.ring0
  ring1 := hring1.trans h.ring1
  thread0 := hthread0.trans h.thread0
  thread1 := hthread1.trans h.thread1
  suffix := hcommands ▸ h.suffix

theorem Inline.receive {accepted : List Job} {d : Dpu} (h : Inline accepted d)
    (hstep : d.receive false = some d') : Inline accepted d' := by
  unfold Dpu.receive at hstep
  split at hstep
  next job channel hchannel =>
    obtain rfl := Option.some.inj hstep
    exact h.of_eq rfl rfl rfl rfl (by simp [hchannel])
  · cases hstep

theorem Inline.dispatch {accepted : List Job} {d : Dpu} (h : Inline accepted d)
    (hqueues : cfg.useRingQueues = false) {alloc : Bool}
    (hstep : d.dispatch cfg alloc = some d') : Inline accepted d' := by
  unfold Dpu.dispatch at hstep
  split at hstep
  next job pool hthread hpool =>
    rw [hqueues] at hstep
    obtain rfl := Option.some.inj hstep
    exact h.of_eq rfl rfl rfl rfl
      (by simp [Dpu.start, held, Phase.isCounted, hthread, hpool])
  · cases hstep

theorem Inline.take {accepted : List Job} {d : Dpu} (h : Inline accepted d)
    {t : Thread} (hstep : d.take t = some d') : Inline accepted d' := by
  cases t with
  | message => cases hstep
  | ring0 => simp [Dpu.take, h.ring0] at hstep
  | ring1 => simp [Dpu.take, h.ring1] at hstep

/-- Only the message thread executes commands. -/
theorem Inline.eq_message {accepted : List Job} {d : Dpu}
    (h : Inline accepted d) {t : Thread} {x : Job × Phase}
    (ht : d.thread t = some x) : t = .message := by
  cases t with
  | message => rfl
  | ring0 => cases h.thread0.symm.trans ht
  | ring1 => cases h.thread1.symm.trans ht

theorem Inline.finish {accepted : List Job} {d : Dpu} (h : Inline accepted d)
    {t : Thread} {written : Bool} (hstep : d.finish t written = some d') :
    Inline accepted d' := by
  unfold Dpu.finish at hstep
  split at hstep
  next job hthread =>
    obtain rfl := h.eq_message hthread
    obtain rfl := Option.some.inj hstep
    exact h.of_eq rfl rfl rfl rfl (by simp [held, Phase.isCounted, hthread])
  · cases hstep

theorem Inline.advances {accepted : List Job} {d : Dpu} (h : Inline accepted d)
    {t : Thread} (hstep : d.Advances t d') : Inline accepted d' := by
  obtain ⟨job, phase, phase', hthread, rfl, hcounted, -, -⟩ := hstep
  obtain rfl := h.eq_message hthread
  exact h.of_eq rfl rfl rfl rfl (by simp [Dpu.advance, held, hcounted, hthread])

theorem Inv.dispatch (h : Inv cfg s) {alloc : Bool}
    (hstep : s.dpu.dispatch cfg alloc = some d') : Inv cfg { s with dpu := d' } := by
  obtain ⟨hinternal, hkeep⟩ := Dpu.dispatch_unclosed hstep
  exact h.internal hinternal (fun _ => hkeep) fun hdoorbell hqueues =>
    (h.inline hdoorbell hqueues).dispatch hqueues hstep

theorem Inv.ringQueuesInit (h : Inv cfg s) {fails : Option Thread}
    (hempty : cfg.doorbell → s.dpu.ring0 = [] ∧ (fails ≠ some .ring0 → s.dpu.ring1 = []))
    (hstep : s.dpu.ringQueuesInit fails = some d') : Inv cfg { s with dpu := d' } := by
  obtain ⟨hinternal, hkeep⟩ := Dpu.ringQueuesInit_unclosed hstep
  refine h.internal hinternal (fun hdoorbell => (hkeep (hempty hdoorbell)).2.2)
    fun hdoorbell hqueues => ?_
  obtain ⟨hring0, hring1, -⟩ := hkeep (hempty hdoorbell)
  unfold Dpu.ringQueuesInit at hstep
  split at hstep
  · obtain rfl := Option.some.inj hstep
    exact (h.inline hdoorbell hqueues).of_eq hring0 hring1 rfl rfl rfl
  · cases hstep

/-- A thread goes on with its command. -/
theorem Inv.advances (h : Inv cfg s) {t : Thread} (hstep : s.dpu.Advances t d') :
    Inv cfg { s with dpu := d' } := by
  obtain ⟨hinternal, hkeep⟩ := hstep.internal
  exact h.internal hinternal (fun _ => hkeep) fun hdoorbell hqueues =>
    (h.inline hdoorbell hqueues).advances hstep

/-- An older command would still be unfinished. -/
theorem Inline.in_order {h : Host} {d : Dpu} (hhost : HostInv h)
    (hinline : Inline h.accepted d) {t : Thread} {job : Job}
    {seq : ℕ} (ht : d.thread t = some (job, .counting seq)) :
    ∀ other ∈ d.unfinished, job.handle < other.handle := by
  obtain rfl := hinline.eq_message ht
  obtain ⟨pre, hpre⟩ := hinline.suffix
  have horder := (List.pairwise_append.mp hhost.order).1
  rw [← hpre, ht] at horder
  have hjob := List.pairwise_cons.mp
    ((List.pairwise_append.mp horder).2.1 : List.Pairwise _
      (job :: (d.pool ++ d.channel)))
  intro other hother
  refine hjob.1 other ?_
  simp only [Dpu.unfinished, hinline.ring0, hinline.ring1, hinline.thread0,
    hinline.thread1, ht, executing, List.append_nil, List.mem_append] at hother
  exact List.mem_append.mpr hother.symm

/-- A job is counted only when all older jobs are done. -/
theorem Inv.ring (h : Inv cfg s) (hdoorbell : cfg.doorbell) {t : Thread}
    {job : Job} {seq : ℕ} (ht : s.dpu.thread t = some (job, .counting seq))
    (horder : ∀ other ∈ s.dpu.unfinished, job.handle < other.handle) :
    ∀ pre post, s.host.accepted = pre ++ job :: post →
      ∀ j ∈ pre ++ [job], j ∈ s.dpu.written := by
  intro pre post hsplit j hj
  rcases List.mem_append.mp hj with hj | hj
  · by_contra hnot
    have hissued : j ∈ s.host.accepted := by
      rw [hsplit]
      exact List.mem_append_left _ hj
    have hunclosed := (h.counted hdoorbell).mem_unclosed hissued hnot
    have hlt : j.handle < job.handle := by
      have hpairwise := (List.pairwise_append.mp h.host.order).1
      rw [hsplit] at hpairwise
      exact (List.pairwise_append.mp hpairwise).2.2 j hj job List.mem_cons_self
    rcases Dpu.mem_unclosed hunclosed with hunfinished | ⟨t', phase, ht', hphase⟩
    · exact absurd (horder j hunfinished) (Nat.not_lt_of_lt hlt)
    · exact hnot (h.done t' j phase ht' hphase)
  · rw [List.mem_singleton.mp hj]
    exact h.done t job _ ht rfl

/-- A thread is done with a command that it holds. -/
theorem signalled_unclosed {d : Dpu} {t : Thread} {job : Job} {phase : Phase}
    {x : Option (Job × Phase)} (ht : d.thread t = some (job, phase))
    (hphase : phase.isCounted = false) (hx : held x = []) :
    d.unclosed =
      job ::ₘ Dpu.unclosed { d with thread := Function.update d.thread t x } := by
  have hupdate := Dpu.update_unclosed (d := d) t x
  rw [ht, hx, held, hphase] at hupdate
  simpa [← Multiset.singleton_add, add_comm] using hupdate.symm

/-- Without a doorbell a thread may leave a command that it has finished. -/
theorem Inv.release (h : Inv cfg s) (hoff : cfg.doorbell = false) {t : Thread}
    {job : Job} (ht : s.dpu.thread t = some (job, .finished)) :
    Inv cfg { s with
      dpu := { s.dpu with thread := Function.update s.dpu.thread t none } } := by
  have hunclosed := signalled_unclosed (x := none) ht rfl rfl
  have hinternal : s.dpu.Internal { s.dpu with
      thread := Function.update s.dpu.thread t none } := by
    refine .of_update (t := t) (x := none) ?_ rfl rfl (fun _ hj => hj) rfl nofun nofun
    rw [hunclosed]
    exact Multiset.le_cons_self _ _
  exact h.internal hinternal (fun hon => by simp [hoff] at hon)
    fun hon => by simp [hoff] at hon

theorem Inv.count (h : Inv cfg s) {t : Thread} {d : Dpu}
    (horder : cfg.useRingQueues → ∀ x ∈ s.dpu.thread t,
      ∀ other ∈ s.dpu.unfinished, x.1.handle < other.handle)
    (hstep : s.dpu.count t = some d) : Inv cfg { s with dpu := d } := by
  unfold Dpu.count at hstep
  split at hstep
  next job seq ht =>
    obtain rfl := Option.some.inj hstep
    have hunclosed := signalled_unclosed (x := some (job, .counted)) ht rfl rfl
    have hle : Dpu.unclosed { s.dpu with
        thread := Function.update s.dpu.thread t (some (job, .counted)) } ≤
        s.dpu.unclosed := by
      rw [hunclosed]
      exact Multiset.le_cons_self _ _
    have hseq : seq ≤ s.dpu.closed := h.value t job _ seq ht rfl
    refine
      { host := h.host
        unclosed := fun j hj => h.unclosed j (Multiset.mem_of_le hle hj)
        done := fun t' j phase ht' hphase => ?_
        value := fun t' j phase v ht' hv => ?_
        doorbellSeq := Nat.succ_le_succ hseq
        doorbell := Nat.le_succ_of_le h.doorbell
        completed := h.completed
        counted := fun hdoorbell => ?_
        inline := fun hdoorbell hqueues => ?_
        notified := fun hoff => ?_ }
    · by_cases heq : t' = t
      · dsimp only [Dpu.advance] at ht'
        rw [heq, Function.update_self] at ht'
        obtain ⟨rfl, -⟩ := Prod.mk.inj (Option.some.inj ht')
        exact h.done t job _ ht rfl
      · dsimp only [Dpu.advance] at ht'
        rw [Function.update_of_ne heq] at ht'
        exact h.done t' j phase ht' hphase
    · by_cases heq : t' = t
      · dsimp only [Dpu.advance] at ht'
        rw [heq, Function.update_self] at ht'
        obtain ⟨-, rfl⟩ := Prod.mk.inj (Option.some.inj ht')
        cases hv
      · dsimp only [Dpu.advance] at ht'
        rw [Function.update_of_ne heq] at ht'
        exact Nat.le_succ_of_le (h.value t' j phase v ht' hv)
    · have hbefore : ∀ other ∈ s.dpu.unfinished, job.handle < other.handle := by
        cases hqueues : cfg.useRingQueues with
        | true => exact horder hqueues _ ht
        | false => exact (h.inline hdoorbell hqueues).in_order h.host ht
      exact (h.counted hdoorbell).close hunclosed (h.ring hdoorbell ht hbefore)
    · have hinline := h.inline hdoorbell hqueues
      obtain rfl := hinline.eq_message ht
      refine ⟨hinline.ring0, hinline.ring1, hinline.thread0, hinline.thread1, ?_⟩
      have hsuffix := hinline.suffix
      rw [ht] at hsuffix
      dsimp only [Dpu.advance]
      rw [Function.update_self]
      exact (List.suffix_cons job _).trans hsuffix
    · have hnotified := h.notified hoff
      refine ⟨hnotified.nodup, hnotified.entry, fun j hj hraised => ?_, fun j hj => ?_,
        Multiset.nodup_of_le hle hnotified.unclosed_nodup⟩
      · obtain ⟨hwritten, hnot⟩ := hnotified.raised j hj hraised
        exact ⟨hwritten, fun hmem => hnot (Multiset.mem_of_le hle hmem)⟩
      · exact hnotified.unclosed j (Multiset.mem_of_le hle hj)
  · cases hstep

theorem Inv.notify (h : Inv cfg s) {t : Thread} (hstep : s.notify cfg t = some s') :
    Inv cfg s' := by
  unfold State.notify at hstep
  split at hstep
  next job ht =>
    split at hstep
    · cases hstep
    next hdoorbell =>
      obtain rfl := Option.some.inj hstep
      have hoff : cfg.doorbell = false := Bool.eq_false_iff.mpr hdoorbell
      have hreleased := h.release hoff ht
      refine { hreleased with notified := fun _ => ?_ }
      have hnotified := h.notified hoff
      have hjob : job ∈ s.host.handedOver := by
        refine hnotified.unclosed job ?_
        rw [signalled_unclosed (x := none) ht rfl rfl]
        exact Multiset.mem_cons_self _ _
      refine { hreleased.notified hoff with entry := ?_, raised := ?_ }
      · intro j hj
        dsimp only
        by_cases hid : j.id = job.id
        · rw [hid, Function.update_self]
          nofun
        · rw [Function.update_of_ne hid]
          exact hnotified.entry j hj
      · intro j hj hflag
        dsimp only at hflag ⊢
        by_cases hid : j.id = job.id
        · obtain rfl := hnotified.eq_of_id (List.mem_append_right _ hj)
            (List.mem_append_right _ hjob) hid
          refine ⟨h.done t j _ ht rfl, ?_⟩
          have hnodup := hnotified.unclosed_nodup
          rw [signalled_unclosed (x := none) ht rfl rfl] at hnodup
          exact (Multiset.nodup_cons.mp hnodup).1
        · rw [Function.update_of_ne hid] at hflag
          exact (hreleased.notified hoff).raised j hj hflag
  · cases hstep

theorem Inv.land (h : Inv cfg s) {t : Thread} {ok : Bool}
    (hstep : s.land t ok = some s') : Inv cfg s' := by
  unfold State.land at hstep
  split at hstep
  next job value ht =>
    obtain rfl := Option.some.inj hstep
    have hunclosed : Dpu.unclosed { s.dpu with
        thread := Function.update s.dpu.thread t none } = s.dpu.unclosed := by
      have hupdate := Dpu.update_unclosed (d := s.dpu) t none
      rw [ht] at hupdate
      exact add_right_cancel hupdate
    have hinternal : s.dpu.Internal { s.dpu with
        thread := Function.update s.dpu.thread t none } :=
      .of_update (t := t) (x := none) (le_of_eq hunclosed) rfl rfl (fun _ hj => hj)
        rfl nofun nofun
    have hidle := h.internal hinternal (fun _ => hunclosed)
      fun hdoorbell hqueues => by
        have hinline := h.inline hdoorbell hqueues
        obtain rfl := hinline.eq_message ht
        exact hinline.of_eq rfl rfl rfl rfl (by simp [held, Phase.isCounted, ht])
    refine { hidle with doorbell := ?_ }
    dsimp only
    split
    · exact h.value t job _ value ht rfl
    · exact h.doorbell
  · cases hstep

theorem Inv.notifyLost (h : Inv cfg s) {t : Thread}
    (hstep : s.notifyLost cfg t = some s') : Inv cfg s' := by
  unfold State.notifyLost at hstep
  split at hstep
  next job ht =>
    split at hstep
    · cases hstep
    next hdoorbell =>
      obtain rfl := Option.some.inj hstep
      exact h.release (Bool.eq_false_iff.mpr hdoorbell) ht
  · cases hstep

/-! ## Runs -/

theorem step_inv {a : Action} (hfaultless : Faultless cfg s a)
    (hstep : step cfg s a = some s') (h : Inv cfg s) : Inv cfg s' := by
  cases a with
  | enqueue id op =>
      obtain rfl := Option.some.inj hstep
      exact h.enqueue hfaultless
  | submitFail entry => exact h.submitFail hstep
  | send lost => exact h.send hfaultless hstep
  | assign =>
      obtain ⟨host, hassign, rfl⟩ := Option.map_eq_some_iff.mp hstep
      exact h.assign hassign
  | complete => exact h.complete hstep
  | receive dropped =>
      obtain ⟨d', hreceive, rfl⟩ := Option.map_eq_some_iff.mp hstep
      obtain ⟨hinternal, hkeep⟩ := Dpu.receive_unclosed hreceive
      refine h.internal hinternal (fun hdoorbell => hkeep (hfaultless hdoorbell))
        fun hdoorbell hqueues => ?_
      rw [hfaultless hdoorbell] at hreceive
      exact (h.inline hdoorbell hqueues).receive hreceive
  | dispatch alloc =>
      obtain ⟨d', hdispatch, rfl⟩ := Option.map_eq_some_iff.mp hstep
      exact h.dispatch hdispatch
  | misread read alloc =>
      obtain ⟨d', hmisread, rfl⟩ := Option.map_eq_some_iff.mp hstep
      rw [Dpu.misread_eq hfaultless] at hmisread
      exact h.dispatch hmisread
  | ringQueuesInit fails =>
      obtain ⟨d', hinit, rfl⟩ := Option.map_eq_some_iff.mp hstep
      exact h.ringQueuesInit hfaultless hinit
  | take t =>
      obtain ⟨d', htake, rfl⟩ := Option.map_eq_some_iff.mp hstep
      obtain ⟨hinternal, hkeep⟩ := Dpu.take_unclosed htake
      exact h.internal hinternal (fun _ => hkeep) fun hdoorbell hqueues =>
        (h.inline hdoorbell hqueues).take htake
  | abort t =>
      obtain ⟨d', habort, rfl⟩ := Option.map_eq_some_iff.mp hstep
      have hoff : ¬ cfg.doorbell := Bool.eq_false_iff.mp hfaultless
      exact h.internal (Dpu.abort_internal habort)
        (fun hdoorbell => absurd hdoorbell hoff)
        fun hdoorbell _ => absurd hdoorbell hoff
  | finish t written =>
      obtain ⟨d', hfinish, rfl⟩ := Option.map_eq_some_iff.mp hstep
      obtain ⟨hwritten, himplemented⟩ := hfaultless
      obtain ⟨job, ht⟩ := Dpu.finish_thread hfinish
      rw [hwritten] at hfinish
      obtain ⟨hinternal, hkeep⟩ := Dpu.finish_unclosed ht
        (himplemented _ ht) hfinish
      exact h.internal hinternal (fun _ => hkeep) fun hdoorbell hqueues =>
        (h.inline hdoorbell hqueues).finish hfinish
  | enter t =>
      obtain ⟨d', henter, rfl⟩ := Option.map_eq_some_iff.mp hstep
      exact h.advances (Dpu.enter_advances henter)
  | load t =>
      obtain ⟨d', hload, rfl⟩ := Option.map_eq_some_iff.mp hstep
      exact h.advances (Dpu.load_advances hload)
  | count t =>
      obtain ⟨d', hcount, rfl⟩ := Option.map_eq_some_iff.mp hstep
      exact h.count hfaultless hcount
  | stage t =>
      obtain ⟨d', hstage, rfl⟩ := Option.map_eq_some_iff.mp hstep
      exact h.advances (Dpu.stage_advances hstage)
  | overwrite t value =>
      obtain ⟨d', hoverwrite, rfl⟩ := Option.map_eq_some_iff.mp hstep
      exact h.advances (Dpu.overwrite_advances hfaultless hoverwrite)
  | post t =>
      obtain ⟨d', hpost, rfl⟩ := Option.map_eq_some_iff.mp hstep
      exact h.advances (Dpu.post_advances hpost)
  | land t ok => exact h.land hstep
  | notify t => exact h.notify hstep
  | notifyLost t => exact h.notifyLost hstep

/-- A job is reported as successful only after its own collective. -/
theorem completion_sound_of_faultless (cfg : Config) {acts : List Action}
    (hfaultless : AllSteps (step cfg) (Faultless cfg) State.init acts)
    (hrun : run (step cfg) State.init acts = some s) {job : Job}
    (hcompleted : (job, .success) ∈ s.completed) : job ∈ s.dpu.written := by
  have hinv : Inv cfg s := hfaultless.invariant
    (fun _ _ _ hstep_faultless hstep hs => step_inv hstep_faultless hstep hs)
    hrun (Inv.init cfg)
  exact hinv.completed job hcompleted

/-- Two AllGathers on the two rings, whose doorbells are staged at one place. -/
def ringConfig : Config := ⟨true, true, true⟩

def ringActions : List Action :=
  [.enqueue 1 .allGather, .enqueue 2 .allGather, .send false, .assign,
    .send false, .assign, .receive false, .receive false, .dispatch true,
    .dispatch true, .take .ring0, .take .ring1, .enter .ring0, .enter .ring1,
    .finish .ring1 true, .finish .ring0 true, .load .ring1, .count .ring1,
    .stage .ring1, .load .ring0, .count .ring0, .stage .ring0, .overwrite .ring1 2,
    .post .ring1, .land .ring1 true, .complete]

theorem completion_sound_of_faultless_rings :
    ∃ s, run (step ringConfig) State.init ringActions = some s ∧
      (⟨0, 1, .allGather⟩ : Job) ∈ s.dpu.written := by
  have hrun : (run (step ringConfig) State.init ringActions).map
      (fun s => s.completed) = some [(⟨0, 1, .allGather⟩, .success)] := by
    decide
  obtain ⟨s, hs, hcompleted⟩ := Option.map_eq_some_iff.mp hrun
  refine ⟨s, hs, ?_⟩
  exact completion_sound_of_faultless ringConfig (by decide) hs
    (hcompleted ▸ List.mem_singleton_self _)

/-- The DPU drops the first command, and the doorbell of the second one
completes the first job. -/
def dropActions : List Action :=
  [.enqueue 1 .allGather, .enqueue 2 .allGather, .send false, .assign,
    .send false, .assign, .receive true, .receive false, .dispatch true,
    .enter .message, .finish .message true, .load .message, .count .message,
    .stage .message, .post .message, .land .message true, .complete]

theorem dropped_job_completes :
    ∃ s, run (step ⟨true, false, false⟩) State.init dropActions = some s ∧
      ((⟨0, 1, .allGather⟩ : Job), .success) ∈ s.completed ∧
      (⟨0, 1, .allGather⟩ : Job) ∉ s.dpu.written := by
  have hrun : (run (step ⟨true, false, false⟩) State.init dropActions).map
      (fun s => (s.completed, s.dpu.written)) =
        some ([(⟨0, 1, .allGather⟩, .success)], [⟨1, 2, .allGather⟩]) := by
    decide
  obtain ⟨s, hs, heq⟩ := Option.map_eq_some_iff.mp hrun
  obtain ⟨hcompleted, hwritten⟩ := Prod.mk.inj heq
  refine ⟨s, hs, ?_, ?_⟩
  · rw [hcompleted]
    exact List.mem_singleton_self _
  · rw [hwritten]
    decide

end SmartNic.Completion
