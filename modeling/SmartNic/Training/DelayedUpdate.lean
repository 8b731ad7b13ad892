import SmartNic.Training.Accumulation

/-!
# Delayed parameter updates

With one micro-step per update the gradients of an iteration are applied during
the next one, from the buffer that its backward pass does not write.
-/

namespace SmartNic.Training

open SmartNic.Machine

variable {V O H : Type}

/-- The weights of each iteration: the first update has no gradient yet. -/
def delayed (adam : O → V → O) (w : O) (g : ℕ → V) : ℕ → O
  | 0 => w
  | 1 => w
  | t + 2 => adam (delayed adam w g (t + 1)) (g t)

section Schedule

variable [AddZeroClass V] (cfg : Config V O H) (b : Backward V) (s : State V O H)

/-- The full gradient of an iteration. -/
def Backward.full (t : ℕ) (p : DsId) : V := cfg.reduced p fun r => b.grad t r p

/-- The weights that an iteration computes with. -/
def Backward.weights (t : ℕ) (p : DsId) : O :=
  delayed cfg.adam (cfg.weights p) (fun t => b.full cfg t p) t

/-- A parameter of the model with a shard on this rank. -/
def Config.Sharded (p : DsId) : Prop :=
  p ∈ cfg.allParams ∧ cfg.emptyOn cfg.rank p = false

/-- A gradient buffer that the worker reads or is about to read. -/
def State.Reads (i : Bool) : Prop :=
  i ∈ s.commands ∨ ∃ k, s.worker = some (i, k)

/-- The worker does not read what `__partition_grads` writes, and the weights are
those of the iteration. -/
structure State.Scheduled : Prop where
  apart : ∀ i, s.Reads i → i ≠ s.gradBufSwitch
  fp16 : ∀ p, cfg.Sharded p → s.fp16 p = cfg.half (b.weights cfg s.globalIter p)
  fp32 : s.phase = .start → ∀ p, cfg.Sharded p →
    s.fp32 p = b.weights cfg s.globalIter p

def Action.isEpilogue : Action V → Bool
  | .epilogue _ => true
  | _ => false

/-- Besides what keeps the sums right: an iteration has a gradient for every
parameter, unless it is zero and so is the buffer. -/
def Complete (s : State V O H) (a : Action V) : Prop :=
  Lossless cfg s a ∧ (a.isEpilogue → ∀ p ∈ cfg.allParams,
    cfg.emptyOn cfg.rank p = false → p ∈ s.reached ∨
      b.full cfg s.globalIter p = 0 ∧ s.fp32GradBufs s.gradBufSwitch p = 0)

/-! ## The invariant -/

/-- What the worker has been told and has done. -/
inductive State.AdamAt : Prop where
  /-- Nothing, before the first step or between two steps. -/
  | idle (hcommands : s.commands = []) (hworker : s.worker = none)
      (hanswers : s.answers = 0)
      (hstart : s.phase = .start ∨ s.globalIter = 0)
      (hfp32 : ∀ p, cfg.Sharded p → s.fp32 p = b.weights cfg s.globalIter p)
  | sent (hcommands : s.commands = [!s.gradBufSwitch]) (hworker : s.worker = none)
      (hanswers : s.answers = 0) (hphase : s.phase ≠ .start)
      (hiter : s.globalIter ≠ 0)
      (hfp32 : ∀ p, cfg.Sharded p → s.fp32 p = b.weights cfg s.globalIter p)
  | running (i : ℕ) (hcommands : s.commands = [])
      (hworker : s.worker = some (!s.gradBufSwitch, i))
      (hanswers : s.answers = 0) (hphase : s.phase ≠ .start)
      (hiter : s.globalIter ≠ 0)
      (hfp32 : ∀ p, cfg.Sharded p → s.fp32 p =
        b.weights cfg (if cfg.subGroup p < i then s.globalIter + 1
          else s.globalIter) p)
  | done (hcommands : s.commands = []) (hworker : s.worker = none)
      (hanswers : s.answers = 1) (hphase : s.phase ≠ .start)
      (hiter : s.globalIter ≠ 0)
      (hfp32 : ∀ p, cfg.Sharded p →
        s.fp32 p = b.weights cfg (s.globalIter + 1) p)

/-- Switch, pending flag, buffers and iteration. -/
structure State.DelayInv : Prop where
  sums : s.Inv cfg b
  dpuSteps : s.dpuSteps = if s.phase = .start then s.globalIter
    else s.globalIter + 1
  flag : s.phase ≠ .start → s.boundaryFlag = true
  pending : s.phase ≠ .start → s.adamStepPending = decide (s.globalIter ≠ 0)
  due : s.phase ≠ .start → s.since = s.reached ∧
    ∀ p, s.due p = if p ∈ s.reached then b.full cfg s.globalIter p else 0
  complete : s.phase = .partition ∨ s.phase = .update → ∀ p, cfg.Sharded p →
    p ∈ s.reached ∨
      b.full cfg s.globalIter p = 0 ∧ s.fp32GradBufs s.gradBufSwitch p = 0
  last : s.globalIter ≠ 0 → ∀ p, cfg.Sharded p →
    s.fp32GradBufs (!s.gradBufSwitch) p = b.full cfg (s.globalIter - 1) p
  adam : s.AdamAt cfg b
  fp16 : ∀ p, cfg.Sharded p → s.fp16 p = cfg.half (b.weights cfg s.globalIter p)

variable {cfg b s}

theorem State.DelayInv.init : (State.init cfg).DelayInv cfg b where
  sums := .init
  dpuSteps := rfl
  flag h := absurd rfl h
  pending h := absurd rfl h
  due h := absurd rfl h
  complete h := by rcases h with h | h <;> cases h
  last h := absurd rfl h
  adam := .idle rfl rfl rfl (.inl rfl) fun _ _ => rfl
  fp16 _ _ := rfl

theorem State.DelayInv.scheduled (h : s.DelayInv cfg b) : s.Scheduled cfg b := by
  constructor
  · rintro i (hcommand | ⟨k, hworker⟩)
    · cases h.adam with
      | sent hcommands =>
          rw [hcommands] at hcommand
          rw [List.mem_singleton.mp hcommand]
          exact Bool.not_ne_self _
      | idle hcommands => rw [hcommands] at hcommand; cases hcommand
      | running i hcommands => rw [hcommands] at hcommand; cases hcommand
      | done hcommands => rw [hcommands] at hcommand; cases hcommand
    · cases h.adam with
      | running k' _ hworker' =>
          rw [hworker'] at hworker
          obtain ⟨rfl, -⟩ := Prod.mk.inj (Option.some.inj hworker)
          exact Bool.not_ne_self _
      | idle _ hnone => rw [hnone] at hworker; cases hworker
      | sent _ hnone => rw [hnone] at hworker; cases hworker
      | done _ hnone => rw [hnone] at hworker; cases hworker
  · exact h.fp16
  · intro hphase
    cases h.adam with
    | idle _ _ _ _ hfp32 => exact hfp32
    | sent _ _ _ hne => exact absurd hphase hne
    | running _ _ _ _ hne => exact absurd hphase hne
    | done _ _ _ hne => exact absurd hphase hne

/-! ## The actions -/

variable {s' : State V O H}

/-- The backward pass and what follows it leave the worker alone, and write one
of the buffers only. -/
theorem State.DelayInv.backward (h : s.DelayInv cfg b) (hsums : s'.Inv cfg b)
    (hstart : s.phase ≠ .start) (hstart' : s'.phase ≠ .start)
    (hsame : s' =
      { s with
        phase := s'.phase
        microStepId := s'.microStepId
        paramsInIpgBucket := s'.paramsInIpgBucket
        pendingRs := s'.pendingRs
        gradPartitions := s'.gradPartitions
        fp32GradBufs := s'.fp32GradBufs
        kept := s'.kept
        reached := s'.reached
        since := s'.since
        due := s'.due })
    (hbufs : ∀ p, s'.fp32GradBufs (!s.gradBufSwitch) p =
      s.fp32GradBufs (!s.gradBufSwitch) p)
    (hdue : s'.since = s'.reached ∧ ∀ p, s'.due p =
      if p ∈ s'.reached then b.full cfg s.globalIter p else 0)
    (hcomplete : s'.phase = .partition ∨ s'.phase = .update →
      ∀ p, cfg.Sharded p → p ∈ s'.reached ∨
        b.full cfg s.globalIter p = 0 ∧ s'.fp32GradBufs s.gradBufSwitch p = 0) :
    s'.DelayInv cfg b := by
  have hiter : s'.globalIter = s.globalIter := by rw [hsame]
  have hswitch : s'.gradBufSwitch = s.gradBufSwitch := by rw [hsame]
  have hcommands : s'.commands = s.commands := by rw [hsame]
  have hworker : s'.worker = s.worker := by rw [hsame]
  have hanswers : s'.answers = s.answers := by rw [hsame]
  have hfp32 : s'.fp32 = s.fp32 := by rw [hsame]
  have hfp16 : s'.fp16 = s.fp16 := by rw [hsame]
  constructor
  · exact hsums
  · have hsteps : s'.dpuSteps = s.dpuSteps := by rw [hsame]
    have hold := h.dpuSteps
    rw [if_neg hstart] at hold
    rw [if_neg hstart', hsteps, hiter]
    exact hold
  · have hflag : s'.boundaryFlag = s.boundaryFlag := by rw [hsame]
    rw [hflag]
    exact fun _ => h.flag hstart
  · have hpending : s'.adamStepPending = s.adamStepPending := by rw [hsame]
    rw [hpending, hiter]
    exact fun _ => h.pending hstart
  · rw [hiter]
    exact fun _ => hdue
  · rw [hiter, hswitch]
    exact hcomplete
  · rw [hiter, hswitch]
    intro hne p hp
    rw [hbufs]
    exact h.last hne p hp
  · cases h.adam with
    | idle hc hw ha hzero hf =>
        refine .idle (hcommands.trans hc) (hworker.trans hw) (hanswers.trans ha)
          (.inr (hiter.trans (hzero.resolve_left hstart))) ?_
        rw [hfp32, hiter]
        exact hf
    | sent hc hw ha _ hne hf =>
        refine .sent ?_ (hworker.trans hw) (hanswers.trans ha) hstart' ?_ ?_
        · rw [hcommands, hswitch]
          exact hc
        · rw [hiter]
          exact hne
        · rw [hfp32, hiter]
          exact hf
    | running i hc hw ha _ hne hf =>
        refine .running i (hcommands.trans hc) ?_ (hanswers.trans ha) hstart' ?_ ?_
        · rw [hworker, hswitch]
          exact hw
        · rw [hiter]
          exact hne
        · rw [hfp32, hiter]
          exact hf
    | done hc hw ha _ hne hf =>
        refine .done (hcommands.trans hc) (hworker.trans hw) (hanswers.trans ha)
          hstart' ?_ ?_
        · rw [hiter]
          exact hne
        · rw [hfp32, hiter]
          exact hf
  · rw [hfp16, hiter]
    exact h.fp16

theorem State.DelayInv.stepDpu (h : s.DelayInv cfg b)
    (hgas : cfg.gradientAccumulationSteps = 1)
    (hstep : s.step cfg b .stepDpu = some s') : s'.DelayInv cfg b := by
  have hsums := h.sums.stepDpu hstep
  have hboundary : s.boundary cfg = true := by
    unfold State.boundary
    rw [hgas, Nat.mod_one]
    rfl
  unfold State.step at hstep
  dsimp only at hstep
  rw [State.stepDpu_eq, if_pos hboundary] at hstep
  split at hstep
  next hphase =>
    obtain rfl := Option.some.inj hstep
    have hsteps : s.dpuSteps = s.globalIter := by
      have hold := h.dpuSteps
      rwa [if_pos hphase] at hold
    constructor
    · exact hsums
    · exact congrArg (· + 1) hsteps
    · exact fun _ => rfl
    · dsimp only
      rw [hsteps]
      exact fun _ => rfl
    · refine fun _ => ⟨rfl, fun p => ?_⟩
      exact (if_neg (Finset.notMem_empty p)).symm
    · rintro (h | h) <;> cases h
    · exact h.last
    · cases h.adam with
      | idle hc hw ha _ hf =>
          by_cases hfirst : s.globalIter = 0
          · refine .idle ?_ hw ha (.inr hfirst) hf
            exact (if_pos (hsteps.trans hfirst)).trans hc
          · refine .sent ?_ hw ha nofun hfirst hf
            refine (if_neg fun hzero => hfirst (hsteps.symm.trans hzero)).trans ?_
            rw [hc]
            rfl
      | sent _ _ _ hne => exact absurd hphase hne
      | running _ _ _ _ hne => exact absurd hphase hne
      | done _ _ _ hne => exact absurd hphase hne
    · exact h.fp16
  · cases hstep

theorem State.DelayInv.hook (h : s.DelayInv cfg b) {p : DsId} {w : Wait V}
    (hcomplete : Complete cfg b s (.hook p w))
    (hstep : s.step cfg b (.hook p w) = some s') : s'.DelayInv cfg b := by
  have hsums := h.sums.hook hcomplete.1 hstep
  unfold State.step at hstep
  dsimp only at hstep
  split at hstep
  next hguard =>
    obtain rfl := Option.some.inj hstep
    obtain ⟨hphase, -, hp⟩ := hguard
    have hstart : s.phase ≠ .start := by
      rw [hphase]
      decide
    have hframe : s.Frame (if s.full cfg p then s.reduceAndPartition cfg b w
        else s) := by
      cases hfull : s.full cfg p with
      | true =>
          exact (h.sums.reduceAndPartition (fun _ => hcomplete.1.2 hfull)
            hstart).2.1
      | false => exact .refl s
    obtain ⟨hsince, hdue⟩ := h.due hstart
    unfold State.reduceIndependent at hsums ⊢
    dsimp only at hsums ⊢
    generalize (if s.full cfg p then s.reduceAndPartition cfg b w else s) = s₁
      at hframe hsums ⊢
    have hstart₁ : s₁.phase ≠ .start := by
      rw [hframe.phase]
      exact hstart
    refine h.backward hsums hstart hstart₁ ?_ ?_ ?_ ?_
    · exact congrArg (fun s₂ : State V O H =>
        { s₂ with
          phase := s₁.phase
          microStepId := s₁.microStepId
          paramsInIpgBucket := s₁.paramsInIpgBucket ++ [p]
          reached := insert p s.reached
          since := insert p s.since
          due := Function.update s.due p
            (s.due p + cfg.reduced p fun r => b.grad s.globalIter r p) }) hframe.eq
    · intro q
      refine hframe.bufs _ q (.inr ?_)
      exact Bool.not_ne_self _
    · refine ⟨congrArg (insert p) hsince, fun q => ?_⟩
      dsimp only
      by_cases hq : q = p
      · subst hq
        rw [Function.update_self, hdue, if_neg hp, zero_add,
          if_pos (Finset.mem_insert_self _ _)]
        rfl
      · rw [Function.update_of_ne hq, hdue]
        refine if_congr ?_ rfl rfl
        rw [Finset.mem_insert]
        exact (or_iff_right hq).symm
    · intro hlate
      change s₁.phase = .partition ∨ s₁.phase = .update at hlate
      rw [hframe.phase, hphase] at hlate
      rcases hlate with h | h <;> cases h
  · cases hstep

theorem State.DelayInv.epilogue (h : s.DelayInv cfg b) {w : Wait V}
    (hcomplete : Complete cfg b s (.epilogue w))
    (hstep : s.step cfg b (.epilogue w) = some s') : s'.DelayInv cfg b := by
  have hsums := h.sums.epilogue hcomplete.1 hstep
  unfold State.step at hstep
  dsimp only at hstep
  split at hstep
  next hphase =>
    obtain rfl := Option.some.inj hstep
    have hstart : s.phase ≠ .start := by
      rw [hphase]
      decide
    have hframe :=
      (h.sums.reduceAndPartition hcomplete.1.1 hstart).2.1
    obtain ⟨hsince, hdue⟩ := h.due hstart
    refine h.backward hsums hstart nofun ?_ ?_ ?_ ?_
    · exact congrArg (fun s₂ : State V O H =>
        { s₂ with
          phase := .partition
          microStepId := (s.reduceAndPartition cfg b w).microStepId + 1
          reached := (s.reduceAndPartition cfg b w).reached
          since := (s.reduceAndPartition cfg b w).since
          due := (s.reduceAndPartition cfg b w).due }) hframe.eq
    · intro q
      refine hframe.bufs _ q (.inr ?_)
      exact Bool.not_ne_self _
    · dsimp only
      rw [hframe.since, hframe.reached, hframe.due]
      exact ⟨hsince, hdue⟩
    · intro _ p hp
      dsimp only
      rw [hframe.reached]
      rcases hcomplete.2 rfl p hp.1 hp.2 with hreached | ⟨hzero, hbuf⟩
      · exact .inl hreached
      · by_cases hreached : p ∈ s.reached
        · exact .inl hreached
        · refine .inr ⟨hzero, ?_⟩
          rw [hframe.bufs _ p (.inl fun hin => hreached (h.sums.reached p hin))]
          exact hbuf
  · cases hstep

theorem State.DelayInv.partitionAll (h : s.DelayInv cfg b) {w : Wait V}
    (hcomplete : Complete cfg b s (.partitionAll w))
    (hstep : s.step cfg b (.partitionAll w) = some s') : s'.DelayInv cfg b := by
  have hsums := h.sums.partitionAll hcomplete.1 hstep
  unfold State.step at hstep
  dsimp only at hstep
  split at hstep
  next hphase =>
    obtain rfl := Option.some.inj hstep
    have hstart : s.phase ≠ .start := by
      rw [hphase]
      decide
    have hframe := h.sums.flush_frame w
    obtain ⟨hsince, hdue⟩ := h.due hstart
    refine h.backward hsums hstart nofun ?_ ?_ ?_ ?_
    · exact congrArg (fun s₂ : State V O H =>
        { s₂ with
          phase := .update
          microStepId := (s.flushPendingRs cfg w).microStepId
          reached := (s.flushPendingRs cfg w).reached
          since := (s.flushPendingRs cfg w).since
          due := (s.flushPendingRs cfg w).due }) hframe.eq
    · intro q
      refine hframe.bufs _ q (.inr ?_)
      exact Bool.not_ne_self _
    · dsimp only
      rw [hframe.since, hframe.reached, hframe.due]
      exact ⟨hsince, hdue⟩
    · intro _ p hp
      dsimp only
      rw [hframe.reached]
      rcases h.complete (.inl hphase) p hp with hreached | ⟨hzero, hbuf⟩
      · exact .inl hreached
      · by_cases hreached : p ∈ s.reached
        · exact .inl hreached
        · refine .inr ⟨hzero, ?_⟩
          rw [hframe.bufs _ p (.inl fun hin => hreached (h.sums.reached p hin))]
          exact hbuf
  · cases hstep

/-- The weights that `update_new_params` finds are those of the next iteration. -/
theorem State.DelayInv.updated (h : s.DelayInv cfg b)
    (hphase : s.phase = .update) {n : ℕ}
    (hanswers : s.answers = if s.adamStepPending then n + 1 else n) :
    (s.commands = [] ∧ s.worker = none ∧ n = 0) ∧ ∀ p, cfg.Sharded p →
      s.fp32 p = b.weights cfg (s.globalIter + 1) p := by
  have hstart : s.phase ≠ .start := by
    rw [hphase]
    decide
  rw [h.pending hstart] at hanswers
  cases h.adam with
  | idle hc hw ha hzero hf =>
      have hfirst := hzero.resolve_left hstart
      simp only [hfirst, ne_eq, not_true_eq_false, decide_false,
        Bool.false_eq_true, if_false] at hanswers
      refine ⟨⟨hc, hw, hanswers.symm.trans ha⟩, fun p hp => ?_⟩
      rw [hf p hp, hfirst]
      rfl
  | sent _ _ ha _ hne => simp [hne, ha] at hanswers
  | running _ _ _ ha _ hne => simp [hne, ha] at hanswers
  | done hc hw ha _ hne hf =>
      simp only [hne, ne_eq, not_false_eq_true, decide_true, if_true, ha]
        at hanswers
      exact ⟨⟨hc, hw, (Nat.succ.inj hanswers).symm⟩, hf⟩

theorem State.DelayInv.update (h : s.DelayInv cfg b)
    (hgas : cfg.gradientAccumulationSteps = 1)
    (hstep : s.step cfg b .update = some s') : s'.DelayInv cfg b := by
  have hsums := h.sums.update hstep
  obtain ⟨hphase, hcases⟩ := State.update_cases hstep
  have hstart : s.phase ≠ .start := by
    rw [hphase]
    decide
  rcases hcases with ⟨hflag, -⟩ | ⟨-, n, hanswers, rfl⟩
  · exact absurd ((h.flag hstart).symm.trans hflag) (by decide)
  · obtain ⟨⟨hcommands, hworker, hn⟩, hfp32⟩ := h.updated hphase hanswers
    constructor
    · exact hsums
    · have hold := h.dpuSteps
      rw [if_neg hstart] at hold
      exact hold
    · exact fun hne => absurd rfl hne
    · exact fun hne => absurd rfl hne
    · exact fun hne => absurd rfl hne
    · rintro (h | h) <;> cases h
    · intro _ p hp
      have hboundary : s.boundary cfg = true := by
        unfold State.boundary
        rw [hgas, Nat.mod_one]
        rfl
      obtain ⟨hsince, hdue⟩ := h.due hstart
      dsimp only
      rw [Bool.not_not, Nat.add_sub_cancel]
      rcases h.complete (.inr hphase) p hp with hreached | ⟨hzero, hbuf⟩
      · have hin : p ∈ s.since := by rwa [hsince]
        rw [h.sums.exact cfg hphase hboundary p hin hp.2, hdue, if_pos hreached]
      · exact hbuf.trans hzero.symm
    · exact .idle hcommands hworker hn (.inl rfl) hfp32
    · exact fun p hp => congrArg cfg.half (hfp32 p hp)

/-- The worker goes on. -/
theorem State.DelayInv.worker (h : s.DelayInv cfg b) (hsums : s'.Inv cfg b)
    (hsame : s' =
      { s with
        commands := s'.commands
        worker := s'.worker
        answers := s'.answers
        fp32 := s'.fp32 })
    (hadam : s'.AdamAt cfg b) : s'.DelayInv cfg b := by
  have hphase : s'.phase = s.phase := by rw [hsame]
  have hiter : s'.globalIter = s.globalIter := by rw [hsame]
  have hbufs : s'.fp32GradBufs = s.fp32GradBufs := by rw [hsame]
  have hswitch : s'.gradBufSwitch = s.gradBufSwitch := by rw [hsame]
  have hsteps : s'.dpuSteps = s.dpuSteps := by rw [hsame]
  have hflag : s'.boundaryFlag = s.boundaryFlag := by rw [hsame]
  have hpending : s'.adamStepPending = s.adamStepPending := by rw [hsame]
  have hreached : s'.reached = s.reached := by rw [hsame]
  have hsince : s'.since = s.since := by rw [hsame]
  have hdue : s'.due = s.due := by rw [hsame]
  have hfp16 : s'.fp16 = s.fp16 := by rw [hsame]
  refine ⟨hsums, ?_, ?_, ?_, ?_, ?_, ?_, hadam, ?_⟩
  · simp only [hsteps, hphase, hiter]
    exact h.dpuSteps
  · rw [hphase, hflag]
    exact h.flag
  · rw [hphase, hpending, hiter]
    exact h.pending
  · rw [hphase, hsince, hreached, hdue, hiter]
    exact h.due
  · rw [hphase, hreached, hiter, hbufs, hswitch]
    exact h.complete
  · rw [hiter, hbufs, hswitch]
    exact h.last
  · rw [hfp16, hiter]
    exact h.fp16

theorem State.DelayInv.workerRecv (h : s.DelayInv cfg b)
    (hstep : s.step cfg b .workerRecv = some s') : s'.DelayInv cfg b := by
  have hsums := h.sums.workerRecv hstep
  unfold State.step at hstep
  dsimp only at hstep
  split at hstep
  next gradIdx rest hnone hcommands =>
    obtain rfl := Option.some.inj hstep
    refine h.worker hsums rfl ?_
    cases h.adam with
    | idle hc => exact absurd (hc.symm.trans hcommands) nofun
    | sent hc _ ha hphase hne hf =>
        rw [hc] at hcommands
        obtain ⟨rfl, rfl⟩ := List.cons.inj hcommands
        refine .running 0 rfl rfl ha hphase hne ?_
        intro p hp
        rw [if_neg (Nat.not_lt_zero _)]
        exact hf p hp
    | running _ hc => exact absurd (hc.symm.trans hcommands) nofun
    | done hc => exact absurd (hc.symm.trans hcommands) nofun
  · cases hstep

theorem State.DelayInv.workerStep (h : s.DelayInv cfg b)
    (hstep : s.step cfg b .workerStep = some s') : s'.DelayInv cfg b := by
  have hsums := h.sums.workerStep hstep
  unfold State.step at hstep
  dsimp only at hstep
  split at hstep
  next gradIdx i hworker =>
    split at hstep
    next hi =>
      obtain rfl := Option.some.inj hstep
      refine h.worker hsums rfl ?_
      cases h.adam with
      | idle _ hw => exact absurd (hw.symm.trans hworker) nofun
      | sent _ hw => exact absurd (hw.symm.trans hworker) nofun
      | running i' hc hw ha hphase hne hf =>
          obtain ⟨rfl, rfl⟩ := Prod.mk.inj (Option.some.inj (hw.symm.trans hworker))
          refine .running (i' + 1) hc rfl ha hphase hne ?_
          intro p hp
          dsimp only
          rw [hf p hp, h.last hne p hp]
          rcases Nat.lt_trichotomy (cfg.subGroup p) i' with hlt | heq | hgt
          · rw [if_neg hlt.ne, if_pos hlt, if_pos (Nat.lt_succ_of_lt hlt)]
          · obtain ⟨k, hk⟩ := Nat.exists_eq_succ_of_ne_zero hne
            rw [if_pos heq, heq, if_neg (Nat.lt_irrefl _),
              if_pos (Nat.lt_succ_self _), hk]
            rfl
          · rw [if_neg hgt.ne', if_neg (Nat.lt_asymm hgt), if_neg (by omega)]
      | done _ hw => exact absurd (hw.symm.trans hworker) nofun
    · cases hstep
  · cases hstep

theorem State.DelayInv.workerDone (h : s.DelayInv cfg b)
    (hstep : s.step cfg b .workerDone = some s') : s'.DelayInv cfg b := by
  have hsums := h.sums.workerDone hstep
  unfold State.step at hstep
  dsimp only at hstep
  split at hstep
  next gradIdx i hworker =>
    split at hstep
    next hi =>
      obtain rfl := Option.some.inj hstep
      refine h.worker hsums rfl ?_
      cases h.adam with
      | idle _ hw => exact absurd (hw.symm.trans hworker) nofun
      | sent _ hw => exact absurd (hw.symm.trans hworker) nofun
      | running i' hc hw ha hphase hne hf =>
          obtain ⟨rfl, rfl⟩ := Prod.mk.inj (Option.some.inj (hw.symm.trans hworker))
          refine .done hc rfl (congrArg (· + 1) ha) hphase hne ?_
          intro p hp
          have hlt : cfg.subGroup p < i' := hi ▸ cfg.subGroup_lt p
          rw [hf p hp, if_pos hlt]
      | done _ hw => exact absurd (hw.symm.trans hworker) nofun
    · cases hstep
  · cases hstep

theorem State.DelayInv.step (h : s.DelayInv cfg b)
    (hgas : cfg.gradientAccumulationSteps = 1) {a : Action V}
    (hcomplete : Complete cfg b s a) (hstep : s.step cfg b a = some s') :
    s'.DelayInv cfg b := by
  cases a with
  | stepDpu => exact h.stepDpu hgas hstep
  | hook p w => exact h.hook hcomplete hstep
  | epilogue w => exact h.epilogue hcomplete hstep
  | partitionAll w => exact h.partitionAll hcomplete hstep
  | update => exact h.update hgas hstep
  | workerRecv => exact h.workerRecv hstep
  | workerStep => exact h.workerStep hstep
  | workerDone => exact h.workerDone hstep

end Schedule

/-! ## Runs -/

section Runs

variable [AddZeroClass V] {cfg : Config V O H} {b : Backward V} {s s' : State V O H}

theorem State.foldl_partitionGrad_fp16 {w : Wait V} {rs : PendingRs V}
    (params : List DsId) :
    (params.foldl (State.partitionGrad cfg w rs) s).fp16 = s.fp16 := by
  induction params generalizing s with
  | nil => rfl
  | cons p params ih =>
      refine ih.trans ?_
      unfold State.partitionGrad
      dsimp only
      split <;> rfl

theorem State.flushPendingRs_fp16 {w : Wait V} :
    (s.flushPendingRs cfg w).fp16 = s.fp16 := by
  unfold State.flushPendingRs
  split
  · exact State.foldl_partitionGrad_fp16 _
  · rfl

theorem State.reduceAndPartition_fp16 {w : Wait V} :
    (s.reduceAndPartition cfg b w).fp16 = s.fp16 := by
  unfold State.reduceAndPartition
  split
  · rfl
  · exact State.flushPendingRs_fp16

/-- Nothing but `update_new_params` changes the fp16 shards. -/
theorem State.step_fp16 {a : Action V} (ha : a ≠ .update)
    (hstep : s.step cfg b a = some s') : s'.fp16 = s.fp16 := by
  unfold State.step at hstep
  cases a with
  | stepDpu =>
      dsimp only at hstep
      rw [State.stepDpu_eq] at hstep
      split at hstep
      · obtain rfl := Option.some.inj hstep
        cases s.boundary cfg <;> rfl
      · cases hstep
  | hook p w =>
      dsimp only at hstep
      split at hstep
      · obtain rfl := Option.some.inj hstep
        unfold State.reduceIndependent
        cases s.full cfg p with
        | true => exact State.reduceAndPartition_fp16
        | false => rfl
      · cases hstep
  | epilogue w =>
      dsimp only at hstep
      split at hstep
      · obtain rfl := Option.some.inj hstep
        exact State.reduceAndPartition_fp16
      · cases hstep
  | partitionAll w =>
      dsimp only at hstep
      split at hstep
      · obtain rfl := Option.some.inj hstep
        exact State.flushPendingRs_fp16
      · cases hstep
  | update => exact absurd rfl ha
  | workerRecv =>
      dsimp only at hstep
      split at hstep
      · obtain rfl := Option.some.inj hstep
        rfl
      · cases hstep
  | workerStep =>
      dsimp only at hstep
      split at hstep
      · split at hstep
        · obtain rfl := Option.some.inj hstep
          rfl
        · cases hstep
      · cases hstep
  | workerDone =>
      dsimp only at hstep
      split at hstep
      · split at hstep
        · obtain rfl := Option.some.inj hstep
          rfl
        · cases hstep
      · cases hstep

theorem State.DelayInv.of_run (h : s.DelayInv cfg b)
    (hgas : cfg.gradientAccumulationSteps = 1) {acts : List (Action V)}
    (hcomplete : AllSteps (State.step cfg b) (Complete cfg b) s acts)
    (hrun : run (State.step cfg b) s acts = some s') : s'.DelayInv cfg b :=
  hcomplete.invariant (fun _ _ _ hP hstep hinv => hinv.step hgas hP hstep) hrun h

variable (cfg b)

/-- Whenever the worker runs, it reads a buffer that is not written, the fp16
shards change in `update_new_params` only, and the weights of an iteration come
from those before it and the gradient of the iteration before. -/
theorem delayed_updates_scheduled (hgas : cfg.gradientAccumulationSteps = 1)
    (acts : List (Action V)) (s : State V O H)
    (hrun : run (State.step cfg b) (.init cfg) acts = some s)
    (hcomplete : AllSteps (State.step cfg b) (Complete cfg b) (.init cfg) acts) :
    s.Scheduled cfg b ∧ ∀ a s', a ≠ .update → s.step cfg b a = some s' →
      s'.fp16 = s.fp16 :=
  ⟨(State.DelayInv.init.of_run hgas hcomplete hrun).scheduled,
    fun _ _ ha hstep => State.step_fp16 ha hstep⟩

instance [DecidableEq V] (s : State V O H) (a : Action V) :
    Decidable (Complete cfg b s a) :=
  inferInstanceAs (Decidable (_ ∧ (_ → ∀ p ∈ cfg.allParams,
    cfg.emptyOn cfg.rank p = false → p ∈ s.reached ∨
      b.full cfg s.globalIter p = 0 ∧ s.fp32GradBufs s.gradBufSwitch p = 0)))

/-- Two iterations; the worker makes its step during the second. -/
def overlapped : List (Action ℤ) :=
  iteration [2, 1, 0] ++ [.update, .stepDpu, .hook 2 constantResults, .workerRecv,
    .hook 1 constantResults, .workerStep, .hook 0 constantResults,
    .epilogue constantResults, .partitionAll constantResults, .workerDone, .update]

theorem delayed_updates_scheduled_overlapped :
    ∃ s, run (State.step threeParams constantGradients) (.init threeParams)
        overlapped = some s ∧ s.globalIter = 2 ∧ s.fp16 0 = -2 ∧
      s.Scheduled threeParams constantGradients := by
  have hend : (run (State.step threeParams constantGradients)
      (.init threeParams) overlapped).map (fun s => (s.globalIter, s.fp16 0)) =
      some (2, -2) := by
    decide +kernel
  obtain ⟨s, hrun, hs⟩ := Option.map_eq_some_iff.mp hend
  refine ⟨s, hrun, (Prod.mk.inj hs).1, (Prod.mk.inj hs).2, ?_⟩
  refine (delayed_updates_scheduled threeParams constantGradients rfl _ s hrun
    ?_).1
  decide +kernel

/-- Three iterations whose last buckets have shards that are not adjacent. -/
def apartIterations : List (Action ℤ) :=
  iteration [1, 0, 2] ++ .update ::
    (iteration [1, 0, 2] ++ [.workerRecv, .workerStep, .workerDone, .update] ++
      (iteration [1, 0, 2] ++ [.workerRecv, .workerStep, .workerDone, .update]))

/-- The gradient of the first iteration is applied again with that of the second,
although every result is right. -/
theorem apart_shards_apply_twice :
    AllSteps (State.step threeParams constantGradients)
        (fun s _ => s.Delivered threeParams constantResults) (.init threeParams)
        apartIterations ∧
      ∃ s, run (State.step threeParams constantGradients) (.init threeParams)
          apartIterations = some s ∧
        ¬ s.Scheduled threeParams constantGradients := by
  have hend : (run (State.step threeParams constantGradients)
      (.init threeParams) apartIterations).map (fun s =>
        (s.globalIter, s.fp16 0)) = some (3, -6) := by
    decide +kernel
  obtain ⟨s, hrun, hs⟩ := Option.map_eq_some_iff.mp hend
  obtain ⟨hiter, hfp16⟩ := Prod.mk.inj hs
  refine ⟨by decide +kernel, s, hrun, ?_⟩
  intro hscheduled
  have hweights := hscheduled.fp16 0 (by unfold Config.Sharded; decide)
  rw [hiter, hfp16] at hweights
  exact absurd hweights (by decide +kernel)

end Runs

end SmartNic.Training
