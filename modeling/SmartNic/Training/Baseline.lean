import SmartNic.Training.DelayedUpdate

/-!
# The loop of the baseline

`src/baseline` trains with NCCL and waits for every ReduceScatter: its
`__reduce_and_partition_ipg_grads` reduces the bucket and partitions the result
before it returns.  Everything else is as in the loop with the DPU.
-/

namespace SmartNic.Training.Baseline

open SmartNic.Machine

variable {V O H : Type}

/-- The loop body of `__partition_grads`: the result is copied or added, and what
is copied to the host is waited for. -/
def partitionGrad [Add V] (cfg : Config V O H) (result : DsId → V)
    (s : State V O H) (p : DsId) : State V O H :=
  let s := { s with kept := insert p s.kept }
  if cfg.emptyOn cfg.rank p then s
  else
    let new := if s.microStepId = 0 then result p else s.gradPartitions p + result p
    { s with
      gradPartitions := Function.update s.gradPartitions p new
      fp32GradBufs :=
        if s.boundary cfg then
          Function.update s.fp32GradBufs s.gradBufSwitch
            (Function.update (s.fp32GradBufs s.gradBufSwitch) p new)
        else s.fp32GradBufs }

/-- `__reduce_and_partition_ipg_grads`. -/
def reduceAndPartition [AddZeroClass V] (cfg : Config V O H) (b : Backward V)
    (s : State V O H) : State V O H :=
  match s.paramsInIpgBucket with
  | [] => s
  | _ :: _ =>
      let params := s.paramsInIpgBucket.insertionSort (· ≤ ·)
      let result := fun p => cfg.reduced p (s.localGrad cfg b p)
      { params.foldl (partitionGrad cfg result) s with paramsInIpgBucket := [] }

/-- `reduce_independent_p_g_buckets_and_remove_grads`. -/
def reduceIndependent [AddZeroClass V] (cfg : Config V O H) (b : Backward V)
    (s : State V O H) (p : DsId) : State V O H :=
  let s := if s.full cfg p then reduceAndPartition cfg b s else s
  { s with paramsInIpgBucket := s.paramsInIpgBucket ++ [p] }

/-- The loop and the worker; `_partition_all_parameters` has nothing to wait for. -/
def step [AddZeroClass V] (cfg : Config V O H) (b : Backward V) (s : State V O H) :
    Action V → Option (State V O H)
  | .hook p _ =>
      if s.phase = .backward ∧ p ∈ cfg.allParams ∧ p ∉ s.reached then
        some
          { reduceIndependent cfg b s p with
            reached := insert p s.reached
            since := insert p s.since
            due := Function.update s.due p
              (s.due p + cfg.reduced p fun r => b.grad s.globalIter r p) }
      else none
  | .epilogue _ =>
      if s.phase = .backward then
        let s := reduceAndPartition cfg b s
        some { s with phase := .partition, microStepId := s.microStepId + 1 }
      else none
  | .partitionAll _ =>
      if s.phase = .partition then some { s with phase := .update } else none
  | a => s.step cfg b a

/-! ## The bucket is submitted and at once partitioned -/

section Submit

variable [AddZeroClass V] {cfg : Config V O H} {b : Backward V} {s : State V O H}

/-- The bucket is pending. -/
def submitted (cfg : Config V O H) (b : Backward V) (s : State V O H) :
    State V O H :=
  { s with
    pendingRs := some (s.avgScatterGrads cfg b)
    paramsInIpgBucket := [] }

/-- Its result is there at once. -/
def atOnce (rs : PendingRs V) : Wait V where
  result := rs.submitted
  spoilt := rs.submitted
  late := []

theorem partitionGrad_eq {rs : PendingRs V} (hrs : rs.inPlace = false) (p : DsId) :
    partitionGrad cfg rs.submitted s p = State.partitionGrad cfg (atOnce rs) rs s p := by
  unfold partitionGrad State.partitionGrad
  simp [hrs, atOnce]

omit [AddZeroClass V] in
theorem arrived_eq {rs : PendingRs V} {w : Wait V} (hrs : rs.inPlace = false) :
    s.arrived cfg w rs = s := by
  unfold State.arrived
  simp [hrs]

omit [AddZeroClass V] in
theorem outputInPlace_eq (hnccl : cfg.rsUseNccl = true) (params : List DsId) :
    cfg.outputInPlace params = false := by
  unfold Config.outputInPlace
  split
  · rfl
  · simp [hnccl]

theorem foldl_partitionGrad_bucket (cfg : Config V O H) (w : Wait V) (rs : PendingRs V)
    (params : List DsId) (bucket : List DsId) (pending : Option (PendingRs V)) (s : State V O H) :
    params.foldl (State.partitionGrad cfg w rs)
        { s with paramsInIpgBucket := bucket, pendingRs := pending } =
      { params.foldl (State.partitionGrad cfg w rs) s with
        paramsInIpgBucket := bucket
        pendingRs := pending } := by
  induction params generalizing s with
  | nil => rfl
  | cons p params ih =>
      rw [List.foldl_cons, List.foldl_cons, ← ih]
      congr 1
      unfold State.partitionGrad State.boundary
      dsimp only
      split <;> rfl

theorem reduceAndPartition_eq (hnccl : cfg.rsUseNccl = true)
    (hnone : s.pendingRs = none) (hne : s.paramsInIpgBucket ≠ []) :
    reduceAndPartition cfg b s =
      (submitted cfg b s).flushPendingRs cfg (atOnce (s.avgScatterGrads cfg b)) := by
  have hplace : (s.avgScatterGrads cfg b).inPlace = false := outputInPlace_eq hnccl _
  have hbase : reduceAndPartition cfg b s =
      { (s.avgScatterGrads cfg b).params.foldl
          (partitionGrad cfg (s.avgScatterGrads cfg b).submitted) s with
        paramsInIpgBucket := [] } := by
    unfold reduceAndPartition
    split
    · contradiction
    · rfl
  have hflush : (submitted cfg b s).flushPendingRs cfg
        (atOnce (s.avgScatterGrads cfg b)) =
      { (s.avgScatterGrads cfg b).params.foldl
          (State.partitionGrad cfg (atOnce (s.avgScatterGrads cfg b))
            (s.avgScatterGrads cfg b))
          ((submitted cfg b s).arrived cfg (atOnce (s.avgScatterGrads cfg b))
            (s.avgScatterGrads cfg b)) with
        pendingRs := none } := rfl
  rw [arrived_eq hplace] at hflush
  rw [hbase, hflush, submitted]
  generalize s.avgScatterGrads cfg b = rs at hplace ⊢
  have hsame : partitionGrad cfg rs.submitted = State.partitionGrad cfg (atOnce rs) rs :=
    funext fun s₁ => funext fun p => partitionGrad_eq hplace p
  have hpending : (rs.params.foldl (State.partitionGrad cfg (atOnce rs) rs) s).pendingRs =
      none :=
    (congrArg State.pendingRs (foldl_partitionGrad_bucket cfg (atOnce rs) rs _
      s.paramsInIpgBucket s.pendingRs s)).trans hnone
  rw [foldl_partitionGrad_bucket cfg (atOnce rs) rs rs.params [] (some rs) s, hsame]
  generalize rs.params.foldl _ s = s₁ at hpending ⊢
  rw [← hpending]

end Submit

/-! ## The invariant -/

section Invariant

variable [AddZeroClass V] {cfg : Config V O H} {b : Backward V} {s s' : State V O H}

/-- The baseline reduces in the first micro-step and has nothing pending. -/
structure Inv (cfg : Config V O H) (b : Backward V) (s : State V O H) : Prop where
  delay : s.DelayInv cfg b
  pending : s.pendingRs = none
  first : s.phase = .backward → s.microStepId = 0

theorem Inv.init : Inv cfg b (.init cfg) where
  delay := .init
  pending := rfl
  first h := by cases h

omit [AddZeroClass V] in
theorem submitted_frame (hnone : s.pendingRs = none) :
    s.Frame (submitted cfg b s) where
  eq := rfl
  waiting p hp := by
    have hperm : (s.avgScatterGrads cfg b).params.Perm s.paramsInIpgBucket :=
      List.perm_insertionSort _ _
    rw [State.waiting_none hnone]
    exact hperm.mem_iff.mp hp
  kept _ _ := Iff.rfl
  bufs _ _ _ := rfl

omit [AddZeroClass V] in
theorem frame_trans {s₁ s₂ : State V O H} (h : s.Frame s₁) (h₁ : s₁.Frame s₂) :
    s.Frame s₂ where
  eq := by
    rw [h₁.eq]
    exact congrArg (fun s' : State V O H =>
      { s' with
        paramsInIpgBucket := s₂.paramsInIpgBucket
        pendingRs := s₂.pendingRs
        gradPartitions := s₂.gradPartitions
        fp32GradBufs := s₂.fp32GradBufs
        kept := s₂.kept }) h.eq
  waiting p hp := h.waiting p (h₁.waiting p hp)
  kept p hp := (h₁.kept p fun hin => hp (h.waiting p hin)).trans (h.kept p hp)
  bufs i p hp := by
    refine (h₁.bufs i p ?_).trans (h.bufs i p hp)
    rcases hp with hp | hi
    · exact .inl fun hin => hp (h.waiting p hin)
    · refine .inr ?_
      rw [h.eq]
      exact hi

/-- The bucket is reduced and its shards have what is due. -/
theorem sums_reduceAndPartition (hnccl : cfg.rsUseNccl = true) (h : s.Inv cfg b)
    (hnone : s.pendingRs = none) (hfirst : s.microStepId = 0)
    (hphase : s.phase ≠ .start) :
    (reduceAndPartition cfg b s).Inv cfg b ∧
      s.Frame (reduceAndPartition cfg b s) ∧
      (reduceAndPartition cfg b s).pendingRs = none ∧
      (reduceAndPartition cfg b s).paramsInIpgBucket = [] := by
  by_cases hnil : s.paramsInIpgBucket = []
  · have hsame : reduceAndPartition cfg b s = s := by
      unfold reduceAndPartition
      rw [hnil]
    rw [hsame]
    exact ⟨h, .refl s, hnone, hnil⟩
  · rw [reduceAndPartition_eq hnccl hnone hnil]
    have hsubmit : (submitted cfg b s).Inv cfg b := h.submit hnone
    have hok : (submitted cfg b s).FlushOk cfg (atOnce (s.avgScatterGrads cfg b)) := by
      have hplace : (s.avgScatterGrads cfg b).inPlace = false :=
        outputInPlace_eq hnccl _
      refine ⟨fun rs hrs p _ _ => ?_, fun rs hrs => ?_⟩
      · obtain rfl := Option.some.inj hrs
        rfl
      · obtain rfl := Option.some.inj hrs
        refine ⟨fun h => absurd (hplace.symm.trans h) Bool.false_ne_true,
          fun p hp hne => ?_⟩
        have hzero : (submitted cfg b s).microStepId = 0 := hfirst
        rw [hplace, if_neg Bool.false_ne_true, if_pos hzero]
        exact fun _ _ => List.not_mem_nil
    refine ⟨hsubmit.flush hok hphase,
      frame_trans (submitted_frame hnone) (hsubmit.flush_frame _), ?_⟩
    rw [State.flushPendingRs_some rfl hsubmit.nodup]
    exact ⟨rfl, rfl⟩

/-- Every parameter with a shard on this rank has a gradient before the
epilogue. -/
def Covers (cfg : Config V O H) (s : State V O H) (a : Action V) : Prop :=
  a.isEpilogue → ∀ p ∈ cfg.allParams, cfg.emptyOn cfg.rank p = false → p ∈ s.reached

theorem Inv.hook (hnccl : cfg.rsUseNccl = true) (h : Inv cfg b s) {p : DsId}
    {w : Wait V} (hstep : step cfg b s (.hook p w) = some s') :
    Inv cfg b s' := by
  simp only [step] at hstep
  split at hstep
  next hguard =>
    obtain rfl := Option.some.inj hstep
    obtain ⟨hphase, hknown, hp⟩ := hguard
    have hstart : s.phase ≠ .start := by
      rw [hphase]
      decide
    have hfirst := h.first hphase
    obtain ⟨hsince, hdue⟩ := h.delay.due hstart
    have hreduced : (if s.full cfg p then reduceAndPartition cfg b s else s).Inv cfg b ∧
        s.Frame (if s.full cfg p then reduceAndPartition cfg b s else s) ∧
        (if s.full cfg p then reduceAndPartition cfg b s else s).pendingRs = none := by
      split
      · obtain ⟨hsums, hframe, hnone, -⟩ :=
          sums_reduceAndPartition hnccl h.delay.sums h.pending hfirst hstart
        exact ⟨hsums, hframe, hnone⟩
      · exact ⟨h.delay.sums, .refl s, h.pending⟩
    unfold reduceIndependent
    generalize (if s.full cfg p then reduceAndPartition cfg b s else s) = s₁
      at hreduced ⊢
    obtain ⟨hsums, hframe, hnone⟩ := hreduced
    have hphase₁ := hframe.phase.trans hphase
    have hstart₁ : s₁.phase ≠ .start := by
      rw [hframe.phase]
      exact hstart
    have hfirst₁ : s₁.microStepId = 0 := by
      rw [hframe.eq]
      exact hfirst
    have hp₁ : p ∉ s₁.reached := by
      rw [hframe.reached]
      exact hp
    have happend := hsums.append hphase₁ hknown hp₁
      fun hkept => absurd (hsums.seen hfirst₁ hkept) hp₁
    have hmean : s₁.mean cfg b p = cfg.reduced p fun r => b.grad s.globalIter r p := by
      rw [State.mean, hframe.globalIter]
    rw [hframe.reached, hframe.since, hframe.due, hmean] at happend
    refine ⟨h.delay.backward happend hstart hstart₁ ?_ ?_ ?_ ?_, hnone, fun _ => hfirst₁⟩
    · exact congrArg (fun s₂ : State V O H =>
        { s₂ with
          phase := s₁.phase
          microStepId := s₁.microStepId
          paramsInIpgBucket := s₁.paramsInIpgBucket ++ [p]
          reached := insert p s.reached
          since := insert p s.since
          due := Function.update s.due p
            (s.due p + cfg.reduced p fun r => b.grad s.globalIter r p) }) hframe.eq
    · exact fun q => hframe.bufs _ q (.inr (Bool.not_ne_self _))
    · refine ⟨congrArg (insert p) hsince, fun q => ?_⟩
      dsimp only
      by_cases hq : q = p
      · subst hq
        rw [Function.update_self, hdue, if_neg hp, zero_add,
          if_pos (Finset.mem_insert_self _ _)]
        rfl
      · rw [Function.update_of_ne hq, hdue]
        refine if_congr ?_ rfl rfl
        rw [Finset.mem_insert]
        exact (or_iff_right hq).symm
    · intro hlate
      change s₁.phase = .partition ∨ s₁.phase = .update at hlate
      rw [hphase₁] at hlate
      rcases hlate with h | h <;> cases h
  · cases hstep

theorem Inv.epilogue (hnccl : cfg.rsUseNccl = true) (h : Inv cfg b s)
    {w : Wait V} (hcovers : Covers cfg s (.epilogue w))
    (hstep : step cfg b s (.epilogue w) = some s') : Inv cfg b s' := by
  simp only [step] at hstep
  split at hstep
  next hphase =>
    obtain rfl := Option.some.inj hstep
    have hstart : s.phase ≠ .start := by
      rw [hphase]
      decide
    obtain ⟨hsince, hdue⟩ := h.delay.due hstart
    obtain ⟨hsums, hframe, hnone, hnil⟩ :=
      sums_reduceAndPartition hnccl h.delay.sums h.pending (h.first hphase) hstart
    generalize reduceAndPartition cfg b s = s₁ at hsums hframe hnone hnil ⊢
    have hstart₁ : s₁.phase ≠ .start := by
      rw [hframe.phase]
      exact hstart
    have hcovered : s₁.since ⊆ s₁.reached := by
      rw [hframe.since, hframe.reached, hsince]
    refine ⟨h.delay.backward ?_ hstart nofun ?_ ?_ ?_ ?_, hnone, nofun⟩
    · exact
        { hsums with
          first := nofun
          seen := nofun
          written := fun hboundary q hne hq hq' _ =>
            hsums.written hboundary q hne hq hq' hstart₁
          idle := nofun
          bucket := fun _ => hnil
          later := fun _ => Nat.succ_ne_zero _
          fresh := nofun
          covered := fun _ _ => hcovered }
    · exact congrArg (fun s₂ : State V O H =>
        { s₂ with
          phase := .partition
          microStepId := s₁.microStepId + 1
          reached := s₁.reached
          since := s₁.since
          due := s₁.due }) hframe.eq
    · exact fun q => hframe.bufs _ q (.inr (Bool.not_ne_self _))
    · dsimp only
      rw [hframe.since, hframe.reached, hframe.due]
      exact ⟨hsince, hdue⟩
    · intro _ p hp
      dsimp only
      rw [hframe.reached]
      exact .inl (hcovers rfl p hp.1 hp.2)
  · cases hstep

theorem Inv.step (hnccl : cfg.rsUseNccl = true)
    (hgas : cfg.gradientAccumulationSteps = 1) (h : Inv cfg b s) {a : Action V}
    (hcovers : Covers cfg s a) (hstep : Baseline.step cfg b s a = some s') :
    Inv cfg b s' := by
  cases a with
  | stepDpu =>
      have hdelay := h.delay.stepDpu hgas hstep
      have hboundary : s.boundary cfg = true := by
        simp [State.boundary, hgas, Nat.mod_one]
      simp only [Baseline.step, State.step, State.stepDpu_eq, if_pos hboundary] at hstep
      split at hstep
      · obtain rfl := Option.some.inj hstep
        exact ⟨hdelay, h.pending, fun _ => rfl⟩
      · cases hstep
  | hook p w => exact h.hook hnccl hstep
  | epilogue w => exact h.epilogue hnccl hcovers hstep
  | partitionAll w =>
      simp only [Baseline.step] at hstep
      split at hstep
      next hphase =>
        have hok : s.FlushOk cfg w := by
          constructor
          · intro rs hrs
            rw [h.pending] at hrs
            cases hrs
          · intro rs hrs
            rw [h.pending] at hrs
            cases hrs
        have hsame : s.step cfg b (.partitionAll w) =
            some { s with phase := .update } := by
          simp only [State.step, if_pos hphase, State.flushPendingRs_none h.pending]
        obtain rfl := Option.some.inj hstep
        exact ⟨h.delay.partitionAll ⟨hok, by simp [Action.isEpilogue]⟩ hsame, h.pending,
          nofun⟩
      · cases hstep
  | update =>
      have hupdate : s.step cfg b .update = some s' := hstep
      have hdelay := h.delay.update hgas hupdate
      obtain ⟨-, hcases⟩ := State.update_cases hupdate
      rcases hcases with ⟨-, rfl⟩ | ⟨-, n, -, rfl⟩
      · exact ⟨hdelay, h.pending, nofun⟩
      · exact ⟨hdelay, h.pending, nofun⟩
  | workerRecv =>
      have hdelay := h.delay.workerRecv hstep
      simp only [Baseline.step, State.step] at hstep
      split at hstep
      · obtain rfl := Option.some.inj hstep
        exact ⟨hdelay, h.pending, h.first⟩
      · cases hstep
  | workerStep =>
      have hdelay := h.delay.workerStep hstep
      simp only [Baseline.step, State.step] at hstep
      split at hstep
      · split at hstep
        · obtain rfl := Option.some.inj hstep
          exact ⟨hdelay, h.pending, h.first⟩
        · cases hstep
      · cases hstep
  | workerDone =>
      have hdelay := h.delay.workerDone hstep
      simp only [Baseline.step, State.step] at hstep
      split at hstep
      · split at hstep
        · obtain rfl := Option.some.inj hstep
          exact ⟨hdelay, h.pending, h.first⟩
        · cases hstep
      · cases hstep

end Invariant

end SmartNic.Training.Baseline
