import SmartNic.Library.ClosedLoop
import SmartNic.Training.Baseline

/-!
# The trainers as parties of a closed loop

An iteration is a round: its gradients are the input, and the fp16 shards with which
a rank enters it are what the rank puts out.
-/

namespace SmartNic.Training

open SmartNic.ClosedLoop

variable {V O H : Type}

/-- The gradients of an iteration on each rank, as in `Backward`. -/
structure Gradients (V : Type) where
  grad : ℕ → DsId → V
  stale : ℕ → DsId → V

def Backward.ofRounds (x : ℕ → Gradients V) : Backward V where
  grad t := (x t).grad
  stale t := (x t).stale

/-- The action uses gradients. -/
def Action.reads : Action V → Bool
  | .hook _ _ => true
  | .epilogue _ => true
  | _ => false

section Steps

variable [AddZeroClass V] {cfg : Config V O H} {b b' : Backward V} {s s' : State V O H}
  {a : Action V} {w : Wait V}

/-! ## A step stays in its iteration -/

theorem State.globalIter_flushPendingRs :
    (s.flushPendingRs cfg w).globalIter = s.globalIter := by
  have hfold : ∀ (rs : PendingRs V) (params : List DsId) (s : State V O H),
      (params.foldl (State.partitionGrad cfg w rs) s).globalIter = s.globalIter := by
    intro rs params
    induction params with
    | nil => exact fun s => rfl
    | cons p params ih =>
        intro s
        rw [List.foldl_cons, ih]
        unfold State.partitionGrad
        dsimp only
        split <;> rfl
  unfold State.flushPendingRs
  split
  · exact hfold _ _ _
  · rfl

theorem State.globalIter_reduceAndPartition :
    (s.reduceAndPartition cfg b w).globalIter = s.globalIter := by
  unfold State.reduceAndPartition
  split
  · rfl
  · exact State.globalIter_flushPendingRs

theorem Baseline.globalIter_reduceAndPartition :
    (Baseline.reduceAndPartition cfg b s).globalIter = s.globalIter := by
  have hfold : ∀ (result : DsId → V) (params : List DsId) (s : State V O H),
      (params.foldl (Baseline.partitionGrad cfg result) s).globalIter =
        s.globalIter := by
    intro result params
    induction params with
    | nil => exact fun s => rfl
    | cons p params ih =>
        intro s
        rw [List.foldl_cons, ih]
        unfold Baseline.partitionGrad
        dsimp only
        split <;> rfl
  unfold Baseline.reduceAndPartition
  split
  · rfl
  · exact hfold _ _ s

/-- The actions that do not read are the same in both trainers, but for
`_partition_all_parameters`. -/
theorem State.globalIter_step (hstep : s.step cfg b a = some s') :
    s'.globalIter = s.globalIter ∨ s'.globalIter = s.globalIter + 1 := by
  cases a with
  | update =>
      obtain ⟨-, ⟨-, rfl⟩ | ⟨-, n, -, rfl⟩⟩ := State.update_cases hstep
      · exact .inr rfl
      · exact .inr rfl
  | stepDpu =>
      simp only [State.step, State.stepDpu_eq] at hstep
      split at hstep
      · obtain rfl := Option.some.inj hstep
        refine .inl ?_
        dsimp only
        split <;> rfl
      · cases hstep
  | hook p w =>
      simp only [State.step] at hstep
      split at hstep
      · obtain rfl := Option.some.inj hstep
        refine .inl ?_
        unfold State.reduceIndependent
        dsimp only
        split
        · exact State.globalIter_reduceAndPartition
        · rfl
      · cases hstep
  | epilogue w =>
      simp only [State.step] at hstep
      split at hstep
      · obtain rfl := Option.some.inj hstep
        exact .inl State.globalIter_reduceAndPartition
      · cases hstep
  | partitionAll w =>
      simp only [State.step] at hstep
      split at hstep
      · obtain rfl := Option.some.inj hstep
        exact .inl State.globalIter_flushPendingRs
      · cases hstep
  | workerRecv =>
      simp only [State.step] at hstep
      split at hstep
      · obtain rfl := Option.some.inj hstep
        exact .inl rfl
      · cases hstep
  | workerStep =>
      simp only [State.step] at hstep
      split at hstep
      · split at hstep
        · obtain rfl := Option.some.inj hstep
          exact .inl rfl
        · cases hstep
      · cases hstep
  | workerDone =>
      simp only [State.step] at hstep
      split at hstep
      · split at hstep
        · obtain rfl := Option.some.inj hstep
          exact .inl rfl
        · cases hstep
      · cases hstep

theorem Baseline.globalIter_step (hstep : Baseline.step cfg b s a = some s') :
    s'.globalIter = s.globalIter ∨ s'.globalIter = s.globalIter + 1 := by
  cases a with
  | hook p w =>
      simp only [Baseline.step] at hstep
      split at hstep
      · obtain rfl := Option.some.inj hstep
        refine .inl ?_
        unfold Baseline.reduceIndependent
        dsimp only
        split
        · exact Baseline.globalIter_reduceAndPartition
        · rfl
      · cases hstep
  | epilogue w =>
      simp only [Baseline.step] at hstep
      split at hstep
      · obtain rfl := Option.some.inj hstep
        exact .inl Baseline.globalIter_reduceAndPartition
      · cases hstep
  | partitionAll w =>
      simp only [Baseline.step] at hstep
      split at hstep
      · obtain rfl := Option.some.inj hstep
        exact .inl rfl
      · cases hstep
  | stepDpu => exact State.globalIter_step (show s.step cfg b .stepDpu = some s' from hstep)
  | update => exact State.globalIter_step (show s.step cfg b .update = some s' from hstep)
  | workerRecv => exact State.globalIter_step (show s.step cfg b .workerRecv = some s' from hstep)
  | workerStep => exact State.globalIter_step (show s.step cfg b .workerStep = some s' from hstep)
  | workerDone => exact State.globalIter_step (show s.step cfg b .workerDone = some s' from hstep)

/-! ## A step uses the gradients of its iteration -/

/-- The same gradients in an iteration. -/
def Backward.AgreesAt (b b' : Backward V) (t : ℕ) : Prop :=
  b.grad t = b'.grad t ∧ b.stale t = b'.stale t

omit [AddZeroClass V] in
theorem State.avgScatterGrads_congr (h : b.AgreesAt b' s.globalIter) :
    s.avgScatterGrads cfg b = s.avgScatterGrads cfg b' := by
  unfold State.avgScatterGrads State.localGrad
  rw [h.1, h.2]

theorem State.reduceAndPartition_congr (h : b.AgreesAt b' s.globalIter) :
    s.reduceAndPartition cfg b w = s.reduceAndPartition cfg b' w := by
  have hflush : b.AgreesAt b' (s.flushPendingRs cfg w).globalIter := by
    rw [State.globalIter_flushPendingRs]
    exact h
  unfold State.reduceAndPartition
  dsimp only
  rw [State.avgScatterGrads_congr hflush]

theorem Baseline.reduceAndPartition_congr (h : b.AgreesAt b' s.globalIter) :
    Baseline.reduceAndPartition cfg b s = Baseline.reduceAndPartition cfg b' s := by
  unfold Baseline.reduceAndPartition State.localGrad
  rw [h.1, h.2]

theorem State.step_congr (h : b.AgreesAt b' s.globalIter) :
    s.step cfg b a = s.step cfg b' a := by
  cases a with
  | hook p w =>
      simp only [State.step, State.reduceIndependent, h.1,
        State.reduceAndPartition_congr h]
  | epilogue w => simp only [State.step, State.reduceAndPartition_congr h]
  | stepDpu => rfl
  | partitionAll w => rfl
  | update => rfl
  | workerRecv => rfl
  | workerStep => rfl
  | workerDone => rfl

theorem Baseline.step_congr (h : b.AgreesAt b' s.globalIter) :
    Baseline.step cfg b s a = Baseline.step cfg b' s a := by
  cases a with
  | hook p w =>
      simp only [Baseline.step, Baseline.reduceIndependent, h.1,
        Baseline.reduceAndPartition_congr h]
  | epilogue w => simp only [Baseline.step, Baseline.reduceAndPartition_congr h]
  | stepDpu => rfl
  | partitionAll w => rfl
  | update => rfl
  | workerRecv => rfl
  | workerStep => rfl
  | workerDone => rfl

theorem State.step_of_not_reads (ha : a.reads = false) :
    s.step cfg b a = s.step cfg b' a := by
  cases a with
  | hook p w => cases ha
  | epilogue w => cases ha
  | stepDpu => rfl
  | partitionAll w => rfl
  | update => rfl
  | workerRecv => rfl
  | workerStep => rfl
  | workerDone => rfl

theorem Baseline.step_of_not_reads (ha : a.reads = false) :
    Baseline.step cfg b s a = Baseline.step cfg b' s a := by
  cases a with
  | hook p w => cases ha
  | epilogue w => cases ha
  | stepDpu => rfl
  | partitionAll w => rfl
  | update => rfl
  | workerRecv => rfl
  | workerStep => rfl
  | workerDone => rfl

end Steps

theorem Backward.ofRounds_agreesAt {x y : ℕ → Gradients V} {t : ℕ} (h : x t = y t) :
    (Backward.ofRounds x).AgreesAt (.ofRounds y) t :=
  ⟨congrArg Gradients.grad h, congrArg Gradients.stale h⟩

variable [AddZeroClass V] (cfg : Config V O H)

/-- The loop with the DPU. -/
def offload : Party (State V O H) (Action V) (Gradients V) (DsId → H) where
  step x s a := s.step cfg (.ofRounds x) a
  round := State.globalIter
  out := State.fp16
  reads := Action.reads
  step_congr _ _ _ _ h := State.step_congr (Backward.ofRounds_agreesAt h)
  step_of_not_reads _ _ _ _ h := State.step_of_not_reads h
  round_step _ _ _ _ h := State.globalIter_step h

/-- The loop of the baseline. -/
def baseline : Party (State V O H) (Action V) (Gradients V) (DsId → H) where
  step x s a := Baseline.step cfg (.ofRounds x) s a
  round := State.globalIter
  out := State.fp16
  reads := Action.reads
  step_congr _ _ _ _ h := Baseline.step_congr (Backward.ofRounds_agreesAt h)
  step_of_not_reads _ _ _ _ h := Baseline.step_of_not_reads h
  round_step _ _ _ _ h := Baseline.globalIter_step h

end SmartNic.Training
