import SmartNic.Library.Machine
import SmartNic.Training.Optimizer

/-!
# The ReduceScatters of the gradient hooks

Which ReduceScatters are submitted, and that this only depends on the order of
the hooks.
-/

namespace SmartNic.Training

open Machine

/-- A ReduceScatter given to the DPU: the parameters in the order of the packed
buffer, the elements for each rank and the collective id. -/
structure Reduction where
  params : List DsId
  chunkNumel : ℕ
  cid : DsId
deriving DecidableEq, Repr

/-- The hooks that fill and submit the bucket. -/
inductive BucketEvent where
  | gradient (p : DsId)
  | epilogue
deriving DecidableEq, Repr

def Action.bucketEvent {V : Type} : Action V → Option BucketEvent
  | .hook p _ => some (.gradient p)
  | .epilogue _ => some .epilogue
  | _ => none

variable {V O H : Type} (cfg : Config V O H)

/-- What `__reduce_and_partition_ipg_grads` submits for a bucket. -/
def Config.reduction (bucket : List DsId) : List Reduction :=
  match bucket.insertionSort (· ≤ ·) with
  | [] => []
  | first :: rest =>
      [{ params := first :: rest
         chunkNumel := ((first :: rest).map cfg.partitionNumel).sum
         cid := first }]

/-- What the hooks submit when the bucket holds some parameters. -/
def Config.reductions : List DsId → List BucketEvent → List Reduction
  | _, [] => []
  | bucket, .gradient p :: events =>
      let elements := (bucket.map cfg.dsNumel).sum
      if elements > 0 ∧ elements + cfg.dsNumel p > cfg.reduceBucketSize then
        cfg.reduction bucket ++ Config.reductions [p] events
      else Config.reductions (bucket ++ [p]) events
  | bucket, .epilogue :: events =>
      cfg.reduction bucket ++ Config.reductions [] events

/-- The settings on another rank. -/
def Config.onRank (rank : ℕ) : Config V O H := { cfg with rank }

theorem Config.reductions_onRank (rank : ℕ) (bucket : List DsId)
    (events : List BucketEvent) :
    (cfg.onRank rank).reductions bucket events = cfg.reductions bucket events := by
  induction events generalizing bucket with
  | nil => rfl
  | cons event events ih =>
      cases event with
      | gradient p =>
          rw [Config.reductions, Config.reductions, ih, ih]
          rfl
      | epilogue =>
          rw [Config.reductions, Config.reductions, ih]
          rfl

namespace State

/-- What a step submits. -/
def submits (s : State V O H) : Action V → List Reduction
  | .hook p _ => if s.full cfg p then cfg.reduction s.paramsInIpgBucket else []
  | .epilogue _ => cfg.reduction s.paramsInIpgBucket
  | _ => []

theorem full_iff {s : State V O H} {p : DsId} :
    s.full cfg p ↔
      (s.paramsInIpgBucket.map cfg.dsNumel).sum > 0 ∧
        (s.paramsInIpgBucket.map cfg.dsNumel).sum + cfg.dsNumel p >
          cfg.reduceBucketSize := by
  simp [full, elementsInIpgBucket]

variable [AddZeroClass V] {b : Backward V} {s s' : State V O H} {a : Action V}
  {w : Wait V}

/-! ## The bucket -/

theorem bucket_flushPendingRs :
    (s.flushPendingRs cfg w).paramsInIpgBucket = s.paramsInIpgBucket := by
  have hfold : ∀ (rs : PendingRs V) (params : List DsId) (s : State V O H),
      (params.foldl (partitionGrad cfg w rs) s).paramsInIpgBucket =
        s.paramsInIpgBucket := by
    intro rs params
    induction params with
    | nil => exact fun s => rfl
    | cons p params ih =>
        intro s
        rw [List.foldl_cons, ih]
        unfold partitionGrad
        by_cases hempty : cfg.emptyOn cfg.rank p
        · simp only [if_pos hempty]
        · simp only [if_neg hempty]
  unfold flushPendingRs
  split
  · exact hfold _ _ _
  · rfl

theorem bucket_reduceAndPartition :
    (s.reduceAndPartition cfg b w).paramsInIpgBucket = [] := by
  unfold reduceAndPartition
  split
  · assumption
  · rfl

/-- The bucket after a step. -/
theorem bucket_step (hstep : s.step cfg b a = some s') :
    s'.paramsInIpgBucket =
      match a.bucketEvent with
      | none => s.paramsInIpgBucket
      | some (.gradient p) =>
          if s.full cfg p then [p] else s.paramsInIpgBucket ++ [p]
      | some .epilogue => [] := by
  cases a with
  | hook p w =>
      simp only [step] at hstep
      split_ifs at hstep with hphase
      obtain rfl := Option.some.inj hstep
      simp only [Action.bucketEvent, reduceIndependent]
      split_ifs with hfull
      · rw [bucket_reduceAndPartition]
        rfl
      · rfl
  | epilogue w =>
      simp only [step] at hstep
      split_ifs at hstep with hphase
      obtain rfl := Option.some.inj hstep
      exact bucket_reduceAndPartition cfg
  | stepDpu =>
      simp only [step] at hstep
      split_ifs at hstep with hphase
      obtain rfl := Option.some.inj hstep
      simp only [Action.bucketEvent, stepDpu, sendStep, zeroGrad]
      split_ifs
      all_goals rfl
  | partitionAll w =>
      simp only [step] at hstep
      split_ifs at hstep with hphase
      obtain rfl := Option.some.inj hstep
      exact bucket_flushPendingRs cfg
  | update =>
      simp only [step] at hstep
      split_ifs at hstep with hphase hboundary
      · obtain ⟨s₁, hupdate, rfl⟩ := Option.map_eq_some_iff.mp hstep
        simp only [updateNewParams] at hupdate
        split_ifs at hupdate with hpending
        · split at hupdate
          · cases hupdate
          · obtain rfl := Option.some.inj hupdate
            rfl
        · obtain rfl := Option.some.inj hupdate
          rfl
      · obtain rfl := Option.some.inj hstep
        rfl
  | workerRecv =>
      simp only [step] at hstep
      split at hstep
      · obtain rfl := Option.some.inj hstep
        rfl
      · cases hstep
  | workerStep =>
      simp only [step] at hstep
      split at hstep
      · split_ifs at hstep
        obtain rfl := Option.some.inj hstep
        rfl
      · cases hstep
  | workerDone =>
      simp only [step] at hstep
      split at hstep
      · split_ifs at hstep
        obtain rfl := Option.some.inj hstep
        rfl
      · cases hstep

/-- What a run submits depends on the bucket and the hooks alone. -/
theorem outputs_submits (acts : List (Action V))
    (hrun : (run (step cfg b) s acts).isSome) :
    outputs (step cfg b) (submits cfg) s acts =
      cfg.reductions s.paramsInIpgBucket (acts.filterMap Action.bucketEvent) := by
  induction acts generalizing s with
  | nil => rfl
  | cons a acts ih =>
      obtain ⟨s', hrun⟩ := Option.isSome_iff_exists.mp hrun
      obtain ⟨s₁, hstep, hrest⟩ := Option.bind_eq_some_iff.mp hrun
      have htail := ih (s := s₁) (Option.isSome_iff_exists.mpr ⟨s', hrest⟩)
      have hbucket := bucket_step cfg hstep
      unfold outputs
      rw [hstep]
      dsimp only
      rw [htail, hbucket]
      cases a with
      | hook p w =>
          change _ = cfg.reductions s.paramsInIpgBucket
            (.gradient p :: acts.filterMap Action.bucketEvent)
          rw [Config.reductions]
          simp only [Action.bucketEvent, submits]
          have hiff := full_iff cfg (s := s) (p := p)
          by_cases hfull : s.full cfg p
          · rw [if_pos hfull, if_pos hfull, if_pos (hiff.mp hfull)]
          · rw [if_neg hfull, if_neg hfull, if_neg (mt hiff.mpr hfull)]
            rfl
      | epilogue w => rfl
      | stepDpu => rfl
      | partitionAll w => rfl
      | update => rfl
      | workerRecv => rfl
      | workerStep => rfl
      | workerDone => rfl

end State

/-- The ReduceScatters that the loop on a rank submits. -/
def reductionsOf [AddZeroClass V] (b : Backward V) (acts : List (Action V)) : List Reduction :=
  outputs (State.step cfg b) (State.submits cfg) (.init cfg) acts

/-- The same hooks submit the same on all ranks. -/
theorem reductionsOf_onRank [AddZeroClass V] {b : Backward V} {acts : List (Action V)}
    {rank : ℕ} (hrun : (run (State.step (cfg.onRank rank) b)
      (.init (cfg.onRank rank)) acts).isSome) :
    reductionsOf (cfg.onRank rank) b acts =
      cfg.reductions [] (acts.filterMap Action.bucketEvent) := by
  unfold reductionsOf
  rw [State.outputs_submits _ _ hrun, cfg.reductions_onRank]
  rfl

end SmartNic.Training
