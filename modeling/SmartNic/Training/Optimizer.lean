import SmartNic.Library.Ranges

/-!
# Training with delayed parameter updates

The loop of `run_zero.py` on one rank.  `ZeroOptimizer3` collects the gradients
of a backward pass in buckets and has each bucket reduced while the next one
fills; `_adam_worker` applies them during the next iteration.  A gradient stands
for its values on this rank's shard.  What a ReduceScatter has delivered when it
has been waited for is not up to the loop.
-/

namespace SmartNic.Training

open Ranges

/-- `ds_id`. -/
abbrev DsId := ℕ

/-- The settings of a run.  `O` is what Adam keeps of a shard, its fp32 weights
and moments, and `H` the fp16 weights. -/
structure Config (V O H : Type) where
  worldSize : ℕ
  rank : ℕ
  fp16Groups : List (List DsId)
  nodup : fp16Groups.flatten.Nodup
  dsNumel : DsId → ℕ
  reduceBucketSize : ℕ
  gradientAccumulationSteps : ℕ
  rsUseNccl : Bool
  numSubgroups : ℕ
  subGroup : DsId → ℕ
  subGroup_lt : ∀ p, subGroup p < numSubgroups
  preDivide : V → V
  /-- How what the ranks have of a shard is added up. -/
  sum : DsId → List V → V
  adam : O → V → O
  half : O → H
  weights : DsId → O

/-- The gradient of a micro-step on each rank, and what `param.grad` holds after
it was added to one that had not been dropped. -/
structure Backward (V : Type) where
  grad : ℕ → ℕ → DsId → V
  stale : ℕ → ℕ → DsId → V

variable {V O H : Type}

namespace Config

variable (cfg : Config V O H)

/-- `partition_numel`. -/
def partitionNumel (p : DsId) : ℕ :=
  (cfg.dsNumel p + cfg.worldSize - 1) / cfg.worldSize

/-- `__partition_grads` finds the shard of a rank empty. -/
def emptyOn (r : ℕ) (p : DsId) : Bool := cfg.partitionNumel p * r > cfg.dsNumel p

/-- `all_params`. -/
def allParams : List DsId := cfg.fp16Groups.flatten

/-- `__param_id_to_grad_offset`. -/
def gradOffset (p : DsId) : ℕ :=
  ((cfg.allParams.takeWhile (· ≠ p)).map cfg.partitionNumel).sum

/-- `__param_id_to_grad_partition`. -/
def slot (p : DsId) : Range := ⟨cfg.gradOffset p, cfg.partitionNumel p⟩

/-- The part of `__grad_partitions_flat_buffer` that `__avg_scatter_grads` may pass
as the output. -/
def output (params : List DsId) : Range :=
  ⟨cfg.gradOffset (params.headD 0), (params.map cfg.partitionNumel).sum⟩

/-- Whether it passes this part. -/
def outputInPlace (params : List DsId) : Bool :=
  match params with
  | [] => false
  | first :: rest =>
      let last := rest.getLastD first
      let totalNumel := (params.map cfg.partitionNumel).sum
      let expectedEnd := cfg.gradOffset last + cfg.partitionNumel last
      cfg.gradOffset first + totalNumel = expectedEnd ∧ !cfg.rsUseNccl

/-- The shard of a parameter is delivered where it is kept, if the output is
passed. -/
def inSlot (params : List DsId) (p : DsId) : Bool :=
  p ∈ params ∧ (cfg.output params).start +
    ((params.takeWhile (· ≠ p)).map cfg.partitionNumel).sum = cfg.gradOffset p

/-- What the gradients of the ranks are reduced to. -/
def reduced (p : DsId) (grad : ℕ → V) : V :=
  cfg.sum p ((List.range cfg.worldSize).map fun r => cfg.preDivide (grad r))

end Config

/-- Where the loop is: before `step_dpu`, in the backward pass, before
`_partition_all_parameters`, before `update_new_params`. -/
inductive Phase where
  | start
  | backward
  | partition
  | update
deriving DecidableEq, Repr

/-- `_pending_rs`, and what the gradients that were submitted are reduced to. -/
structure PendingRs (V : Type) where
  params : List DsId
  inPlace : Bool
  submitted : DsId → V

/-- What the loop finds when it has waited for a ReduceScatter. -/
structure Wait (V : Type) where
  /-- `grad_partition` of each parameter. -/
  result : DsId → V
  /-- What is in the slots that the output was written across. -/
  spoilt : DsId → V
  /-- The parameters whose copy from the GPU, which is not waited for, arrives
  after the host has read its target. -/
  late : List DsId

/-- The variables of the loop, of `ZeroOptimizer3` and of the worker.  `kept` has
the parameters whose `param.grad` is still there on the ranks where their shard
is empty. -/
structure State (V O H : Type) where
  phase : Phase
  globalIter : ℕ
  microSteps : ℕ
  dpuSteps : ℕ
  boundaryFlag : Bool
  microStepId : ℕ
  paramsInIpgBucket : List DsId
  pendingRs : Option (PendingRs V)
  gradPartitions : DsId → V
  fp32GradBufs : Bool → DsId → V
  gradBufSwitch : Bool
  adamStepPending : Bool
  /-- The commands `("step", grad_idx)` in the pipe. -/
  commands : List Bool
  /-- The `grad_idx` of the worker and its position in the loop. -/
  worker : Option (Bool × ℕ)
  /-- The answers `"done"` in the pipe. -/
  answers : ℕ
  fp32 : DsId → O
  fp16 : DsId → H
  kept : Finset DsId
  /-- The hooks that have run in this backward pass. -/
  reached : Finset DsId
  /-- The hooks that have run since the last `zero_grad`. -/
  since : Finset DsId
  /-- The sum of the reduced gradients since then. -/
  due : DsId → V

namespace State

def init [Zero V] (cfg : Config V O H) : State V O H where
  phase := .start
  globalIter := 0
  microSteps := 0
  dpuSteps := 0
  boundaryFlag := false
  microStepId := 0
  paramsInIpgBucket := []
  pendingRs := none
  gradPartitions := fun _ => 0
  fp32GradBufs := fun _ _ => 0
  gradBufSwitch := false
  adamStepPending := false
  commands := []
  worker := none
  answers := 0
  fp32 := cfg.weights
  fp16 := fun p => cfg.half (cfg.weights p)
  kept := ∅
  reached := ∅
  since := ∅
  due := fun _ => 0

variable (cfg : Config V O H) (s : State V O H)

/-- `is_gradient_accumulation_boundary`. -/
def boundary : Bool := (s.microSteps + 1) % cfg.gradientAccumulationSteps = 0

/-- `elements_in_ipg_bucket`. -/
def elementsInIpgBucket : ℕ := (s.paramsInIpgBucket.map cfg.dsNumel).sum

/-- `zero_grad`. -/
def zeroGrad [Zero V] : State V O H :=
  { s with
    microStepId := 0
    kept := ∅
    since := ∅
    due := fun _ => 0 }

/-- `step_dpu` of `ZeroOptimizer3`. -/
def sendStep (firstStep : Bool) : State V O H :=
  if firstStep then { s with adamStepPending := false }
  else
    { s with
      commands := s.commands ++ [!s.gradBufSwitch]
      adamStepPending := true }

/-- `step_dpu` of `ZeroWrapperExample`. -/
def stepDpu [Zero V] : State V O H :=
  let s := { s with boundaryFlag := s.boundary cfg }
  let s :=
    if s.boundaryFlag then
      let s := (s.sendStep (s.dpuSteps = 0)).zeroGrad
      { s with dpuSteps := s.dpuSteps + 1 }
    else s
  { s with microSteps := s.microSteps + 1 }

/-- `param.grad` of a rank after the backward pass of this micro-step. -/
def localGrad (b : Backward V) (p : DsId) (r : ℕ) : V :=
  if p ∈ s.kept ∧ cfg.emptyOn r p then b.stale s.globalIter r p
  else b.grad s.globalIter r p

/-- `__grad_partitions_flat_buffer` when the ReduceScatter has been waited for. -/
def arrived (w : Wait V) (rs : PendingRs V) (s : State V O H) : State V O H :=
  { s with
    gradPartitions := fun p =>
      if rs.inPlace ∧ cfg.inSlot rs.params p then w.result p
      else if rs.inPlace ∧ ¬ (cfg.output rs.params).Apart (cfg.slot p) then w.spoilt p
      else s.gradPartitions p }

/-- The loop body of `__partition_grads`. -/
def partitionGrad [Add V] (w : Wait V) (rs : PendingRs V) (s : State V O H)
    (p : DsId) : State V O H :=
  let s := { s with kept := insert p s.kept }
  if cfg.emptyOn cfg.rank p then s
  else
    let old := s.gradPartitions p
    let sameBuffer := rs.inPlace && cfg.inSlot rs.params p
    let isCopy := !sameBuffer && s.microStepId = 0
    let new :=
      if sameBuffer then old
      else if s.microStepId = 0 then w.result p
      else old + w.result p
    let seen := if cfg.rsUseNccl && isCopy && p ∈ w.late then old else new
    { s with
      gradPartitions := Function.update s.gradPartitions p new
      fp32GradBufs :=
        if s.boundary cfg then
          Function.update s.fp32GradBufs s.gradBufSwitch
            (Function.update (s.fp32GradBufs s.gradBufSwitch) p seen)
        else s.fp32GradBufs }

/-- `_flush_pending_rs`, which `__reduce_and_partition_ipg_grads` also does. -/
def flushPendingRs [Add V] (w : Wait V) : State V O H :=
  match s.pendingRs with
  | some rs =>
      { rs.params.foldl (partitionGrad cfg w rs) (s.arrived cfg w rs) with
        pendingRs := none }
  | none => s

/-- `__avg_scatter_grads` for the bucket. -/
def avgScatterGrads (b : Backward V) : PendingRs V :=
  let params := s.paramsInIpgBucket.insertionSort (· ≤ ·)
  { params := params
    inPlace := cfg.outputInPlace params
    submitted := fun p => cfg.reduced p (s.localGrad cfg b p) }

/-- `__reduce_and_partition_ipg_grads`. -/
def reduceAndPartition [Add V] (b : Backward V) (w : Wait V) : State V O H :=
  match s.paramsInIpgBucket with
  | [] => s
  | _ :: _ =>
      let s := s.flushPendingRs cfg w
      { s with
        pendingRs := some (s.avgScatterGrads cfg b)
        paramsInIpgBucket := [] }

/-- There is no room for a gradient in the bucket. -/
def full (p : DsId) : Bool :=
  s.elementsInIpgBucket cfg > 0 &&
    s.elementsInIpgBucket cfg + cfg.dsNumel p > cfg.reduceBucketSize

/-- `reduce_independent_p_g_buckets_and_remove_grads`. -/
def reduceIndependent [Add V] (b : Backward V) (w : Wait V) (p : DsId) :
    State V O H :=
  let s := if s.full cfg p then s.reduceAndPartition cfg b w else s
  { s with paramsInIpgBucket := s.paramsInIpgBucket ++ [p] }

/-- `update_new_params`; it waits for the worker if a step is pending. -/
def updateNewParams : Option (State V O H) :=
  let update (s : State V O H) :=
    { s with
      fp16 := fun p => cfg.half (s.fp32 p)
      gradBufSwitch := !s.gradBufSwitch }
  if s.adamStepPending then
    match s.answers with
    | 0 => none
    | n + 1 => some (update { s with answers := n })
  else some (update s)

end State

inductive Action (V : Type) where
  | stepDpu
  /-- The hook of a parameter. -/
  | hook (p : DsId) (w : Wait V)
  /-- `independent_gradient_partition_epilogue`. -/
  | epilogue (w : Wait V)
  /-- `_partition_all_parameters`. -/
  | partitionAll (w : Wait V)
  /-- `update_new_params`, in the iterations that call it. -/
  | update
  /-- The worker receives a command. -/
  | workerRecv
  /-- The worker makes the Adam step of its next subgroup. -/
  | workerStep
  | workerDone

/-- What the ReduceScatter that an action waits for has left. -/
def Action.wait {V : Type} : Action V → Option (Wait V)
  | .hook _ w => some w
  | .epilogue w => some w
  | .partitionAll w => some w
  | _ => none

/-- The loop on the one hand, the worker on the other.  Autograd runs the hook of
a parameter once in a backward pass. -/
def State.step [AddZeroClass V] (cfg : Config V O H) (b : Backward V)
    (s : State V O H) : Action V → Option (State V O H)
  | .stepDpu =>
      if s.phase = .start then
        some { s.stepDpu cfg with phase := .backward, reached := ∅ }
      else none
  | .hook p w =>
      if s.phase = .backward ∧ p ∈ cfg.allParams ∧ p ∉ s.reached then
        some
          { s.reduceIndependent cfg b w p with
            reached := insert p s.reached
            since := insert p s.since
            due := Function.update s.due p
              (s.due p + cfg.reduced p fun r => b.grad s.globalIter r p) }
      else none
  | .epilogue w =>
      if s.phase = .backward then
        let s := s.reduceAndPartition cfg b w
        some { s with phase := .partition, microStepId := s.microStepId + 1 }
      else none
  | .partitionAll w =>
      if s.phase = .partition then
        some { s.flushPendingRs cfg w with phase := .update }
      else none
  | .update =>
      if s.phase = .update then
        (if s.boundaryFlag then s.updateNewParams cfg else some s).map fun s =>
          { s with phase := .start, globalIter := s.globalIter + 1 }
      else none
  | .workerRecv =>
      match s.worker, s.commands with
      | none, gradIdx :: commands =>
          some { s with worker := some (gradIdx, 0), commands }
      | _, _ => none
  | .workerStep =>
      match s.worker with
      | some (gradIdx, i) =>
          if i < cfg.numSubgroups then
            some
              { s with
                fp32 := fun p =>
                  if cfg.subGroup p = i then
                    cfg.adam (s.fp32 p) (s.fp32GradBufs gradIdx p)
                  else s.fp32 p
                worker := some (gradIdx, i + 1) }
          else none
      | none => none
  | .workerDone =>
      match s.worker with
      | some (_, i) =>
          if i = cfg.numSubgroups then
            some { s with worker := none, answers := s.answers + 1 }
          else none
      | none => none

end SmartNic.Training
