import Mathlib
import SmartNic.Partition.Parameter

/-!
# Fetching and releasing parameters

`PartitionedParameterCoordinator` of `partitioned_param_coordinator.py` on one
rank, with `all_gather_coalesced` and its handles from `partition_parameters.py`
and the hooks of `parameter_offload.py`.  The order in which Python iterates over
a set is whatever a `SetOrder` says.
-/

namespace SmartNic.Offload

open SmartNic.Partition (PyError ZeroParamStatus)

/-- `ds_id`. -/
abbrev ParamId := ℕ

/-- `module.id`. -/
abbrev ModuleId := ℕ

/-- A handle, by its place among those made so far. -/
abbrev HandleId := ℕ

/-- `ZeRoTraceMode`. -/
inductive TraceMode where
  | record
  | complete
  | invalid
deriving DecidableEq, Repr

/-- `__ParamInTrace`. -/
structure ParamInTrace where
  param : ParamId
  stepIdLastUsedAt : ℕ
deriving DecidableEq, Repr

/-- The model and the settings, the same on all ranks. -/
structure Config where
  worldSize : ℕ
  prefetchBucketSz : ℤ
  maxReuseDistInNumel : ℤ
  maxNAvailableParams : ℤ
  enableFullParamTransfer : Bool
  root : ModuleId
  /-- `named_parameters(recurse=False)`. -/
  namedParameters : ModuleId → List ParamId
  /-- `named_parameters(recurse=True)`. -/
  recursiveParameters : ModuleId → List ParamId
  dsNumel : ParamId → ℕ
  dsPersist : ParamId → Bool

/-- `ds_tensor.ds_numel`. -/
def Config.shardNumel (cfg : Config) (p : ParamId) : ℕ :=
  let remainder := cfg.dsNumel p % cfg.worldSize
  let padding := if remainder ≠ 0 then cfg.worldSize - remainder else 0
  (cfg.dsNumel p + padding) / cfg.worldSize

/-- `AllGatherHandle`, `AllGatherCoalescedHandle`, `CPUAllGatherCoalescedHandle`. -/
inductive HandleKind where
  | single
  | coalesced
  | cpuFullParam
deriving DecidableEq, Repr

structure Handle where
  kind : HandleKind
  params : List ParamId
deriving DecidableEq, Repr

/-- An AllGather given to the DPU: the parameters in the order of the packed
buffer, the elements of this rank in it and the collective id. -/
structure Request where
  params : List ParamId
  inputNumel : ℕ
  cid : ParamId
deriving DecidableEq, Repr

/-- The attributes of a coordinator.  The registry is its set of keys and the
handle of each. -/
structure Coordinator where
  inflight : Finset ParamId
  handleOf : ParamId → HandleId
  stepId : ℕ
  traceMode : TraceMode
  submoduleOrder : List ModuleId
  paramOrder : List ParamInTrace
  mostRecentStepIdParamFetchedFor : ParamId → ℤ
  stepIdModuleFetchedFor : ModuleId → List ℕ
  nAvailableParams : ℤ
  paramQueue : List ParamInTrace

/-- A rank: its coordinators for training and for evaluation, and what the
parameters, the modules and the handles hold. -/
structure State where
  coordinator : Bool → Coordinator
  dsStatus : ParamId → ZeroParamStatus
  dsActiveSubModules : ParamId → Finset ModuleId
  isExternalParam : Finset ParamId
  /-- `_external_params`. -/
  externalParams : ModuleId → List ParamId
  /-- The parameters whose `cpu_full_param` is not `None`. -/
  cpuFullParam : Finset ParamId
  /-- `FWD_MODULE_STACK`, its top first. -/
  fwdModuleStack : List ModuleId
  handles : List Handle
  /-- The handles whose `__complete` is set. -/
  complete : Finset HandleId
  requests : List Request

/-- An exception, and the AllGathers requested before it. -/
structure Failure where
  error : PyError
  requests : List Request
deriving DecidableEq, Repr

/-- How Python iterates over a set of parameters. -/
structure SetOrder where
  iterate : Finset ParamId → List ParamId
  nodup : ∀ params, (iterate params).Nodup
  mem_iterate : ∀ params p, p ∈ iterate params ↔ p ∈ params

/-- The default of `__most_recent_step_id_param_fetched_for`. -/
def neverFetched : ParamId → ℤ := fun _ => -10000000000

def Coordinator.init : Coordinator where
  inflight := ∅
  handleOf := fun _ => 0
  stepId := 0
  traceMode := .record
  submoduleOrder := []
  paramOrder := []
  mostRecentStepIdParamFetchedFor := neverFetched
  stepIdModuleFetchedFor := fun _ => []
  nAvailableParams := 0
  paramQueue := []

/-- `_clear_trace_structures`. -/
def Coordinator.clearTraceStructures (c : Coordinator) : Coordinator :=
  { c with
    submoduleOrder := []
    paramOrder := []
    mostRecentStepIdParamFetchedFor := neverFetched
    paramQueue := [] }

namespace State

def init (cfg : Config) : State where
  coordinator := fun _ => .init
  dsStatus := fun _ => .notAvailable
  dsActiveSubModules := fun _ => ∅
  isExternalParam := ∅
  externalParams := fun _ => []
  cpuFullParam := ∅
  fwdModuleStack := [cfg.root]
  handles := []
  complete := ∅
  requests := []

variable (cfg : Config) (t : Bool) (s : State)

def fail {α : Type} (error : PyError) : Except Failure α :=
  .error { error, requests := s.requests }

def modifyCoordinator (f : Coordinator → Coordinator) : State :=
  { s with coordinator := Function.update s.coordinator t (f (s.coordinator t)) }

/-- `iter_params`. -/
def iterParams (m : ModuleId) : List ParamId :=
  cfg.namedParameters m ++ s.externalParams m

def setStatus (p : ParamId) (status : ZeroParamStatus) : State :=
  { s with dsStatus := Function.update s.dsStatus p status }

/-! ## Starting an AllGather -/

/-- The first loop of `all_gather_coalesced`. -/
def markInflight (s : State) (p : ParamId) : Except Failure State :=
  if s.dsStatus p = .notAvailable then .ok (s.setStatus p .inflight)
  else s.fail .runtimeError

/-- The rest of `all_gather_coalesced`: a handle, and a request unless all the
parameters are restored from the CPU. -/
def request (params : List ParamId) : State :=
  let params := params.insertionSort (· ≤ ·)
  if cfg.enableFullParamTransfer ∧ ∀ p ∈ params, p ∈ s.cpuFullParam then
    { s with handles := s.handles ++ [⟨.cpuFullParam, params⟩] }
  else
    let kind := if params.length = 1 then .single else .coalesced
    { s with
      handles := s.handles ++ [⟨kind, params⟩]
      requests := s.requests ++
        [{ params
           inputNumel := (params.map cfg.shardNumel).sum
           cid := params.min?.getD 0 }] }

/-- `self.__inflight_param_registry[param] = handle`. -/
def register (handle : HandleId) (s : State) (p : ParamId) :
    Except Failure State :=
  if s.dsStatus p ≠ .inflight then s.fail .assertionError
  else if p ∈ (s.coordinator t).inflight then s.fail .runtimeError
  else
    .ok (s.modifyCoordinator t fun c =>
      { c with
        inflight := insert p c.inflight
        handleOf := Function.update c.handleOf p handle })

/-- `__all_gather_params`. -/
def allGatherParams (params : List ParamId) : Except Failure State :=
  let partitioned := params.filter (s.dsStatus · = .notAvailable)
  let s := s.modifyCoordinator t fun c =>
    { c with
      nAvailableParams :=
        c.nAvailableParams + ((partitioned.map cfg.dsNumel).sum : ℕ) }
  if partitioned = [] then .ok s
  else do
    let s ← partitioned.foldlM markInflight s
    let handle := s.handles.length
    partitioned.foldlM (register t handle) (s.request cfg partitioned)

/-! ## Waiting for it -/

/-- What `AllGatherCoalescedHandle.wait` does to a parameter. -/
def arrive (s : State) (p : ParamId) : Except Failure State :=
  if s.dsStatus p = .inflight then .ok (s.setStatus p .available)
  else s.fail .assertionError

/-- What `CPUAllGatherCoalescedHandle.wait` does to a parameter. -/
def restore (s : State) (p : ParamId) : Except Failure State :=
  if p ∈ s.cpuFullParam then .ok (s.setStatus p .available)
  else s.fail .runtimeError

/-- `wait` of a handle.  Only the coalesced ones have a flag. -/
def waitHandle (handle : HandleId) : Except Failure State :=
  match s.handles[handle]? with
  | none => s.fail .runtimeError
  | some ⟨.single, params⟩ =>
      .ok (params.foldl (fun s p => s.setStatus p .available) s)
  | some ⟨.coalesced, params⟩ =>
      if handle ∈ s.complete then .ok s
      else do
        let s ← params.foldlM arrive s
        return { s with complete := insert handle s.complete }
  | some ⟨.cpuFullParam, params⟩ =>
      if handle ∈ s.complete then .ok s
      else do
        let s ← params.foldlM restore s
        return { s with complete := insert handle s.complete }

/-- The body of the waiting loop of `fetch_sub_module`. -/
def waitParam (m : ModuleId) (s : State) (p : ParamId) : Except Failure State := do
  let s :=
    { s with
      dsActiveSubModules :=
        Function.update s.dsActiveSubModules p (insert m (s.dsActiveSubModules p)) }
  let s ←
    if p ∈ (s.coordinator t).inflight then
      let handle := (s.coordinator t).handleOf p
      (s.modifyCoordinator t fun c =>
        { c with inflight := c.inflight.erase p }).waitHandle handle
    else .ok s
  if s.dsStatus p = .available then .ok s else s.fail .assertionError

/-! ## Prefetching -/

/-- The queue without what is fetched now; `n` parameters are expected. -/
def discardFetched (n : ℕ) : List ParamInTrace → (ParamId → ℤ) → Finset ParamId →
    List ParamInTrace × (ParamId → ℤ) × Finset ParamId
  | [], recent, discarded => ([], recent, discarded)
  | x :: queue, recent, discarded =>
      if discarded.card < n then
        discardFetched n queue
          (Function.update recent x.param x.stepIdLastUsedAt)
          (insert x.param discarded)
      else (x :: queue, recent, discarded)

/-- The parameters to prefetch, from the front of the queue until they have
`limit` elements. -/
def collectPrefetch (limit : ℤ) : List ParamInTrace → (ParamId → ℤ) →
    Finset ParamId → ℕ → List ParamInTrace × (ParamId → ℤ) × Finset ParamId
  | [], recent, params, _ => ([], recent, params)
  | x :: queue, recent, params, numelPrefetching =>
      if numelPrefetching < limit then
        let recent := Function.update recent x.param
          (max (recent x.param) x.stepIdLastUsedAt)
        if s.dsStatus x.param = .notAvailable ∧ x.param ∉ params then
          collectPrefetch limit queue recent (insert x.param params)
            (numelPrefetching + cfg.dsNumel x.param)
        else collectPrefetch limit queue recent params numelPrefetching
      else (x :: queue, recent, params)

/-- The end of `fetch_sub_module`: without a complete trace nothing is
prefetched. -/
def prefetch (order : SetOrder) (paramsToFetch : Finset ParamId) :
    Except Failure State :=
  let c := s.coordinator t
  let notAlreadyFetched := paramsToFetch.filter
    (c.mostRecentStepIdParamFetchedFor · < c.stepId)
  let (queue, recent, discarded) :=
    discardFetched notAlreadyFetched.card c.paramQueue
      c.mostRecentStepIdParamFetchedFor ∅
  if c.traceMode ≠ .complete then .ok s
  else if discarded ≠ notAlreadyFetched then s.fail .runtimeError
  else if cfg.prefetchBucketSz > 0 then
    let maxParamsToPrefetch :=
      min (cfg.maxNAvailableParams - c.nAvailableParams) cfg.prefetchBucketSz
    let (queue, recent, params) :=
      collectPrefetch cfg s maxParamsToPrefetch queue recent ∅ 0
    (s.modifyCoordinator t fun c =>
      { c with
        paramQueue := queue
        mostRecentStepIdParamFetchedFor := recent }).allGatherParams cfg t
      (order.iterate params)
  else
    .ok (s.modifyCoordinator t fun c =>
      { c with
        paramQueue := queue
        mostRecentStepIdParamFetchedFor := recent })

/-! ## Releasing -/

/-- `__release_param`. -/
def releaseParam (s : State) (p : ParamId) : State :=
  if s.dsStatus p = .available ∧ s.dsActiveSubModules p = ∅ then
    (s.setStatus p .notAvailable).modifyCoordinator t fun c =>
      { c with nAvailableParams := c.nAvailableParams - cfg.dsNumel p }
  else s

/-- The parameters of the modules that come next, up to the reuse distance. -/
def reusedSoon : List ModuleId → ℕ → List ParamId
  | [], _ => []
  | m :: modules, paramsTraversed =>
      if paramsTraversed ≥ cfg.maxReuseDistInNumel then []
      else
        s.iterParams cfg m ++ reusedSoon modules
          (paramsTraversed + ((s.iterParams cfg m).map cfg.dsNumel).sum)

/-- `__params_to_release`. -/
def paramsToRelease (m : ModuleId) : List ParamId :=
  let c := s.coordinator t
  (s.iterParams cfg m).filter fun p =>
    !cfg.dsPersist p ∧ ¬ c.mostRecentStepIdParamFetchedFor p > c.stepId ∧
      p ∉ s.reusedSoon cfg (c.submoduleOrder.drop c.stepId) 0

/-- The choice of `release_sub_module`, which the post hooks make too. -/
def releasable (m : ModuleId) : List ParamId :=
  let params :=
    if (s.coordinator t).traceMode = .complete then s.paramsToRelease cfg t m
    else s.iterParams cfg m
  params.filter (· ∉ s.isExternalParam)

/-- `release_sub_module`. -/
def releaseSubModule (m : ModuleId) : State :=
  let params := s.releasable cfg t m
  (s.iterParams cfg m).foldl
    (fun s p =>
      let s :=
        { s with
          dsActiveSubModules :=
            Function.update s.dsActiveSubModules p
              ((s.dsActiveSubModules p).erase m) }
      if p ∈ params then s.releaseParam cfg t p else s) s

/-- `release_and_reset_all`. -/
def releaseAndResetAll (m : ModuleId) : Except Failure State := do
  let params := cfg.recursiveParameters m ++ s.externalParams m
  let s ← params.foldlM
    (fun s p =>
      if p ∈ (s.coordinator t).inflight then s.fail .runtimeError
      else
        let s :=
          { s with
            dsActiveSubModules := Function.update s.dsActiveSubModules p ∅ }
        let s := s.releaseParam cfg t p
        .ok { s with cpuFullParam := s.cpuFullParam.erase p }) s
  if ∀ p ∈ params, s.dsStatus p = .notAvailable then .ok s
  else s.fail .runtimeError

/-! ## The trace -/

/-- `trace_prologue`. -/
def tracePrologue (m : ModuleId) : Except Failure State :=
  let c := s.coordinator t
  if c.traceMode = .complete then
    match c.submoduleOrder[c.stepId]? with
    | none => s.fail .indexError
    | some expected =>
        if m = expected then .ok s
        else
          .ok (s.modifyCoordinator t fun c =>
            { c with traceMode := .invalid }.clearTraceStructures)
  else .ok s

/-- `record_module`, if the coordinator records. -/
def recordModule (m : ModuleId) : State :=
  if (s.coordinator t).traceMode = .record then
    s.modifyCoordinator t fun c =>
      { c with
        submoduleOrder := c.submoduleOrder ++ [m]
        stepIdModuleFetchedFor :=
          Function.update c.stepIdModuleFetchedFor m
            (c.stepIdModuleFetchedFor m ++ [c.stepId]) }
  else s

/-- `record_parameters`. -/
def recordParameters (s : State) (m : ModuleId) : Except Failure State :=
  match (s.coordinator t).stepIdModuleFetchedFor m with
  | [] => s.fail .indexError
  | stepId :: rest =>
      let params := (s.iterParams cfg m).dedup.insertionSort (· ≤ ·)
      .ok (s.modifyCoordinator t fun c =>
        { c with
          stepIdModuleFetchedFor :=
            Function.update c.stepIdModuleFetchedFor m rest
          paramOrder := c.paramOrder ++ params.map (⟨·, stepId⟩) })

/-- `assert_ints_same_as_other_ranks` for the trace; `rank0` is the coordinator
of rank 0, from which the lists are broadcast. -/
def sameAsRank0 (rank0 : Option Coordinator) (c : Coordinator) : Bool :=
  match rank0 with
  | none => false
  | some c₀ =>
      c.submoduleOrder = c₀.submoduleOrder ∧
      c.paramOrder.map ParamInTrace.param = c₀.paramOrder.map ParamInTrace.param ∧
      c.paramOrder.map ParamInTrace.stepIdLastUsedAt =
        c₀.paramOrder.map ParamInTrace.stepIdLastUsedAt

/-- The end of `reset_step`. -/
def restart : State :=
  s.modifyCoordinator t fun c =>
    { c with
      paramQueue := c.paramOrder
      mostRecentStepIdParamFetchedFor := neverFetched
      stepIdModuleFetchedFor := fun _ => []
      stepId := 0
      nAvailableParams := 0 }

/-- `reset_step`. -/
def resetStep (rank0 : Option Coordinator) : Except Failure State := do
  let c := s.coordinator t
  if c.inflight ≠ ∅ then s.fail .runtimeError
  else if c.traceMode = .complete then .ok (s.restart t)
  else if !sameAsRank0 rank0 c then s.fail .runtimeError
  else if c.traceMode = .record then
    let s := s.modifyCoordinator t fun c => { c with paramOrder := [] }
    let s ← c.submoduleOrder.foldlM (recordParameters cfg t) s
    let s := s.modifyCoordinator t fun c => { c with traceMode := .complete }
    .ok (s.restart t)
  else
    .ok ((s.modifyCoordinator t fun c => { c with traceMode := .record }).restart t)

/-! ## External parameters -/

/-- `register_external_parameter` for the top of the stack. -/
def registerExternal (p : ParamId) : Except Failure State :=
  match s.fwdModuleStack with
  | [] => s.fail .indexError
  | top :: _ =>
      if p ∈ s.externalParams top then .ok s
      else
        .ok { s with
          externalParams :=
            Function.update s.externalParams top (s.externalParams top ++ [p]) }

/-- `param.all_gather()`, which waits for its own AllGather. -/
def allGather (p : ParamId) : State :=
  if s.dsStatus p = .notAvailable then s.setStatus p .available else s

/-- `ZeroOrderedDict.__getitem__` in a forward pass. -/
def getParameter (p : ParamId) : Except Failure State :=
  if s.dsStatus p = .notAvailable then do
    let s ← s.registerExternal p
    return s.allGather p
  else .ok s

/-- What `_post_forward_module_hook` does with a parameter in the output. -/
def registerDangling (m : ModuleId) (s : State) (p : ParamId) :
    Except Failure State :=
  if ∃ m' ∈ s.fwdModuleStack, p ∈ s.externalParams m' then .ok s
  else do
    let s ← { s with isExternalParam := insert p s.isExternalParam }.registerExternal p
    let s :=
      { s with
        externalParams :=
          Function.update s.externalParams m ((s.externalParams m).erase p) }
    return s.allGather p

end State

end SmartNic.Offload
