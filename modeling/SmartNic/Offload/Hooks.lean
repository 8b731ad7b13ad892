import SmartNic.Offload.Coordinator

/-!
# The hooks on all ranks

The module hooks of `parameter_offload.py` with `fetch_sub_module`, and the ranks
that run them.  Rank by rank the sets have their own orders and the GPU its own
speed.
-/

namespace SmartNic.Offload

/-- What is up to the rank in a hook: how it iterates over the set of parameters
to start their AllGathers and to wait for them, how over the set to prefetch, and
how many fetch events have completed when it waits for a parameter. -/
structure Local where
  gatherOrder : SetOrder
  waitOrder : SetOrder
  prefetchOrder : SetOrder
  completedEvents : ParamId → ℕ

/-- A rank with the lengths of its `__ongoing_fetch_events`. -/
structure Rank where
  state : State
  ongoingFetchEvents : Bool → ℕ

/-- The calls of the hooks, and of `reset_step` and `partition_all_parameters`. -/
inductive HookEvent where
  | preForward (m : ModuleId) (training : Bool)
  /-- With the parameters in the output of the module. -/
  | postForward (m : ModuleId) (training : Bool) (output : List ParamId)
  | preBackward (m : ModuleId) (training : Bool)
  | postBackward (m : ModuleId) (training : Bool)
  | getParameter (p : ParamId)
  | resetStep (training : Bool)
  | partitionAllParameters (m : ModuleId) (training : Bool)
  /-- The hook of a gradient. -/
  | gradient (p : ParamId)
  /-- `independent_gradient_partition_epilogue`. -/
  | epilogue
deriving DecidableEq, Repr

def Rank.init (cfg : Config) : Rank where
  state := .init cfg
  ongoingFetchEvents := fun _ => 0

/-- The length of `__ongoing_fetch_events` after a wait: completed events are
dropped, at most `__max_ongoing_fetch_events` of the others stay, and one is
added. -/
def throttle (completed n : ℕ) : ℕ :=
  let n := n - completed
  (if n > 1024 then n - 1 else n) + 1

namespace State

variable (cfg : Config) (t : Bool) (l : Local) (m : ModuleId)

/-- The waiting loop of `fetch_sub_module`. -/
def waitParams (params : List ParamId) (s : State) (events : ℕ) :
    Except Failure (State × ℕ) :=
  params.foldlM
    (fun (s, events) p => do
      let events :=
        if p ∈ (s.coordinator t).inflight then
          throttle (l.completedEvents p) events
        else events
      let s ← s.waitParam t m p
      return (s, events)) (s, events)

/-- `fetch_sub_module`. -/
def fetchSubModule (s : State) (events : ℕ) : Except Failure (State × ℕ) := do
  let paramsToFetch := (s.iterParams cfg m).toFinset
  let s ← s.allGatherParams cfg t (l.gatherOrder.iterate paramsToFetch)
  let (s, events) ←
    s.waitParams t l m (l.waitOrder.iterate paramsToFetch) events
  let s ← s.prefetch cfg t l.prefetchOrder paramsToFetch
  let s := s.modifyCoordinator t fun c => { c with stepId := c.stepId + 1 }
  return (s, events)

/-- The parameters whose `cpu_full_param` the post hooks set or drop. -/
def releasedNow (s : State) : Finset ParamId :=
  ((s.iterParams cfg m).filter (· ∈ s.releasable cfg t m)).toFinset

/-- `FWD_MODULE_STACK.pop()`. -/
def popModule (s : State) : Except Failure State :=
  match s.fwdModuleStack with
  | [] => s.fail .indexError
  | _ :: stack => .ok { s with fwdModuleStack := stack }

/-- `_post_forward_module_hook`. -/
def postForward (output : List ParamId) (s : State) : Except Failure State := do
  let s ← s.popModule
  let s ← output.foldlM (registerDangling m) s
  let s :=
    if cfg.enableFullParamTransfer then
      { s with cpuFullParam := s.cpuFullParam ∪ s.releasedNow cfg t m }
    else s
  return s.releaseSubModule cfg t m

/-- `post_sub_module_backward_function`. -/
def postBackward (s : State) : State :=
  { s with
    cpuFullParam := s.cpuFullParam \ s.releasedNow cfg t m }.releaseSubModule cfg t m

end State

/-- `trace_prologue`, `record_module` and `fetch_sub_module`, as the two pre
hooks call them. -/
def Rank.fetch (cfg : Config) (l : Local) (m : ModuleId) (t : Bool) (r : Rank) :
    Except Failure Rank := do
  let s ← r.state.tracePrologue t m
  let (s, events) ←
    (s.recordModule t m).fetchSubModule cfg t l m (r.ongoingFetchEvents t)
  return {
    state := s
    ongoingFetchEvents := Function.update r.ongoingFetchEvents t events }

/-- Run a hook.  `rank0` is rank 0 at the same point. -/
def Rank.step (cfg : Config) (l : Local) (rank0 : Option Rank) (r : Rank) :
    HookEvent → Except Failure Rank
  | .preForward m t =>
      { r with
        state :=
          { r.state with
            fwdModuleStack := m :: r.state.fwdModuleStack } }.fetch cfg l m t
  | .postForward m t output => do
      let s ← r.state.postForward cfg t m output
      return { r with state := s }
  | .preBackward m t => r.fetch cfg l m t
  | .postBackward m t => .ok { r with state := r.state.postBackward cfg t m }
  | .getParameter p => do
      let s ← r.state.getParameter p
      return { r with state := s }
  | .resetStep t => do
      let s ← r.state.resetStep cfg t (rank0.map (·.state.coordinator t))
      return { r with state := s }
  | .partitionAllParameters m t => do
      let s ← r.state.releaseAndResetAll cfg t m
      return { r with state := s }
  | .gradient _ => .ok r
  | .epilogue => .ok r

/-- All ranks; one that has failed stays where it is. -/
abbrev Ranks := ℕ → Except Failure Rank

/-- Every rank runs a hook. -/
def Ranks.step (cfg : Config) (locals : ℕ → Local) (e : HookEvent) (w : Ranks) :
    Ranks :=
  fun i => do
    let r ← w i
    r.step cfg (locals i) (w 0).toOption e

/-- Every rank runs the hooks, each given with what is up to the ranks in it. -/
def Ranks.run (cfg : Config) : List (HookEvent × (ℕ → Local)) → Ranks → Ranks
  | [], w => w
  | (e, locals) :: hooks, w => Ranks.run cfg hooks (w.step cfg locals e)

/-- The AllGathers that a rank has requested in `fetch_sub_module`. -/
def requestsOf : Except Failure Rank → List Request
  | .ok r => r.state.requests
  | .error e => e.requests

end SmartNic.Offload
