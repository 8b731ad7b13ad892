import Mathlib
import SmartNic.Offload.Coordinator

/-!
# The hooks around a backward pass

The attributes by which `PreBackwardFunction` and `PostBackwardFunction` of
`parameter_offload.py` fetch and release the parameters of a module, and a
training loop that calls the modules and executes the nodes of the graph.  The hooks
do not see all tensors: they are registered without `with_kwargs`, and
`_apply_to_tensors_only` takes a tensor only if its type is `torch.Tensor` itself.
-/

namespace SmartNic.Offload

/-- A tensor among the inputs or the outputs of a call.  `seen` is whether it is an
argument by position, or returned, perhaps in tuples, lists and dicts, and its type is
`torch.Tensor`; a keyword argument or a `Parameter` is not seen. -/
structure Arg where
  requiresGrad : Bool
  seen : Bool
deriving DecidableEq, Repr

/-- `_apply_to_tensors_only`: the tensors that get a node, by whether they require
grad. -/
def applyToTensorsOnly (args : List Arg) : List Bool :=
  (args.filter Arg.seen).map Arg.requiresGrad

/-- The tensors that require grad and get no node. -/
def unseenGrads (args : List Arg) : ℕ :=
  args.countP fun arg => arg.requiresGrad && !arg.seen

/-- The attributes of a module that the hooks count with. -/
structure HookAttrs where
  appliedPreBackwardRefCnt : ℕ
  dsGradsRemaining : ℤ
  timingCallCounter : ℕ
  /-- `_timing_fwd_call_stack`, its top first. -/
  timingFwdCallStack : List ℕ
  timingBwdActiveCall : Option ℕ
  timingLastBwdPreCall : Option ℕ

namespace HookAttrs

/-- After `_register_hooks_recursively`; `applied_pre_backward_ref_cnt` is made
when it is first counted up. -/
def init : HookAttrs where
  appliedPreBackwardRefCnt := 0
  dsGradsRemaining := 0
  timingCallCounter := 0
  timingFwdCallStack := []
  timingBwdActiveCall := none
  timingLastBwdPreCall := none

variable (a : HookAttrs)

/-- `_pre_forward_module_hook`. -/
def preForwardModuleHook : HookAttrs :=
  { a with
    timingCallCounter := a.timingCallCounter + 1
    timingFwdCallStack := (a.timingCallCounter + 1) :: a.timingFwdCallStack }

/-- `PostBackwardFunction.forward` of an input. -/
def postBackwardForward (a : HookAttrs) (requiresGrad : Bool) : HookAttrs :=
  if requiresGrad then { a with dsGradsRemaining := a.dsGradsRemaining + 1 } else a

/-- `_post_backward_module_hook`, with which tensors of the inputs require
grad. -/
def postBackwardModuleHook (inputs : List Bool) : HookAttrs :=
  inputs.foldl postBackwardForward { a with dsGradsRemaining := 0 }

/-- `PreBackwardFunction.forward` of an output. -/
def preBackwardForward (a : HookAttrs) (_requiresGrad : Bool) : HookAttrs :=
  { a with appliedPreBackwardRefCnt := a.appliedPreBackwardRefCnt + 1 }

/-- `_pre_backward_module_hook`. -/
def preBackwardModuleHook (outputs : List Bool) : HookAttrs :=
  outputs.foldl preBackwardForward a

/-- `_run_before_backward_function`, and whether it calls
`pre_sub_module_backward_function`. -/
def runBeforeBackwardFunction : HookAttrs × Bool :=
  if a.appliedPreBackwardRefCnt > 0 then
    match a.timingFwdCallStack with
    | [] =>
        ({ a with
            timingBwdActiveCall := none
            appliedPreBackwardRefCnt := a.appliedPreBackwardRefCnt - 1 }, true)
    | callId :: _ =>
        if a.timingLastBwdPreCall = some callId then
          ({ a with timingBwdActiveCall := some callId }, false)
        else
          ({ a with
              timingBwdActiveCall := some callId
              timingLastBwdPreCall := some callId
              appliedPreBackwardRefCnt := a.appliedPreBackwardRefCnt - 1 }, true)
  else (a, false)

/-- `PostBackwardFunction.backward` with `_run_after_backward_function`, and
whether it calls `post_sub_module_backward_function`. -/
def postBackwardBackward : HookAttrs × Bool :=
  let a := { a with dsGradsRemaining := a.dsGradsRemaining - 1 }
  if a.dsGradsRemaining = 0 then
    ({ a with
        timingFwdCallStack := a.timingFwdCallStack.tail
        timingBwdActiveCall := none }, true)
  else (a, false)

end HookAttrs

/-! ## Forward and backward passes -/

/-- A forward call: the nodes of the graph that the hooks have made for its inputs and
outputs and the tensors that require grad without a node, how many of them have been
executed or got their gradient, and how often the two functions ran. -/
structure ForwardCall where
  gradInputs : ℕ
  unseenInputs : ℕ
  gradOutputs : ℕ
  unseenOutputs : ℕ
  preRun : ℕ
  unseenPre : ℕ
  postRun : ℕ
  unseenPost : ℕ
  fetches : ℕ
  releases : ℕ
deriving DecidableEq, Repr

def ForwardCall.init (inputs : List Arg) : ForwardCall where
  gradInputs := (applyToTensorsOnly inputs).count true
  unseenInputs := unseenGrads inputs
  gradOutputs := 0
  unseenOutputs := 0
  preRun := 0
  unseenPre := 0
  postRun := 0
  unseenPost := 0
  fetches := 0
  releases := 0

namespace ForwardCall

/-- The inputs that require grad. -/
def inputs (c : ForwardCall) : ℕ := c.gradInputs + c.unseenInputs

/-- The gradients of outputs that have entered the call. -/
def entered (c : ForwardCall) : ℕ := c.preRun + c.unseenPre

/-- The gradients of inputs that have been produced. -/
def produced (c : ForwardCall) : ℕ := c.postRun + c.unseenPost

end ForwardCall

/-- A module with its calls of this forward pass.  `fetched` is whether a
`PreBackward` node has been executed since the last call or release. -/
structure HookedModule where
  attrs : HookAttrs
  numCalls : ℕ
  call : ℕ → ForwardCall
  fetched : Bool

/-- The modules, the calls that are running, the innermost first, and whether
the backward pass has begun. -/
structure Pass where
  modules : ModuleId → HookedModule
  running : List (ModuleId × ℕ)
  inBackward : Bool

/-- What happens to the modules: the pre-forward hooks of a call, the forward
hooks of the innermost one, both with their tensors, the beginning of the backward
pass, a node of the `j`-th call of a module, the gradient of an output or an input of it
that has no node, and the end of the backward pass. -/
inductive PassEvent where
  | enter (m : ModuleId) (inputs : List Arg)
  | leave (outputs : List Arg)
  | backward
  | preNode (m : ModuleId) (j : ℕ)
  | postNode (m : ModuleId) (j : ℕ)
  | unseenOutput (m : ModuleId) (j : ℕ)
  | unseenInput (m : ModuleId) (j : ℕ)
  | finish
deriving DecidableEq, Repr

namespace HookedModule

def init : HookedModule where
  attrs := .init
  numCalls := 0
  call := fun _ => .init []
  fetched := false

variable (x : HookedModule)

def modifyCall (j : ℕ) (f : ForwardCall → ForwardCall) : HookedModule :=
  { x with call := Function.update x.call j (f (x.call j)) }

/-- The two pre-forward hooks, in the order of their registration. -/
def enter (inputs : List Arg) : HookedModule :=
  { attrs := x.attrs.preForwardModuleHook.postBackwardModuleHook
      (applyToTensorsOnly inputs)
    numCalls := x.numCalls + 1
    call := Function.update x.call x.numCalls (.init inputs)
    fetched := false }

/-- `_pre_backward_module_hook` for the `j`-th call. -/
def leave (j : ℕ) (outputs : List Arg) : HookedModule :=
  { x with
    attrs := x.attrs.preBackwardModuleHook
      (applyToTensorsOnly outputs) }.modifyCall j fun c =>
    { c with
      gradOutputs := (applyToTensorsOnly outputs).count true
      unseenOutputs := unseenGrads outputs }

/-- A `PreBackward` node of the `j`-th call is executed. -/
def preNode (j : ℕ) : HookedModule :=
  let (attrs, runs) := x.attrs.runBeforeBackwardFunction
  { x with attrs := attrs, fetched := true }.modifyCall j fun c =>
    { c with
      preRun := c.preRun + 1
      fetches := c.fetches + if runs then 1 else 0 }

/-- A `PostBackward` node of the `j`-th call is executed. -/
def postNode (j : ℕ) : HookedModule :=
  let (attrs, runs) := x.attrs.postBackwardBackward
  { x with
    attrs := attrs
    fetched := x.fetched && !runs }.modifyCall j fun c =>
    { c with
      postRun := c.postRun + 1
      releases := c.releases + if runs then 1 else 0 }

/-- The gradient of an output that has no node enters the `j`-th call. -/
def unseenOutput (j : ℕ) : HookedModule :=
  x.modifyCall j fun c => { c with unseenPre := c.unseenPre + 1 }

/-- The gradient of an input that has no node has been produced. -/
def unseenInput (j : ℕ) : HookedModule :=
  x.modifyCall j fun c => { c with unseenPost := c.unseenPost + 1 }

/-- The graph is freed. -/
def finish : HookedModule :=
  { x with numCalls := 0, fetched := false }

end HookedModule

namespace Pass

def init : Pass where
  modules := fun _ => .init
  running := []
  inBackward := false

variable (s : Pass)

def modify (m : ModuleId) (f : HookedModule → HookedModule) : Pass :=
  { s with modules := Function.update s.modules m (f (s.modules m)) }

/-- A step, if the graph allows it: the nodes of the inputs of a call follow one
of its outputs. -/
def step (s : Pass) : PassEvent → Option Pass
  | .enter m inputs =>
      if s.inBackward then none
      else
        some { s.modify m (·.enter inputs) with
          running := (m, (s.modules m).numCalls) :: s.running }
  | .leave outputs =>
      match s.inBackward, s.running with
      | false, (m, j) :: running =>
          some { s.modify m (·.leave j outputs) with running := running }
      | _, _ => none
  | .backward =>
      if s.inBackward = false ∧ s.running = [] then
        some { s with inBackward := true }
      else none
  | .preNode m j =>
      let x := s.modules m
      if s.inBackward ∧ j < x.numCalls ∧ (x.call j).preRun < (x.call j).gradOutputs
      then some (s.modify m (·.preNode j))
      else none
  | .postNode m j =>
      let x := s.modules m
      if s.inBackward ∧ j < x.numCalls ∧ 0 < (x.call j).entered ∧
          (x.call j).postRun < (x.call j).gradInputs
      then some (s.modify m (·.postNode j))
      else none
  | .unseenOutput m j =>
      let x := s.modules m
      if s.inBackward ∧ j < x.numCalls ∧
          (x.call j).unseenPre < (x.call j).unseenOutputs
      then some (s.modify m (·.unseenOutput j))
      else none
  | .unseenInput m j =>
      let x := s.modules m
      if s.inBackward ∧ j < x.numCalls ∧ 0 < (x.call j).entered ∧
          (x.call j).unseenPost < (x.call j).unseenInputs
      then some (s.modify m (·.unseenInput j))
      else none
  | .finish =>
      if s.inBackward then
        some { s with
          modules := fun m => (s.modules m).finish
          inBackward := false }
      else none

end Pass

/-! ## What the functions do -/

namespace HookAttrs

variable {a : HookAttrs}

theorem postBackwardModuleHook_eq (a : HookAttrs) (inputs : List Bool) :
    a.postBackwardModuleHook inputs =
      { a with dsGradsRemaining := inputs.count true } := by
  have hfold : ∀ (inputs : List Bool) (a : HookAttrs),
      inputs.foldl postBackwardForward a =
        { a with dsGradsRemaining := a.dsGradsRemaining + inputs.count true } := by
    intro inputs
    induction inputs with
    | nil => simp
    | cons requiresGrad inputs ih =>
        intro a
        rw [List.foldl_cons, ih]
        cases requiresGrad with
        | false => simp [postBackwardForward]
        | true =>
            simp only [postBackwardForward, if_true, List.count_cons_self]
            congr 1
            push_cast
            ring
  unfold postBackwardModuleHook
  rw [hfold]
  simp

theorem preBackwardModuleHook_eq (a : HookAttrs) (outputs : List Bool) :
    a.preBackwardModuleHook outputs =
      { a with
        appliedPreBackwardRefCnt :=
          a.appliedPreBackwardRefCnt + outputs.length } := by
  unfold preBackwardModuleHook
  induction outputs generalizing a with
  | nil => rfl
  | cons requiresGrad outputs ih =>
      rw [List.foldl_cons, ih]
      simp only [preBackwardForward, List.length_cons]
      congr 1
      omega

/-- The call on the top, if any, has not been fetched for. -/
theorem runBeforeBackwardFunction_fetch (hcount : 0 < a.appliedPreBackwardRefCnt)
    (hlast : ∀ callId stack, a.timingFwdCallStack = callId :: stack →
      a.timingLastBwdPreCall ≠ some callId) :
    a.runBeforeBackwardFunction =
      ({ a with
          timingBwdActiveCall := a.timingFwdCallStack.head?
          timingLastBwdPreCall :=
            a.timingFwdCallStack.head?.or a.timingLastBwdPreCall
          appliedPreBackwardRefCnt := a.appliedPreBackwardRefCnt - 1 }, true) := by
  unfold runBeforeBackwardFunction
  rw [if_pos hcount]
  cases hstack : a.timingFwdCallStack with
  | nil => rfl
  | cons callId stack => exact if_neg (hlast callId stack hstack)

/-- The call on the top is the last one that was fetched for. -/
theorem runBeforeBackwardFunction_skip {callId : ℕ} {stack : List ℕ}
    (hstack : a.timingFwdCallStack = callId :: stack)
    (hlast : a.timingLastBwdPreCall = some callId) :
    a.runBeforeBackwardFunction.2 = false ∧
      (a.runBeforeBackwardFunction.1 = a ∨
        a.runBeforeBackwardFunction.1 =
          { a with timingBwdActiveCall := some callId }) := by
  unfold runBeforeBackwardFunction
  split_ifs with hcount
  · rw [hstack]
    dsimp only
    rw [if_pos hlast]
    exact ⟨rfl, .inr rfl⟩
  · exact ⟨rfl, .inl rfl⟩

theorem postBackwardBackward_eq (a : HookAttrs) :
    a.postBackwardBackward =
      if a.dsGradsRemaining = 1 then
        ({ a with
            dsGradsRemaining := a.dsGradsRemaining - 1
            timingFwdCallStack := a.timingFwdCallStack.tail
            timingBwdActiveCall := none }, true)
      else ({ a with dsGradsRemaining := a.dsGradsRemaining - 1 }, false) := by
  unfold postBackwardBackward
  exact if_congr Int.sub_eq_zero rfl rfl

end HookAttrs

end SmartNic.Offload
