import SmartNic.Library.Machine
import SmartNic.Offload.BackwardHooks

/-!
# Fetching and releasing in a backward pass

The hooks fetch once for each call and release once after the gradients of its
inputs exactly if the nodes of the graph come in an order that the counters of
the module can follow.
-/

namespace SmartNic.Offload

open Machine

/-- The parameters were fetched once, when the gradient of an output came, and
released once, when the gradients of all inputs had been produced. -/
def ForwardCall.Balanced (c : ForwardCall) : Prop :=
  c.fetches = (if 0 < c.entered then 1 else 0) ∧
    c.releases = if 0 < c.inputs ∧ c.produced = c.inputs then 1 else 0

namespace HookedModule

variable (x : HookedModule)

/-- The `PostBackward` nodes that the last call has. -/
def lastGradInputs : ℕ :=
  (x.call (x.numCalls - 1)).gradInputs

/-- The `PostBackward` nodes that have been executed in this pass. -/
def posts : ℕ :=
  ∑ j ∈ Finset.range x.numCalls, (x.call j).postRun

end HookedModule

/-- The calls of this pass are balanced. -/
def Pass.Balanced (s : Pass) : Prop :=
  ∀ m, ∀ j < (s.modules m).numCalls, ((s.modules m).call j).Balanced

/-- A `PreBackward` node brings the first gradient of its call exactly if none has been
executed since the last call or release of the module, and a `PostBackward` node the
last one of the call's inputs exactly if as many have been executed in the module as its
last call has.  An output without a node does not get the first gradient of a call, and
an input without one does not bring the last. -/
def Pass.InOrder (s : Pass) (e : PassEvent) : Prop :=
  (s.step e).isSome →
    match e with
    | .preNode m j =>
        ((s.modules m).call j).entered = 0 ↔ (s.modules m).fetched = false
    | .postNode m j =>
        (s.modules m).posts + 1 = (s.modules m).lastGradInputs ↔
          ((s.modules m).call j).produced + 1 = ((s.modules m).call j).inputs
    | .unseenOutput m j => 0 < ((s.modules m).call j).entered
    | .unseenInput m j =>
        ((s.modules m).call j).produced + 1 ≠ ((s.modules m).call j).inputs
    | _ => True

instance (s : Pass) : DecidablePred s.InOrder := by
  intro e
  unfold Pass.InOrder
  cases e <;> exact inferInstance

/-! ## What the counters count -/

/-- The ids of `j` calls after the id `base`, the last one first. -/
def callIds (base : ℕ) : ℕ → List ℕ
  | 0 => []
  | j + 1 => (base + j + 1) :: callIds base j

theorem le_of_mem_callIds {base j id : ℕ} (h : id ∈ callIds base j) :
    id ≤ base + j := by
  induction j with
  | zero => cases h
  | succ j ih =>
      rcases List.mem_cons.mp h with rfl | h
      · exact le_rfl
      · exact (ih h).trans (Nat.le_succ _)

namespace HookedModule

/-- The releases of this pass. -/
def released (x : HookedModule) : ℕ :=
  if 0 < x.lastGradInputs ∧ x.lastGradInputs ≤ x.posts then 1 else 0

/-- What the stack of a module and the last call fetched for say of its calls. -/
structure Stacked (x : HookedModule) : Prop where
  stack : ∃ old, x.attrs.timingFwdCallStack =
      callIds (x.attrs.timingCallCounter - x.numCalls) (x.numCalls - x.released) ++
        old ∧
    ∀ id ∈ old, id ≤ x.attrs.timingCallCounter - x.numCalls
  last_le : ∀ id, x.attrs.timingLastBwdPreCall = some id →
    id ≤ x.attrs.timingCallCounter
  fetched : 0 < x.numCalls → x.fetched = true →
    ∃ id stack, x.attrs.timingFwdCallStack = id :: stack ∧
      x.attrs.timingLastBwdPreCall = some id
  unfetched : 0 < x.numCalls → x.fetched = false →
    ∀ id stack, x.attrs.timingFwdCallStack = id :: stack →
      x.attrs.timingLastBwdPreCall ≠ some id
  started : x.released = 0 → ∀ j < x.numCalls, 0 < (x.call j).entered →
    x.fetched = true

/-- What the counters of a module say of its calls. -/
structure Inv (inBackward : Bool) (x : HookedModule) : Prop extends Stacked x where
  balanced : ∀ j < x.numCalls, (x.call j).Balanced
  preRun_le : ∀ j < x.numCalls, (x.call j).preRun ≤ (x.call j).gradOutputs
  postRun_le : ∀ j < x.numCalls, (x.call j).postRun ≤ (x.call j).gradInputs
  unseenPost_le : ∀ j < x.numCalls, (x.call j).unseenPost ≤ (x.call j).unseenInputs
  entered_pos : ∀ j < x.numCalls, 0 < (x.call j).produced → 0 < (x.call j).entered
  preRun_pos : ∀ j < x.numCalls, 0 < (x.call j).entered → 0 < (x.call j).preRun
  forward : inBackward = false → ∀ j < x.numCalls, (x.call j).entered = 0
  numCalls_le : x.numCalls ≤ x.attrs.timingCallCounter
  remaining : 0 < x.numCalls →
    x.attrs.dsGradsRemaining = (x.lastGradInputs : ℤ) - x.posts
  count : ∑ j ∈ Finset.range x.numCalls,
    ((x.call j).gradOutputs - (x.call j).fetches) ≤ x.attrs.appliedPreBackwardRefCnt

variable {b : Bool} {x : HookedModule} {j : ℕ}

theorem Inv.init : (HookedModule.init).Inv false where
  balanced _ hj := absurd hj (Nat.not_lt_zero _)
  preRun_le _ hj := absurd hj (Nat.not_lt_zero _)
  postRun_le _ hj := absurd hj (Nat.not_lt_zero _)
  unseenPost_le _ hj := absurd hj (Nat.not_lt_zero _)
  entered_pos _ hj := absurd hj (Nat.not_lt_zero _)
  preRun_pos _ hj := absurd hj (Nat.not_lt_zero _)
  forward _ _ hj := absurd hj (Nat.not_lt_zero _)
  numCalls_le := le_rfl
  remaining h := absurd h (Nat.not_lt_zero _)
  count := le_rfl
  stack := ⟨[], rfl, fun _ h => absurd h (List.not_mem_nil)⟩
  last_le _ h := by cases h
  fetched h := absurd h (Nat.not_lt_zero _)
  unfetched h := absurd h (Nat.not_lt_zero _)
  started _ _ hj := absurd hj (Nat.not_lt_zero _)

/-- Before the backward pass nothing is released. -/
theorem Inv.posts_forward (h : x.Inv false) : x.posts = 0 := by
  refine Finset.sum_eq_zero fun j hj => ?_
  have hj := Finset.mem_range.mp hj
  by_contra hne
  have hpos := h.entered_pos j hj
    (Nat.lt_of_lt_of_le (Nat.pos_of_ne_zero hne) (Nat.le_add_right _ _))
  rw [h.forward rfl j hj] at hpos
  exact absurd hpos (Nat.lt_irrefl 0)

theorem released_of_posts (h : x.posts = 0) : x.released = 0 := by
  unfold released
  rw [if_neg]
  rintro ⟨hpos, hle⟩
  omega

/-- All ids on the stack are those of earlier calls. -/
theorem Inv.le_of_mem_stack (h : x.Inv b) {id : ℕ}
    (hid : id ∈ x.attrs.timingFwdCallStack) : id ≤ x.attrs.timingCallCounter := by
  obtain ⟨old, hstack, hold⟩ := h.stack
  have hn := h.numCalls_le
  rw [hstack] at hid
  rcases List.mem_append.mp hid with hid | hid
  · have hle := le_of_mem_callIds hid
    omega
  · have hle := hold id hid
    omega

theorem Inv.finish (h : x.Inv b) : x.finish.Inv false where
  balanced _ hj := absurd hj (Nat.not_lt_zero _)
  preRun_le _ hj := absurd hj (Nat.not_lt_zero _)
  postRun_le _ hj := absurd hj (Nat.not_lt_zero _)
  unseenPost_le _ hj := absurd hj (Nat.not_lt_zero _)
  entered_pos _ hj := absurd hj (Nat.not_lt_zero _)
  preRun_pos _ hj := absurd hj (Nat.not_lt_zero _)
  forward _ _ hj := absurd hj (Nat.not_lt_zero _)
  numCalls_le := Nat.zero_le _
  remaining hn := absurd hn (Nat.not_lt_zero _)
  count := Nat.zero_le _
  stack := ⟨x.attrs.timingFwdCallStack, by
    change x.attrs.timingFwdCallStack = callIds _ (0 - _) ++ _
    rw [Nat.zero_sub]
    rfl, fun id hid => h.le_of_mem_stack hid⟩
  last_le := h.last_le
  fetched hn := absurd hn (Nat.not_lt_zero _)
  unfetched hn := absurd hn (Nat.not_lt_zero _)
  started _ _ hj := absurd hj (Nat.not_lt_zero _)

/-- The backward pass begins. -/
theorem Inv.backward (h : x.Inv false) : x.Inv true :=
  { h with forward := fun hb => absurd hb (by decide) }

/-! ## The forward hooks -/

/-- The earlier calls stay, and the new one has no node executed. -/
theorem enter_calls {P : ForwardCall → Prop} (inputs : List Arg)
    (hold : ∀ j < x.numCalls, P (x.call j)) (hnew : P (.init inputs)) :
    ∀ j < x.numCalls + 1, P ((x.enter inputs).call j) := by
  rw [Nat.forall_lt_succ_right]
  constructor
  · intro j hj
    have hcall : (x.enter inputs).call j = x.call j :=
      Function.update_of_ne hj.ne _ _
    rw [hcall]
    exact hold j hj
  · have hcall : (x.enter inputs).call x.numCalls = .init inputs :=
      Function.update_self _ _ _
    rw [hcall]
    exact hnew

/-- A sum over the calls in which a new call does not count. -/
theorem sum_enter (x : HookedModule) (inputs : List Arg) (f : ForwardCall → ℕ)
    (hnew : f (.init inputs) = 0) :
    ∑ j ∈ Finset.range (x.numCalls + 1), f ((x.enter inputs).call j) =
      ∑ j ∈ Finset.range x.numCalls, f (x.call j) := by
  have hcall : (x.enter inputs).call x.numCalls = .init inputs :=
    Function.update_self _ _ _
  rw [Finset.sum_range_succ, hcall, hnew, Nat.add_zero]
  refine Finset.sum_congr rfl fun j hj => congrArg f ?_
  exact Function.update_of_ne (Finset.mem_range.mp hj).ne _ _

theorem enter_attrs (x : HookedModule) (inputs : List Arg) :
    (x.enter inputs).attrs =
      { x.attrs with
        timingCallCounter := x.attrs.timingCallCounter + 1
        timingFwdCallStack :=
          (x.attrs.timingCallCounter + 1) :: x.attrs.timingFwdCallStack
        dsGradsRemaining := (applyToTensorsOnly inputs).count true } :=
  HookAttrs.postBackwardModuleHook_eq _ (applyToTensorsOnly inputs)

theorem Inv.posts_enter (h : x.Inv false) (inputs : List Arg) :
    (x.enter inputs).posts = 0 :=
  (sum_enter x inputs ForwardCall.postRun rfl).trans h.posts_forward

theorem lastGradInputs_enter (x : HookedModule) (inputs : List Arg) :
    (x.enter inputs).lastGradInputs = (applyToTensorsOnly inputs).count true := by
  have hcall : (x.enter inputs).call x.numCalls = .init inputs :=
    Function.update_self _ _ _
  unfold lastGradInputs
  change ((x.enter inputs).call (x.numCalls + 1 - 1)).gradInputs = _
  rw [Nat.add_sub_cancel, hcall]
  rfl

theorem balanced_init (inputs : List Arg) : (ForwardCall.init inputs).Balanced := by
  refine ⟨rfl, ?_⟩
  rw [if_neg]
  · rfl
  · rintro ⟨hpos, heq⟩
    exact absurd heq hpos.ne

/-- The id of a new call is on the top of the stack, and no node has fetched for
it. -/
theorem Inv.stacked_enter (h : x.Inv false) (inputs : List Arg) :
    Stacked (x.enter inputs) := by
  have hattrs := enter_attrs x inputs
  refine ⟨?_, ?_, ?_, ?_, ?_⟩
  · obtain ⟨old, hstack, hle⟩ := h.stack
    rw [released_of_posts h.posts_forward, Nat.sub_zero] at hstack
    refine ⟨old, ?_, ?_⟩
    · rw [released_of_posts (h.posts_enter inputs), hattrs]
      change (x.attrs.timingCallCounter + 1) :: x.attrs.timingFwdCallStack =
        callIds (x.attrs.timingCallCounter + 1 - (x.numCalls + 1))
          (x.numCalls + 1) ++ old
      rw [Nat.add_sub_add_right, callIds, hstack, Nat.sub_add_cancel h.numCalls_le]
      rfl
    · rw [hattrs]
      intro id hid
      change id ≤ x.attrs.timingCallCounter + 1 - (x.numCalls + 1)
      rw [Nat.add_sub_add_right]
      exact hle id hid
  · rw [hattrs]
    intro id hid
    exact (h.last_le id hid).trans (Nat.le_succ _)
  · intro _ hfetched
    cases hfetched
  · rw [hattrs]
    intro _ _ id stack hstack hlast
    have hle := h.last_le id hlast
    obtain rfl := (List.cons.inj hstack).1
    exact absurd hle (Nat.not_succ_le_self _)
  · intro _ j hj hpos
    have hzero : ((x.enter inputs).call j).entered = 0 :=
      enter_calls (P := fun c => c.entered = 0) inputs (h.forward rfl) rfl j hj
    exact absurd hzero hpos.ne'

theorem Inv.enter (h : x.Inv false) (inputs : List Arg) :
    (x.enter inputs).Inv false := by
  have hattrs := enter_attrs x inputs
  refine ⟨h.stacked_enter inputs, ?_, ?_, ?_, ?_, ?_, ?_, ?_, ?_, ?_, ?_⟩
  · exact enter_calls (P := ForwardCall.Balanced) inputs h.balanced (balanced_init _)
  · exact enter_calls (P := fun c => c.preRun ≤ c.gradOutputs) inputs h.preRun_le
      (Nat.zero_le _)
  · exact enter_calls (P := fun c => c.postRun ≤ c.gradInputs) inputs h.postRun_le
      (Nat.zero_le _)
  · exact enter_calls (P := fun c => c.unseenPost ≤ c.unseenInputs) inputs
      h.unseenPost_le (Nat.zero_le _)
  · exact enter_calls (P := fun c => 0 < c.produced → 0 < c.entered) inputs
      h.entered_pos id
  · exact enter_calls (P := fun c => 0 < c.entered → 0 < c.preRun) inputs
      h.preRun_pos id
  · intro _
    exact enter_calls (P := fun c => c.entered = 0) inputs (h.forward rfl) rfl
  · rw [hattrs]
    exact Nat.succ_le_succ h.numCalls_le
  · intro _
    rw [hattrs, h.posts_enter inputs, lastGradInputs_enter]
    exact (Int.sub_zero _).symm
  · rw [hattrs]
    exact (sum_enter x inputs (fun c => c.gradOutputs - c.fetches) rfl).le.trans h.count

theorem modifyCall_call (x : HookedModule) (i j : ℕ) (f : ForwardCall → ForwardCall) :
    (x.modifyCall i f).call j = if j = i then f (x.call i) else x.call j := by
  unfold modifyCall
  by_cases hj : j = i
  · rw [if_pos hj, hj]
    exact Function.update_self _ _ _
  · rw [if_neg hj]
    exact Function.update_of_ne hj _ _

/-- A sum over the calls when one of them changes. -/
theorem sum_modifyCall {n i : ℕ} (hi : i < n) (x : HookedModule)
    (f : ForwardCall → ForwardCall) (v : ForwardCall → ℕ) :
    ∑ j ∈ Finset.range n, v ((x.modifyCall i f).call j) + v (x.call i) =
      ∑ j ∈ Finset.range n, v (x.call j) + v (f (x.call i)) := by
  have hmem := Finset.mem_range.mpr hi
  have hothers : ∑ j ∈ (Finset.range n).erase i, v ((x.modifyCall i f).call j) =
      ∑ j ∈ (Finset.range n).erase i, v (x.call j) := by
    refine Finset.sum_congr rfl fun j hj => ?_
    rw [modifyCall_call, if_neg (Finset.ne_of_mem_erase hj)]
  rw [← Finset.add_sum_erase _ _ hmem,
    ← Finset.add_sum_erase _ (fun j => v (x.call j)) hmem, hothers,
    modifyCall_call, if_pos rfl]
  omega

theorem lastGradInputs_modifyCall (x : HookedModule) (i : ℕ)
    {f : ForwardCall → ForwardCall} (hinputs : ∀ c, (f c).gradInputs = c.gradInputs) :
    (x.modifyCall i f).lastGradInputs = x.lastGradInputs := by
  unfold lastGradInputs
  rw [modifyCall_call]
  split_ifs with heq
  · rw [hinputs, ← heq]
    rfl
  · rfl

theorem posts_modifyCall (hj : j < x.numCalls) (f : ForwardCall → ForwardCall) :
    (x.modifyCall j f).posts + (x.call j).postRun =
      x.posts + (f (x.call j)).postRun :=
  sum_modifyCall hj x f (·.postRun)

/-- The releases do not change with a call whose `PostBackward` nodes stay. -/
theorem released_modifyCall (hj : j < x.numCalls) {f : ForwardCall → ForwardCall}
    (hinputs : ∀ c, (f c).gradInputs = c.gradInputs)
    (hpost : ∀ c, (f c).postRun = c.postRun) :
    (x.modifyCall j f).released = x.released := by
  have hposts := posts_modifyCall hj f
  rw [hpost] at hposts
  unfold released
  rw [lastGradInputs_modifyCall x j hinputs, Nat.add_right_cancel hposts]

/-- The releases after a `PostBackward` node. -/
theorem released_post (hj : j < x.numCalls) {f : ForwardCall → ForwardCall}
    (hinputs : ∀ c, (f c).gradInputs = c.gradInputs)
    (hpost : ∀ c, (f c).postRun = c.postRun + 1) :
    (x.modifyCall j f).released =
      if 0 < x.lastGradInputs ∧ x.lastGradInputs ≤ x.posts + 1 then 1 else 0 := by
  have hposts := posts_modifyCall hj f
  rw [hpost, ← Nat.add_assoc, Nat.add_right_comm] at hposts
  unfold released
  rw [lastGradInputs_modifyCall x j hinputs, Nat.add_right_cancel hposts]

/-- One call changes, and the counters with it. -/
theorem Inv.modifyCall (h : x.Inv b) (hj : j < x.numCalls) {attrs : HookAttrs}
    {fetched : Bool} {f : ForwardCall → ForwardCall}
    (hinputs : ∀ c, (f c).gradInputs = c.gradInputs)
    (hbalanced : (f (x.call j)).Balanced)
    (hpre : (f (x.call j)).preRun ≤ (f (x.call j)).gradOutputs)
    (hpost : (f (x.call j)).postRun ≤ (x.call j).gradInputs)
    (hunseen : (f (x.call j)).unseenPost ≤ (f (x.call j)).unseenInputs)
    (hpos : 0 < (f (x.call j)).produced → 0 < (f (x.call j)).entered)
    (hentered : 0 < (f (x.call j)).entered → 0 < (f (x.call j)).preRun)
    (hforward : b = false → (f (x.call j)).entered = 0)
    (hcounter : attrs.timingCallCounter = x.attrs.timingCallCounter)
    (hremaining : attrs.dsGradsRemaining + (f (x.call j)).postRun =
      x.attrs.dsGradsRemaining + (x.call j).postRun)
    (hcount : x.attrs.appliedPreBackwardRefCnt +
        ((f (x.call j)).gradOutputs - (f (x.call j)).fetches) ≤
      attrs.appliedPreBackwardRefCnt +
        ((x.call j).gradOutputs - (x.call j).fetches))
    (hstacked : Stacked
      ({ x with attrs := attrs, fetched := fetched }.modifyCall j f)) :
    Inv b ({ x with attrs := attrs, fetched := fetched }.modifyCall j f) := by
  have hcases : ∀ {P : ℕ → ForwardCall → Prop}, P j (f (x.call j)) →
      (∀ i < x.numCalls, P i (x.call i)) → ∀ i < x.numCalls,
        P i ({ x with attrs := attrs, fetched := fetched }.modifyCall j f |>.call i) := by
    intro P hself hothers i hi
    rw [modifyCall_call]
    split_ifs with heq
    · rw [heq]
      exact hself
    · exact hothers i hi
  have hlast : ({ x with attrs := attrs, fetched := fetched }.modifyCall j
      f).lastGradInputs = x.lastGradInputs := lastGradInputs_modifyCall _ j hinputs
  have hposts : ({ x with attrs := attrs, fetched := fetched }.modifyCall j f).posts +
      (x.call j).postRun = x.posts + (f (x.call j)).postRun := posts_modifyCall hj f
  have hsum := sum_modifyCall hj { x with attrs := attrs, fetched := fetched } f
    fun c => c.gradOutputs - c.fetches
  refine ⟨hstacked, ?_, ?_, ?_, ?_, ?_, ?_, ?_, ?_, ?_, ?_⟩
  · exact hcases (P := fun _ c => c.Balanced) hbalanced h.balanced
  · exact hcases (P := fun _ c => c.preRun ≤ c.gradOutputs) hpre h.preRun_le
  · refine hcases (P := fun _ c => c.postRun ≤ c.gradInputs) ?_ h.postRun_le
    rw [hinputs]
    exact hpost
  · exact hcases (P := fun _ c => c.unseenPost ≤ c.unseenInputs) hunseen h.unseenPost_le
  · exact hcases (P := fun _ c => 0 < c.produced → 0 < c.entered) hpos h.entered_pos
  · exact hcases (P := fun _ c => 0 < c.entered → 0 < c.preRun) hentered h.preRun_pos
  · intro hb
    exact hcases (P := fun _ c => c.entered = 0) (hforward hb) (h.forward hb)
  · exact h.numCalls_le.trans hcounter.ge
  · intro hn
    have hold := h.remaining hn
    rw [hlast]
    change attrs.dsGradsRemaining = _
    omega
  · have hold := h.count
    change ∑ i ∈ Finset.range x.numCalls, _ ≤ attrs.appliedPreBackwardRefCnt
    dsimp only at hsum
    omega

theorem Inv.leave (h : x.Inv false) (hj : j < x.numCalls) (outputs : List Arg) :
    (x.leave j outputs).Inv false := by
  have hle : (applyToTensorsOnly outputs).count true ≤
      (applyToTensorsOnly outputs).length := List.count_le_length
  have hzero := h.forward rfl j hj
  have hpre : (x.call j).preRun = 0 := by
    unfold ForwardCall.entered at hzero
    omega
  have hbalanced := h.balanced j hj
  have hcode := HookAttrs.preBackwardModuleHook_eq x.attrs (applyToTensorsOnly outputs)
  unfold HookedModule.leave
  rw [hcode]
  refine h.modifyCall hj (fun _ => rfl) hbalanced ?_ (h.postRun_le j hj)
    (h.unseenPost_le j hj) (h.entered_pos j hj) (h.preRun_pos j hj) (fun _ => hzero)
    rfl rfl ?_ ?_
  · dsimp only
    rw [hpre]
    exact Nat.zero_le _
  · dsimp only
    omega
  · have hreleased := released_modifyCall (x := { x with
      attrs := { x.attrs with
        appliedPreBackwardRefCnt :=
          x.attrs.appliedPreBackwardRefCnt + (applyToTensorsOnly outputs).length } }) hj
      (f := fun c =>
        { c with
          gradOutputs := (applyToTensorsOnly outputs).count true
          unseenOutputs := unseenGrads outputs })
      (fun _ => rfl) (fun _ => rfl)
    refine ⟨?_, h.last_le, h.fetched, h.unfetched, ?_⟩
    · rw [hreleased]
      exact h.stack
    · rw [hreleased]
      intro hnone i hi hpos
      refine h.started hnone i hi ?_
      rw [modifyCall_call] at hpos
      split_ifs at hpos with heq
      · rw [heq]
        exact hpos
      · exact hpos

/-! ## The nodes of the graph -/

/-- The counter of the outputs is not used up before the last of them. -/
theorem Inv.count_pos (h : x.Inv b) (hj : j < x.numCalls)
    (hrun : (x.call j).preRun < (x.call j).gradOutputs) :
    0 < x.attrs.appliedPreBackwardRefCnt := by
  have hle : (x.call j).gradOutputs - (x.call j).fetches ≤
      ∑ j ∈ Finset.range x.numCalls, ((x.call j).gradOutputs - (x.call j).fetches) :=
    Finset.single_le_sum (f := fun j => (x.call j).gradOutputs - (x.call j).fetches)
      (fun _ _ => Nat.zero_le _) (Finset.mem_range.mpr hj)
  have hfetches := (h.balanced j hj).1
  have hcount := h.count
  have hpre := h.preRun_pos j hj
  split_ifs at hfetches with hentered
  · have hpos := hpre hentered
    omega
  · omega

/-- What a `PreBackward` node does if none has been executed since the last call
or release. -/
theorem Inv.runs (h : x.Inv b) (hj : j < x.numCalls)
    (hrun : (x.call j).preRun < (x.call j).gradOutputs)
    (hfetched : x.fetched = false) :
    x.attrs.runBeforeBackwardFunction =
      ({ x.attrs with
          timingBwdActiveCall := x.attrs.timingFwdCallStack.head?
          timingLastBwdPreCall :=
            x.attrs.timingFwdCallStack.head?.or x.attrs.timingLastBwdPreCall
          appliedPreBackwardRefCnt := x.attrs.appliedPreBackwardRefCnt - 1 },
        true) :=
  HookAttrs.runBeforeBackwardFunction_fetch (h.count_pos hj hrun)
    (h.unfetched (Nat.zero_lt_of_lt hj) hfetched)

/-- A call whose nodes have not been executed has its id on the stack. -/
theorem Inv.exists_top (h : x.Inv b) (hj : j < x.numCalls)
    (hzero : (x.call j).entered = 0) :
    ∃ id stack, x.attrs.timingFwdCallStack = id :: stack := by
  obtain ⟨old, hstack, -⟩ := h.stack
  have hlt : x.released < x.numCalls := by
    unfold released
    split_ifs with hcond
    · by_contra hle
      have hone : x.numCalls = 1 := by omega
      obtain rfl : j = 0 := by omega
      have hsum : x.posts = (x.call 0).postRun := by
        unfold posts
        rw [hone, Finset.sum_range_one]
      have hpos := h.entered_pos 0 hj (by
        unfold ForwardCall.produced
        omega)
      omega
    · omega
  obtain ⟨n, hn⟩ := Nat.exists_eq_succ_of_ne_zero (Nat.sub_ne_zero_of_lt hlt)
  rw [hn, callIds] at hstack
  exact ⟨_, _, hstack⟩

/-- A `PreBackward` node after which the call has been fetched for once. -/
theorem Inv.preNode_of_attrs (h : x.Inv true) (hj : j < x.numCalls)
    (hrun : (x.call j).preRun < (x.call j).gradOutputs)
    {attrs : HookAttrs} {runs : Bool}
    (hcode : x.attrs.runBeforeBackwardFunction = (attrs, runs))
    (hcounter : attrs.timingCallCounter = x.attrs.timingCallCounter)
    (hremaining : attrs.dsGradsRemaining = x.attrs.dsGradsRemaining)
    (hstack : attrs.timingFwdCallStack = x.attrs.timingFwdCallStack)
    (hfetches : (x.call j).fetches + (if runs then 1 else 0) = 1)
    (hcount : x.attrs.appliedPreBackwardRefCnt =
      attrs.appliedPreBackwardRefCnt + if runs then 1 else 0)
    (htop : ∃ id stack, attrs.timingFwdCallStack = id :: stack ∧
      attrs.timingLastBwdPreCall = some id) : (x.preNode j).Inv true := by
  have hreleases := (h.balanced j hj).2
  unfold HookedModule.preNode
  rw [hcode]
  have hentered : 0 < ForwardCall.entered { x.call j with
      preRun := (x.call j).preRun + 1
      fetches := (x.call j).fetches + if runs then 1 else 0 } :=
    Nat.lt_of_lt_of_le (Nat.succ_pos _) (Nat.le_add_right _ _)
  refine h.modifyCall hj (fun _ => rfl) ⟨?_, hreleases⟩ hrun (h.postRun_le j hj)
    (h.unseenPost_le j hj) (fun _ => hentered) (fun _ => Nat.succ_pos _)
    (fun hb => by cases hb) hcounter ?_ ?_ ?_
  · exact hfetches.trans (if_pos hentered).symm
  · rw [hremaining]
  · dsimp only
    rw [hfetches]
    split_ifs at hcount hfetches
    all_goals omega
  · have hreleased := released_modifyCall (x := { x with
      attrs := attrs, fetched := true }) hj
      (f := fun c =>
        { c with
          preRun := c.preRun + 1
          fetches := c.fetches + if runs then 1 else 0 })
      (fun _ => rfl) (fun _ => rfl)
    refine ⟨?_, ?_, fun _ _ => htop, (fun _ hfalse => by cases hfalse),
      fun _ _ _ _ => rfl⟩
    · rw [hreleased]
      change ∃ old, attrs.timingFwdCallStack =
        callIds (attrs.timingCallCounter - _) _ ++ old ∧
          ∀ id ∈ old, id ≤ attrs.timingCallCounter - _
      rw [hcounter, hstack]
      exact h.stack
    · intro id' hid'
      obtain ⟨id, stack, htop, hlastId⟩ := htop
      obtain rfl := Option.some.inj (hlastId.symm.trans hid')
      change id ≤ attrs.timingCallCounter
      rw [hcounter]
      refine h.le_of_mem_stack ?_
      rw [← hstack, htop]
      exact List.mem_cons_self

theorem Inv.preNode (h : x.Inv true) (hj : j < x.numCalls)
    (hrun : (x.call j).preRun < (x.call j).gradOutputs)
    (horder : (x.call j).entered = 0 ↔ x.fetched = false) :
    (x.preNode j).Inv true := by
  have hfetches := (h.balanced j hj).1
  by_cases hzero : (x.call j).entered = 0
  · have hcode := h.runs hj hrun (horder.mp hzero)
    have hpos := h.count_pos hj hrun
    obtain ⟨id, stack, hstack⟩ := h.exists_top hj hzero
    refine h.preNode_of_attrs hj hrun hcode rfl rfl rfl ?_ ?_ ?_
    · rw [hfetches, hzero]
      rfl
    · dsimp only
      rw [if_pos rfl]
      omega
    · refine ⟨id, stack, hstack, ?_⟩
      dsimp only
      rw [hstack]
      rfl
  · have hfetched : x.fetched = true := by
      rw [← Bool.not_eq_false]
      exact mt horder.mpr hzero
    obtain ⟨id, stack, hstack, hlast⟩ := h.fetched (Nat.zero_lt_of_lt hj) hfetched
    obtain ⟨hruns, hcode⟩ :=
      HookAttrs.runBeforeBackwardFunction_skip hstack hlast
    have hone : (x.call j).fetches = 1 := by
      rw [hfetches, if_pos (Nat.pos_of_ne_zero hzero)]
    rcases hcode with hcode | hcode
    · refine h.preNode_of_attrs hj hrun (Prod.ext hcode hruns) rfl rfl rfl ?_ rfl ?_
      · exact hone
      · exact ⟨id, stack, hstack, hlast⟩
    · refine h.preNode_of_attrs hj hrun (Prod.ext hcode hruns) rfl rfl rfl ?_ rfl ?_
      · exact hone
      · exact ⟨id, stack, hstack, hlast⟩

/-- A call stays balanced only if the order is kept. -/
theorem Inv.preNode_order (h : x.Inv true) (hj : j < x.numCalls)
    (hrun : (x.call j).preRun < (x.call j).gradOutputs)
    (hbalanced : ((x.preNode j).call j).Balanced) :
    (x.call j).entered = 0 ↔ x.fetched = false := by
  have hfetches := (h.balanced j hj).1
  have hafter : (x.call j).fetches +
      (if x.attrs.runBeforeBackwardFunction.2 then 1 else 0) = 1 := by
    have hfirst := hbalanced.1
    unfold HookedModule.preNode at hfirst
    rw [modifyCall_call, if_pos rfl] at hfirst
    refine hfirst.trans (if_pos ?_)
    exact Nat.lt_of_lt_of_le (Nat.succ_pos _) (Nat.le_add_right _ _)
  constructor
  · intro hzero
    rw [← Bool.not_eq_true]
    intro hfetched
    obtain ⟨id, stack, hstack, hlast⟩ := h.fetched (Nat.zero_lt_of_lt hj) hfetched
    rw [(HookAttrs.runBeforeBackwardFunction_skip hstack hlast).1, hfetches,
      hzero] at hafter
    cases hafter
  · intro hfetched
    rw [h.runs hj hrun hfetched, hfetches] at hafter
    by_contra hne
    rw [if_pos (Nat.pos_of_ne_zero hne)] at hafter
    cases hafter

/-- A `PostBackward` node releases if it is the last one that the counter
expects. -/
theorem Inv.releases_iff (h : x.Inv b) (hj : j < x.numCalls) :
    x.attrs.dsGradsRemaining = 1 ↔ x.posts + 1 = x.lastGradInputs := by
  rw [h.remaining (Nat.zero_lt_of_lt hj)]
  omega

/-- While an input has no gradient the call is not released. -/
theorem Inv.releases_eq_zero (h : x.Inv b) (hj : j < x.numCalls)
    (hrun : (x.call j).postRun < (x.call j).gradInputs ∨
      (x.call j).unseenPost < (x.call j).unseenInputs) :
    (x.call j).releases = 0 ∧ (x.call j).produced < (x.call j).inputs := by
  have hlt : (x.call j).produced < (x.call j).inputs := by
    have hpost := h.postRun_le j hj
    have hunseen := h.unseenPost_le j hj
    unfold ForwardCall.produced ForwardCall.inputs
    omega
  have hreleases := (h.balanced j hj).2
  rw [if_neg fun hcond => hlt.ne hcond.2] at hreleases
  exact ⟨hreleases, hlt⟩

/-- The releases of a balanced call one of whose inputs gets its gradient. -/
theorem releases_of_balanced {c c' : ForwardCall} (hbalanced : c'.Balanced)
    (hinputs : c'.inputs = c.inputs) (hproduced : c'.produced = c.produced + 1) :
    c'.releases = if c.produced + 1 = c.inputs then 1 else 0 := by
  rw [hbalanced.2, hinputs, hproduced]
  refine if_congr ?_ rfl rfl
  omega

theorem Inv.postNode_order (h : x.Inv true) (hj : j < x.numCalls)
    (hrun : (x.call j).postRun < (x.call j).gradInputs)
    (hbalanced : ((x.postNode j).call j).Balanced) :
    x.posts + 1 = x.lastGradInputs ↔
      (x.call j).produced + 1 = (x.call j).inputs := by
  have hreleases := (h.releases_eq_zero hj (.inl hrun)).1
  have hafter := releases_of_balanced hbalanced (c := x.call j)
    (by
      unfold HookedModule.postNode
      rw [modifyCall_call, if_pos rfl]
      rfl)
    (by
      unfold HookedModule.postNode
      rw [modifyCall_call, if_pos rfl]
      exact Nat.add_right_comm _ _ _)
  unfold HookedModule.postNode at hafter
  rw [modifyCall_call, if_pos rfl, HookAttrs.postBackwardBackward_eq] at hafter
  dsimp only at hafter
  rw [hreleases, Nat.zero_add] at hafter
  rw [← h.releases_iff hj]
  split_ifs at hafter with hone hlast
  all_goals simp_all

/-- The gradient of an input without a node is not the last. -/
theorem Inv.unseenInput_order (h : x.Inv true) (hj : j < x.numCalls)
    (hrun : (x.call j).unseenPost < (x.call j).unseenInputs)
    (hbalanced : ((x.unseenInput j).call j).Balanced) :
    (x.call j).produced + 1 ≠ (x.call j).inputs := by
  have hreleases := (h.releases_eq_zero hj (.inr hrun)).1
  unfold HookedModule.unseenInput at hbalanced
  rw [modifyCall_call, if_pos rfl] at hbalanced
  have hafter := releases_of_balanced hbalanced (c := x.call j) rfl rfl
  intro hlast
  rw [if_pos hlast] at hafter
  change (x.call j).releases = 1 at hafter
  omega

/-- The gradient of an output without a node is not the first. -/
theorem Inv.unseenOutput_order (h : x.Inv true) (hj : j < x.numCalls)
    (hbalanced : ((x.unseenOutput j).call j).Balanced) : 0 < (x.call j).entered := by
  have hfetches := (h.balanced j hj).1
  unfold HookedModule.unseenOutput at hbalanced
  rw [modifyCall_call, if_pos rfl] at hbalanced
  have hafter := hbalanced.1
  rw [if_pos (by exact Nat.succ_pos _)] at hafter
  change (x.call j).fetches = 1 at hafter
  by_contra hnot
  rw [if_neg hnot] at hfetches
  omega

/-- After a release the call on the top is not the one fetched for. -/
theorem Inv.stacked_release (h : x.Inv true) (hj : j < x.numCalls)
    (hpre : 0 < (x.call j).entered) {y : HookedModule}
    (hcounter : y.attrs.timingCallCounter = x.attrs.timingCallCounter)
    (hlast : y.attrs.timingLastBwdPreCall = x.attrs.timingLastBwdPreCall)
    (hstack : y.attrs.timingFwdCallStack = x.attrs.timingFwdCallStack.tail)
    (hnum : y.numCalls = x.numCalls) (hfetched : y.fetched = false)
    (hbefore : x.released = 0) (hafter : y.released = 1) : Stacked y := by
  obtain ⟨old, hids, hold⟩ := h.stack
  have hn := h.numCalls_le
  obtain ⟨n, hsucc⟩ := Nat.exists_eq_succ_of_ne_zero (Nat.ne_zero_of_lt hj)
  rw [hbefore, Nat.sub_zero, hsucc, callIds] at hids
  rw [hsucc] at hold
  obtain ⟨id, stack, htop, hid⟩ := h.fetched (Nat.zero_lt_of_lt hj)
    (h.started hbefore j hj hpre)
  rw [hids] at htop
  obtain rfl := (List.cons.inj htop).1
  rw [hids] at hstack
  refine ⟨⟨old, ?_, ?_⟩, ?_, ?_, ?_, ?_⟩
  · rw [hstack, hcounter, hafter, hnum, hsucc]
    rfl
  · rw [hcounter, hnum, hsucc]
    exact hold
  · rw [hlast, hcounter]
    exact h.last_le
  · intro _ htrue
    rw [hfetched] at htrue
    cases htrue
  · intro _ _ id' stack' hstack' hid'
    rw [hlast, hid] at hid'
    rw [hstack] at hstack'
    have hmem : id' ∈ callIds (x.attrs.timingCallCounter - (n + 1)) n ++ old := by
      change callIds _ n ++ old = _ at hstack'
      rw [hstack']
      exact List.mem_cons_self
    have hle : id' ≤ x.attrs.timingCallCounter - (n + 1) + n := by
      rcases List.mem_append.mp hmem with hmem | hmem
      · exact le_of_mem_callIds hmem
      · exact (hold id' hmem).trans (Nat.le_add_right _ _)
    have heq := Option.some.inj hid'
    omega
  · intro hzero
    rw [hafter] at hzero
    cases hzero

theorem Inv.postNode (h : x.Inv true) (hj : j < x.numCalls)
    (hpre : 0 < (x.call j).entered)
    (hrun : (x.call j).postRun < (x.call j).gradInputs)
    (horder : x.posts + 1 = x.lastGradInputs ↔
      (x.call j).produced + 1 = (x.call j).inputs) :
    (x.postNode j).Inv true := by
  have hbalanced := h.balanced j hj
  obtain ⟨hreleases, hlt⟩ := h.releases_eq_zero hj (.inl hrun)
  have hafter : ∀ {v : ℕ}, (x.call j).releases + v =
      (if (x.call j).produced + 1 = (x.call j).inputs then 1 else 0) →
      (x.call j).releases + v = if 0 < (x.call j).inputs ∧
        (x.call j).postRun + 1 + (x.call j).unseenPost = (x.call j).inputs
        then 1 else 0 := by
    intro v hv
    rw [hv]
    refine if_congr ?_ rfl rfl
    unfold ForwardCall.produced
    omega
  have hcode := HookAttrs.postBackwardBackward_eq x.attrs
  unfold HookedModule.postNode
  by_cases hlast : x.posts + 1 = x.lastGradInputs
  · rw [if_pos ((h.releases_iff hj).mpr hlast)] at hcode
    rw [hcode]
    refine h.modifyCall hj (fun _ => rfl) ⟨hbalanced.1, hafter ?_⟩ (h.preRun_le j hj)
      hrun (h.unseenPost_le j hj) (fun _ => hpre) (h.preRun_pos j hj)
      (fun hb => by cases hb) rfl ?_ le_rfl ?_
    · rw [hreleases, if_pos rfl, if_pos (horder.mp hlast)]
    · dsimp only
      omega
    · have hbefore : x.released = 0 := by
        unfold released
        rw [if_neg]
        omega
      refine h.stacked_release hj hpre rfl rfl rfl rfl (Bool.and_false _) hbefore ?_
      have hreleased := released_post hj
        (f := fun c =>
          { c with
            postRun := c.postRun + 1
            releases := c.releases + if true then 1 else 0 })
        (fun _ => rfl) (fun _ => rfl)
      exact hreleased.trans (if_pos ⟨by omega, hlast.ge⟩)
  · rw [if_neg (mt (h.releases_iff hj).mp hlast)] at hcode
    rw [hcode]
    refine h.modifyCall hj (fun _ => rfl) ⟨hbalanced.1, hafter ?_⟩ (h.preRun_le j hj)
      hrun (h.unseenPost_le j hj) (fun _ => hpre) (h.preRun_pos j hj)
      (fun hb => by cases hb) rfl ?_ le_rfl ?_
    · rw [hreleases, if_neg Bool.false_ne_true, if_neg (mt horder.mpr hlast)]
    · dsimp only
      omega
    · have hsame : (if 0 < x.lastGradInputs ∧ x.lastGradInputs ≤ x.posts + 1
          then 1 else 0) = x.released := by
        unfold released
        refine if_congr ?_ rfl rfl
        omega
      have hreleased := (released_post hj
        (f := fun c =>
          { c with
            postRun := c.postRun + 1
            releases := c.releases + if false then 1 else 0 })
        (fun _ => rfl) (fun _ => rfl)).trans hsame
      refine ⟨?_, h.last_le, ?_, ?_, ?_⟩
      · obtain ⟨old, hstack, hold⟩ := h.stack
        rw [← hreleased] at hstack
        exact ⟨old, hstack, hold⟩
      · intro hn hfetched
        exact h.fetched hn ((Bool.and_true _).symm.trans hfetched)
      · intro hn hfetched
        exact h.unfetched hn ((Bool.and_true _).symm.trans hfetched)
      · intro hzero i hi hrunning
        have hzero := hreleased.symm.trans hzero
        refine (Bool.and_true _).trans ?_
        rw [modifyCall_call] at hrunning
        by_cases heq : i = j
        · exact h.started hzero j hj hpre
        · rw [if_neg heq] at hrunning
          exact h.started hzero i hi hrunning

/-- A gradient of a tensor without a node changes no counter of the module. -/
theorem Inv.unseen (h : x.Inv true) (hj : j < x.numCalls)
    {f : ForwardCall → ForwardCall} (hinputs : ∀ c, (f c).gradInputs = c.gradInputs)
    (houtputs : ∀ c, (f c).gradOutputs = c.gradOutputs)
    (hpreRun : ∀ c, (f c).preRun = c.preRun) (hpostRun : ∀ c, (f c).postRun = c.postRun)
    (hfetches : ∀ c, (f c).fetches = c.fetches)
    (hbalanced : (f (x.call j)).Balanced)
    (hunseen : (f (x.call j)).unseenPost ≤ (f (x.call j)).unseenInputs)
    (hentered : 0 < (x.call j).entered) (hstill : 0 < (f (x.call j)).entered) :
    (x.modifyCall j f).Inv true := by
  change ({ x.modifyCall j f with attrs := x.attrs, fetched := x.fetched } :
    HookedModule).Inv true
  refine h.modifyCall hj hinputs hbalanced ?_ ?_ hunseen (fun _ => hstill) ?_
    (fun hb => by cases hb) rfl ?_ ?_ ?_
  · rw [hpreRun, houtputs]
    exact h.preRun_le j hj
  · rw [hpostRun]
    exact h.postRun_le j hj
  · intro _
    rw [hpreRun]
    exact h.preRun_pos j hj hentered
  · rw [hpostRun]
  · rw [houtputs, hfetches]
  · have hreleased : (x.modifyCall j f).released = x.released :=
      released_modifyCall hj hinputs hpostRun
    refine ⟨?_, h.last_le, h.fetched, h.unfetched, ?_⟩
    · rw [hreleased]
      exact h.stack
    · rw [hreleased]
      intro hnone i hi hpos
      rw [modifyCall_call] at hpos
      split_ifs at hpos with heq
      · exact h.started hnone j hj hentered
      · exact h.started hnone i hi hpos

theorem Inv.unseenOutput (h : x.Inv true) (hj : j < x.numCalls)
    (horder : 0 < (x.call j).entered) : (x.unseenOutput j).Inv true := by
  obtain ⟨hfetches, hreleases⟩ := h.balanced j hj
  refine h.unseen hj (fun _ => rfl) (fun _ => rfl) (fun _ => rfl) (fun _ => rfl)
    (fun _ => rfl) ⟨?_, hreleases⟩ (h.unseenPost_le j hj) horder (Nat.succ_pos _)
  rw [if_pos horder] at hfetches
  rw [if_pos (by exact Nat.succ_pos _)]
  exact hfetches

theorem Inv.unseenInput (h : x.Inv true) (hj : j < x.numCalls)
    (hentered : 0 < (x.call j).entered)
    (hrun : (x.call j).unseenPost < (x.call j).unseenInputs)
    (horder : (x.call j).produced + 1 ≠ (x.call j).inputs) :
    (x.unseenInput j).Inv true := by
  obtain ⟨hreleases, -⟩ := h.releases_eq_zero hj (.inr hrun)
  refine h.unseen hj (fun _ => rfl) (fun _ => rfl) (fun _ => rfl) (fun _ => rfl)
    (fun _ => rfl) ⟨(h.balanced j hj).1, ?_⟩ hrun hentered hentered
  rw [if_neg fun hcond => horder hcond.2]
  exact hreleases

end HookedModule

/-! ## Passes -/

namespace Pass

variable {s s' : Pass} {e : PassEvent}

/-- What the counters of all modules say. -/
structure Inv (s : Pass) : Prop where
  modules : ∀ m, (s.modules m).Inv s.inBackward
  running : ∀ y ∈ s.running, y.2 < (s.modules y.1).numCalls
  idle : s.inBackward = true → s.running = []

theorem Inv.init : Inv .init where
  modules _ := .init
  running _ hy := absurd hy List.not_mem_nil
  idle h := by cases h

theorem modify_modules (s : Pass) (m m' : ModuleId)
    (f : HookedModule → HookedModule) :
    (s.modify m f).modules m' =
      if m' = m then f (s.modules m) else s.modules m' := by
  unfold modify
  by_cases hm : m' = m
  · rw [if_pos hm, hm]
    exact Function.update_self _ _ _
  · rw [if_neg hm]
    exact Function.update_of_ne hm _ _

/-- One module changes, and not the number of its calls. -/
theorem Inv.modify (h : s.Inv) {m : ModuleId} {f : HookedModule → HookedModule}
    (hinv : (f (s.modules m)).Inv s.inBackward)
    (hnum : (s.modules m).numCalls ≤ (f (s.modules m)).numCalls) :
    (s.modify m f).Inv where
  modules m' := by
    rw [modify_modules]
    split_ifs
    · exact hinv
    · exact h.modules m'
  running y hy := by
    rw [modify_modules]
    have hlt := h.running y hy
    split_ifs with hm
    · rw [hm] at hlt
      exact hlt.trans_le hnum
    · exact hlt
  idle := h.idle

theorem Inv.balanced (h : s.Inv) : s.Balanced :=
  fun m => (h.modules m).balanced

theorem Inv.step (h : s.Inv) (horder : s.InOrder e) (hstep : s.step e = some s') :
    s'.Inv := by
  have horder := horder (Option.isSome_of_eq_some hstep)
  cases e with
  | enter m inputs =>
      simp only [Pass.step] at hstep
      split_ifs at hstep with hforward
      obtain rfl := Option.some.inj hstep
      rw [Bool.not_eq_true] at hforward
      have hm := h.modules m
      rw [hforward] at hm
      have hnext := h.modify (m := m) (f := (·.enter inputs))
        (by rw [hforward]; exact hm.enter inputs) (Nat.le_succ _)
      refine ⟨hnext.modules, ?_, ?_⟩
      · intro y hy
        rcases List.mem_cons.mp hy with rfl | hy
        · change _ < ((s.modify m (·.enter inputs)).modules m).numCalls
          rw [modify_modules, if_pos rfl]
          exact Nat.lt_succ_self _
        · exact hnext.running y hy
      · intro hb
        change s.inBackward = true at hb
        rw [hforward] at hb
        cases hb
  | leave outputs =>
      simp only [Pass.step] at hstep
      split at hstep
      · rename_i m j running hforward hrunning
        obtain rfl := Option.some.inj hstep
        have hj : j < (s.modules m).numCalls := h.running (m, j) (by
          rw [hrunning]
          exact List.mem_cons_self)
        have hm := h.modules m
        rw [hforward] at hm
        have hnext := h.modify (m := m) (f := (·.leave j outputs))
          (by rw [hforward]; exact hm.leave hj outputs) le_rfl
        refine ⟨hnext.modules, ?_, ?_⟩
        · intro y hy
          refine hnext.running y ?_
          change y ∈ s.running
          rw [hrunning]
          exact List.mem_cons_of_mem _ hy
        · intro hb
          change s.inBackward = true at hb
          rw [hforward] at hb
          cases hb
      · cases hstep
  | backward =>
      simp only [Pass.step] at hstep
      split_ifs at hstep with hcond
      obtain rfl := Option.some.inj hstep
      refine ⟨fun m => ?_, h.running, fun _ => hcond.2⟩
      have hm := h.modules m
      rw [hcond.1] at hm
      exact hm.backward
  | preNode m j =>
      simp only [Pass.step] at hstep
      split_ifs at hstep with hcond
      obtain rfl := Option.some.inj hstep
      have hm := h.modules m
      rw [hcond.1] at hm
      refine h.modify ?_ le_rfl
      rw [hcond.1]
      exact hm.preNode hcond.2.1 hcond.2.2 horder
  | postNode m j =>
      simp only [Pass.step] at hstep
      split_ifs at hstep with hcond
      obtain rfl := Option.some.inj hstep
      have hm := h.modules m
      rw [hcond.1] at hm
      refine h.modify ?_ le_rfl
      rw [hcond.1]
      exact hm.postNode hcond.2.1 hcond.2.2.1 hcond.2.2.2 horder
  | unseenOutput m j =>
      simp only [Pass.step] at hstep
      split_ifs at hstep with hcond
      obtain rfl := Option.some.inj hstep
      have hm := h.modules m
      rw [hcond.1] at hm
      refine h.modify ?_ le_rfl
      rw [hcond.1]
      exact hm.unseenOutput hcond.2.1 horder
  | unseenInput m j =>
      simp only [Pass.step] at hstep
      split_ifs at hstep with hcond
      obtain rfl := Option.some.inj hstep
      have hm := h.modules m
      rw [hcond.1] at hm
      refine h.modify ?_ le_rfl
      rw [hcond.1]
      exact hm.unseenInput hcond.2.1 hcond.2.2.1 hcond.2.2.2 horder
  | finish =>
      simp only [Pass.step] at hstep
      split_ifs at hstep with hback
      obtain rfl := Option.some.inj hstep
      refine ⟨fun m => (h.modules m).finish, ?_, fun hb => by cases hb⟩
      intro y hy
      change y ∈ s.running at hy
      rw [h.idle hback] at hy
      cases hy

/-- If the calls are balanced after a step it is in order. -/
theorem Inv.inOrder (h : s.Inv)
    (hbalanced : ∀ s', s.step e = some s' → s'.Balanced) : s.InOrder e := by
  intro hsome
  obtain ⟨s', hstep⟩ := Option.isSome_iff_exists.mp hsome
  have hafter := hbalanced s' hstep
  cases e with
  | preNode m j =>
      simp only [Pass.step] at hstep
      split_ifs at hstep with hcond
      obtain rfl := Option.some.inj hstep
      have hm := h.modules m
      rw [hcond.1] at hm
      have hcall := hafter m j
      rw [modify_modules, if_pos rfl] at hcall
      exact hm.preNode_order hcond.2.1 hcond.2.2 (hcall hcond.2.1)
  | postNode m j =>
      simp only [Pass.step] at hstep
      split_ifs at hstep with hcond
      obtain rfl := Option.some.inj hstep
      have hm := h.modules m
      rw [hcond.1] at hm
      have hcall := hafter m j
      rw [modify_modules, if_pos rfl] at hcall
      exact hm.postNode_order hcond.2.1 hcond.2.2.2 (hcall hcond.2.1)
  | unseenOutput m j =>
      simp only [Pass.step] at hstep
      split_ifs at hstep with hcond
      obtain rfl := Option.some.inj hstep
      have hm := h.modules m
      rw [hcond.1] at hm
      have hcall := hafter m j
      rw [modify_modules, if_pos rfl] at hcall
      exact hm.unseenOutput_order hcond.2.1 (hcall hcond.2.1)
  | unseenInput m j =>
      simp only [Pass.step] at hstep
      split_ifs at hstep with hcond
      obtain rfl := Option.some.inj hstep
      have hm := h.modules m
      rw [hcond.1] at hm
      have hcall := hafter m j
      rw [modify_modules, if_pos rfl] at hcall
      exact hm.unseenInput_order hcond.2.1 hcond.2.2.2 (hcall hcond.2.1)
  | enter m inputs => trivial
  | leave outputs => trivial
  | backward => trivial
  | finish => trivial

end Pass

/-- In every sequence of forward and backward passes, every call is fetched once
before a gradient enters it and released once after those of its inputs, exactly
if the nodes come in an order that the counters can follow. -/
theorem hooks_balanced_iff (events : List PassEvent) :
    AllStates Pass.step Pass.Balanced .init events ↔
      AllSteps Pass.step Pass.InOrder .init events :=
  allStates_iff_allSteps (fun _ _ _ horder hstep h => h.step horder hstep)
    (fun _ h => h.balanced) (fun _ _ h hbalanced => h.inOrder hbalanced) Pass.Inv.init

/-- A tensor that requires grad and that the hooks see. -/
def gradArg : Arg := ⟨true, true⟩

/-- A module is called twice, the second time with its own output. -/
def calledTwice : List PassEvent :=
  [.enter 1 [gradArg], .leave [gradArg], .enter 1 [gradArg], .leave [gradArg],
    .backward, .preNode 1 1, .postNode 1 1, .preNode 1 0, .postNode 1 0]

/-- A module is called with a keyword argument. -/
def calledWithKeyword : List PassEvent :=
  [.enter 1 [⟨true, false⟩], .leave [gradArg], .backward, .preNode 1 0, .unseenInput 1 0]

/-- The first of two calls is never released, nor is one whose only input is a keyword
argument. -/
theorem not_balanced_calledTwice :
    (¬ AllStates Pass.step Pass.Balanced .init calledTwice) ∧
      ¬ AllStates Pass.step Pass.Balanced .init calledWithKeyword := by
  constructor
  · intro h
    have hcalls : ((run Pass.step .init calledTwice).map fun s =>
        ((s.modules 1).numCalls, (s.modules 1).call 0)) =
          some (2, ⟨1, 0, 1, 0, 1, 0, 1, 0, 1, 0⟩) := by decide
    obtain ⟨s, hrun, hcalls⟩ := Option.map_eq_some_iff.mp hcalls
    obtain ⟨hnum, hcall⟩ := Prod.mk.inj hcalls
    have hbalanced := h.last hrun 1 0 (by rw [hnum]; decide)
    rw [hcall] at hbalanced
    cases hbalanced.2
  · intro h
    have hcalls : ((run Pass.step .init calledWithKeyword).map fun s =>
        ((s.modules 1).numCalls, (s.modules 1).call 0)) =
          some (1, ⟨0, 1, 1, 0, 1, 0, 0, 1, 1, 0⟩) := by decide
    obtain ⟨s, hrun, hcalls⟩ := Option.map_eq_some_iff.mp hcalls
    obtain ⟨hnum, hcall⟩ := Prod.mk.inj hcalls
    have hbalanced := h.last hrun 1 0 (by rw [hnum]; decide)
    rw [hcall] at hbalanced
    cases hbalanced.2

end SmartNic.Offload
