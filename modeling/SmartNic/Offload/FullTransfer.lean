import SmartNic.Library.Machine
import SmartNic.Library.PendingWrites
import SmartNic.Offload.Coordinator

/-!
# Full parameters on the CPU

With `ENABLE_FULL_PARAM_TRANSFER` the forward hooks copy full parameters to pinned
buffers on the CPU, and a later AllGather copies them back.  The first copies are
on the compute stream and the second ones on the AllGather stream, and only the
host waits for the second ones.
-/

namespace SmartNic.Offload

open Machine PendingWrites
open SmartNic.Partition (ZeroParamStatus)

/-- A pinned buffer, by its place among those allocated for its parameter. -/
abbrev Buffer := ParamId × ℕ

/-- A copy from a pinned buffer to `param.data` and the elements that are not
copied yet. -/
structure Restore where
  param : ParamId
  buffer : ℕ
  todo : Finset ℕ

/-- The parameters of a rank, and the copies that are pending on its two streams. -/
structure FullTransfer (α : Type) where
  dsStatus : ParamId → ZeroParamStatus
  /-- `param.data` on the GPU, which has elements while it is available. -/
  data : ParamId → ℕ → α
  /-- What an AllGather of the current shards delivers. -/
  full : ParamId → ℕ → α
  cpuFullParam : ParamId → Option ℕ
  cpuFullParamPool : ParamId → Option ℕ
  numBuffers : ParamId → ℕ
  bufferNumel : Buffer → ℕ
  pinned : Buffer → ℕ → α
  /-- On the compute stream, from `param.data` to pinned buffers. -/
  copies : List (Write Buffer ℕ α)
  /-- On the AllGather stream. -/
  restores : List Restore
  handles : List Handle
  complete : Finset HandleId

/-- What the hooks call, and the progress of the two streams. -/
inductive TransferEvent (α : Type) where
  | allGatherCoalesced (params : List ParamId)
  | wait (handle : HandleId)
  /-- With the parameters that the hook releases. -/
  | postForward (params : List ParamId)
  | postBackward (params : List ParamId)
  | release (p : ParamId)
  | partitionAllParameters
  /-- An optimizer step, and what the new shards are gathered to. -/
  | step (full : ParamId → ℕ → α)
  | copyElement (i : ℕ)
  | copyDone
  | restoreElement (i : ℕ)
  | restoreDone

namespace FullTransfer

variable {α : Type}

/-- Without full parameters on the CPU; memory holds anything. -/
def init (full data : ParamId → ℕ → α) (pinned : Buffer → ℕ → α) : FullTransfer α where
  dsStatus := fun _ => .notAvailable
  data := data
  full := full
  cpuFullParam := fun _ => none
  cpuFullParamPool := fun _ => none
  numBuffers := fun _ => 0
  bufferNumel := fun _ => 0
  pinned := pinned
  copies := []
  restores := []
  handles := []
  complete := ∅

variable (cfg : Config) (s : FullTransfer α)

/-! ## AllGathers -/

/-- The first loop of `all_gather_coalesced`. -/
def markInflight (s : FullTransfer α) (p : ParamId) : Option (FullTransfer α) :=
  if s.dsStatus p = .notAvailable then
    some { s with dsStatus := Function.update s.dsStatus p .inflight }
  else none

/-- `all_gather_coalesced`. -/
def allGatherCoalesced (params : List ParamId) : Option (FullTransfer α) := do
  let s ← params.foldlM markInflight s
  let params := params.insertionSort (· ≤ ·)
  let kind :=
    if cfg.enableFullParamTransfer ∧ ∀ p ∈ params, s.cpuFullParam p ≠ none then
      .cpuFullParam
    else if params.length = 1 then .single
    else .coalesced
  return { s with handles := s.handles ++ [⟨kind, params⟩] }

/-- What `wait` of an AllGather does to a parameter. -/
def deliver (s : FullTransfer α) (p : ParamId) : FullTransfer α :=
  { s with
    data := Function.update s.data p (s.full p)
    dsStatus := Function.update s.dsStatus p .available }

/-- What `CPUAllGatherCoalescedHandle.wait` does to a parameter: `cpu_full.to` gives
a new tensor, into which it is copied. -/
def restore (s : FullTransfer α) (p : ParamId) : Option (FullTransfer α) :=
  match s.cpuFullParam p with
  | none => none
  | some k =>
      if s.bufferNumel (p, k) = cfg.dsNumel p then
        some { s with
          restores := s.restores ++ [⟨p, k, Finset.range (cfg.dsNumel p)⟩]
          dsStatus := Function.update s.dsStatus p .available }
      else none

/-- `wait` of a handle.  Only the coalesced ones have a flag. -/
def wait (handle : HandleId) : Option (FullTransfer α) :=
  match s.handles[handle]? with
  | none => none
  | some ⟨.single, params⟩ => some (params.foldl deliver s)
  | some ⟨.coalesced, params⟩ =>
      if handle ∈ s.complete then some s
      else if ∀ p ∈ params, s.dsStatus p = .inflight then
        some { params.foldl deliver s with complete := insert handle s.complete }
      else none
  | some ⟨.cpuFullParam, params⟩ =>
      if handle ∈ s.complete then some s
      else do
        let s ← params.foldlM (restore cfg) s
        return { s with complete := insert handle s.complete }

/-! ## Copies to the CPU -/

/-- `param.data.numel()`. -/
def dataNumel (p : ParamId) : ℕ :=
  if s.dsStatus p = .available then cfg.dsNumel p else 0

/-- The buffer that `_ensure_pinned_cpu_full_param` starts from. -/
def candidate (p : ParamId) : Option ℕ :=
  match s.cpuFullParam p with
  | some k => some k
  | none => s.cpuFullParamPool p

/-- `_ensure_pinned_cpu_full_param`, with the buffer that it returns. -/
def ensurePinnedCpuFullParam (p : ParamId) : FullTransfer α × ℕ :=
  match (s.candidate p).filter fun k => s.bufferNumel (p, k) = s.dataNumel cfg p with
  | some k => ({ s with cpuFullParam := Function.update s.cpuFullParam p (some k) }, k)
  | none =>
      let k := s.numBuffers p
      ({ s with
          cpuFullParam := Function.update s.cpuFullParam p (some k)
          cpuFullParamPool := Function.update s.cpuFullParamPool p (some k)
          numBuffers := Function.update s.numBuffers p (k + 1)
          bufferNumel := Function.update s.bufferNumel (p, k) (s.dataNumel cfg p) }, k)

/-- The copy of a parameter in `post_sub_module_forward_function`. -/
def copyOut (s : FullTransfer α) (p : ParamId) : FullTransfer α :=
  let numel := s.dataNumel cfg p
  let (s, k) := s.ensurePinnedCpuFullParam cfg p
  { s with copies := s.copies ++ [⟨(p, k), s.data p, Finset.range numel⟩] }

/-- The loop of `post_sub_module_forward_function`. -/
def postForward (params : List ParamId) : FullTransfer α :=
  if cfg.enableFullParamTransfer then params.foldl (copyOut cfg) s else s

/-- What the backward hook and `release_and_reset_all` do to `cpu_full_param`. -/
def dropCpuFullParam (s : FullTransfer α) (p : ParamId) : FullTransfer α :=
  { s with
    cpuFullParamPool :=
      match s.cpuFullParam p with
      | none => s.cpuFullParamPool
      | some k => Function.update s.cpuFullParamPool p (some k)
    cpuFullParam := Function.update s.cpuFullParam p none }

/-- `__release_param`, when no module has the parameter in use. -/
def releaseParam (s : FullTransfer α) (p : ParamId) : FullTransfer α :=
  if s.dsStatus p = .available then
    { s with dsStatus := Function.update s.dsStatus p .notAvailable }
  else s

/-- The body of the loop of `release_and_reset_all`. -/
def resetParam (s : FullTransfer α) (p : ParamId) : FullTransfer α :=
  (s.releaseParam p).dropCpuFullParam p

/-- `release_and_reset_all` for the whole model. -/
def partitionAllParameters : Option (FullTransfer α) :=
  let params := cfg.recursiveParameters cfg.root
  if ∀ p ∈ params, s.dsStatus p ≠ .inflight then
    some (params.foldl resetParam s)
  else none

/-- `_partition_all_parameters` and the new shards of the parameters. -/
def optimizerStep (full : ParamId → ℕ → α) : Option (FullTransfer α) := do
  let s ← s.partitionAllParameters cfg
  return { s with
    full := fun p =>
      if p ∈ cfg.recursiveParameters cfg.root then full p else s.full p }

/-! ## The streams -/

/-- The oldest copy to the CPU copies an element. -/
def copyElement (i : ℕ) : Option (FullTransfer α) :=
  match s.copies with
  | [] => none
  | w :: copies =>
      if i ∈ w.todo then
        some { s with
          pinned := store s.pinned w.target i (w.source i)
          copies := { w with todo := w.todo.erase i } :: copies }
      else none

def copyDone : Option (FullTransfer α) :=
  match s.copies with
  | [] => none
  | w :: copies => if w.todo = ∅ then some { s with copies := copies } else none

/-- The oldest copy to the GPU copies an element. -/
def restoreElement (i : ℕ) : Option (FullTransfer α) :=
  match s.restores with
  | [] => none
  | r :: restores =>
      if i ∈ r.todo then
        some { s with
          data := store s.data r.param i (s.pinned (r.param, r.buffer) i)
          restores := { r with todo := r.todo.erase i } :: restores }
      else none

def restoreDone : Option (FullTransfer α) :=
  match s.restores with
  | [] => none
  | r :: restores =>
      if r.todo = ∅ then some { s with restores := restores } else none

/-- A call of the host, which `_DmaCompletionPoller` keeps in `wait` until the copies
to the GPU are done. -/
def host (next : Option (FullTransfer α)) : Option (FullTransfer α) :=
  if s.restores.isEmpty then next else none

/-- The host makes a call or a stream makes progress. -/
def step : TransferEvent α → Option (FullTransfer α)
  | .allGatherCoalesced params => s.host (s.allGatherCoalesced cfg params)
  | .wait handle => s.host (s.wait cfg handle)
  | .postForward params => s.host (some (s.postForward cfg params))
  | .postBackward params => s.host (some (params.foldl dropCpuFullParam s))
  | .release p => s.host (some (s.releaseParam p))
  | .partitionAllParameters => s.host (s.partitionAllParameters cfg)
  | .step full => s.host (s.optimizerStep cfg full)
  | .copyElement i => s.copyElement i
  | .copyDone => s.copyDone
  | .restoreElement i => s.restoreElement i
  | .restoreDone => s.restoreDone

/-- When the host launches kernels, the parameters that are available are what an
AllGather of the current shards delivers. -/
def Delivered : Prop :=
  s.restores = [] → ∀ p, s.dsStatus p = .available →
    ∀ i < cfg.dsNumel p, s.data p i = s.full p i

/-- An element is copied to the GPU when no copy of it to the CPU is pending. -/
def Synchronized : TransferEvent α → Prop
  | .restoreElement i =>
      ∀ r ∈ s.restores.head?, ∀ w ∈ s.copies, w.target = (r.param, r.buffer) →
        i ∉ w.todo
  | _ => True

instance : DecidablePred (Synchronized s) := by
  intro e
  unfold Synchronized
  cases e <;> exact inferInstance

/-! ## What the buffers will hold -/

/-- What is copied, and what the buffers will hold when all copies are done, is what
an AllGather of the current shards delivers. -/
structure Inv (s : FullTransfer α) : Prop where
  available : ∀ p, s.dsStatus p = .available → ∀ i < cfg.dsNumel p,
    (∀ r ∈ s.restores, r.param = p → i ∉ r.todo) → s.data p i = s.full p i
  kept : ∀ p k, s.cpuFullParam p = some k → s.bufferNumel (p, k) = cfg.dsNumel p →
    ∀ i < cfg.dsNumel p, settled s.pinned s.copies (p, k) i = s.full p i
  restoring : ∀ r ∈ s.restores, s.dsStatus r.param = .available ∧
    s.cpuFullParam r.param = some r.buffer ∧
      s.bufferNumel (r.param, r.buffer) = cfg.dsNumel r.param

variable {cfg s} {s' : FullTransfer α} {p : ParamId}

theorem Inv.init (full data : ParamId → ℕ → α) (pinned : Buffer → ℕ → α) :
    Inv cfg (init full data pinned) := by
  constructor
  · intro p hp
    cases hp
  · intro p k hk
    cases hk
  · intro r hr
    cases hr

theorem Inv.delivered (h : Inv cfg s) : s.Delivered cfg := by
  intro hnil p hp i hi
  apply h.available p hp i hi
  intro r hr
  rw [hnil] at hr
  cases hr

/-- The state while no copy to the GPU is pending. -/
structure Idle (cfg : Config) (s : FullTransfer α) : Prop where
  inv : Inv cfg s
  restores : s.restores = []

theorem Idle.delivered (h : Idle cfg s) (hp : s.dsStatus p = .available) {i : ℕ}
    (hi : i < cfg.dsNumel p) : s.data p i = s.full p i :=
  h.inv.delivered h.restores p hp i hi

/-- Without pending copies to the GPU, the invariant is about the parameters that are
available and about the buffers. -/
theorem Idle.of_delivered (hrestores : s.restores = [])
    (havailable : ∀ p, s.dsStatus p = .available →
      ∀ i < cfg.dsNumel p, s.data p i = s.full p i)
    (hkept : ∀ p k, s.cpuFullParam p = some k →
      s.bufferNumel (p, k) = cfg.dsNumel p →
      ∀ i < cfg.dsNumel p, settled s.pinned s.copies (p, k) i = s.full p i) :
    Idle cfg s := by
  refine ⟨⟨?_, hkept, ?_⟩, hrestores⟩
  · intro p hp i hi _
    exact havailable p hp i hi
  · intro r hr
    rw [hrestores] at hr
    cases hr

/-- A change of statuses that makes no parameter available. -/
theorem Idle.setStatus (h : Idle cfg s) {status : ZeroParamStatus}
    (hstatus : status ≠ .available) (p : ParamId) :
    Idle cfg { s with dsStatus := Function.update s.dsStatus p status } := by
  refine Idle.of_delivered h.restores ?_ h.inv.kept
  intro q hq i hi
  by_cases hqp : q = p
  · subst hqp
    simp only [Function.update_self] at hq
    exact absurd hq hstatus
  · simp only [Function.update_of_ne hqp] at hq
    exact h.delivered hq hi

theorem Idle.markInflight (h : Idle cfg s) (hstep : s.markInflight p = some s') :
    Idle cfg s' := by
  unfold FullTransfer.markInflight at hstep
  split_ifs at hstep
  obtain rfl := Option.some.inj hstep
  exact h.setStatus ZeroParamStatus.noConfusion p

theorem Idle.allGatherCoalesced (h : Idle cfg s) {params : List ParamId}
    (hstep : s.allGatherCoalesced cfg params = some s') : Idle cfg s' := by
  obtain ⟨s₁, hmark, hstep⟩ := Option.bind_eq_some_iff.mp hstep
  obtain rfl := Option.some.inj hstep
  rw [foldlM_eq_run] at hmark
  have hs₁ : Idle cfg s₁ :=
    run_invariant (fun _ _ _ hstep hs => Idle.markInflight hs hstep) hmark h
  exact ⟨⟨hs₁.inv.available, hs₁.inv.kept, hs₁.inv.restoring⟩, hs₁.restores⟩

theorem Idle.deliver (h : Idle cfg s) (p : ParamId) : Idle cfg (s.deliver p) := by
  refine Idle.of_delivered h.restores ?_ h.inv.kept
  intro q hq i hi
  simp only [FullTransfer.deliver] at hq ⊢
  by_cases hqp : q = p
  · rw [hqp, Function.update_self]
  · rw [Function.update_of_ne hqp] at hq ⊢
    exact h.delivered hq hi

/-- A parameter is made available with all of its elements to be copied. -/
theorem Inv.restore (h : Inv cfg s) (hstep : s.restore cfg p = some s') :
    Inv cfg s' := by
  unfold FullTransfer.restore at hstep
  cases hk : s.cpuFullParam p with
  | none =>
      rw [hk] at hstep
      cases hstep
  | some k =>
      rw [hk] at hstep
      dsimp only at hstep
      split_ifs at hstep with hnumel
      obtain rfl := Option.some.inj hstep
      constructor
      · intro q hq i hi htodo
        by_cases hqp : q = p
        · subst hqp
          have hnot := htodo ⟨q, k, _⟩ (List.mem_append_right _ List.mem_cons_self) rfl
          exact absurd (Finset.mem_range.mpr hi) hnot
        · simp only [Function.update_of_ne hqp] at hq
          exact h.available q hq i hi fun r hr => htodo r (List.mem_append_left _ hr)
      · exact h.kept
      · intro r hr
        rcases List.mem_append.mp hr with hr | hr
        · obtain ⟨havailable, hbuffer⟩ := h.restoring r hr
          refine ⟨?_, hbuffer⟩
          by_cases hrp : r.param = p
          · simp [hrp]
          · simpa [Function.update_of_ne hrp] using havailable
        · obtain rfl := List.mem_singleton.mp hr
          exact ⟨by simp, hk, hnumel⟩

theorem Idle.wait (h : Idle cfg s) {handle : HandleId}
    (hstep : s.wait cfg handle = some s') : Inv cfg s' := by
  have hdeliver : ∀ params : List ParamId, Idle cfg (params.foldl FullTransfer.deliver s) :=
    fun params => List.foldlRecOn params _ h fun s hs p _ => hs.deliver p
  unfold FullTransfer.wait at hstep
  split at hstep
  · cases hstep
  · obtain rfl := Option.some.inj hstep
    exact (hdeliver _).inv
  · rename_i params _
    split_ifs at hstep
    · obtain rfl := Option.some.inj hstep
      exact h.inv
    · obtain rfl := Option.some.inj hstep
      have hs := (hdeliver params).inv
      exact ⟨hs.available, hs.kept, hs.restoring⟩
  · split_ifs at hstep
    · obtain rfl := Option.some.inj hstep
      exact h.inv
    · obtain ⟨s₁, hrestore, hstep⟩ := Option.bind_eq_some_iff.mp hstep
      obtain rfl := Option.some.inj hstep
      rw [foldlM_eq_run] at hrestore
      have hs₁ : Inv cfg s₁ :=
        run_invariant (fun _ _ _ hstep hs => Inv.restore hs hstep) hrestore h.inv
      exact ⟨hs₁.available, hs₁.kept, hs₁.restoring⟩

/-! ## Copies to the CPU -/

/-- The buffer that is returned has as many elements as `param.data`; the parameters
and the other buffers are as before. -/
theorem ensurePinnedCpuFullParam_spec (cfg : Config) (s : FullTransfer α)
    (p : ParamId) :
    ∃ k pool num numel, s.ensurePinnedCpuFullParam cfg p =
        ({ s with
            cpuFullParam := Function.update s.cpuFullParam p (some k)
            cpuFullParamPool := pool
            numBuffers := num
            bufferNumel := numel }, k) ∧
      numel (p, k) = s.dataNumel cfg p ∧
      ∀ q k', q ≠ p → numel (q, k') = s.bufferNumel (q, k') := by
  unfold ensurePinnedCpuFullParam
  split
  · rename_i k hk
    refine ⟨k, _, _, _, rfl, ?_, ?_⟩
    · exact of_decide_eq_true (Option.filter_eq_some_iff.mp hk).2
    · intro q k' _
      rfl
  · refine ⟨_, _, _, _, rfl, ?_, ?_⟩
    · exact Function.update_self _ _ _
    · intro q k' hq
      refine Function.update_of_ne ?_ _ _
      intro heq
      exact hq (congrArg Prod.fst heq)

/-- A parameter that is available is copied, and otherwise nothing. -/
theorem Idle.copyOut (h : Idle cfg s) (p : ParamId) : Idle cfg (s.copyOut cfg p) := by
  obtain ⟨k, pool, num, numel, heq, hself, hother⟩ :=
    s.ensurePinnedCpuFullParam_spec cfg p
  unfold FullTransfer.copyOut
  rw [heq]
  dsimp only
  refine Idle.of_delivered h.restores (fun q hq i hi => h.delivered hq hi) ?_
  intro q k' hk' hnumel i hi
  dsimp only at hk' hnumel ⊢
  by_cases hq : q = p
  · subst hq
    rw [Function.update_self] at hk'
    obtain rfl := Option.some.inj hk'
    have havailable : s.dsStatus q = .available := by
      by_contra hnot
      rw [hself, dataNumel, if_neg hnot] at hnumel
      omega
    have hmem : i ∈ Finset.range (s.dataNumel cfg q) := by
      rw [dataNumel, if_pos havailable]
      exact Finset.mem_range.mpr hi
    refine (settled_append_self hmem).trans ?_
    exact h.delivered havailable hi
  · rw [Function.update_of_ne hq] at hk'
    rw [hother q k' hq] at hnumel
    rw [settled_append_of_ne fun heq => hq (congrArg Prod.fst heq)]
    exact h.inv.kept q k' hk' hnumel i hi

theorem Idle.postForward (h : Idle cfg s) (params : List ParamId) :
    Idle cfg (s.postForward cfg params) := by
  unfold FullTransfer.postForward
  split_ifs
  · exact List.foldlRecOn params _ h fun s hs p _ => hs.copyOut p
  · exact h

theorem Idle.dropCpuFullParam (h : Idle cfg s) (p : ParamId) :
    Idle cfg (s.dropCpuFullParam p) := by
  refine Idle.of_delivered h.restores (fun q hq i hi => h.delivered hq hi) ?_
  intro q k hk
  simp only [FullTransfer.dropCpuFullParam] at hk
  by_cases hq : q = p
  · rw [hq, Function.update_self] at hk
    cases hk
  · rw [Function.update_of_ne hq] at hk
    exact h.inv.kept q k hk

theorem Idle.releaseParam (h : Idle cfg s) (p : ParamId) :
    Idle cfg (s.releaseParam p) := by
  unfold FullTransfer.releaseParam
  split_ifs
  · exact h.setStatus ZeroParamStatus.noConfusion p
  · exact h

/-! ## An optimizer step -/

theorem resetParam_status (s : FullTransfer α) (p q : ParamId) :
    (s.resetParam p).dsStatus q =
      if q = p ∧ s.dsStatus p = .available then .notAvailable else s.dsStatus q := by
  unfold resetParam releaseParam dropCpuFullParam
  by_cases hq : q = p
  · subst hq
    split_ifs <;> simp_all
  · split_ifs <;> simp_all

theorem resetParam_cpuFullParam (s : FullTransfer α) (p q : ParamId) :
    (s.resetParam p).cpuFullParam q = if q = p then none else s.cpuFullParam q := by
  have hrelease : (s.releaseParam p).cpuFullParam = s.cpuFullParam := by
    unfold releaseParam
    split_ifs <;> rfl
  unfold resetParam dropCpuFullParam
  dsimp only
  rw [hrelease, Function.update_apply]

/-- No parameter of the model is available or has a value on the CPU after
`release_and_reset_all`. -/
theorem foldl_resetParam (params : List ParamId) (s : FullTransfer α) :
    ∀ p ∈ params, (params.foldl resetParam s).dsStatus p ≠ .available ∧
      (params.foldl resetParam s).cpuFullParam p = none := by
  induction params using List.reverseRecOn with
  | nil => simp
  | append_singleton params p ih =>
      intro q hq
      rw [List.foldl_append, List.foldl_cons, List.foldl_nil, resetParam_status,
        resetParam_cpuFullParam]
      by_cases hqp : q = p
      · subst hqp
        rw [if_pos rfl]
        split_ifs with hcond
        · exact ⟨ZeroParamStatus.noConfusion, rfl⟩
        · exact ⟨fun havailable => hcond ⟨rfl, havailable⟩, rfl⟩
      · rw [if_neg fun hcond => hqp hcond.1, if_neg hqp]
        rcases List.mem_append.mp hq with hq | hq
        · exact ih q hq
        · exact absurd (List.mem_singleton.mp hq) hqp

theorem Idle.partitionAllParameters (h : Idle cfg s)
    (hstep : s.partitionAllParameters cfg = some s') :
    Idle cfg s' ∧ ∀ p ∈ cfg.recursiveParameters cfg.root,
      s'.dsStatus p ≠ .available ∧ s'.cpuFullParam p = none := by
  unfold FullTransfer.partitionAllParameters at hstep
  dsimp only at hstep
  split_ifs at hstep
  obtain rfl := Option.some.inj hstep
  refine ⟨?_, foldl_resetParam _ s⟩
  exact List.foldlRecOn _ _ h fun s hs p _ => (hs.releaseParam p).dropCpuFullParam p

/-- Nothing that was gathered before is kept when the shards change. -/
theorem Idle.optimizerStep (h : Idle cfg s) {full : ParamId → ℕ → α}
    (hstep : s.optimizerStep cfg full = some s') : Idle cfg s' := by
  obtain ⟨s₁, hpartition, hstep⟩ := Option.bind_eq_some_iff.mp hstep
  obtain rfl := Option.some.inj hstep
  obtain ⟨hs₁, hreset⟩ := h.partitionAllParameters hpartition
  refine Idle.of_delivered hs₁.restores ?_ ?_
  · intro p hp i hi
    dsimp only at hp ⊢
    rw [if_neg fun hmem => (hreset p hmem).1 hp]
    exact hs₁.delivered hp hi
  · intro p k hk hnumel i hi
    dsimp only at hk ⊢
    rw [if_neg, hs₁.inv.kept p k hk hnumel i hi]
    intro hmem
    rw [(hreset p hmem).2] at hk
    cases hk

/-! ## The progress of the streams -/

theorem Inv.copyElement (h : Inv cfg s) {i : ℕ} (hstep : s.copyElement i = some s') :
    Inv cfg s' := by
  unfold FullTransfer.copyElement at hstep
  cases hcopies : s.copies with
  | nil =>
      rw [hcopies] at hstep
      cases hstep
  | cons w copies =>
      rw [hcopies] at hstep
      dsimp only at hstep
      split_ifs at hstep with hi
      obtain rfl := Option.some.inj hstep
      refine ⟨h.available, ?_, h.restoring⟩
      intro p k hk hnumel j hj
      dsimp only
      rw [settled_store hi, ← hcopies]
      exact h.kept p k hk hnumel j hj

theorem Inv.copyDone (h : Inv cfg s) (hstep : s.copyDone = some s') : Inv cfg s' := by
  unfold FullTransfer.copyDone at hstep
  cases hcopies : s.copies with
  | nil =>
      rw [hcopies] at hstep
      cases hstep
  | cons w copies =>
      rw [hcopies] at hstep
      dsimp only at hstep
      split_ifs at hstep with htodo
      obtain rfl := Option.some.inj hstep
      refine ⟨h.available, ?_, h.restoring⟩
      intro p k hk hnumel j hj
      dsimp only
      rw [← settled_done htodo, ← hcopies]
      exact h.kept p k hk hnumel j hj

/-- An element that no copy to the CPU is going to write is the right one. -/
theorem Inv.restoreElement (h : Inv cfg s) {i : ℕ}
    (hsync : s.Synchronized (.restoreElement i))
    (hstep : s.restoreElement i = some s') : Inv cfg s' := by
  unfold FullTransfer.restoreElement at hstep
  cases hrestores : s.restores with
  | nil =>
      rw [hrestores] at hstep
      cases hstep
  | cons r restores =>
      rw [hrestores] at hstep
      dsimp only at hstep
      split_ifs at hstep with hi
      obtain rfl := Option.some.inj hstep
      have hr : r ∈ s.restores := hrestores ▸ List.mem_cons_self
      obtain ⟨havailable, hbuffer, hnumel⟩ := h.restoring r hr
      constructor
      · intro p hp j hj htodo
        dsimp only at htodo hp ⊢
        by_cases hpj : p = r.param ∧ j = i
        · obtain ⟨rfl, rfl⟩ := hpj
          have hnow : settled s.pinned s.copies (r.param, r.buffer) j =
              s.pinned (r.param, r.buffer) j :=
            settled_eq (hsync r (by rw [hrestores]; rfl))
          rw [store_self, ← hnow]
          exact h.kept r.param r.buffer hbuffer hnumel j hj
        · rw [store_of_ne _ _ fun hp hji => hpj ⟨hp, hji⟩]
          apply h.available p hp j hj
          intro r' hr' hparam hmem
          rw [hrestores] at hr'
          rcases List.mem_cons.mp hr' with rfl | hr'
          · refine htodo _ List.mem_cons_self hparam ?_
            exact Finset.mem_erase.mpr ⟨fun hji => hpj ⟨hparam.symm, hji⟩, hmem⟩
          · exact htodo r' (List.mem_cons_of_mem _ hr') hparam hmem
      · exact h.kept
      · intro r' hr'
        rcases List.mem_cons.mp hr' with rfl | hr'
        · exact ⟨havailable, hbuffer, hnumel⟩
        · apply h.restoring r'
          rw [hrestores]
          exact List.mem_cons_of_mem _ hr'

theorem Inv.restoreDone (h : Inv cfg s) (hstep : s.restoreDone = some s') :
    Inv cfg s' := by
  unfold FullTransfer.restoreDone at hstep
  cases hrestores : s.restores with
  | nil =>
      rw [hrestores] at hstep
      cases hstep
  | cons r restores =>
      rw [hrestores] at hstep
      dsimp only at hstep
      split_ifs at hstep with htodo
      obtain rfl := Option.some.inj hstep
      refine ⟨?_, h.kept, ?_⟩
      · intro p hp j hj hrest
        apply h.available p hp j hj
        intro r' hr' hparam
        rw [hrestores] at hr'
        rcases List.mem_cons.mp hr' with rfl | hr'
        · rw [htodo]
          exact Finset.notMem_empty j
        · exact hrest r' hr' hparam
      · intro r' hr'
        apply h.restoring r'
        rw [hrestores]
        exact List.mem_cons_of_mem _ hr'

theorem Inv.host (h : Inv cfg s) {next : Option (FullTransfer α)}
    (hnext : ∀ s', Idle cfg s → next = some s' → Inv cfg s')
    (hstep : s.host next = some s') : Inv cfg s' := by
  unfold FullTransfer.host at hstep
  split_ifs at hstep with hnil
  exact hnext s' ⟨h, List.isEmpty_iff.mp hnil⟩ hstep

/-- A step in which nothing is copied to the GPU too early keeps the invariant. -/
theorem Inv.step (h : Inv cfg s) {e : TransferEvent α} (hsync : s.Synchronized e)
    (hstep : s.step cfg e = some s') : Inv cfg s' := by
  cases e with
  | allGatherCoalesced params =>
      exact h.host (fun s' hs hnext => (hs.allGatherCoalesced hnext).inv) hstep
  | wait handle => exact h.host (fun s' hs hnext => hs.wait hnext) hstep
  | postForward params =>
      refine h.host (fun s' hs hnext => ?_) hstep
      obtain rfl := Option.some.inj hnext
      exact (hs.postForward params).inv
  | postBackward params =>
      refine h.host (fun s' hs hnext => ?_) hstep
      obtain rfl := Option.some.inj hnext
      exact (List.foldlRecOn params _ hs fun s hs p _ => hs.dropCpuFullParam p).inv
  | release p =>
      refine h.host (fun s' hs hnext => ?_) hstep
      obtain rfl := Option.some.inj hnext
      exact (hs.releaseParam p).inv
  | partitionAllParameters =>
      exact h.host (fun s' hs hnext => (hs.partitionAllParameters hnext).1.inv) hstep
  | step full => exact h.host (fun s' hs hnext => (hs.optimizerStep hnext).inv) hstep
  | copyElement i => exact h.copyElement hstep
  | copyDone => exact h.copyDone hstep
  | restoreElement i => exact h.restoreElement hsync hstep
  | restoreDone => exact h.restoreDone hstep

/-- If no element is copied to the GPU while a copy of it to the CPU is pending,
parameters that come from the CPU are what an AllGather delivers, for every number of
iterations and whatever the memory held before. -/
theorem synchronized_delivers (cfg : Config) (full data : ParamId → ℕ → α)
    (pinned : Buffer → ℕ → α) (events : List (TransferEvent α))
    (h : AllSteps (step cfg) Synchronized (FullTransfer.init full data pinned) events) :
    AllStates (step cfg) (Delivered cfg) (FullTransfer.init full data pinned) events :=
  h.allStates (fun _ _ _ hsync hstep hs => Inv.step hs hsync hstep)
    (fun _ hs => Inv.delivered hs) (Inv.init full data pinned)

/-- A parameter of one element that two modules share, as the embedding and the head
of a language model do. -/
def sharedParameter : Config where
  worldSize := 2
  prefetchBucketSz := 0
  maxReuseDistInNumel := 0
  maxNAvailableParams := 1
  enableFullParamTransfer := true
  root := 0
  namedParameters := fun m => if m = 1 ∨ m = 2 then [0] else []
  recursiveParameters := fun _ => [0]
  dsNumel := fun _ => 1
  dsPersist := fun _ => false

/-- The first module gathers, uses and releases the parameter, and then the second
one gathers it. -/
def secondUse : List (TransferEvent ℕ) :=
  [.allGatherCoalesced [0], .wait 0, .postForward [0], .release 0,
    .allGatherCoalesced [0], .wait 1]

/-- The compute stream copies first. -/
theorem synchronized_delivers_secondUse :
    AllStates (step sharedParameter) (Delivered sharedParameter)
      (FullTransfer.init (fun _ _ => 1) (fun _ _ => 0) fun _ _ => 0)
      (secondUse ++ [.copyElement 0, .copyDone, .restoreElement 0, .restoreDone]) :=
  synchronized_delivers _ _ _ _ _ (by decide)

/-- The AllGather stream copies first, from a buffer that nothing has been written
to. -/
theorem not_delivered_secondUse :
    ¬ AllStates (step sharedParameter) (Delivered sharedParameter)
      (FullTransfer.init (fun _ _ => 1) (fun _ _ => 0) fun _ _ => 0)
      (secondUse ++ [.restoreElement 0, .restoreDone]) := by
  intro h
  have hdata : ((run (step sharedParameter)
      (FullTransfer.init (fun _ _ => 1) (fun _ _ => 0) fun _ _ => 0)
      (secondUse ++ [.restoreElement 0, .restoreDone])).map fun s =>
        (s.restores.isEmpty, s.dsStatus 0, s.data 0 0, s.full 0 0)) =
          some (true, .available, 0, 1) := by decide +kernel
  obtain ⟨s, hrun, hdata⟩ := Option.map_eq_some_iff.mp hdata
  obtain ⟨hnil, hstatus, hzero, hone⟩ := by simpa using hdata
  have hwrong := h.last hrun hnil 0 hstatus 0 Nat.one_pos
  rw [hzero, hone] at hwrong
  cases hwrong

end FullTransfer

end SmartNic.Offload
