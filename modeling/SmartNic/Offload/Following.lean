import SmartNic.Offload.Iterations
import SmartNic.Offload.Trace

/-!
# Following a trace

What `fetch_sub_module` and `reset_step` do with the trace of a coordinator while
the modules are those that it was recorded from.
-/

namespace SmartNic.Offload

namespace State

variable {cfg : Config} {t : Bool} {m : ModuleId} {s s₁ s' : State}
  {p : ParamId} {l : List ParamId}

/-- The trace and the external parameters are the same. -/
structure SameTrace (t : Bool) (s s' : State) : Prop where
  externalParams : s'.externalParams = s.externalParams
  stepId : (s'.coordinator t).stepId = (s.coordinator t).stepId
  traceMode : (s'.coordinator t).traceMode = (s.coordinator t).traceMode
  submoduleOrder : (s'.coordinator t).submoduleOrder =
    (s.coordinator t).submoduleOrder
  paramOrder : (s'.coordinator t).paramOrder = (s.coordinator t).paramOrder
  recent : (s'.coordinator t).mostRecentStepIdParamFetchedFor =
    (s.coordinator t).mostRecentStepIdParamFetchedFor
  fetchedFor : (s'.coordinator t).stepIdModuleFetchedFor =
    (s.coordinator t).stepIdModuleFetchedFor
  paramQueue : (s'.coordinator t).paramQueue = (s.coordinator t).paramQueue

theorem SameTrace.refl (s : State) : SameTrace t s s := by
  constructor <;> rfl

theorem SameTrace.trans (h : SameTrace t s s₁) (h' : SameTrace t s₁ s') :
    SameTrace t s s' where
  externalParams := h'.externalParams.trans h.externalParams
  stepId := h'.stepId.trans h.stepId
  traceMode := h'.traceMode.trans h.traceMode
  submoduleOrder := h'.submoduleOrder.trans h.submoduleOrder
  paramOrder := h'.paramOrder.trans h.paramOrder
  recent := h'.recent.trans h.recent
  fetchedFor := h'.fetchedFor.trans h.fetchedFor
  paramQueue := h'.paramQueue.trans h.paramQueue

theorem Kept.sameTrace (h : Kept t s s') : SameTrace t s s' where
  externalParams := h.externalParams
  stepId := h.stepId
  traceMode := h.traceMode
  submoduleOrder := h.submoduleOrder
  paramOrder := h.paramOrder
  recent := h.recent
  fetchedFor := h.fetchedFor
  paramQueue := h.paramQueue

theorem SameTrace.iterParams (h : SameTrace t s s') :
    s'.iterParams cfg = s.iterParams cfg := by
  funext m
  unfold State.iterParams
  rw [h.externalParams]

theorem SameTrace.recordedParams (h : SameTrace t s s') :
    s'.recordedParams cfg = s.recordedParams cfg := by
  funext m
  unfold State.recordedParams
  rw [h.iterParams]

/-! ## The functions that leave the trace as it is -/

theorem Kept.foldlM {α : Type} {f : State → α → Except Failure State}
    (hf : ∀ s a s', f s a = .ok s' → Kept t s s') {l : List α}
    (hrun : l.foldlM f s = .ok s') : Kept t s s' :=
  foldlM_rel .refl .trans hf hrun

theorem Kept.setStatus (p : ParamId) (status : Partition.ZeroParamStatus)
    (s : State) : Kept t s (s.setStatus p status) := by
  constructor <;> rfl

theorem allGatherParams_kept (hrun : s.allGatherParams cfg t l = .ok s') :
    Kept t s s' := by
  unfold allGatherParams at hrun
  dsimp only at hrun
  generalize l.filter (s.dsStatus · = .notAvailable) = xs at hrun
  have hmodify : Kept t s (s.modifyCoordinator t fun c =>
      { c with nAvailableParams :=
          c.nAvailableParams + ((xs.map cfg.dsNumel).sum : ℕ) }) :=
    Kept.modify _ fun c => rfl
  split_ifs at hrun
  · obtain rfl := Except.ok.inj hrun
    exact hmodify
  · obtain ⟨s₁, hmark, hregister⟩ := exists_of_bind hrun
    have hmarked := Kept.foldlM (t := t) (by
      intro s p s' hstep
      unfold markInflight at hstep
      split_ifs at hstep
      · obtain rfl := Except.ok.inj hstep
        exact .setStatus p _ s
      · cases hstep) hmark
    have hregistered := Kept.foldlM (t := t) (by
      intro s p s' hstep
      unfold register at hstep
      split_ifs at hstep
      · cases hstep
      · cases hstep
      · obtain rfl := Except.ok.inj hstep
        exact Kept.modify _ fun c => rfl) hregister
    exact hmodify.trans (hmarked.trans ((Kept.request xs s₁).trans hregistered))

theorem waitHandle_kept {handle : HandleId} (hrun : s.waitHandle handle = .ok s') :
    Kept t s s' := by
  have hcomplete : ∀ s : State,
      Kept t s { s with complete := insert handle s.complete } := by
    intro s
    constructor <;> rfl
  unfold waitHandle at hrun
  split at hrun
  · cases hrun
  · obtain rfl := Except.ok.inj hrun
    exact Kept.foldl _ (fun s p _ => .setStatus p _ s) s
  · split_ifs at hrun
    · obtain rfl := Except.ok.inj hrun
      exact .refl s
    · obtain ⟨s₁, harrive, hrest⟩ := exists_of_bind hrun
      obtain rfl := Except.ok.inj hrest
      refine (Kept.foldlM ?_ harrive).trans (hcomplete s₁)
      intro s p s' hstep
      unfold arrive at hstep
      split_ifs at hstep
      · obtain rfl := Except.ok.inj hstep
        exact .setStatus p _ s
      · cases hstep
  · split_ifs at hrun
    · obtain rfl := Except.ok.inj hrun
      exact .refl s
    · obtain ⟨s₁, hrestore, hrest⟩ := exists_of_bind hrun
      obtain rfl := Except.ok.inj hrest
      refine (Kept.foldlM ?_ hrestore).trans (hcomplete s₁)
      intro s p s' hstep
      unfold restore at hstep
      split_ifs at hstep
      · obtain rfl := Except.ok.inj hstep
        exact .setStatus p _ s
      · cases hstep

theorem waitParam_kept (hrun : s.waitParam t m p = .ok s') : Kept t s s' := by
  have hactive : Kept t s
      { s with
        dsActiveSubModules :=
          Function.update s.dsActiveSubModules p
            (insert m (s.dsActiveSubModules p)) } := by
    constructor <;> rfl
  refine hactive.trans ?_
  unfold waitParam at hrun
  by_cases hp : p ∈ (s.coordinator t).inflight
  · simp only [if_pos hp] at hrun
    obtain ⟨s₁, hwait, hrest⟩ := exists_of_bind hrun
    split_ifs at hrest
    · obtain rfl := Except.ok.inj hrest
      refine Kept.trans ?_ (waitHandle_kept hwait)
      exact Kept.modify _ fun c => rfl
    · cases hrest
  · simp only [if_neg hp] at hrun
    obtain ⟨s₁, hwait, hrest⟩ := exists_of_bind hrun
    obtain rfl := Except.ok.inj hwait
    split_ifs at hrest
    · obtain rfl := Except.ok.inj hrest
      exact .refl _
    · cases hrest

theorem demand_kept {l : Local} (hrun : s.demand cfg t l m = .ok s') :
    Kept t s s' := by
  obtain ⟨s₁, hgather, hwait⟩ := exists_of_bind hrun
  refine (allGatherParams_kept hgather).trans ?_
  exact Kept.foldlM (fun s p s' => waitParam_kept) hwait

/-- The end of `fetch_sub_module` when it does not raise. -/
theorem prefetch_cases {order : SetOrder} {params : Finset ParamId}
    (hrun : s.prefetch cfg t order params = .ok s') :
    ((s.coordinator t).traceMode ≠ .complete ∧ s' = s) ∨
    ((s.coordinator t).traceMode = .complete ∧
      (s.discarded t params).2.2 = params.filter
        ((s.coordinator t).mostRecentStepIdParamFetchedFor · <
          (s.coordinator t).stepId) ∧
      Kept t (s.advanced cfg t params) s') := by
  by_cases hmode : (s.coordinator t).traceMode = .complete
  · by_cases hagrees : (s.discarded t params).2.2 = params.filter
        ((s.coordinator t).mostRecentStepIdParamFetchedFor · <
          (s.coordinator t).stepId)
    · refine .inr ⟨hmode, hagrees, ?_⟩
      unfold prefetch at hrun
      dsimp only at hrun
      have hsame := hagrees
      unfold discarded at hsame
      dsimp only at hsame
      rw [if_neg (not_not_intro hmode), if_neg (not_not_intro hsame)] at hrun
      unfold advanced collected discarded
      dsimp only
      split_ifs at hrun ⊢
      · exact allGatherParams_kept hrun
      · obtain rfl := Except.ok.inj hrun
        exact .refl _
    · rw [prefetch_error s order params hmode hagrees] at hrun
      cases hrun
  · unfold prefetch at hrun
    dsimp only at hrun
    rw [if_pos hmode] at hrun
    exact .inl ⟨hmode, (Except.ok.inj hrun).symm⟩

variable (cfg) in
theorem releaseParam_kept (s : State) (p : ParamId) :
    Kept t s (s.releaseParam cfg t p) := by
  unfold releaseParam
  split_ifs
  · exact (Kept.setStatus p _ s).trans (Kept.modify _ fun c => rfl)
  · exact .refl s

theorem clearParam_sameTrace (s : State) (p : ParamId) :
    SameTrace t s (clearParam cfg t s p) := by
  have hactive : SameTrace t s
      { s with dsActiveSubModules := Function.update s.dsActiveSubModules p ∅ } := by
    constructor <;> rfl
  refine hactive.trans ((releaseParam_kept cfg _ p).sameTrace.trans ?_)
  constructor <;> rfl

theorem releaseAndResetAll_sameTrace
    (hrun : s.releaseAndResetAll cfg t m = .ok s') : SameTrace t s s' := by
  obtain ⟨s₁, hfold, hrest⟩ := exists_of_bind hrun
  have hcleared : SameTrace t s s₁ := by
    refine foldlM_rel .refl .trans ?_ hfold
    intro s p s' hstep
    split_ifs at hstep
    · cases hstep
    · obtain rfl := Except.ok.inj hstep
      exact clearParam_sameTrace s p
  split_ifs at hrest
  · obtain rfl := Except.ok.inj hrest
    exact hcleared
  · cases hrest

/-- The modules `ms` have been recorded. -/
structure Recording (t : Bool) (ms : List ModuleId) (s : State) : Prop where
  traceMode : (s.coordinator t).traceMode = .record
  submoduleOrder : (s.coordinator t).submoduleOrder = ms
  stepId : (s.coordinator t).stepId = ms.length
  fetchedFor : (s.coordinator t).stepIdModuleFetchedFor = fetchedAt 0 ms

/-- The trace of the modules `ms` is complete, and the queue is what is left of
it, nothing of the steps that have been. -/
structure Follows (cfg : Config) (t : Bool) (ms : List ModuleId) (s : State) :
    Prop where
  traceMode : (s.coordinator t).traceMode = .complete
  submoduleOrder : (s.coordinator t).submoduleOrder = ms
  paramOrder : (s.coordinator t).paramOrder =
    traceFrom (s.recordedParams cfg) 0 ms
  consumed : ∃ n,
    (s.coordinator t).paramQueue = (s.coordinator t).paramOrder.drop n ∧
    (s.coordinator t).mostRecentStepIdParamFetchedFor =
      fetchedFor ((s.coordinator t).paramOrder.take n) ∧
    ∀ x ∈ (s.coordinator t).paramOrder.drop n,
      (s.coordinator t).stepId ≤ x.stepIdLastUsedAt

/-- `trace_prologue` finds the module `m`, the queue begins with what the fetch
of `m` expects, and it is the part of the trace from the current step on that is
not yet consumed. -/
structure Tracing (cfg : Config) (t : Bool) (m : ModuleId) (s : State) : Prop where
  prologue : s.tracePrologue t m = .ok s
  agrees : s.TraceAgrees cfg t m
  queue : (s.coordinator t).paramQueue = (s.coordinator t).paramOrder.filter
    fun x => (s.coordinator t).stepId ≤ x.stepIdLastUsedAt ∧
      (s.coordinator t).mostRecentStepIdParamFetchedFor x.param <
        x.stepIdLastUsedAt

variable {ms : List ModuleId}

theorem Recording.sameTrace (h : Recording t ms s) (hsame : SameTrace t s s') :
    Recording t ms s' where
  traceMode := hsame.traceMode.trans h.traceMode
  submoduleOrder := hsame.submoduleOrder.trans h.submoduleOrder
  stepId := hsame.stepId.trans h.stepId
  fetchedFor := hsame.fetchedFor.trans h.fetchedFor

theorem Follows.sameTrace (h : Follows cfg t ms s) (hsame : SameTrace t s s') :
    Follows cfg t ms s' where
  traceMode := hsame.traceMode.trans h.traceMode
  submoduleOrder := hsame.submoduleOrder.trans h.submoduleOrder
  paramOrder := by
    rw [hsame.paramOrder, hsame.recordedParams]
    exact h.paramOrder
  consumed := by
    rw [hsame.paramQueue, hsame.paramOrder, hsame.recent, hsame.stepId]
    exact h.consumed

theorem recordedParams_nodup (s : State) (m : ModuleId) :
    (s.recordedParams cfg m).Nodup := by
  unfold recordedParams
  exact (List.perm_insertionSort _ _).nodup_iff.mpr (List.nodup_dedup _)

theorem mem_recordedParams : p ∈ s.recordedParams cfg m ↔ p ∈ s.iterParams cfg m := by
  unfold recordedParams
  rw [(List.perm_insertionSort _ _).mem_iff, List.mem_dedup]

theorem Follows.sorted (h : Follows cfg t ms s) :
    (s.coordinator t).paramOrder.Pairwise ParamInTrace.Before := by
  rw [h.paramOrder]
  exact traceFrom_sorted (recordedParams_nodup s) 0 ms

/-! ## The queue -/

/-- What a further step takes off the queue. -/
theorem consumed_add (order : List ParamInTrace) (n j : ℕ) :
    (order.drop n).drop j = order.drop (n + j) ∧
      ((order.drop n).take j).foldl consume (fetchedFor (order.take n)) =
        fetchedFor (order.take (n + j)) := by
  refine ⟨List.drop_drop, ?_⟩
  unfold fetchedFor
  rw [List.take_add, List.foldl_append]

/-- What is left of a trace without the steps before the current one: entries of
the current step, and then later ones. -/
theorem exists_drop_traceFrom {params : ModuleId → List ParamId} {k n : ℕ}
    (hm : ms[k]? = some m) (hnodup : (params m).Nodup)
    (hlater : ∀ x ∈ (traceFrom params 0 ms).drop n, k ≤ x.stepIdLastUsedAt) :
    ∃ xs ys, (traceFrom params 0 ms).drop n = xs ++ ys ∧
      (∀ x ∈ xs, x.stepIdLastUsedAt = k ∧ x.param ∈ params m) ∧
      (xs.map (·.param)).Nodup ∧ ∀ y ∈ ys, k + 1 ≤ y.stepIdLastUsedAt := by
  obtain ⟨hk, hget⟩ := List.getElem?_eq_some_iff.mp hm
  have hms : ms = ms.take k ++ m :: ms.drop (k + 1) := by
    rw [← hget, ← List.drop_eq_getElem_cons hk, List.take_append_drop]
  have hlen : (ms.take k).length = k := List.length_take_of_le hk.le
  set before := traceFrom params 0 (ms.take k) with hbefore
  set block := (params m).map (ParamInTrace.mk · k) with hblock
  set after := traceFrom params (k + 1) (ms.drop (k + 1)) with hafter
  have hsplit : traceFrom params 0 ms = before ++ (block ++ after) := by
    conv_lhs => rw [hms]
    rw [traceFrom_append, hlen, Nat.zero_add, traceFrom]
  rw [hsplit] at hlater ⊢
  have hn : before.length ≤ n := by
    by_contra hlt
    push Not at hlt
    have hdrop : (before ++ (block ++ after)).drop n = before.drop n ++ (block ++ after) :=
      List.drop_append_of_le_length hlt.le
    have hmem : before[n] ∈ before.drop n := by
      rw [List.drop_eq_getElem_cons hlt]
      exact List.mem_cons_self
    have hge := hlater before[n] (by
      rw [hdrop]
      exact List.mem_append_left _ hmem)
    obtain ⟨i, m', hi, hstep, -⟩ := mem_traceFrom.mp (List.getElem_mem hlt)
    have hilt := (List.getElem?_eq_some_iff.mp hi).1
    rw [hlen] at hilt
    omega
  refine ⟨block.drop (n - before.length),
    after.drop (n - before.length - block.length), ?_, ?_, ?_, ?_⟩
  · rw [List.drop_append, List.drop_of_length_le hn, List.nil_append, List.drop_append]
  · intro x hx
    obtain ⟨p, hp, rfl⟩ := List.mem_map.mp (List.mem_of_mem_drop hx)
    exact ⟨rfl, hp⟩
  · have hmap : block.map (·.param) = params m := by
      rw [hblock, List.map_map]
      exact List.map_id _
    rw [List.map_drop, hmap]
    exact hnodup.sublist (List.drop_sublist _ _)
  · intro y hy
    obtain ⟨i, m', -, hstep, -⟩ := mem_traceFrom.mp (List.mem_of_mem_drop hy)
    omega

/-- The queue without the current step. -/
theorem Follows.discarded (h : Follows cfg t ms s)
    (hm : ms[(s.coordinator t).stepId]? = some m) :
    ∃ n, s.discarded t (s.iterParams cfg m).toFinset =
        ((s.coordinator t).paramOrder.drop n,
          fetchedFor ((s.coordinator t).paramOrder.take n),
          (s.iterParams cfg m).toFinset.filter
            ((s.coordinator t).mostRecentStepIdParamFetchedFor · <
              (s.coordinator t).stepId)) ∧
      ∀ x ∈ (s.coordinator t).paramOrder.drop n,
        (s.coordinator t).stepId + 1 ≤ x.stepIdLastUsedAt := by
  obtain ⟨n, hqueue, hrecent, hlater⟩ := h.consumed
  have hsorted := h.sorted
  unfold State.discarded
  dsimp only
  rw [hqueue, hrecent]
  have horder := h.paramOrder
  generalize (s.coordinator t).paramOrder = order at *
  generalize (s.coordinator t).stepId = k at *
  rw [horder] at hlater
  obtain ⟨xs, ys, hdrop, hxsMem, hnodup, hysLater⟩ :=
    exists_drop_traceFrom hm (recordedParams_nodup s m) hlater
  rw [← horder] at hdrop
  have hpair : (order.take n ++ order.drop n).Pairwise ParamInTrace.Before := by
    rw [List.take_append_drop]
    exact hsorted
  obtain ⟨htake, -, hcross⟩ := List.pairwise_append.mp hpair
  have hexpected : (s.iterParams cfg m).toFinset.filter
      (fetchedFor (order.take n) · < k) = (xs.map (·.param)).toFinset := by
    ext p
    rw [Finset.mem_filter, List.mem_toFinset, List.mem_toFinset, List.mem_map,
      ← mem_recordedParams]
    constructor
    · rintro ⟨hp, hlt⟩
      have hentry : ParamInTrace.mk p k ∈ order.take n ++ order.drop n := by
        rw [List.take_append_drop, horder]
        exact mem_traceFrom.mpr ⟨k, m, hm, (Nat.zero_add k).symm, hp⟩
      rcases List.mem_append.mp hentry with hin | hin
      · exact absurd (le_fetchedFor htake hin) (not_le.mpr hlt)
      · rw [hdrop] at hin
        rcases List.mem_append.mp hin with hin | hin
        · exact ⟨_, hin, rfl⟩
        · exact absurd (hysLater _ hin) (by simp)
    · rintro ⟨x, hx, rfl⟩
      obtain ⟨hstep, hp⟩ := hxsMem x hx
      refine ⟨hp, ?_⟩
      have hlt : fetchedFor (order.take n) x.param < x.stepIdLastUsedAt := by
        refine fetchedFor_lt fun y hy => hcross y hy x ?_
        rw [hdrop]
        exact List.mem_append_left _ hx
      rwa [hstep] at hlt
  have hcard : (xs.map (·.param)).toFinset.card = (∅ : Finset ParamId).card +
      xs.length := by
    rw [List.toFinset_card_of_nodup hnodup, List.length_map, Finset.card_empty,
      Nat.zero_add]
  obtain ⟨hrest, hfold⟩ := consumed_add order n xs.length
  rw [hdrop, List.drop_left] at hrest
  rw [hdrop, List.take_left] at hfold
  refine ⟨n + xs.length, ?_, ?_⟩
  · rw [hexpected, hcard, hdrop, discardFetched_append hnodup (by simp), hfold,
      ← hrest, Finset.empty_union]
  · rw [← hrest]
    exact hysLater

/-- The queue is what the trace has from the current step on and what is not yet
consumed. -/
theorem Follows.queue (h : Follows cfg t ms s) :
    (s.coordinator t).paramQueue = (s.coordinator t).paramOrder.filter
      fun x => (s.coordinator t).stepId ≤ x.stepIdLastUsedAt ∧
        (s.coordinator t).mostRecentStepIdParamFetchedFor x.param <
          x.stepIdLastUsedAt := by
  obtain ⟨n, hqueue, hrecent, hlater⟩ := h.consumed
  have hsorted := h.sorted
  rw [hqueue, hrecent]
  generalize (s.coordinator t).paramOrder = order at *
  rw [← List.take_append_drop n order] at hsorted
  obtain ⟨htake, -, hcross⟩ := List.pairwise_append.mp hsorted
  conv_rhs => rw [← List.take_append_drop n order, List.filter_append]
  have hbefore : (order.take n).filter (fun x =>
      (s.coordinator t).stepId ≤ x.stepIdLastUsedAt ∧
        fetchedFor ((order.take n ++ order.drop n).take n) x.param <
          x.stepIdLastUsedAt) = [] := by
    rw [List.filter_eq_nil_iff]
    intro x hx hlt
    rw [List.take_append_drop, decide_eq_true_eq] at hlt
    exact absurd (le_fetchedFor htake hx) (not_le.mpr hlt.2)
  have hafter : (order.drop n).filter (fun x =>
      (s.coordinator t).stepId ≤ x.stepIdLastUsedAt ∧
        fetchedFor ((order.take n ++ order.drop n).take n) x.param <
          x.stepIdLastUsedAt) = order.drop n := by
    rw [List.filter_eq_self]
    intro x hx
    rw [List.take_append_drop, decide_eq_true_eq]
    exact ⟨hlater x hx, fetchedFor_lt fun y hy => hcross y hy x hx⟩
  rw [hbefore, hafter, List.nil_append]

theorem Follows.tracing (h : Follows cfg t ms s)
    (hm : ms[(s.coordinator t).stepId]? = some m) : Tracing cfg t m s where
  prologue := by
    unfold tracePrologue
    dsimp only
    rw [if_pos h.traceMode, h.submoduleOrder, hm]
    exact if_pos rfl
  agrees _ := by
    obtain ⟨n, hdiscarded, -⟩ := h.discarded hm
    exact congrArg (·.2.2) hdiscarded
  queue := h.queue

/-- What the two loops leave of the queue. -/
theorem Follows.collected (h : Follows cfg t ms s)
    (hm : ms[(s.coordinator t).stepId]? = some m) :
    ∃ n, (s.collected cfg t (s.iterParams cfg m).toFinset).1 =
        (s.coordinator t).paramOrder.drop n ∧
      (s.collected cfg t (s.iterParams cfg m).toFinset).2.1 =
        fetchedFor ((s.coordinator t).paramOrder.take n) ∧
      (∀ x ∈ (s.coordinator t).paramOrder.drop n,
        (s.coordinator t).stepId + 1 ≤ x.stepIdLastUsedAt) ∧
      ∀ p ∈ (s.collected cfg t (s.iterParams cfg m).toFinset).2.2,
        ∃ x ∈ (s.coordinator t).paramOrder,
          x.param = p ∧ (s.coordinator t).stepId + 1 ≤ x.stepIdLastUsedAt := by
  obtain ⟨n, hdiscarded, hlater⟩ := h.discarded hm
  have hsorted := h.sorted
  unfold State.collected
  rw [hdiscarded]
  dsimp only
  generalize (s.coordinator t).paramOrder = order at *
  have hpair := hsorted
  rw [← List.take_append_drop n order] at hpair
  obtain ⟨-, hdrop, hcross⟩ := List.pairwise_append.mp hpair
  split_ifs
  · obtain ⟨j, hqueue, hrecent, hmem⟩ := collectPrefetch_take cfg s
      (min (cfg.maxNAvailableParams - (s.coordinator t).nAvailableParams)
        cfg.prefetchBucketSz) (fetchedFor (order.take n)) ∅ 0 hdrop
      (fun x hx => fetchedFor_lt fun y hy => hcross y hy x hx)
    obtain ⟨hrest, hfold⟩ := consumed_add order n j
    refine ⟨n + j, hqueue.trans hrest, hrecent.trans hfold, ?_, ?_⟩
    · intro x hx
      rw [← hrest] at hx
      exact hlater x (List.mem_of_mem_drop hx)
    · intro p hp
      rcases hmem p hp with hp | ⟨x, hx, rfl⟩
      · cases hp
      · exact ⟨x, List.mem_of_mem_drop hx, rfl, hlater x hx⟩
  · exact ⟨n, rfl, rfl, hlater, fun p hp => absurd hp (Finset.notMem_empty p)⟩

/-- The end of `fetch_sub_module` for the module expected. -/
theorem Follows.prefetch (h : Follows cfg t ms s)
    (hm : ms[(s.coordinator t).stepId]? = some m) {order : SetOrder}
    (hrun : s.prefetch cfg t order (s.iterParams cfg m).toFinset = .ok s₁) :
    Follows cfg t ms
        (s₁.modifyCoordinator t fun c => { c with stepId := c.stepId + 1 }) ∧
      (s₁.coordinator t).stepId = (s.coordinator t).stepId ∧
      (s₁.coordinator t).paramOrder = (s.coordinator t).paramOrder := by
  rcases prefetch_cases hrun with ⟨hmode, -⟩ | ⟨-, -, hkept⟩
  · exact absurd h.traceMode hmode
  · obtain ⟨n, hqueue, hrecent, hlater, -⟩ := h.collected hm
    have hexternal : s₁.externalParams = s.externalParams := hkept.externalParams
    have hadvanced : (s.advanced cfg t (s.iterParams cfg m).toFinset).coordinator t =
        { s.coordinator t with
          paramQueue := (s.collected cfg t (s.iterParams cfg m).toFinset).1
          mostRecentStepIdParamFetchedFor :=
            (s.collected cfg t (s.iterParams cfg m).toFinset).2.1 } :=
      coordinator_modify _
    have hstep := hkept.stepId
    have hmode := hkept.traceMode
    have hmodules := hkept.submoduleOrder
    have horder := hkept.paramOrder
    have hrecent' := hkept.recent
    have hqueue' := hkept.paramQueue
    rw [hadvanced] at hstep hmode hmodules horder hrecent' hqueue'
    refine ⟨?_, hstep, horder⟩
    have hparams : (s₁.modifyCoordinator t fun c =>
        { c with stepId := c.stepId + 1 }).recordedParams cfg =
          s.recordedParams cfg := by
      funext m
      unfold recordedParams State.iterParams
      rw [← hexternal]
      rfl
    constructor
    · rw [coordinator_modify]
      exact hmode.trans h.traceMode
    · rw [coordinator_modify]
      exact hmodules.trans h.submoduleOrder
    · rw [coordinator_modify, hparams]
      exact horder.trans h.paramOrder
    · rw [coordinator_modify]
      dsimp only
      rw [horder, hstep, hqueue', hrecent']
      exact ⟨n, hqueue, hrecent, hlater⟩

/-! ## Steps of the trace -/

variable (cfg) in
theorem recordAll (k : ℕ) (ms : List ModuleId) (s : State)
    (hfetched : (s.coordinator t).stepIdModuleFetchedFor = fetchedAt k ms) :
    ∃ s', ms.foldlM (recordParameters cfg t) s = .ok s' ∧
      s'.externalParams = s.externalParams ∧
      (s'.coordinator t).submoduleOrder = (s.coordinator t).submoduleOrder ∧
      (s'.coordinator t).paramOrder = (s.coordinator t).paramOrder ++
        traceFrom (s.recordedParams cfg) k ms := by
  induction ms generalizing k s with
  | nil => exact ⟨s, rfl, rfl, rfl, (List.append_nil _).symm⟩
  | cons m ms ih =>
      set s₁ := s.modifyCoordinator t fun c =>
        { c with
          stepIdModuleFetchedFor :=
            Function.update c.stepIdModuleFetchedFor m (fetchedAt (k + 1) ms m)
          paramOrder := c.paramOrder ++ (s.recordedParams cfg m).map (⟨·, k⟩) }
        with hs₁
      have hone : recordParameters cfg t s m = .ok s₁ := by
        unfold recordParameters
        rw [hfetched, fetchedAt_cons_self]
        rfl
      have hcoord := coordinator_modify (t := t) (s := s) fun c =>
        { c with
          stepIdModuleFetchedFor :=
            Function.update c.stepIdModuleFetchedFor m (fetchedAt (k + 1) ms m)
          paramOrder := c.paramOrder ++ (s.recordedParams cfg m).map (⟨·, k⟩) }
      rw [← hs₁] at hcoord
      obtain ⟨s', hrun, hexternal, hmodules, horder⟩ := ih (k + 1) s₁ (by
        rw [hcoord]
        dsimp only
        rw [hfetched]
        exact update_fetchedAt k m ms)
      refine ⟨s', ?_, hexternal, ?_, ?_⟩
      · rw [List.foldlM_cons, hone]
        exact hrun
      · rw [hmodules, hcoord]
      · rw [horder, hcoord, traceFrom, List.append_assoc]
        rfl

/-- The queue is the whole trace after `reset_step`. -/
theorem restart_follows (hmode : (s.coordinator t).traceMode = .complete)
    (hmodules : (s.coordinator t).submoduleOrder = ms)
    (horder : (s.coordinator t).paramOrder =
      traceFrom (s.recordedParams cfg) 0 ms) :
    Follows cfg t ms (s.restart t) ∧ ((s.restart t).coordinator t).stepId = 0 := by
  have hcoord : (s.restart t).coordinator t =
      { s.coordinator t with
        paramQueue := (s.coordinator t).paramOrder
        mostRecentStepIdParamFetchedFor := neverFetched
        stepIdModuleFetchedFor := fun _ => []
        stepId := 0
        nAvailableParams := 0 } := coordinator_modify _
  refine ⟨⟨?_, ?_, ?_, 0, ?_⟩, ?_⟩
  · rw [hcoord]
    exact hmode
  · rw [hcoord]
    exact hmodules
  · rw [hcoord]
    exact horder
  · rw [hcoord]
    exact ⟨rfl, rfl, fun _ _ => Nat.zero_le _⟩
  · rw [hcoord]

theorem Follows.resetStep (h : Follows cfg t ms s)
    (hinflight : (s.coordinator t).inflight = ∅) (rank0 : Option Coordinator) :
    s.resetStep cfg t rank0 = .ok (s.restart t) := by
  unfold State.resetStep
  dsimp only
  rw [if_neg (not_not_intro hinflight), if_pos h.traceMode]

variable (cfg) in
/-- `reset_step` completes the trace. -/
theorem Recording.resetStep (h : Recording t ms s)
    (hinflight : (s.coordinator t).inflight = ∅) :
    ∃ s', s.resetStep cfg t (some (s.coordinator t)) = .ok s' ∧
      Follows cfg t ms s' ∧ (s'.coordinator t).stepId = 0 := by
  have hmode : (s.coordinator t).traceMode ≠ .complete := by
    rw [h.traceMode]
    decide
  have hcoord := coordinator_modify (t := t) (s := s) fun c =>
    { c with paramOrder := [] }
  obtain ⟨s₁, hrun, hexternal, hmodules, horder⟩ := recordAll cfg 0 ms
    (s.modifyCoordinator t fun c => { c with paramOrder := [] }) (by
      rw [hcoord]
      exact h.fetchedFor)
  rw [hcoord] at hmodules horder
  have hcomplete := coordinator_modify (t := t) (s := s₁) fun c =>
    { c with traceMode := .complete }
  set s₂ := s₁.modifyCoordinator t fun c => { c with traceMode := .complete }
    with hs₂
  have hparams : s₂.recordedParams cfg = s.recordedParams cfg := by
    funext m
    unfold recordedParams State.iterParams
    exact congrArg (fun l => (cfg.namedParameters m ++ l m).dedup.insertionSort
      (· ≤ ·)) hexternal
  refine ⟨s₂.restart t, ?_, restart_follows ?_ ?_ ?_⟩
  · unfold State.resetStep
    dsimp only
    rw [if_neg (not_not_intro hinflight), if_neg hmode, if_neg (by simp [sameAsRank0]),
      if_pos h.traceMode, h.submoduleOrder, hrun]
    rfl
  · rw [hcomplete]
  · rw [hcomplete]
    exact hmodules.trans h.submoduleOrder
  · rw [hcomplete, hparams]
    exact horder.trans (List.nil_append _)

end State

end SmartNic.Offload
