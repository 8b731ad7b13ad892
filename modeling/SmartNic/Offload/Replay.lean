import SmartNic.Offload.Following

/-!
# Replaying a trace

The hooks of any number of iterations with the modules of the first one.
-/

namespace SmartNic.Offload

open Machine

namespace Session

variable {α : Type} {cfg : Config} {t : Bool} {full : ParamId → α}
  {r r' : Session α} {m : ModuleId} {l : Local} {ms : List ModuleId}

theorem fetch_run (hfetch : r.fetch cfg t full m l = .ok r') :
    ∃ s₁ s₂, r.state.demand cfg t l m = .ok s₁ ∧
      s₁.prefetch cfg t l.prefetchOrder (r.state.iterParams cfg m).toFinset =
        .ok s₂ ∧
      r'.state = s₂.modifyCoordinator t fun c => { c with stepId := c.stepId + 1 } := by
  obtain ⟨⟨s', events⟩, hsub, hrest⟩ := exists_of_bind hfetch
  obtain rfl := Except.ok.inj hrest
  have hcode := State.fetchSubModule_demand cfg (t := t) (m := m) l
    r.state r.events
  rw [hsub] at hcode
  obtain ⟨s₁, hdemand, hrest⟩ := exists_of_bind hcode.symm
  obtain ⟨s₂, hprefetch, hrest⟩ := exists_of_bind hrest
  exact ⟨s₁, s₂, hdemand, hprefetch, (Except.ok.inj hrest).symm⟩

/-- A module is recorded. -/
theorem pre_recording (h : r.state.Recording t ms)
    (hpre : r.pre cfg t full m l = .ok r') : r'.state.Recording t (ms ++ [m]) := by
  obtain ⟨s, hprologue, hfetch⟩ := exists_of_bind hpre
  have hmode : (r.state.coordinator t).traceMode ≠ .complete := by
    rw [h.traceMode]
    decide
  have hsame : s = r.state := by
    unfold State.tracePrologue at hprologue
    dsimp only at hprologue
    rw [if_neg hmode] at hprologue
    exact (Except.ok.inj hprologue).symm
  obtain ⟨s₁, s₂, hdemand, hprefetch, hstate⟩ := fetch_run hfetch
  have hkept := State.demand_kept hdemand
  dsimp only at hkept
  rw [hsame] at hkept
  have hrecorded : (r.state.recordModule t m).coordinator t =
      { r.state.coordinator t with
        submoduleOrder := (r.state.coordinator t).submoduleOrder ++ [m]
        stepIdModuleFetchedFor :=
          Function.update (r.state.coordinator t).stepIdModuleFetchedFor m
            ((r.state.coordinator t).stepIdModuleFetchedFor m ++
              [(r.state.coordinator t).stepId]) } := by
    unfold State.recordModule
    rw [if_pos h.traceMode]
    exact State.coordinator_modify _
  have hstep := hkept.stepId
  have hmode' := hkept.traceMode
  have hmodules := hkept.submoduleOrder
  have hfetched := hkept.fetchedFor
  rw [hrecorded] at hstep hmode' hmodules hfetched
  have hnot : (s₁.coordinator t).traceMode ≠ .complete := by
    rw [hmode']
    exact hmode
  rcases State.prefetch_cases hprefetch with ⟨-, rfl⟩ | ⟨hcomplete, -⟩
  · rw [hstate]
    constructor
    · rw [State.coordinator_modify]
      exact hmode'.trans h.traceMode
    · rw [State.coordinator_modify]
      dsimp only
      rw [hmodules, h.submoduleOrder]
    · rw [State.coordinator_modify]
      dsimp only
      rw [hstep, h.stepId, List.length_append, List.length_singleton]
    · rw [State.coordinator_modify]
      dsimp only
      rw [hfetched, h.fetchedFor, h.stepId, fetchedAt_append, Nat.zero_add]
  · exact absurd hcomplete hnot

/-- The module expected is fetched. -/
theorem pre_follows (h : r.state.Follows cfg t ms)
    (hm : ms[(r.state.coordinator t).stepId]? = some m)
    (hpre : r.pre cfg t full m l = .ok r') :
    r'.state.Follows cfg t ms ∧
      (r'.state.coordinator t).stepId = (r.state.coordinator t).stepId + 1 ∧
      (r'.state.coordinator t).paramOrder =
        (r.state.coordinator t).paramOrder := by
  obtain ⟨s, hprologue, hfetch⟩ := exists_of_bind hpre
  obtain rfl := Except.ok.inj ((h.tracing hm).prologue.symm.trans hprologue)
  have hnot : r.state.recordModule t m = r.state := by
    unfold State.recordModule
    rw [if_neg]
    rw [h.traceMode]
    decide
  rw [hnot] at hfetch
  obtain ⟨s₁, s₂, hdemand, hprefetch, hstate⟩ := fetch_run hfetch
  have hsame := (State.demand_kept hdemand).sameTrace
  have hfollows := h.sameTrace hsame
  change s₁.prefetch cfg t l.prefetchOrder (r.state.iterParams cfg m).toFinset = _
    at hprefetch
  rw [← hsame.iterParams] at hprefetch
  rw [← hsame.stepId] at hm ⊢
  obtain ⟨hnext, hstep, horder⟩ := hfollows.prefetch hm hprefetch
  rw [hstate]
  refine ⟨hnext, ?_, ?_⟩
  · rw [State.coordinator_modify]
    exact congrArg (· + 1) hstep
  · rw [State.coordinator_modify]
    exact horder.trans hsame.paramOrder

variable (cfg t) in
theorem release_sameTrace (r : Session α) (m : ModuleId)
    (cpuFullParam : Finset ParamId) :
    r.state.SameTrace t (r.release cfg t m cpuFullParam).state := by
  have hcpu : r.state.SameTrace t { r.state with cpuFullParam := cpuFullParam } := by
    constructor <;> rfl
  exact hcpu.trans (State.releaseSubModule_kept cfg _ m).sameTrace

/-- The trace is complete and begins again. -/
theorem reset_follows
    (h : r.state.Recording t ms ∨ r.state.Follows cfg t ms) {step : Bool}
    (hreset : r.reset cfg t step = .ok r') :
    r'.state.Follows cfg t ms ∧ (r'.state.coordinator t).stepId = 0 := by
  obtain ⟨s, hrun, hrest⟩ := exists_of_bind hreset
  have hinflight : (r.state.coordinator t).inflight = ∅ := by
    rw [← (State.resetStep_frame hrun).inflight]
    exact State.resetStep_inflight hrun
  have hs : s.Follows cfg t ms ∧ (s.coordinator t).stepId = 0 := by
    rcases h with h | h
    · obtain ⟨s', hcode, hs'⟩ := h.resetStep cfg hinflight
      obtain rfl := Except.ok.inj (hcode.symm.trans hrun)
      exact hs'
    · obtain rfl := Except.ok.inj ((h.resetStep hinflight _).symm.trans hrun)
      exact State.restart_follows h.traceMode h.submoduleOrder h.paramOrder
  dsimp only at hrest
  split_ifs at hrest
  · obtain ⟨s', hpartition, hrest⟩ := exists_of_bind hrest
    obtain rfl := Except.ok.inj hrest
    have hsame := State.releaseAndResetAll_sameTrace hpartition
    exact ⟨hs.1.sameTrace hsame, hsame.stepId.trans hs.2⟩
  · obtain rfl := Except.ok.inj hrest
    exact hs

/-! ## Without a complete trace -/

/-- What a hook does to the registry of a coordinator without a complete
trace. -/
structure Untraced (cfg : Config) (t : Bool) (fetched : List ModuleId)
    (r r' : Session α) : Prop where
  externalParams : r'.state.externalParams = r.state.externalParams
  traceMode : (r'.state.coordinator t).traceMode = (r.state.coordinator t).traceMode
  submoduleOrder : (r.state.coordinator t).traceMode ≠ .record →
    (r'.state.coordinator t).submoduleOrder = (r.state.coordinator t).submoduleOrder
  inflight : ∀ p, p ∈ (r'.state.coordinator t).inflight ↔
    p ∈ (r.state.coordinator t).inflight ∧
      ∀ m ∈ fetched, p ∉ r.state.iterParams cfg m

theorem Untraced.trans {r₁ : Session α} {ms ms' : List ModuleId}
    (h : Untraced cfg t ms r r₁) (h' : Untraced cfg t ms' r₁ r') :
    Untraced cfg t (ms ++ ms') r r' where
  externalParams := h'.externalParams.trans h.externalParams
  traceMode := h'.traceMode.trans h.traceMode
  submoduleOrder hmode :=
    (h'.submoduleOrder (by rwa [h.traceMode])).trans (h.submoduleOrder hmode)
  inflight p := by
    have hparams : r₁.state.iterParams cfg = r.state.iterParams cfg := by
      funext m
      unfold State.iterParams
      rw [h.externalParams]
    rw [h'.inflight, h.inflight, hparams, List.forall_mem_append, and_assoc]

/-- Nothing is prefetched, so a pre hook does not raise. -/
theorem Inv.pre_untraced (hr : r.Inv cfg t full)
    (hmode : (r.state.coordinator t).traceMode ≠ .complete) (m : ModuleId)
    (l : Local) :
    ∃ r', r.pre cfg t full m l = .ok r' ∧ r'.Inv cfg t full ∧
      Untraced cfg t [m] r r' := by
  have hprologue : r.state.tracePrologue t m = .ok r.state := by
    unfold State.tracePrologue
    exact if_neg hmode
  obtain ⟨hcode, hretraced⟩ := pre_cases cfg full (l := l) hprologue
  set s := r.state.recordModule t m with hs
  have hexternal : s.externalParams = r.state.externalParams := by
    obtain ⟨f, hf⟩ := hretraced
    rw [hf]
    rfl
  have hparams : s.iterParams cfg = r.state.iterParams cfg := by
    funext m
    unfold State.iterParams
    rw [hexternal]
  have hmode' : (s.coordinator t).traceMode =
      (r.state.coordinator t).traceMode := by
    rw [hs]
    unfold State.recordModule
    split_ifs
    · rw [State.coordinator_modify]
    · rfl
  obtain ⟨s₁, -, hresident, hd, hok, hcases⟩ :=
    fetch_cases (hr.retraced hretraced) m l
  have hmode₁ : (s₁.coordinator t).traceMode ≠ .complete := by
    rw [hd.kept.traceMode, hmode']
    exact hmode
  obtain ⟨r', hfetch⟩ := hok fun hcomplete => by
    rw [hmode'] at hcomplete
    exact absurd hcomplete hmode
  obtain ⟨-, hstate, -, -⟩ := hcases r' hfetch
  have hpre := hcode.trans hfetch
  unfold State.prefetched at hstate
  rw [if_pos hmode₁] at hstate
  refine ⟨r', hpre, hr.pre hpre, ?_, ?_, ?_, ?_⟩
  · rw [hstate]
    exact hd.kept.externalParams.trans hexternal
  · rw [hstate, State.coordinator_modify]
    exact hd.kept.traceMode.trans hmode'
  · intro hrecord
    have hsame : s = r.state := by
      rw [hs]
      unfold State.recordModule
      exact if_neg hrecord
    rw [hstate, State.coordinator_modify]
    dsimp only
    rw [hd.kept.submoduleOrder]
    dsimp only
    rw [hsame]
  · intro p
    have hframe := State.Frame.modify (s := s₁) (t := t)
      (fun c => { c with stepId := c.stepId + 1 }) rfl rfl
    rw [hstate, hframe.inflight, hd.inflight, List.forall_mem_singleton]
    change p ∈ (s.coordinator t).inflight ∧ p ∉ s.iterParams cfg m ↔ _
    rw [hparams, (State.recordModule_frame r.state).inflight]

theorem release_inflight (r : Session α) (m : ModuleId)
    (cpuFullParam : Finset ParamId) :
    ((r.release cfg t m cpuFullParam).state.coordinator t).inflight =
      (r.state.coordinator t).inflight := by
  have hframe : State.Frame { r.state with cpuFullParam := cpuFullParam }
      (r.release cfg t m cpuFullParam).state := State.releaseSubModule_frame _
  exact hframe.inflight t

theorem Inv.post_untraced (hr : r.Inv cfg t full) {m : ModuleId}
    {cpuFullParam : Finset ParamId}
    (hpaired : Paired cfg (.ok r) (.post m cpuFullParam)) :
    (r.release cfg t m cpuFullParam).Inv cfg t full ∧
      Untraced cfg t [] r (r.release cfg t m cpuFullParam) := by
  obtain ⟨hm, hcpu⟩ := hpaired m cpuFullParam rfl r rfl
  have hsame := release_sameTrace cfg t r m cpuFullParam
  refine ⟨hr.release hm hcpu, hsame.externalParams, hsame.traceMode,
    fun _ => hsame.submoduleOrder, ?_⟩
  intro p
  rw [release_inflight]
  exact (and_iff_left (List.forall_mem_nil _)).symm

/-- Without a complete trace the hooks before `reset_step` do not raise. -/
theorem Inv.run_untraced {hooks : List Hook} (hr : r.Inv cfg t full)
    (hmode : (r.state.coordinator t).traceMode ≠ .complete)
    (hhooks : ∀ step, Hook.reset step ∉ hooks)
    (hpaired : AllSteps (Session.hook cfg t full) (Paired cfg) (.ok r) hooks) :
    ∃ r', run (Session.hook cfg t full) (.ok r) hooks = some (.ok r') ∧
      r'.Inv cfg t full ∧ Untraced cfg t (hooks.filterMap Hook.fetched) r r' := by
  induction hooks generalizing r with
  | nil =>
      refine ⟨r, rfl, hr, rfl, rfl, fun _ => rfl, fun p => ?_⟩
      exact (and_iff_left (List.forall_mem_nil _)).symm
  | cons hook hooks ih =>
      have hrest : ∀ step, Hook.reset step ∉ hooks :=
        fun step hmem => hhooks step (List.mem_cons_of_mem hook hmem)
      have hnext : ∀ {r₁ : Session α} {ms : List ModuleId},
          Session.hook cfg t full (.ok r) hook = some (.ok r₁) →
          r₁.Inv cfg t full → Untraced cfg t ms r r₁ →
          ∃ r', run (Session.hook cfg t full) (.ok r) (hook :: hooks) =
              some (.ok r') ∧ r'.Inv cfg t full ∧
            Untraced cfg t (ms ++ hooks.filterMap Hook.fetched) r r' := by
        intro r₁ ms hstep hr₁ h₁
        obtain ⟨r', hrun, hr', h'⟩ := ih hr₁ (by rwa [h₁.traceMode]) hrest
          (hpaired.2 _ hstep)
        refine ⟨r', ?_, hr', h₁.trans h'⟩
        rw [run, hstep]
        exact hrun
      cases hook with
      | pre m l =>
          obtain ⟨r₁, hpre, hr₁, h₁⟩ := hr.pre_untraced hmode m l
          exact hnext (congrArg some hpre) hr₁ h₁
      | post m cpuFullParam =>
          obtain ⟨hr₁, h₁⟩ := hr.post_untraced hpaired.1
          exact hnext rfl hr₁ h₁
      | reset step => exact absurd List.mem_cons_self (hhooks step)

/-- The trace is replayed and has every registered parameter, not before the
current step. -/
structure Replaying (cfg : Config) (t : Bool) (full : ParamId → α)
    (ms : List ModuleId) (k : ℕ) (r : Session α) : Prop where
  inv : r.Inv cfg t full
  follows : r.state.Follows cfg t ms
  stepId : (r.state.coordinator t).stepId = k
  ahead : ∀ p ∈ (r.state.coordinator t).inflight,
    ∃ x ∈ (r.state.coordinator t).paramOrder, x.param = p ∧ k ≤ x.stepIdLastUsedAt

theorem reset_inflight {step : Bool} (hreset : r.reset cfg t step = .ok r') :
    (r'.state.coordinator t).inflight = ∅ := by
  obtain ⟨s, hrun, hrest⟩ := exists_of_bind hreset
  have hinflight := State.resetStep_inflight hrun
  dsimp only at hrest
  split_ifs at hrest
  · obtain ⟨s', hpartition, hrest⟩ := exists_of_bind hrest
    obtain rfl := Except.ok.inj hrest
    exact ((State.releaseAndResetAll_frame hpartition).inflight t).trans hinflight
  · obtain rfl := Except.ok.inj hrest
    exact hinflight

/-- `step` does not raise after `reset_step`. -/
theorem Inv.reset_ok (hr : r.Inv cfg t full) {s : State}
    (hrun : r.state.resetStep cfg t (some (r.state.coordinator t)) = .ok s)
    (step : Bool) : ∃ r', r.reset cfg t step = .ok r' := by
  have hs := hr.retraced (State.resetStep_retraced hrun)
  unfold Session.reset
  rw [hrun]
  cases step with
  | false => exact ⟨_, rfl⟩
  | true =>
      obtain ⟨r', hpartition, -⟩ := hs.partitionAll (State.resetStep_inflight hrun)
      exact ⟨r', hpartition⟩

theorem Replaying.start (hr : r.Inv cfg t full)
    (h : r.state.Recording t ms ∨ r.state.Follows cfg t ms) {step : Bool}
    (hreset : r.reset cfg t step = .ok r') : r'.Replaying cfg t full ms 0 where
  inv := hr.reset hreset
  follows := (reset_follows h hreset).1
  stepId := (reset_follows h hreset).2
  ahead p hp := by
    rw [reset_inflight hreset] at hp
    cases hp

theorem Replaying.pre {k : ℕ} (h : r.Replaying cfg t full ms k)
    (hm : ms[k]? = some m) (l : Local) :
    ∃ r', r.pre cfg t full m l = .ok r' ∧ r'.Replaying cfg t full ms (k + 1) := by
  have hget : ms[(r.state.coordinator t).stepId]? = some m := by rwa [h.stepId]
  have htracing := h.follows.tracing hget
  have hcode : r.pre cfg t full m l = r.fetch cfg t full m l := by
    unfold Session.pre
    rw [htracing.prologue]
    have hnot : r.state.recordModule t m = r.state := by
      unfold State.recordModule
      rw [if_neg]
      rw [h.follows.traceMode]
      decide
    change ({ r with state := r.state.recordModule t m } : Session α).fetch
      cfg t full m l = _
    rw [hnot]
  obtain ⟨s₁, -, hresident, hd, hok, hcases⟩ := fetch_cases h.inv m l
  obtain ⟨r', hfetch⟩ := hok htracing.agrees
  obtain ⟨-, hstate, -, -⟩ := hcases r' hfetch
  have hpre := hcode.trans hfetch
  obtain ⟨hfollows, hstep, horder⟩ := pre_follows h.follows hget hpre
  refine ⟨r', hpre, h.inv.pre hpre, hfollows, ?_, ?_⟩
  · rw [hstep, h.stepId]
  · intro p hp
    have hsame := hd.kept.sameTrace
    rw [hstate] at hp
    rw [horder]
    rw [(State.Frame.modify (t := t) (fun c => { c with stepId := c.stepId + 1 })
      rfl rfl).inflight] at hp
    rcases hresident.prefetched_inflight cfg l.prefetchOrder _ hp with hp | hp
    · obtain ⟨hin, hnot⟩ := (hd.inflight p).mp hp
      obtain ⟨x, hx, rfl, hle⟩ := h.ahead p hin
      refine ⟨x, hx, rfl, ?_⟩
      rcases hle.eq_or_lt with heq | hlt
      · rw [h.follows.paramOrder] at hx
        obtain ⟨i, m', hi, hstep', hmem⟩ := mem_traceFrom.mp hx
        rw [Nat.zero_add, ← heq] at hstep'
        rw [← hstep', hm] at hi
        obtain rfl := Option.some.inj hi
        exact absurd (State.mem_recordedParams.mp hmem) hnot
      · exact hlt
    · have hget₁ := hget
      rw [← hsame.stepId] at hget₁
      obtain ⟨n, -, -, -, hmem⟩ :=
        (h.follows.sameTrace hsame).collected hget₁
      rw [hsame.iterParams] at hmem
      obtain ⟨x, hx, rfl, hle⟩ := hmem p hp
      rw [hsame.paramOrder] at hx
      refine ⟨x, hx, rfl, ?_⟩
      rwa [hsame.stepId, h.stepId] at hle

theorem Replaying.post {k : ℕ} (h : r.Replaying cfg t full ms k)
    {cpuFullParam : Finset ParamId}
    (hpaired : Paired cfg (.ok r) (.post m cpuFullParam)) :
    (r.release cfg t m cpuFullParam).Replaying cfg t full ms k := by
  obtain ⟨hm, hcpu⟩ := hpaired m cpuFullParam rfl r rfl
  have hsame := release_sameTrace cfg t r m cpuFullParam
  refine ⟨h.inv.release hm hcpu, h.follows.sameTrace hsame, ?_, ?_⟩
  · exact hsame.stepId.trans h.stepId
  · intro p hp
    rw [hsame.paramOrder]
    rw [release_inflight] at hp
    exact h.ahead p hp

/-- Nothing is registered any more when all modules have been fetched. -/
theorem Replaying.reset {k : ℕ} (h : r.Replaying cfg t full ms k)
    (hk : ms.length ≤ k) (step : Bool) :
    ∃ r', r.reset cfg t step = .ok r' ∧ r'.Replaying cfg t full ms 0 := by
  have hinflight : (r.state.coordinator t).inflight = ∅ := by
    rw [Finset.eq_empty_iff_forall_notMem]
    intro p hp
    obtain ⟨x, hx, -, hle⟩ := h.ahead p hp
    rw [h.follows.paramOrder] at hx
    obtain ⟨i, m, hi, hstep, -⟩ := mem_traceFrom.mp hx
    have hlt := (List.getElem?_eq_some_iff.mp hi).1
    omega
  obtain ⟨r', hreset⟩ := h.inv.reset_ok
    (h.follows.resetStep hinflight (some (r.state.coordinator t))) step
  exact ⟨r', hreset, .start h.inv (.inr h.follows) hreset⟩

end Session

section

variable {α : Type} {cfg : Config} {t : Bool} {full : ParamId → α}
  {ms : List ModuleId} {k : ℕ} {hooks : List Hook}

theorem run_recording {r : Session α} {x : Except Failure (Session α)}
    (h : r.state.Recording t ms) (hfirst : ∀ step, Hook.reset step ∉ hooks)
    (hrun : run (Session.hook cfg t full) (.ok r) hooks = some x) :
    ∀ r', x = .ok r' →
      r'.state.Recording t (ms ++ hooks.filterMap Hook.fetched) := by
  induction hooks generalizing r ms with
  | nil =>
      obtain rfl := Option.some.inj hrun
      intro r' hr'
      obtain rfl := Except.ok.inj hr'
      rw [List.filterMap_nil, List.append_nil]
      exact h
  | cons hook hooks ih =>
      obtain ⟨x₁, hstep, hrest⟩ := Option.bind_eq_some_iff.mp hrun
      have hhooks : ∀ step, Hook.reset step ∉ hooks :=
        fun step hmem => hfirst step (List.mem_cons_of_mem hook hmem)
      cases x₁ with
      | error e =>
          cases hooks with
          | nil =>
              obtain rfl := Option.some.inj hrest
              intro r' hr'
              cases hr'
          | cons => cases hrest
      | ok r₁ =>
          cases hook with
          | pre m l =>
              have hnext := Session.pre_recording h (Option.some.inj hstep)
              have hfetched : (Hook.pre m l :: hooks).filterMap Hook.fetched =
                m :: hooks.filterMap Hook.fetched := rfl
              rw [hfetched, List.append_cons]
              exact ih hnext hhooks hrest
          | post m cpuFullParam =>
              obtain rfl := Except.ok.inj (Option.some.inj hstep)
              rw [List.filterMap_cons_none rfl]
              exact ih (h.sameTrace (Session.release_sameTrace cfg t r m cpuFullParam))
                hhooks hrest
          | reset step => exact absurd List.mem_cons_self (hfirst step)

/-- An iteration without a trace raises nothing and is recorded. -/
theorem record_iteration {r : Session α} (hr : r.Inv cfg t full)
    (h : r.state.Recording t []) (hinflight : (r.state.coordinator t).inflight = ∅)
    (hhooks : ∀ step, Hook.reset step ∉ hooks)
    (hpaired : AllSteps (Session.hook cfg t full) (Session.Paired cfg) (.ok r) hooks)
    (step : Bool) :
    ∃ r', run (Session.hook cfg t full) (.ok r) (hooks ++ [.reset step]) =
        some (.ok r') ∧
      r'.Replaying cfg t full (hooks.filterMap Hook.fetched) 0 := by
  obtain ⟨r₁, hrun, hr₁, huntraced⟩ := hr.run_untraced
    (by rw [h.traceMode]; decide) hhooks hpaired
  have hrecording := run_recording h hhooks hrun r₁ rfl
  rw [List.nil_append] at hrecording
  have hempty : (r₁.state.coordinator t).inflight = ∅ := by
    rw [Finset.eq_empty_iff_forall_notMem]
    intro p hp
    have hold := ((huntraced.inflight p).mp hp).1
    rw [hinflight] at hold
    cases hold
  obtain ⟨s, hrecorded, -⟩ := hrecording.resetStep cfg hempty
  obtain ⟨r', hreset⟩ := hr₁.reset_ok hrecorded step
  refine ⟨r', ?_, .start hr₁ (.inl hrecording) hreset⟩
  rw [run_append, hrun]
  exact congrArg some hreset

end

/-- Both modules are fetched in every iteration. -/
def bothModules : List Hook :=
  [.pre 1 (evenUp 0), .pre 2 (evenUp 1)]

theorem freshSession_recording : freshSession.state.Recording true [] := by
  constructor <;> rfl

theorem no_reset_bothModules (step : Bool) : Hook.reset step ∉ bothModules := by
  simp [bothModules]

end SmartNic.Offload
