import SmartNic.Offload.Replay

/-!
# Diverging from a trace

An iteration that does not fetch the recorded modules.  `trace_prologue` drops
the trace at the first module that is not the recorded one, but it reads past the
end of a trace that is too short, and what has been prefetched until then stays
registered until its modules are fetched.
-/

namespace SmartNic.Offload

open Machine

namespace Session

variable {α : Type} (cfg : Config) (t : Bool) (full : ParamId → α)

/-- No parameter is in flight and those of the open modules are available. -/
structure Settled (cfg : Config) (r : Session α) : Prop where
  status : ∀ p, r.state.dsStatus p ≠ .inflight
  available : ∀ m ∈ r.opened, ∀ p ∈ r.state.iterParams cfg m,
    r.state.dsStatus p = .available

/-- The next iteration is recorded. -/
structure Rerecords (r : Session α) : Prop where
  traceMode : (r.state.coordinator t).traceMode = .record
  next : ∀ hooks : List Hook, (∀ step, Hook.reset step ∉ hooks) →
    AllSteps (hook cfg t full) (Paired cfg) (.ok r) hooks → ∀ step,
    ∃ r', run (hook cfg t full) (.ok r) (hooks ++ [.reset step]) = some (.ok r') ∧
      r'.state.Follows cfg t (hooks.filterMap Hook.fetched)

end Session

/-- The hooks `before` fetch what comes first in `ms`, and `m` does not come
next. -/
def Differs (ms : List ModuleId) (before : List Hook) (m : ModuleId) : Prop :=
  before.filterMap Hook.fetched <+: ms ∧
    ms[(before.filterMap Hook.fetched).length]? ≠ some m

namespace Session

variable {α : Type} (cfg : Config) (t : Bool) (full : ParamId → α)

/-- The hooks of an iteration, where the trace has the modules `ms` left, and
`reset_step` raise nothing.  If the hooks do not fetch these modules, the trace is
invalid after the first one that differs and the next iteration is recorded. -/
def Absorbed (ms : List ModuleId) (r : Session α) (hooks : List Hook)
    (step : Bool) : Prop :=
  ∃ r', run (hook cfg t full) (.ok r) (hooks ++ [.reset step]) = some (.ok r') ∧
    Settled cfg r' ∧
    (hooks.filterMap Hook.fetched ≠ ms → Rerecords cfg t full r' ∧
      ∀ before m l after, hooks = before ++ .pre m l :: after →
        Differs ms before m →
        ∃ r₁, run (hook cfg t full) (.ok r) (before ++ [.pre m l]) =
            some (.ok r₁) ∧
          (r₁.state.coordinator t).traceMode = .invalid)

/-- The hooks fetch these modules, or one differs before the trace ends and
every parameter registered there belongs to a module fetched from there on. -/
def Recoverable (ms : List ModuleId) (r : Session α) (hooks : List Hook) : Prop :=
  hooks.filterMap Hook.fetched = ms ∨
    ∃ before m l after, hooks = before ++ .pre m l :: after ∧
      Differs ms before m ∧ (before.filterMap Hook.fetched).length < ms.length ∧
      ∀ r₁, run (hook cfg t full) (.ok r) before = some (.ok r₁) →
        ∀ p ∈ (r₁.state.coordinator t).inflight,
          ∃ m' ∈ m :: after.filterMap Hook.fetched, p ∈ r₁.state.iterParams cfg m'

variable {cfg t full} {r r' : Session α} {ms : List ModuleId} {k : ℕ}
  {hooks : List Hook} {m m' : ModuleId}

/-! ## Until the first difference -/

theorem getElem?_of_drop {l : List ModuleId} (h : ms.drop k = m :: l) :
    ms[k]? = some m ∧ ms.drop (k + 1) = l := by
  constructor
  · have hget : (ms.drop k)[0]? = some m := by
      rw [h]
      rfl
    rwa [List.getElem?_drop, Nat.add_zero] at hget
  · rw [← List.drop_drop, h]
    rfl

/-- The hooks that fetch what comes first replay it. -/
theorem Replaying.run (hr : r.Replaying cfg t full ms k)
    (hhooks : ∀ step, Hook.reset step ∉ hooks)
    (hfetched : hooks.filterMap Hook.fetched <+: ms.drop k)
    (hpaired : AllSteps (hook cfg t full) (Paired cfg) (.ok r) hooks) :
    ∃ r', Machine.run (hook cfg t full) (.ok r) hooks = some (.ok r') ∧
      r'.Replaying cfg t full ms (k + (hooks.filterMap Hook.fetched).length) := by
  induction hooks generalizing r k with
  | nil => exact ⟨r, rfl, hr⟩
  | cons h hooks ih =>
      have hrest : ∀ step, Hook.reset step ∉ hooks :=
        fun step hmem => hhooks step (List.mem_cons_of_mem h hmem)
      cases h with
      | pre m l =>
          have hcons : (Hook.pre m l :: hooks).filterMap Hook.fetched =
            m :: hooks.filterMap Hook.fetched := rfl
          rw [hcons] at hfetched ⊢
          obtain ⟨rest, hdrop⟩ := hfetched
          obtain ⟨hget, hnext⟩ := getElem?_of_drop hdrop.symm
          obtain ⟨r₁, hpre, hr₁⟩ := hr.pre hget l
          obtain ⟨r', hrun, hr'⟩ := ih hr₁ hrest ⟨rest, hnext.symm⟩
            (hpaired.2 _ (congrArg some hpre))
          refine ⟨r', ?_, ?_⟩
          · rw [Machine.run, show Session.hook cfg t full (.ok r) (.pre m l) =
              some (.ok r₁) from congrArg some hpre]
            exact hrun
          · rwa [List.length_cons, Nat.add_comm _ 1, ← Nat.add_assoc]
      | post m cpuFullParam =>
          have hnext := hpaired.2 _ rfl
          exact ih (hr.post hpaired.1) hrest hfetched hnext
      | reset step => exact absurd List.mem_cons_self (hhooks step)

/-- Either the hooks fetch what comes first or there is a first difference. -/
theorem exists_differs (ms : List ModuleId) (hooks : List Hook) :
    hooks.filterMap Hook.fetched <+: ms ∨
      ∃ before m l after, hooks = before ++ .pre m l :: after ∧
        Differs ms before m := by
  induction hooks generalizing ms with
  | nil => exact .inl (List.nil_prefix)
  | cons h hooks ih =>
      have hskip : ∀ ms', Hook.fetched h = none → ms' = ms →
          (h :: hooks).filterMap Hook.fetched <+: ms ∨
            ∃ before m l after, h :: hooks = before ++ .pre m l :: after ∧
              Differs ms before m := by
        rintro ms' hnone rfl
        have hsame : ∀ l : List Hook, (h :: l).filterMap Hook.fetched =
            l.filterMap Hook.fetched := fun l => List.filterMap_cons_none hnone
        rcases ih ms' with hprefix | ⟨before, m, l, after, rfl, hdiffers⟩
        · exact .inl (by rwa [hsame])
        · refine .inr ⟨h :: before, m, l, after, rfl, ?_⟩
          unfold Differs
          rwa [hsame]
      cases h with
      | post m cpuFullParam => exact hskip ms rfl rfl
      | reset step => exact hskip ms rfl rfl
      | pre m l =>
          by_cases hhead : ms[0]? = some m
          · cases ms with
            | nil => cases hhead
            | cons m' ms =>
                obtain rfl : m' = m := Option.some.inj hhead
                rcases ih ms with hprefix | ⟨before, m, l', after, rfl, hdiffers⟩
                · exact .inl (List.cons_prefix_cons.mpr ⟨rfl, hprefix⟩)
                · refine .inr ⟨.pre m' l :: before, m, l', after, rfl, ?_, ?_⟩
                  · exact List.cons_prefix_cons.mpr ⟨rfl, hdiffers.1⟩
                  · exact hdiffers.2
          · exact .inr ⟨[], m, l, hooks, rfl, List.nil_prefix, hhead⟩

/-! ## At the first difference -/

/-- The trace is dropped. -/
theorem Replaying.pre_differs (hr : r.Replaying cfg t full ms k)
    (hget : ms[k]? = some m') (hne : m ≠ m') (l : Local) :
    ∃ r', r.pre cfg t full m l = .ok r' ∧ r'.Inv cfg t full ∧
      (r'.state.coordinator t).traceMode = .invalid ∧
      (r'.state.coordinator t).submoduleOrder = [] ∧
      r'.state.externalParams = r.state.externalParams ∧
      ∀ p, p ∈ (r'.state.coordinator t).inflight ↔
        p ∈ (r.state.coordinator t).inflight ∧ p ∉ r.state.iterParams cfg m := by
  set s := r.state.modifyCoordinator t fun c =>
    { c with traceMode := .invalid }.clearTraceStructures with hs
  have hcoord : s.coordinator t =
      { r.state.coordinator t with
        traceMode := .invalid }.clearTraceStructures := State.coordinator_modify _
  have hprologue : r.state.tracePrologue t m = .ok s := by
    unfold State.tracePrologue
    dsimp only
    rw [if_pos hr.follows.traceMode, hr.follows.submoduleOrder, hr.stepId, hget]
    exact if_neg hne
  have hagain : s.tracePrologue t m = .ok s := by
    unfold State.tracePrologue
    dsimp only
    rw [if_neg]
    rw [hcoord]
    exact TraceMode.noConfusion
  have hinvalid := hr.inv.retraced (State.tracePrologue_retraced hprologue)
  obtain ⟨r', hpre, hr', hu⟩ := hinvalid.pre_untraced (by
    dsimp only
    rw [hcoord]
    exact TraceMode.noConfusion) m l
  have hcode : r.pre cfg t full m l = ({ r with state := s } : Session α).pre
      cfg t full m l := by
    unfold Session.pre
    dsimp only
    rw [hprologue, hagain]
  refine ⟨r', hcode.trans hpre, hr', ?_, ?_, hu.externalParams, ?_⟩
  · rw [hu.traceMode]
    dsimp only
    rw [hcoord]
    rfl
  · rw [hu.submoduleOrder]
    · dsimp only
      rw [hcoord]
      rfl
    · dsimp only
      rw [hcoord]
      exact TraceMode.noConfusion
  · intro p
    rw [hu.inflight, List.forall_mem_singleton]
    dsimp only
    rw [hcoord]
    rfl

/-- The trace has no more modules. -/
theorem Replaying.pre_past (hr : r.Replaying cfg t full ms k) (hget : ms[k]? = none)
    (m : ModuleId) (l : Local) : ∃ e, r.pre cfg t full m l = .error e := by
  have hprologue : r.state.tracePrologue t m = r.state.fail .indexError := by
    unfold State.tracePrologue
    dsimp only
    rw [if_pos hr.follows.traceMode, hr.follows.submoduleOrder, hr.stepId, hget]
  unfold Session.pre
  rw [hprologue]
  exact ⟨_, rfl⟩

/-! ## After it -/

variable (cfg) in
theorem resetStep_invalid {s : State}
    (hmode : (s.coordinator t).traceMode = .invalid)
    (hmodules : (s.coordinator t).submoduleOrder = [])
    (hinflight : (s.coordinator t).inflight = ∅) :
    ∃ s', s.resetStep cfg t (some (s.coordinator t)) = .ok s' ∧
      s'.Recording t [] := by
  refine ⟨(s.modifyCoordinator t fun c =>
    { c with traceMode := .record }).restart t, ?_, ?_⟩
  · unfold State.resetStep
    dsimp only
    rw [if_neg (not_not_intro hinflight), hmode, if_neg TraceMode.noConfusion,
      if_neg (by simp [State.sameAsRank0]), if_neg TraceMode.noConfusion]
  · unfold State.restart
    rw [State.modify_modify]
    constructor
    all_goals rw [State.coordinator_modify]
    · exact hmodules
    · rfl
    · rfl

/-- With nothing registered, `reset_step` begins a new trace. -/
theorem Inv.reset_invalid (hr : r.Inv cfg t full)
    (hmode : (r.state.coordinator t).traceMode = .invalid)
    (hmodules : (r.state.coordinator t).submoduleOrder = [])
    (hinflight : (r.state.coordinator t).inflight = ∅) (step : Bool) :
    ∃ r', r.reset cfg t step = .ok r' ∧ Settled cfg r' ∧
      Rerecords cfg t full r' := by
  obtain ⟨s, hrun, hs⟩ := resetStep_invalid cfg hmode hmodules hinflight
  obtain ⟨r', hreset⟩ := hr.reset_ok hrun step
  have hr' := hr.reset hreset
  have hempty := reset_inflight hreset
  have hrecording : r'.state.Recording t [] := by
    obtain ⟨s', hrun', hrest⟩ := exists_of_bind hreset
    obtain rfl := Except.ok.inj (hrun.symm.trans hrun')
    dsimp only at hrest
    split_ifs at hrest
    · obtain ⟨s', hpartition, hrest⟩ := exists_of_bind hrest
      obtain rfl := Except.ok.inj hrest
      exact hs.sameTrace (State.releaseAndResetAll_sameTrace hpartition)
    · obtain rfl := Except.ok.inj hrest
      exact hs
  refine ⟨r', hreset, ⟨hr'.resident.notInflight hempty, hr'.available⟩,
    hrecording.traceMode, ?_⟩
  intro hooks hhooks hpaired step
  obtain ⟨r'', hrun'', hr''⟩ :=
    record_iteration hr' hrecording hempty hhooks hpaired step
  exact ⟨r'', hrun'', hr''.follows⟩

/-- From the first difference to `reset_step`. -/
theorem Replaying.run_differs (hr : r.Replaying cfg t full ms k)
    (hget : ms[k]? = some m') (hne : m ≠ m') {l : Local}
    (hhooks : ∀ step, Hook.reset step ∉ hooks)
    (hpaired : AllSteps (hook cfg t full) (Paired cfg) (.ok r)
      (.pre m l :: hooks)) :
    ∃ r₁ r₂, r.pre cfg t full m l = .ok r₁ ∧
      Machine.run (hook cfg t full) (.ok r₁) hooks = some (.ok r₂) ∧
      r₂.Inv cfg t full ∧
      (r₁.state.coordinator t).traceMode = .invalid ∧
      (r₂.state.coordinator t).traceMode = .invalid ∧
      (r₂.state.coordinator t).submoduleOrder = [] ∧
      ∀ p, p ∈ (r₂.state.coordinator t).inflight ↔
        p ∈ (r.state.coordinator t).inflight ∧
          ∀ m' ∈ m :: hooks.filterMap Hook.fetched,
            p ∉ r.state.iterParams cfg m' := by
  obtain ⟨r₁, hpre, hr₁, hmode, hmodules, hexternal, hinflight⟩ :=
    hr.pre_differs hget hne l
  obtain ⟨r₂, hrun, hr₂, hu⟩ := hr₁.run_untraced
    (by rw [hmode]; exact TraceMode.noConfusion) hhooks
    (hpaired.2 _ (congrArg some hpre))
  have hparams : r₁.state.iterParams cfg = r.state.iterParams cfg := by
    funext m
    unfold State.iterParams
    rw [hexternal]
  refine ⟨r₁, r₂, hpre, hrun, hr₂, hmode, hu.traceMode.trans hmode, ?_, ?_⟩
  · rw [hu.submoduleOrder]
    · exact hmodules
    · rw [hmode]
      exact TraceMode.noConfusion
  · intro p
    rw [hu.inflight, hinflight, hparams, List.forall_mem_cons, and_assoc]

/-! ## When an iteration is absorbed -/

theorem fetched_append (before : List Hook) (m : ModuleId) (l : Local)
    (after : List Hook) :
    (before ++ .pre m l :: after).filterMap Hook.fetched =
      before.filterMap Hook.fetched ++ m :: after.filterMap Hook.fetched :=
  List.filterMap_append

/-- The first difference is where the fetched modules leave those of the
trace. -/
theorem not_prefix_of_differs {before : List Hook} (l : Local) (after : List Hook)
    (hdiffers : Differs ms before m)
    (hlt : (before.filterMap Hook.fetched).length < ms.length) :
    ¬ ms <+: (before ++ .pre m l :: after).filterMap Hook.fetched := by
  rintro ⟨rest, happend⟩
  rw [fetched_append] at happend
  have hget : (ms ++ rest)[(before.filterMap Hook.fetched).length]? = some m := by
    rw [happend]
    simp
  rw [List.getElem?_append_left hlt] at hget
  exact hdiffers.2 hget

theorem no_reset_append {before after : List Hook} {l : Local}
    (hhooks : ∀ step, Hook.reset step ∉ before ++ .pre m l :: after) :
    (∀ step, Hook.reset step ∉ before) ∧ ∀ step, Hook.reset step ∉ after := by
  constructor
  · exact fun step hmem => hhooks step (List.mem_append_left _ hmem)
  · intro step hmem
    exact hhooks step (List.mem_append_right _ (List.mem_cons_of_mem _ hmem))

/-- The states at a difference and before the hooks that follow it. -/
theorem Replaying.run_split (hr : r.Replaying cfg t full ms k)
    {before after : List Hook} {l : Local}
    (hhooks : ∀ step, Hook.reset step ∉ before ++ .pre m l :: after)
    (hpaired : AllSteps (hook cfg t full) (Paired cfg) (.ok r)
      (before ++ .pre m l :: after))
    (hdiffers : Differs (ms.drop k) before m)
    (hlt : (before.filterMap Hook.fetched).length < (ms.drop k).length) :
    ∃ r₀ r₁ r₂, Machine.run (hook cfg t full) (.ok r) before = some (.ok r₀) ∧
      Machine.run (hook cfg t full) (.ok r) (before ++ [.pre m l]) =
        some (.ok r₁) ∧
      Machine.run (hook cfg t full) (.ok r) (before ++ .pre m l :: after) =
        some (.ok r₂) ∧
      r₂.Inv cfg t full ∧
      (r₁.state.coordinator t).traceMode = .invalid ∧
      (r₂.state.coordinator t).traceMode = .invalid ∧
      (r₂.state.coordinator t).submoduleOrder = [] ∧
      ∀ p, p ∈ (r₂.state.coordinator t).inflight ↔
        p ∈ (r₀.state.coordinator t).inflight ∧
          ∀ m' ∈ m :: after.filterMap Hook.fetched,
            p ∉ r₀.state.iterParams cfg m' := by
  obtain ⟨hbefore, hafter⟩ := no_reset_append hhooks
  obtain ⟨hpaired₁, hpaired₂⟩ := hpaired.append
  obtain ⟨r₀, hrun, hr₀⟩ := hr.run hbefore hdiffers.1 hpaired₁
  set n := (before.filterMap Hook.fetched).length with hn
  have hsome : (ms.drop k)[n]? = some (ms.drop k)[n] :=
    List.getElem?_eq_getElem hlt
  have hne : m ≠ (ms.drop k)[n] := by
    intro heq
    refine hdiffers.2 ?_
    rw [← hn, hsome, heq]
  rw [List.getElem?_drop] at hsome
  obtain ⟨r₁, r₂, hpre, hrest, hr₂, hmode₁, hmode₂, hmodules, hinflight⟩ :=
    hr₀.run_differs hsome hne hafter (hpaired₂ _ hrun)
  have hstep : hook cfg t full (.ok r₀) (.pre m l) = some (.ok r₁) :=
    congrArg some hpre
  refine ⟨r₀, r₁, r₂, hrun, ?_, ?_, hr₂, hmode₁, hmode₂, hmodules, hinflight⟩
  · rw [run_append, hrun]
    simp only [Option.bind_some, Machine.run, hstep]
  · rw [run_append, hrun, Option.bind_some, Machine.run, hstep]
    exact hrest

/-- An iteration that is recoverable is absorbed. -/
theorem Replaying.absorbed (hr : r.Replaying cfg t full ms k)
    (hhooks : ∀ step, Hook.reset step ∉ hooks)
    (hpaired : AllSteps (hook cfg t full) (Paired cfg) (.ok r) hooks)
    (hrecoverable : Recoverable cfg t full (ms.drop k) r hooks) (step : Bool) :
    Absorbed cfg t full (ms.drop k) r hooks step := by
  rcases hrecoverable with hsame | ⟨before, m, l, after, rfl, hdiffers, hlt, hmodules⟩
  · obtain ⟨r₁, hrun, hr₁⟩ := hr.run hhooks (by rw [hsame]) hpaired
    rw [hsame, List.length_drop] at hr₁
    obtain ⟨r', hreset, hr'⟩ := hr₁.reset (by omega) step
    have hempty := reset_inflight hreset
    refine ⟨r', ?_, ⟨hr'.inv.resident.notInflight hempty, hr'.inv.available⟩,
      fun hne => absurd hsame hne⟩
    rw [run_append, hrun]
    exact congrArg some hreset
  · obtain ⟨r₀, r₁, r₂, hbefore, -, hrun, hr₂, -, hmode, hnone, hinflight⟩ :=
      hr.run_split hhooks hpaired hdiffers hlt
    have hempty : (r₂.state.coordinator t).inflight = ∅ := by
      rw [Finset.eq_empty_iff_forall_notMem]
      intro p hp
      obtain ⟨hin, hnot⟩ := (hinflight p).mp hp
      obtain ⟨m', hm', hmem⟩ := hmodules r₀ hbefore p hin
      exact hnot m' hm' hmem
    obtain ⟨r', hreset, hsettled, hrerecords⟩ :=
      hr₂.reset_invalid hmode hnone hempty step
    refine ⟨r', ?_, hsettled, fun _ => ⟨hrerecords, ?_⟩⟩
    · rw [run_append, hrun]
      exact congrArg some hreset
    · intro before' m' l' after' hsplit hdiffers'
      have hlt' : (before'.filterMap Hook.fetched).length < (ms.drop k).length := by
        by_contra hle
        push Not at hle
        have hall : before'.filterMap Hook.fetched = ms.drop k :=
          hdiffers'.1.eq_of_length_le hle
        refine not_prefix_of_differs l after hdiffers hlt ?_
        rw [hsplit, fetched_append, hall]
        exact List.prefix_append _ _
      rw [hsplit] at hhooks hpaired
      obtain ⟨-, r₁', -, -, hrun', -, -, hmode', -⟩ :=
        hr.run_split hhooks hpaired hdiffers' hlt'
      exact ⟨r₁', hrun', hmode'⟩

/-- What is absorbed is recoverable. -/
theorem Replaying.recoverable (hr : r.Replaying cfg t full ms k)
    (hhooks : ∀ step, Hook.reset step ∉ hooks)
    (hpaired : AllSteps (hook cfg t full) (Paired cfg) (.ok r) hooks) {step : Bool}
    (habsorbed : Absorbed cfg t full (ms.drop k) r hooks step) :
    Recoverable cfg t full (ms.drop k) r hooks := by
  obtain ⟨r', hrun', -, hdropped⟩ := habsorbed
  by_cases hsame : hooks.filterMap Hook.fetched = ms.drop k
  · exact .inl hsame
  refine .inr ?_
  obtain ⟨hrerecords, hinvalid⟩ := hdropped hsame
  rw [run_append] at hrun'
  rcases exists_differs (ms.drop k) hooks with
    hprefix | ⟨before, m, l, after, rfl, hdiffers⟩
  · obtain ⟨r₁, hrun, hr₁⟩ := hr.run hhooks hprefix hpaired
    rw [hrun] at hrun'
    have hreset : r₁.reset cfg t step = .ok r' := Option.some.inj
      ((Option.bind_some _ _).symm.trans hrun')
    have hcomplete := (reset_follows (.inr hr₁.follows) hreset).1.traceMode
    rw [hrerecords.traceMode] at hcomplete
    cases hcomplete
  · obtain ⟨hbefore, hafter⟩ := no_reset_append hhooks
    by_cases hlt : (before.filterMap Hook.fetched).length < (ms.drop k).length
    · obtain ⟨r₀, -, r₂, hrun₀, -, hrun, -, -, -, -, hinflight⟩ :=
        hr.run_split hhooks hpaired hdiffers hlt
      refine ⟨before, m, l, after, rfl, hdiffers, hlt, ?_⟩
      intro r₀' hrun₀' p hp
      obtain rfl := Except.ok.inj
        (Option.some.inj (hrun₀.symm.trans hrun₀'))
      by_contra hnot
      push Not at hnot
      have hleft := (hinflight p).mpr ⟨hp, hnot⟩
      rw [hrun] at hrun'
      have hreset : r₂.reset cfg t step = .ok r' := Option.some.inj
        ((Option.bind_some _ _).symm.trans hrun')
      obtain ⟨s, hresetStep, -⟩ := exists_of_bind hreset
      rw [← (State.resetStep_frame hresetStep).inflight,
        State.resetStep_inflight hresetStep] at hleft
      cases hleft
    · obtain ⟨r₁, hrun₁, -⟩ := hinvalid before m l after rfl hdiffers
      obtain ⟨r₀, hrun₀, hr₀⟩ := hr.run hbefore hdiffers.1 hpaired.append.1
      have hnone : ms[k + (before.filterMap Hook.fetched).length]? = none := by
        rw [← List.getElem?_drop]
        exact List.getElem?_eq_none (not_lt.mp hlt)
      obtain ⟨e, hpre⟩ := hr₀.pre_past hnone m l
      rw [run_append, hrun₀] at hrun₁
      have hok : r₀.pre cfg t full m l = .ok r₁ := by
        have hstep : hook cfg t full (.ok r₀) (.pre m l) =
            some (r₀.pre cfg t full m l) := rfl
        simp only [Option.bind_some, Machine.run, hstep] at hrun₁
        exact Option.some.inj hrun₁
      rw [hpre] at hok
      cases hok

end Session

/-- While a trace is replayed, an iteration is absorbed exactly if it is
recoverable. -/
theorem divergence_absorbed_iff {α : Type} {cfg : Config} {t : Bool}
    {full : ParamId → α} {ms : List ModuleId} {k : ℕ} {r : Session α}
    (hr : r.Replaying cfg t full ms k) {hooks : List Hook}
    (hhooks : ∀ step, Hook.reset step ∉ hooks)
    (hpaired : AllSteps (Session.hook cfg t full) (Session.Paired cfg) (.ok r)
      hooks) (step : Bool) :
    Session.Absorbed cfg t full (ms.drop k) r hooks step ↔
      Session.Recoverable cfg t full (ms.drop k) r hooks := by
  constructor
  · exact hr.recoverable hhooks hpaired
  · intro hrecoverable
    exact hr.absorbed hhooks hpaired hrecoverable step

/-- Hooks that release nothing. -/
theorem paired_of_fetches {α : Type} {cfg : Config} {t : Bool} {full : ParamId → α}
    {hooks : List Hook} (hhooks : ∀ m cpuFullParam, .post m cpuFullParam ∉ hooks)
    (x : Except Failure (Session α)) :
    AllSteps (Session.hook cfg t full) (Session.Paired cfg) x hooks := by
  induction hooks generalizing x with
  | nil => trivial
  | cons h hooks ih =>
      constructor
      · rintro m cpuFullParam rfl
        exact absurd List.mem_cons_self (hhooks m cpuFullParam)
      · intro x' _
        refine ih (fun m cpuFullParam hmem => ?_) x'
        exact hhooks m cpuFullParam (List.mem_cons_of_mem h hmem)

/-- The modules in the other order. -/
def otherOrder : List Hook :=
  [.pre 2 (evenUp 1), .pre 1 (evenUp 0)]

theorem divergence_absorbed_iff_otherOrder :
    ∃ r, run (Session.hook twoModules true id) (.ok freshSession)
        (bothModules ++ [.reset true]) = some (.ok r) ∧
      (Session.Absorbed twoModules true id ([1, 2].drop 0) r otherOrder false ↔
        Session.Recoverable twoModules true id ([1, 2].drop 0) r otherOrder) := by
  obtain ⟨r, hrun, hr⟩ := record_iteration freshSession_start.inv
    freshSession_recording rfl no_reset_bothModules
    (paired_of_fetches (by simp [bothModules]) _) true
  have hreplaying : r.Replaying twoModules true id [1, 2] 0 := hr
  refine ⟨r, hrun, divergence_absorbed_iff hreplaying ?_ ?_ false⟩
  · simp [otherOrder]
  · exact paired_of_fetches (by simp [otherOrder]) _

/-- A longer iteration reads past the end of the trace. -/
theorem not_absorbed_longer :
    ∃ r, run (Session.hook twoModules true id) (.ok freshSession)
        (bothModules ++ [.reset true]) = some (.ok r) ∧
      ¬ Session.Absorbed twoModules true id [1, 2] r
        (bothModules ++ [.pre 1 (evenUp 0)]) false := by
  obtain ⟨r, hrun, -⟩ := record_iteration freshSession_start.inv
    freshSession_recording rfl no_reset_bothModules
    (paired_of_fetches (by simp [bothModules]) _) true
  refine ⟨r, hrun, ?_⟩
  rintro ⟨r', hrun', -⟩
  have hnone : (run (Session.hook twoModules true id) (.ok freshSession)
      ((bothModules ++ [.reset true]) ++
        ((bothModules ++ [.pre 1 (evenUp 0)]) ++ [.reset false]))).isNone = true := by
    decide +kernel
  rw [run_append, hrun, Option.bind_some, hrun'] at hnone
  cases hnone

end SmartNic.Offload
