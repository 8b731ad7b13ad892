import SmartNic.Offload.Gathers
import SmartNic.Training.Reductions

/-!
# All ranks request the same collectives

A hook does the same to the state of every rank, whatever the orders of its sets
and the speed of its GPU, and the ReduceScatters depend on the gradient hooks
alone.
-/

namespace SmartNic.Offload

open AnyOrder

variable {cfg : Config} {t : Bool} {m : ModuleId} {p : ParamId}

theorem outcome_bind {α β : Type} {r r' : Except Failure α}
    {f f' : α → Except Failure β} (h : outcome r = outcome r')
    (hf : ∀ a, r = .ok a → outcome (f a) = outcome (f' a)) :
    outcome (r >>= f) = outcome (r' >>= f') := by
  cases r with
  | error e =>
      cases r' with
      | error e' => exact congrArg Except.error (Except.error.inj h)
      | ok a' => cases h
  | ok a =>
      cases r' with
      | error e' => cases h
      | ok a' =>
          obtain rfl := Except.ok.inj h
          exact hf a rfl

theorem exists_of_bind {α β : Type} {r : Except Failure α}
    {f : α → Except Failure β} {b : β} (h : r >>= f = .ok b) :
    ∃ a, r = .ok a ∧ f a = .ok b := by
  cases r with
  | error e => cases h
  | ok a => exact ⟨a, rfl, h⟩

theorem map_bind {α β γ : Type} (r : Except Failure α)
    (f : α → Except Failure β) (g : β → γ) :
    (r >>= f).map g = r >>= fun a => (f a).map g := by
  cases r with
  | error e => rfl
  | ok a => rfl

theorem SetOrder.perm (o o' : SetOrder) (params : Finset ParamId) :
    (o.iterate params).Perm (o'.iterate params) := by
  refine (List.perm_ext_iff_of_nodup (o.nodup params) (o'.nodup params)).mpr ?_
  intro p
  rw [o.mem_iterate, o'.mem_iterate]

namespace State

variable {s s' : State}

/-! ## Functions that leave the registry as it is -/

theorem Frame.of_same (hcoordinator : s'.coordinator = s.coordinator)
    (hhandles : s'.handles = s.handles) (hcomplete : s'.complete = s.complete)
    (hstatus : s'.dsStatus = s.dsStatus) : Frame s s' where
  inflight t := by rw [hcoordinator]
  handleOf t := by rw [hcoordinator]
  handles := hhandles
  complete := hcomplete
  status p hp := by rw [hstatus, hp]

theorem Frame.setStatus {status : Partition.ZeroParamStatus}
    (hp : s.dsStatus p ≠ .inflight) : Frame s (s.setStatus p status) where
  inflight _ := rfl
  handleOf _ := rfl
  handles := rfl
  complete := rfl
  status q hq := by
    have hne : q ≠ p := by
      rintro rfl
      exact hp hq
    rw [setStatus_of_ne p status hne, hq]

theorem Frame.foldl {α : Type} {f : State → α → State}
    (hf : ∀ s a, Frame s (f s a)) (l : List α) (s : State) : Frame s (l.foldl f s) := by
  induction l generalizing s with
  | nil => exact .refl s
  | cons a l ih => exact (hf s a).trans (ih (f s a))

/-- What every step of a loop does, the loop does if it does not raise. -/
theorem foldlM_rel {α : Type} {R : State → State → Prop} (hrefl : ∀ s, R s s)
    (htrans : ∀ {s₁ s₂ s₃}, R s₁ s₂ → R s₂ s₃ → R s₁ s₃)
    {f : State → α → Except Failure State}
    (hf : ∀ s a s', f s a = .ok s' → R s s') {l : List α}
    (hrun : l.foldlM f s = .ok s') : R s s' := by
  induction l generalizing s with
  | nil =>
      obtain rfl := Except.ok.inj hrun
      exact hrefl s
  | cons a l ih =>
      rw [List.foldlM_cons] at hrun
      obtain ⟨s₁, hstep, hrest⟩ := exists_of_bind hrun
      exact htrans (hf s a s₁ hstep) (ih hrest)

theorem Frame.foldlM {α : Type} {f : State → α → Except Failure State}
    (hf : ∀ s a s', f s a = .ok s' → Frame s s') {l : List α}
    (hrun : l.foldlM f s = .ok s') : Frame s s' :=
  foldlM_rel .refl .trans hf hrun

theorem tracePrologue_frame (hrun : s.tracePrologue t m = .ok s') : Frame s s' := by
  unfold tracePrologue at hrun
  dsimp only at hrun
  split_ifs at hrun with hcomplete
  · split at hrun
    · cases hrun
    · split_ifs at hrun
      · obtain rfl := Except.ok.inj hrun
        exact .refl s
      · obtain rfl := Except.ok.inj hrun
        exact .modify _ rfl rfl
  · obtain rfl := Except.ok.inj hrun
    exact .refl s

theorem recordModule_frame (s : State) : Frame s (s.recordModule t m) := by
  unfold recordModule
  split_ifs
  · exact .modify _ rfl rfl
  · exact .refl s

theorem releaseParam_frame (s : State) : Frame s (s.releaseParam cfg t p) := by
  unfold releaseParam
  split_ifs with havail
  · refine Frame.trans ?_ (.modify _ rfl rfl)
    apply Frame.setStatus
    rw [havail.1]
    decide
  · exact .refl s

theorem releaseSubModule_frame (s : State) : Frame s (s.releaseSubModule cfg t m) := by
  unfold releaseSubModule
  apply Frame.foldl
  intro s p
  dsimp only
  split_ifs
  · refine Frame.trans ?_ (releaseParam_frame _)
    exact .of_same rfl rfl rfl rfl
  · exact .of_same rfl rfl rfl rfl

theorem releaseAndResetAll_frame (hrun : s.releaseAndResetAll cfg t m = .ok s') :
    Frame s s' := by
  obtain ⟨s₁, hfold, hrest⟩ := exists_of_bind hrun
  have hframe : Frame s s₁ := by
    refine Frame.foldlM ?_ hfold
    intro s p s' hstep
    split_ifs at hstep
    · cases hstep
    · obtain rfl := Except.ok.inj hstep
      have hclear : Frame s
          { s with
            dsActiveSubModules := Function.update s.dsActiveSubModules p ∅ } :=
        .of_same rfl rfl rfl rfl
      have hrelease := hclear.trans (@releaseParam_frame cfg t p _)
      exact hrelease.trans (.of_same rfl rfl rfl rfl)
  split_ifs at hrest
  · obtain rfl := Except.ok.inj hrest
    exact hframe
  · cases hrest

theorem recordParameters_frame (hrun : s.recordParameters cfg t m = .ok s') :
    Frame s s' := by
  unfold recordParameters at hrun
  split at hrun
  · cases hrun
  · obtain rfl := Except.ok.inj hrun
    exact .modify _ rfl rfl

theorem resetStep_frame {rank0 : Option Coordinator}
    (hrun : s.resetStep cfg t rank0 = .ok s') : Frame s s' := by
  unfold resetStep at hrun
  dsimp only at hrun
  split_ifs at hrun
  · cases hrun
  · obtain rfl := Except.ok.inj hrun
    exact .modify _ rfl rfl
  · cases hrun
  · obtain ⟨s₁, hfold, hrest⟩ := exists_of_bind hrun
    obtain rfl := Except.ok.inj hrest
    have hframe := Frame.foldlM (fun _ _ _ => recordParameters_frame) hfold
    refine Frame.trans ?_ (hframe.trans (Frame.trans ?_ (.modify _ rfl rfl)))
    · exact .modify _ rfl rfl
    · exact .modify _ rfl rfl
  · obtain rfl := Except.ok.inj hrun
    refine Frame.trans ?_ (.modify _ rfl rfl)
    exact .modify _ rfl rfl

theorem registerExternal_frame (hrun : s.registerExternal p = .ok s') : Frame s s' := by
  unfold registerExternal at hrun
  split at hrun
  · cases hrun
  · split_ifs at hrun
    · obtain rfl := Except.ok.inj hrun
      exact .refl s
    · obtain rfl := Except.ok.inj hrun
      exact .of_same rfl rfl rfl rfl

theorem allGather_frame (s : State) : Frame s (s.allGather p) := by
  unfold allGather
  split_ifs with hstatus
  · apply Frame.setStatus
    rw [hstatus]
    decide
  · exact .refl s

theorem getParameter_frame (hrun : s.getParameter p = .ok s') : Frame s s' := by
  unfold getParameter at hrun
  split_ifs at hrun
  · obtain ⟨s₁, hregister, hrest⟩ := exists_of_bind hrun
    obtain rfl := Except.ok.inj hrest
    exact (registerExternal_frame hregister).trans (allGather_frame s₁)
  · obtain rfl := Except.ok.inj hrun
    exact .refl s

theorem registerDangling_frame (hrun : s.registerDangling m p = .ok s') :
    Frame s s' := by
  unfold registerDangling at hrun
  split_ifs at hrun
  · obtain rfl := Except.ok.inj hrun
    exact .refl s
  · obtain ⟨s₁, hregister, hrest⟩ := exists_of_bind hrun
    obtain rfl := Except.ok.inj hrest
    refine Frame.trans ?_ ((registerExternal_frame hregister).trans
      (Frame.trans ?_ (allGather_frame _)))
    · exact .of_same rfl rfl rfl rfl
    · exact .of_same rfl rfl rfl rfl

theorem postForward_frame {output : List ParamId}
    (hrun : s.postForward cfg t m output = .ok s') : Frame s s' := by
  obtain ⟨s₀, hstack, hrest⟩ := exists_of_bind hrun
  obtain ⟨s₁, hfold, hrest⟩ := exists_of_bind hrest
  obtain rfl := Except.ok.inj hrest
  have hpop : Frame s s₀ := by
    unfold popModule at hstack
    split at hstack
    · cases hstack
    · obtain rfl := Except.ok.inj hstack
      exact .of_same rfl rfl rfl rfl
  have hdangling := Frame.foldlM (fun _ _ _ => registerDangling_frame) hfold
  refine hpop.trans (hdangling.trans (Frame.trans ?_ (releaseSubModule_frame _)))
  split_ifs
  · exact .of_same rfl rfl rfl rfl
  · exact .refl s₁

theorem postBackward_frame (s : State) : Frame s (s.postBackward cfg t m) := by
  refine Frame.trans ?_ (releaseSubModule_frame _)
  exact .of_same rfl rfl rfl rfl

/-! ## Fetching -/

theorem prefetch_inv {o : SetOrder} {params : Finset ParamId} (hinv : Inv s)
    (hrun : s.prefetch cfg t o params = .ok s') : Inv s' := by
  unfold prefetch at hrun
  dsimp only at hrun
  split_ifs at hrun
  · obtain rfl := Except.ok.inj hrun
    exact hinv
  · cases hrun
  · refine Inv.allGatherParams ?_ (o.nodup _) hrun
    exact (Frame.modify _ rfl rfl).inv hinv
  · obtain rfl := Except.ok.inj hrun
    exact (Frame.modify _ rfl rfl).inv hinv

theorem prefetch_outcome (o o' : SetOrder) (params : Finset ParamId) (s : State) :
    outcome (s.prefetch cfg t o params) = outcome (s.prefetch cfg t o' params) := by
  unfold prefetch
  dsimp only
  split_ifs
  · rfl
  · rfl
  · exact allGatherParams_perm (o.nodup _) (o.perm o' _)
  · rfl

/-- Without the fetch events. -/
theorem waitParams_fst (l : Local) (params : List ParamId) (s : State) (events : ℕ) :
    (s.waitParams t l m params events).map Prod.fst = params.foldlM (waitParam t m) s := by
  induction params generalizing s events with
  | nil => rfl
  | cons p params ih =>
      unfold waitParams at ih ⊢
      rw [List.foldlM_cons, List.foldlM_cons]
      cases hwait : s.waitParam t m p with
      | error e =>
          simp only [hwait]
          rfl
      | ok s₁ =>
          simp only [hwait]
          exact ih s₁ _

theorem fetchSubModule_fst (l : Local) (s : State) (events : ℕ) :
    (s.fetchSubModule cfg t l m events).map Prod.fst = (do
      let params := (s.iterParams cfg m).toFinset
      let s ← s.allGatherParams cfg t (l.gatherOrder.iterate params)
      let s ← (l.waitOrder.iterate params).foldlM (waitParam t m) s
      let s ← s.prefetch cfg t l.prefetchOrder params
      return s.modifyCoordinator t fun c => { c with stepId := c.stepId + 1 }) := by
  unfold fetchSubModule
  dsimp only
  rw [map_bind]
  apply bind_congr
  intro s₁
  rw [map_bind, ← waitParams_fst l _ s₁ events]
  generalize s₁.waitParams t l m _ events = waits
  cases waits with
  | error e => rfl
  | ok r =>
      change Except.map Prod.fst (_ >>= _) = (_ >>= _)
      rw [map_bind]
      rfl

theorem waits_outcome (hinv : Inv s) {l l' : List ParamId} (hl : l.Nodup)
    (hperm : l.Perm l') :
    outcome (l.foldlM (waitParam t m) s) = outcome (l'.foldlM (waitParam t m) s) := by
  have hcommutes := waitParam_commutes t m s.requests
  rcases hcommutes.foldlM_perm hcommutes ⟨hinv, rfl⟩ hl hperm with
    ⟨s', -, hrun, hrun'⟩ | ⟨e, e', hrun, hrun', he, he'⟩
  · rw [hrun, hrun']
  · rw [hrun, hrun']
    change Except.error _ = Except.error _
    rw [he, he']

theorem waits_inv (hinv : Inv s) {l : List ParamId} (hl : l.Nodup)
    (hrun : l.foldlM (waitParam t m) s = .ok s') : Inv s' := by
  have hcommutes := waitParam_commutes t m s.requests
  rcases hcommutes.foldlM_perm hcommutes ⟨hinv, rfl⟩ hl (.refl l) with
    ⟨s₁, hs₁, hrun₁, -⟩ | ⟨e, -, herror, -⟩
  · rw [hrun] at hrun₁
    obtain rfl := Except.ok.inj hrun₁
    exact hs₁.1
  · rw [hrun] at herror
    cases herror

theorem fetchSubModule_outcome (hinv : Inv s) (l l' : Local) (events events' : ℕ) :
    outcome ((s.fetchSubModule cfg t l m events).map Prod.fst) =
      outcome ((s.fetchSubModule cfg t l' m events').map Prod.fst) := by
  rw [fetchSubModule_fst, fetchSubModule_fst]
  dsimp only
  apply outcome_bind
  · exact allGatherParams_perm (l.gatherOrder.nodup _) (l.gatherOrder.perm _ _)
  · intro s₁ hgather
    have hinv₁ := hinv.allGatherParams (l.gatherOrder.nodup _) hgather
    apply outcome_bind
    · exact waits_outcome hinv₁ (l.waitOrder.nodup _) (l.waitOrder.perm _ _)
    · intro s₂ hwaits
      apply outcome_bind
      · exact prefetch_outcome _ _ _ _
      · intro s₃ hprefetch
        rfl

theorem fetchSubModule_inv (hinv : Inv s) {l : Local} {events events' : ℕ}
    (hrun : s.fetchSubModule cfg t l m events = .ok (s', events')) : Inv s' := by
  have hfst := congrArg (Except.map Prod.fst) hrun
  rw [fetchSubModule_fst] at hfst
  obtain ⟨s₁, hgather, hrest⟩ := exists_of_bind hfst
  obtain ⟨s₂, hwaits, hrest⟩ := exists_of_bind hrest
  obtain ⟨s₃, hprefetch, hrest⟩ := exists_of_bind hrest
  obtain rfl := Except.ok.inj hrest
  have hinv₁ := hinv.allGatherParams (l.gatherOrder.nodup _) hgather
  have hinv₂ := waits_inv hinv₁ (l.waitOrder.nodup _) hwaits
  exact (Frame.modify _ rfl rfl).inv (prefetch_inv hinv₂ hprefetch)

end State

/-! ## All ranks -/

section Ranks

variable {r r' r₁ : Rank}

theorem Rank.fetch_outcome (hinv : State.Inv r.state) (hsame : r.state = r'.state)
    (l l' : Local) :
    outcome ((r.fetch cfg l m t).map Rank.state) =
      outcome ((r'.fetch cfg l' m t).map Rank.state) := by
  have hfetch : ∀ (r : Rank) (l : Local), (r.fetch cfg l m t).map Rank.state = (do
      let s ← r.state.tracePrologue t m
      ((s.recordModule t m).fetchSubModule cfg t l m
        (r.ongoingFetchEvents t)).map Prod.fst) := by
    intro r l
    unfold Rank.fetch
    cases r.state.tracePrologue t m with
    | error e => rfl
    | ok s =>
        change Except.map Rank.state (State.fetchSubModule cfg t l m _ _ >>= _) =
          Except.map Prod.fst (State.fetchSubModule cfg t l m _ _)
        cases State.fetchSubModule cfg t l m _ _ with
        | error e => rfl
        | ok x => rfl
  rw [hfetch, hfetch, ← hsame]
  apply outcome_bind rfl
  intro s htrace
  have hframe : State.Frame r.state (s.recordModule t m) :=
    (State.tracePrologue_frame htrace).trans (State.recordModule_frame s)
  exact State.fetchSubModule_outcome (hframe.inv hinv) _ _ _ _

theorem Rank.fetch_inv (hinv : State.Inv r.state) {l : Local}
    (hrun : r.fetch cfg l m t = .ok r₁) : State.Inv r₁.state := by
  obtain ⟨s, htrace, hrest⟩ := exists_of_bind hrun
  obtain ⟨⟨s₁, events⟩, hfetch, hrest⟩ := exists_of_bind hrest
  obtain rfl := Except.ok.inj hrest
  have hframe : State.Frame r.state (s.recordModule t m) :=
    (State.tracePrologue_frame htrace).trans (State.recordModule_frame s)
  exact State.fetchSubModule_inv (hframe.inv hinv) hfetch

theorem Rank.step_outcome (hinv : State.Inv r.state) (hsame : r.state = r'.state)
    (l l' : Local) (rank0 : Option Rank) (e : HookEvent) :
    outcome ((r.step cfg l rank0 e).map Rank.state) =
      outcome ((r'.step cfg l' rank0 e).map Rank.state) := by
  have hmap : ∀ (r : Rank) (x : Except Failure State),
      (x >>= fun s => pure { r with state := s }).map Rank.state = x := by
    intro r x
    cases x with
    | error e => rfl
    | ok s => rfl
  cases e with
  | preForward m t =>
      refine Rank.fetch_outcome ?_ ?_ l l'
      · refine State.Frame.inv ?_ hinv
        exact .of_same rfl rfl rfl rfl
      · rw [hsame]
  | postForward m t output =>
      unfold Rank.step
      rw [hmap, hmap, hsame]
  | preBackward m t => exact Rank.fetch_outcome hinv hsame l l'
  | postBackward m t =>
      unfold Rank.step
      rw [hsame]
      rfl
  | getParameter p =>
      unfold Rank.step
      rw [hmap, hmap, hsame]
  | resetStep t =>
      unfold Rank.step
      rw [hmap, hmap, hsame]
  | partitionAllParameters m t =>
      unfold Rank.step
      rw [hmap, hmap, hsame]
  | gradient p => exact congrArg (fun s => Except.ok s) hsame
  | epilogue => exact congrArg (fun s => Except.ok s) hsame

theorem Rank.step_inv (hinv : State.Inv r.state) {l : Local} {rank0 : Option Rank}
    {e : HookEvent} (hrun : r.step cfg l rank0 e = .ok r₁) : State.Inv r₁.state := by
  have hframe : ∀ {x : Except Failure State},
      (∀ s, x = .ok s → State.Frame r.state s) →
      (x >>= fun s => pure { r with state := s }) = .ok r₁ → State.Inv r₁.state := by
    intro x hx hrun
    obtain ⟨s, hs, hrest⟩ := exists_of_bind hrun
    obtain rfl := Except.ok.inj hrest
    exact (hx s hs).inv hinv
  cases e with
  | preForward m t =>
      refine Rank.fetch_inv ?_ hrun
      refine State.Frame.inv ?_ hinv
      exact .of_same rfl rfl rfl rfl
  | postForward m t output => exact hframe (fun _ => State.postForward_frame) hrun
  | preBackward m t => exact Rank.fetch_inv hinv hrun
  | postBackward m t =>
      obtain rfl := Except.ok.inj hrun
      exact (State.postBackward_frame _).inv hinv
  | getParameter p => exact hframe (fun _ => State.getParameter_frame) hrun
  | resetStep t => exact hframe (fun _ => State.resetStep_frame) hrun
  | partitionAllParameters m t =>
      exact hframe (fun _ => State.releaseAndResetAll_frame) hrun
  | gradient p =>
      obtain rfl := Except.ok.inj hrun
      exact hinv
  | epilogue =>
      obtain rfl := Except.ok.inj hrun
      exact hinv

/-- All ranks are in the same state, or have failed after the same requests. -/
structure Ranks.Inv (w : Ranks) : Prop where
  same : ∀ i j, outcome ((w i).map Rank.state) = outcome ((w j).map Rank.state)
  inv : ∀ i r, w i = .ok r → State.Inv r.state

theorem Ranks.Inv.step {w : Ranks} (h : w.Inv) (locals : ℕ → Local) (e : HookEvent) :
    (w.step cfg locals e).Inv where
  same i j := by
    have hsame := h.same i j
    unfold Ranks.step
    cases hi : w i with
    | error e =>
        cases hj : w j with
        | error e' =>
            rw [hi, hj] at hsame
            exact hsame
        | ok r' =>
            rw [hi, hj] at hsame
            cases hsame
    | ok r =>
        cases hj : w j with
        | error e' =>
            rw [hi, hj] at hsame
            cases hsame
        | ok r' =>
            rw [hi, hj] at hsame
            exact Rank.step_outcome (h.inv i r hi) (Except.ok.inj hsame) _ _ _ e
  inv i r₁ hrun := by
    obtain ⟨r, hr, hstep⟩ := exists_of_bind hrun
    exact Rank.step_inv (h.inv i r hr) hstep

theorem Ranks.Inv.run {w : Ranks} (h : w.Inv)
    (hooks : List (HookEvent × (ℕ → Local))) : (Ranks.run cfg hooks w).Inv := by
  induction hooks generalizing w with
  | nil => exact h
  | cons hook hooks ih => exact ih (h.step hook.2 hook.1)

theorem requestsOf_congr {x y : Except Failure Rank}
    (h : outcome (x.map Rank.state) = outcome (y.map Rank.state)) :
    requestsOf x = requestsOf y := by
  cases x with
  | error e =>
      cases y with
      | error e' => exact Except.error.inj h
      | ok r' => cases h
  | ok r =>
      cases y with
      | error e' => cases h
      | ok r' => exact congrArg State.requests (Except.ok.inj h)

end Ranks

/-! ## Both kinds of collectives -/

def HookEvent.bucketEvent : HookEvent → Option Training.BucketEvent
  | .gradient p => some (.gradient p)
  | .epilogue => some .epilogue
  | _ => none

theorem Ranks.Inv.init (cfg : Config) : Ranks.Inv fun _ => .ok (Rank.init cfg) where
  same _ _ := rfl
  inv _ r hr := by
    obtain rfl := Except.ok.inj hr
    exact State.Inv.init

/-- Any two ranks on which the same hooks run request the same AllGathers and the
same ReduceScatters. -/
theorem collective_order_agrees {V O H : Type} [AddZeroClass V] (cfg : Config)
    (train : Training.Config V O H) (b : Training.Backward V)
    (hooks : List (HookEvent × (ℕ → Local))) (acts : ℕ → List (Training.Action V))
    (hrun : ∀ r, (Machine.run (Training.State.step (train.onRank r) b)
      (.init (train.onRank r)) (acts r)).isSome)
    (hhooks : ∀ r, (acts r).filterMap Training.Action.bucketEvent =
      hooks.filterMap fun hook => hook.1.bucketEvent) (i j : ℕ) :
    requestsOf (Ranks.run cfg hooks (fun _ => .ok (.init cfg)) i) =
        requestsOf (Ranks.run cfg hooks (fun _ => .ok (.init cfg)) j) ∧
      Training.reductionsOf (train.onRank i) b (acts i) =
        Training.reductionsOf (train.onRank j) b (acts j) := by
  constructor
  · have hinv : Ranks.Inv (Ranks.run cfg hooks fun _ => .ok (.init cfg)) :=
      (Ranks.Inv.init cfg).run hooks
    exact requestsOf_congr (hinv.same i j)
  · rw [Training.reductionsOf_onRank train (hrun i),
      Training.reductionsOf_onRank train (hrun j), hhooks i, hhooks j]

/-- Two modules that share a parameter. -/
def twoModules : Config where
  worldSize := 2
  prefetchBucketSz := 10
  maxReuseDistInNumel := 0
  maxNAvailableParams := 100
  enableFullParamTransfer := false
  root := 0
  namedParameters m := if m = 0 then [] else if m = 1 then [0, 1, 2] else [2, 3]
  recursiveParameters _ := [0, 1, 2, 3]
  dsNumel _ := 3
  dsPersist _ := false

/-- The elements upwards. -/
def upwards (params : Finset ParamId) : List ParamId :=
  (List.range (params.sup id + 1)).filter (· ∈ params)

theorem nodup_upwards (params : Finset ParamId) : (upwards params).Nodup :=
  List.nodup_range.filter _

theorem mem_upwards {params : Finset ParamId} : p ∈ upwards params ↔ p ∈ params := by
  unfold upwards
  rw [List.mem_filter, List.mem_range, Nat.lt_succ_iff, decide_eq_true_eq]
  exact and_iff_right_of_imp fun hp => Finset.le_sup (f := id) hp

/-- A rank goes through its sets upwards or downwards. -/
def upOrDown (up : Bool) : SetOrder where
  iterate params := if up then upwards params else (upwards params).reverse
  nodup params := by
    split_ifs
    · exact nodup_upwards params
    · exact List.nodup_reverse.mpr (nodup_upwards params)
  mem_iterate params p := by
    split_ifs
    · exact mem_upwards
    · rw [List.mem_reverse]
      exact mem_upwards

def evenUp (rank : ℕ) : Local where
  gatherOrder := upOrDown (rank % 2 = 0)
  waitOrder := upOrDown (rank % 2 = 1)
  prefetchOrder := upOrDown (rank % 2 = 0)
  completedEvents p := p * rank

/-- Two iterations of a forward pass, in the second with prefetching. -/
def twoForwards : List (HookEvent × (ℕ → Local)) :=
  ([.preForward 1 true, .postForward 1 true [], .preForward 2 true,
    .postForward 2 true [], .gradient 1, .gradient 0, .epilogue, .resetStep true,
    .preForward 1 true, .postForward 1 true [], .preForward 2 true,
    .postForward 2 true []] : List HookEvent).map fun e => (e, evenUp)

theorem smallBuckets_nodup : ([[1, 0], [2, 3]] : List (List ParamId)).flatten.Nodup := by
  decide

def smallBuckets : Training.Config ℕ Unit Unit where
  worldSize := 2
  rank := 0
  fp16Groups := [[1, 0], [2, 3]]
  nodup := smallBuckets_nodup
  dsNumel _ := 3
  reduceBucketSize := 4
  gradientAccumulationSteps := 1
  rsUseNccl := false
  numSubgroups := 1
  subGroup _ := 0
  subGroup_lt _ := Nat.one_pos
  preDivide v := v
  sum _ vs := vs.foldr (· + ·) 0
  adam o _ := o
  half o := o
  weights _ := ()

def waitOn (rank : ℕ) : Training.Wait ℕ where
  result p := p + rank
  spoilt _ := rank
  late := [rank]

/-- The loop on a rank, with its own results and timing. -/
def twoBuckets (rank : ℕ) : List (Training.Action ℕ) :=
  [.stepDpu, .hook 1 (waitOn rank), .hook 0 (waitOn 0), .epilogue (waitOn rank)]

theorem collective_order_agrees_upOrDown :
    requestsOf (Ranks.run twoModules twoForwards (fun _ => .ok (.init twoModules)) 0) =
        requestsOf
          (Ranks.run twoModules twoForwards (fun _ => .ok (.init twoModules)) 1) ∧
      Training.reductionsOf (smallBuckets.onRank 0) ⟨fun _ _ _ => 1, fun _ _ _ => 2⟩
          (twoBuckets 0) =
        Training.reductionsOf (smallBuckets.onRank 1) ⟨fun _ _ _ => 1, fun _ _ _ => 2⟩
          (twoBuckets 1) :=
  collective_order_agrees twoModules smallBuckets ⟨fun _ _ _ => 1, fun _ _ _ => 2⟩
    twoForwards twoBuckets (by intro r; with_unfolding_all rfl) (fun _ => rfl) 0 1

end SmartNic.Offload
