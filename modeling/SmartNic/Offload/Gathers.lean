import SmartNic.Offload.Hooks
import SmartNic.Offload.Waits

/-!
# The invariant under the hooks

`__all_gather_params` opens one handle; the other functions leave the registry as
it is or wait.
-/

namespace SmartNic.Offload

open AnyOrder

namespace State

variable {cfg : Config} {t : Bool} {m : ModuleId} {s s' : State}
  {xs l : List ParamId} {h : Handle} {i : HandleId}

/-! ## Opening a handle -/

/-- The parameters `xs` have been requested with the handle `h`. -/
structure Gathered (t : Bool) (s s' : State) (xs : List ParamId) (h : Handle) :
    Prop where
  elsewhere : ∀ t', t' ≠ t → s'.coordinator t' = s.coordinator t'
  inflight : ∀ p, p ∈ (s'.coordinator t).inflight ↔
    p ∈ xs ∨ p ∈ (s.coordinator t).inflight
  handleOf : ∀ p, (s'.coordinator t).handleOf p =
    if p ∈ xs then s.handles.length else (s.coordinator t).handleOf p
  handles : s'.handles = s.handles ++ [h]
  complete : s'.complete = s.complete
  status : ∀ p, s'.dsStatus p = if p ∈ xs then .inflight else s.dsStatus p
  before : ∀ p ∈ xs, s.dsStatus p = .notAvailable
  mem_params : ∀ p, p ∈ h.params ↔ p ∈ xs
  nodup : h.params.Nodup
  single : h.kind = .single → ∃ p, h.params = [p]

theorem foldl_registered (handle : HandleId) (xs : List ParamId) (s : State) :
    let s' := xs.foldl (registered t handle) s
    s' = { s with coordinator := s'.coordinator } ∧
      (∀ t', t' ≠ t → s'.coordinator t' = s.coordinator t') ∧
      (∀ p, p ∈ (s'.coordinator t).inflight ↔
        p ∈ xs ∨ p ∈ (s.coordinator t).inflight) ∧
      ∀ p, (s'.coordinator t).handleOf p =
        if p ∈ xs then handle else (s.coordinator t).handleOf p := by
  induction xs generalizing s with
  | nil => simp
  | cons x xs ih =>
      obtain ⟨hrest, helse, hin, hof⟩ := ih (registered t handle s x)
      refine ⟨hrest, ?_, ?_, ?_⟩
      · intro t' ht
        exact (helse t' ht).trans (coordinator_modify_of_ne _ ht)
      · intro p
        rw [List.foldl_cons, hin]
        simp [registered, or_left_comm, or_assoc]
      · intro p
        rw [List.foldl_cons, hof]
        by_cases hp : p = x
        · simp [registered, hp]
        · simp [registered, hp]

theorem request_spec (cfg : Config) (l : List ParamId) (s : State) :
    ∃ h, (s.request cfg l).handles = s.handles ++ [h] ∧
      h.params = l.insertionSort (· ≤ ·) ∧
      (h.kind = .single → h.params.length = 1) ∧
      (s.request cfg l).coordinator = s.coordinator ∧
      (s.request cfg l).complete = s.complete ∧
      (s.request cfg l).dsStatus = s.dsStatus := by
  unfold request
  dsimp only
  split_ifs with hcpu hone
  · exact ⟨_, rfl, rfl, by simp, rfl, rfl, rfl⟩
  · exact ⟨_, rfl, rfl, fun _ => hone, rfl, rfl, rfl⟩
  · exact ⟨_, rfl, rfl, by simp, rfl, rfl, rfl⟩

/-- The first loop of `all_gather_coalesced` and the registration, when neither
raises. -/
theorem gathered_of_run {s₀ : State}
    (hrun : (do
      let s ← xs.foldlM markInflight s₀
      xs.foldlM (register t s.handles.length) (s.request cfg xs)) = .ok s')
    (hnodup : xs.Nodup) (hbefore : ∀ p ∈ xs, s₀.dsStatus p = .notAvailable) :
    ∃ h, Gathered t s₀ s' xs h := by
  obtain ⟨hmark, -⟩ :=
    (markInflight_commutes s₀.requests).foldlM_ok rfl hnodup hbefore
  rw [hmark, foldl_setStatus] at hrun
  set s₁ := s₀.setStatuses xs .inflight with hs₁
  obtain ⟨h, hhandles, hparams, hone, hcoord, hcomplete, hstatus⟩ :=
    request_spec cfg xs s₁
  have hregister := register_commutes t s₁.handles.length (s₁.request cfg xs).requests
  change xs.foldlM (register t s₁.handles.length) (s₁.request cfg xs) = _ at hrun
  have hok : ∀ p ∈ xs, (s₁.request cfg xs).dsStatus p = .inflight ∧
      p ∉ ((s₁.request cfg xs).coordinator t).inflight := by
    by_contra hnot
    push Not at hnot
    obtain ⟨p, hp, hnot⟩ := hnot
    obtain ⟨e, herror, -⟩ := hregister.foldlM_error rfl hnodup
      ⟨p, hp, fun hok => hok.2 (hnot hok.1)⟩
    rw [herror] at hrun
    cases hrun
  obtain ⟨hreg, -⟩ := hregister.foldlM_ok rfl hnodup hok
  rw [hreg] at hrun
  obtain ⟨hrest, helse, hin, hof⟩ :=
    foldl_registered (t := t) s₁.handles.length xs (s₁.request cfg xs)
  rw [Except.ok.inj hrun] at hrest helse hin hof
  have hperm : h.params.Perm xs := hparams ▸ xs.perm_insertionSort _
  refine ⟨h, ⟨?_, ?_, ?_, ?_, ?_, ?_, hbefore, ?_, ?_, ?_⟩⟩
  · intro t' ht
    rw [helse t' ht, hcoord]
    rfl
  · intro p
    rw [hin, hcoord]
    rfl
  · intro p
    rw [hof, hcoord]
    rfl
  · rw [hrest]
    exact hhandles
  · rw [hrest]
    exact hcomplete
  · intro p
    rw [hrest]
    exact congrFun hstatus p
  · exact fun p => hperm.mem_iff
  · exact hperm.nodup_iff.mpr hnodup
  · exact fun hkind => List.length_eq_one_iff.mp (hone hkind)

theorem allGatherParams_cases (hl : l.Nodup)
    (hrun : s.allGatherParams cfg t l = .ok s') :
    ∃ s₀, Frame s s₀ ∧ (s' = s₀ ∨ ∃ xs h, Gathered t s₀ s' xs h) := by
  unfold allGatherParams at hrun
  dsimp only at hrun
  split_ifs at hrun with hnil
  · obtain rfl := Except.ok.inj hrun
    exact ⟨_, Frame.modify _ rfl rfl, .inl rfl⟩
  · have hbefore : ∀ p ∈ l.filter (s.dsStatus · = .notAvailable),
        s.dsStatus p = .notAvailable := by
      intro p hp
      exact of_decide_eq_true (List.mem_filter.mp hp).2
    obtain ⟨h, hgathered⟩ := gathered_of_run hrun
      (hl.filter (s.dsStatus · = .notAvailable)) hbefore
    refine ⟨_, ?_, .inr ⟨_, h, hgathered⟩⟩
    exact Frame.modify _ rfl rfl

theorem Gathered.openHandle_eq (hg : Gathered t s s' xs h) (hinv : Inv s) (t' : Bool)
    (p : ParamId) :
    openHandle t' s' p =
      if t' = t ∧ p ∈ xs then some (s.handles.length, h) else openHandle t' s p := by
  split_ifs with hp
  · obtain ⟨rfl, hp⟩ := hp
    rw [openHandle_eq_some]
    refine ⟨(hg.inflight p).mpr (.inl hp), ?_, ?_, .inr ?_⟩
    · rw [hg.handleOf, if_pos hp]
    · rw [hg.handles]
      simp
    · rw [hg.complete]
      intro hlen
      exact (hinv.complete_lt _ hlen).ne rfl
  · have hsame : (p ∈ (s'.coordinator t').inflight ↔
          p ∈ (s.coordinator t').inflight) ∧
        (s'.coordinator t').handleOf p = (s.coordinator t').handleOf p := by
      by_cases ht : t' = t
      · subst ht
        have hp : p ∉ xs := fun hmem => hp ⟨rfl, hmem⟩
        rw [hg.inflight, hg.handleOf, if_neg hp, or_iff_right hp]
        exact ⟨Iff.rfl, rfl⟩
      · rw [hg.elsewhere t' ht]
        exact ⟨Iff.rfl, rfl⟩
    by_cases hmem : p ∈ (s.coordinator t').inflight
    · have hget : s'.handles[(s.coordinator t').handleOf p]? =
          s.handles[(s.coordinator t').handleOf p]? := by
        rw [hg.handles]
        exact List.getElem?_append_left (hinv.valid t' p hmem)
      unfold openHandle
      rw [if_pos (hsame.1.mpr hmem), if_pos hmem, hsame.2, hg.complete]
      dsimp only
      rw [hget]
    · unfold openHandle
      rw [if_neg (mt hsame.1.mp hmem), if_neg hmem]

theorem Gathered.inv (hg : Gathered t s s' xs h) (hinv : Inv s) : Inv s' := by
  have hopen := hg.openHandle_eq hinv
  have hlength : s'.handles.length = s.handles.length + 1 := by
    rw [hg.handles, List.length_append, List.length_singleton]
  have hnew : ∀ t' p x, p ∈ xs → openHandle t' s p ≠ some x := by
    rintro t' p ⟨i, h'⟩ hp hsome
    have hstatus :=
      (hinv.others t' p i h' hsome p (hinv.self_mem t' p i h' hsome)).2
    rw [hg.before p hp] at hstatus
    cases hstatus
  constructor
  · intro t' p hp
    rw [hlength]
    by_cases ht : t' = t
    · subst ht
      rw [hg.handleOf]
      split_ifs with hmem
      · exact Nat.lt_succ_self _
      · have hp := ((hg.inflight p).mp hp).resolve_left hmem
        exact Nat.lt_succ_of_lt (hinv.valid t' p hp)
    · rw [hg.elsewhere t' ht] at hp ⊢
      exact Nat.lt_succ_of_lt (hinv.valid t' p hp)
  · intro i hi
    rw [hg.complete] at hi
    rw [hlength]
    exact Nat.lt_succ_of_lt (hinv.complete_lt i hi)
  · intro x hx
    rw [hg.handles, List.mem_append, List.mem_singleton] at hx
    rcases hx with hx | rfl
    · exact hinv.nodup x hx
    · exact hg.nodup
  · intro x hx
    rw [hg.handles, List.mem_append, List.mem_singleton] at hx
    rcases hx with hx | rfl
    · exact hinv.single x hx
    · exact hg.single
  · intro t' p i x hsome
    rw [hopen] at hsome
    split_ifs at hsome with hp
    · obtain ⟨-, rfl⟩ := Prod.mk.inj (Option.some.inj hsome)
      exact (hg.mem_params p).mpr hp.2
    · exact hinv.self_mem t' p i x hsome
  · intro t' p i x hsome q hq
    rw [hopen] at hsome
    rw [hopen, hg.status]
    split_ifs at hsome with hp
    · obtain ⟨rfl, rfl⟩ := Prod.mk.inj (Option.some.inj hsome)
      have hq := (hg.mem_params q).mp hq
      rw [if_pos ⟨hp.1, hq⟩, if_pos hq]
      exact ⟨rfl, rfl⟩
    · obtain ⟨hq, hstatus⟩ := hinv.others t' p i x hsome q hq
      have hnot : q ∉ xs := fun hmem => hnew t' q _ hmem hq
      rw [if_neg fun hmem => hnot hmem.2, if_neg hnot]
      exact ⟨hq, hstatus⟩
  · intro t₁ t₂ p x y hx hy
    rw [hopen] at hx hy
    split_ifs at hx hy with h₁ h₂ h₂
    · exact h₁.1.trans h₂.1.symm
    · exact absurd hy (hnew t₂ p y h₁.2)
    · exact absurd hx (hnew t₁ p x h₂.2)
    · exact hinv.unique t₁ t₂ p x y hx hy

theorem Inv.allGatherParams (hinv : Inv s) (hl : l.Nodup)
    (hrun : s.allGatherParams cfg t l = .ok s') : Inv s' := by
  obtain ⟨s₀, hframe, rfl | ⟨xs, h, hg⟩⟩ := allGatherParams_cases hl hrun
  · exact hframe.inv hinv
  · exact hg.inv (hframe.inv hinv)

end State

end SmartNic.Offload
