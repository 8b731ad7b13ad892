import Mathlib
import SmartNic.Library.Machine
import SmartNic.Partition.RoundTrip

/-!
# One gather for each of several parameters

`_allgather_params_coalesced` launches a gather for each parameter and waits for
the first of them.  The gathers complete in any order, each after its launch.
-/

namespace SmartNic.Partition

open Shards

variable {worldSize : ℕ} {α : Type}

/-! ## The call -/

/-- Where the call is. -/
inductive CoalescedPhase where
  | launch
  | wait
  | publish
  | synchronize
  | returned
deriving DecidableEq, Repr

/-- A call on one rank, with the contents of its flat tensors. -/
structure CoalescedCall (worldSize : ℕ) (α : Type) where
  paramList : List (SplitParameter worldSize α)
  phase : CoalescedPhase
  launched : ℕ
  allgatherParams : ℕ → List α
  completed : ℕ → Bool

inductive CoalescedAction where
  /-- The call goes on. -/
  | call
  /-- The gather of the parameter with this index completes. -/
  | complete (i : ℕ)
deriving DecidableEq, Repr

namespace CoalescedCall

/-- The call with its tensors allocated; with no parameters it returns at once. -/
def start (rank : ℕ) (g : ℕ → ℕ → α) (ps : List (SplitParameter worldSize α)) :
    CoalescedCall worldSize α where
  paramList := ps
  phase := if ps = [] then .returned else .launch
  launched := 0
  allgatherParams i :=
    match ps[i]? with
    | some p => empty (g i) ((p.onRank rank).shardD.length * worldSize)
    | none => []
  completed := fun _ => false

/-- The next step of the call.  With GPU flags `wait` only makes the stream wait,
and it is `torch.cuda.synchronize` that comes back after the first gather. -/
def call (useGpuFlag : Bool) (s : CoalescedCall worldSize α) :
    Option (CoalescedCall worldSize α) :=
  match s.phase with
  | .launch =>
      if s.launched < s.paramList.length then some { s with launched := s.launched + 1 }
      else some { s with phase := .wait }
  | .wait =>
      if useGpuFlag || s.completed 0 then some { s with phase := .publish } else none
  | .publish => some { s with phase := .synchronize }
  | .synchronize =>
      if !useGpuFlag || s.completed 0 then some { s with phase := .returned } else none
  | .returned => none

/-- A gather that was launched delivers the shards of all ranks. -/
def complete (s : CoalescedCall worldSize α) (i : ℕ) : Option (CoalescedCall worldSize α) :=
  match s.paramList[i]? with
  | none => none
  | some p =>
      if i < s.launched ∧ s.completed i = false then
        match allGatherBase worldSize (fun q => (p.onRank q).shard)
            (s.allgatherParams i) with
        | .error _ => none
        | .ok flat =>
            some { s with
              allgatherParams := Function.update s.allgatherParams i flat
              completed := Function.update s.completed i true }
      else none

def step (useGpuFlag : Bool) (s : CoalescedCall worldSize α) :
    CoalescedAction → Option (CoalescedCall worldSize α)
  | .call => s.call useGpuFlag
  | .complete i => s.complete i

/-- `param.data`, a view of the flat tensor. -/
def data (rank : ℕ) (s : CoalescedCall worldSize α) (i : ℕ)
    (p : SplitParameter worldSize α) : Except PyError (Tensor α) := do
  let gathered ← narrow (s.allgatherParams i) 0 (p.onRank rank).dsNumel
  view gathered (p.onRank rank).dsShape.dims

/-- After the return every gather has completed and every parameter is full. -/
def Waited (rank : ℕ) (s : CoalescedCall worldSize α) : Prop :=
  s.phase = .returned → ∀ i p, s.paramList[i]? = some p →
    s.completed i = true ∧ s.data rank i p = .ok p.full.data

/-! ## Runs -/

variable {ps : List (SplitParameter worldSize α)} {rank : ℕ} {g : ℕ → ℕ → α}
  {useGpuFlag : Bool} {s s' : CoalescedCall worldSize α}

/-- What a gather delivers. -/
def gathered (p : SplitParameter worldSize α) : List α :=
  (List.range worldSize).flatMap p.shardOn

/-- A gather that has completed has filled its tensor, and the call returns after
the first. -/
structure Inv (useGpuFlag : Bool) (ps : List (SplitParameter worldSize α))
    (s : CoalescedCall worldSize α) : Prop where
  params : s.paramList = ps
  length : ∀ i p, ps[i]? = some p → (s.allgatherParams i).length = worldSize * p.size
  filled : ∀ i p, ps[i]? = some p → s.completed i = true →
    s.allgatherParams i = gathered p
  first : s.phase = .returned → ps ≠ [] → s.completed 0 = true
  waited : s.phase = .publish ∨ s.phase = .synchronize →
    useGpuFlag = true ∨ s.completed 0 = true

theorem inv_start (hrank : rank < worldSize) (useGpuFlag : Bool) (g : ℕ → ℕ → α)
    (ps : List (SplitParameter worldSize α)) :
    Inv useGpuFlag ps (start rank g ps) where
  params := rfl
  length i p hp := by
    have hbuffer : (start rank g ps).allgatherParams i =
        empty (g i) ((p.onRank rank).shardD.length * worldSize) := by
      unfold start
      dsimp only
      rw [hp]
    have hshard : (p.onRank rank).shardD.length = p.size := p.length_shardOn hrank
    rw [hbuffer, length_empty, hshard, Nat.mul_comm]
  filled _ _ _ h := by cases h
  first h hne := by
    have hphase : (start rank g ps).phase = .launch := if_neg hne
    rw [hphase] at h
    cases h
  waited h := by
    by_cases hnil : ps = []
    · have hphase : (start rank g ps).phase = .returned := if_pos hnil
      rw [hphase] at h
      rcases h with h | h
      · cases h
      · cases h
    · have hphase : (start rank g ps).phase = .launch := if_neg hnil
      rw [hphase] at h
      rcases h with h | h
      · cases h
      · cases h

/-- The call only looks at what has completed. -/
theorem Inv.call (h : Inv useGpuFlag ps s) (hstep : s.call useGpuFlag = some s') :
    Inv useGpuFlag ps s' := by
  unfold CoalescedCall.call at hstep
  cases hphase : s.phase with
  | launch =>
      rw [hphase] at hstep
      dsimp only at hstep
      split at hstep
      · obtain rfl := Option.some.inj hstep
        refine ⟨h.params, h.length, h.filled, ?_, ?_⟩
        · intro hreturned
          cases hreturned
        · rintro (hwaited | hwaited)
          · cases hwaited
          · cases hwaited
      · obtain rfl := Option.some.inj hstep
        refine ⟨h.params, h.length, h.filled, ?_, ?_⟩
        · intro hreturned
          cases hreturned
        · rintro (hwaited | hwaited)
          · cases hwaited
          · cases hwaited
  | wait =>
      rw [hphase] at hstep
      dsimp only at hstep
      split at hstep
      next hdone =>
        obtain rfl := Option.some.inj hstep
        refine ⟨h.params, h.length, h.filled, ?_, fun _ => (Bool.or_eq_true _ _).mp hdone⟩
        intro hreturned
        cases hreturned
      · cases hstep
  | publish =>
      rw [hphase] at hstep
      obtain rfl := Option.some.inj hstep
      refine ⟨h.params, h.length, h.filled, ?_, fun _ => h.waited (.inl hphase)⟩
      intro hreturned
      cases hreturned
  | synchronize =>
      rw [hphase] at hstep
      dsimp only at hstep
      split at hstep
      next hdone =>
        obtain rfl := Option.some.inj hstep
        refine ⟨h.params, h.length, h.filled, ?_, ?_⟩
        · intro _ _
          rcases h.waited (.inr hphase) with hflag | hfirst
          · rw [hflag] at hdone
            exact hdone
          · exact hfirst
        · rintro (hwaited | hwaited)
          · cases hwaited
          · cases hwaited
      · cases hstep
  | returned =>
      rw [hphase] at hstep
      cases hstep

theorem length_gathered (p : SplitParameter worldSize α) :
    (gathered p).length = worldSize * p.size :=
  length_flatMap_shards worldSize fun _ hq => p.length_shardOn hq

/-- The shards of all ranks fill the tensor. -/
theorem allGatherBase_gathered (p : SplitParameter worldSize α) {output : List α}
    (hlen : output.length = worldSize * p.size) :
    allGatherBase worldSize (fun q => (p.onRank q).shard) output = .ok (gathered p) := by
  apply allGatherBase_ok
  · exact fun q hq => (p.partitionedFrom hq).shard_eq
  · rw [hlen]
    exact length_gathered p

theorem Inv.complete (h : Inv useGpuFlag ps s) {i : ℕ}
    (hstep : s.complete i = some s') : Inv useGpuFlag ps s' := by
  unfold CoalescedCall.complete at hstep
  cases hp : s.paramList[i]? with
  | none =>
      rw [hp] at hstep
      cases hstep
  | some p =>
      have hp' : ps[i]? = some p := h.params ▸ hp
      rw [hp] at hstep
      dsimp only at hstep
      split at hstep
      · rw [allGatherBase_gathered p (h.length i p hp')] at hstep
        obtain rfl := Option.some.inj hstep
        refine ⟨h.params, ?_, ?_, ?_, ?_⟩
        · intro j q hq
          dsimp only
          by_cases hj : j = i
          · subst hj
            obtain rfl := Option.some.inj (hp'.symm.trans hq)
            rw [Function.update_self]
            exact length_gathered p
          · rw [Function.update_of_ne hj]
            exact h.length j q hq
        · intro j q hq hdone
          dsimp only at hdone ⊢
          by_cases hj : j = i
          · subst hj
            obtain rfl := Option.some.inj (hp'.symm.trans hq)
            rw [Function.update_self]
          · rw [Function.update_of_ne hj] at hdone ⊢
            exact h.filled j q hq hdone
        · intro hreturned hne
          dsimp only
          by_cases hi : (0 : ℕ) = i
          · rw [hi, Function.update_self]
          · rw [Function.update_of_ne hi]
            exact h.first hreturned hne
        · intro hwaited
          dsimp only
          by_cases hi : (0 : ℕ) = i
          · rw [hi, Function.update_self]
            exact Or.inr rfl
          · rw [Function.update_of_ne hi]
            exact h.waited hwaited
      · cases hstep

theorem Inv.step (h : Inv useGpuFlag ps s) {a : CoalescedAction}
    (hstep : step useGpuFlag s a = some s') : Inv useGpuFlag ps s' := by
  cases a with
  | call => exact h.call hstep
  | complete i => exact h.complete hstep

/-- The parameter of a gather that has completed is full. -/
theorem Inv.data_eq (h : Inv useGpuFlag ps s) (hrank : rank < worldSize) {i : ℕ}
    {p : SplitParameter worldSize α} (hp : ps[i]? = some p)
    (hdone : s.completed i = true) : s.data rank i p = .ok p.full.data := by
  have hshards : ∀ q < worldSize, (p.onRank q).shard = .ok (p.shardOn q) :=
    fun q hq => (p.partitionedFrom hq).shard_eq
  have hflat := p.gather_flat (by omega) (gathered p) hrank (length_gathered p) hshards
  rw [allGatherBase_gathered p (length_gathered p)] at hflat
  unfold data
  rw [h.filled i p hp hdone]
  exact hflat

/-- With one parameter the first gather is the only one. -/
theorem Inv.waited_of_le (h : Inv useGpuFlag ps s) (hrank : rank < worldSize)
    (hle : ps.length ≤ 1) : s.Waited rank := by
  intro hreturned i p hp
  rw [h.params] at hp
  obtain ⟨hlt, -⟩ := List.getElem?_eq_some_iff.mp hp
  obtain rfl : i = 0 := by omega
  have hne : ps ≠ [] := List.ne_nil_of_length_pos hlt
  have hdone := h.first hreturned hne
  exact ⟨hdone, h.data_eq hrank hp hdone⟩

/-- The call launches one gather after another. -/
theorem run_launch {k : ℕ} (hphase : s.phase = .launch)
    (hk : s.launched + k ≤ s.paramList.length) :
    Machine.run (step useGpuFlag) s (List.replicate k .call) =
      some { s with launched := s.launched + k } := by
  induction k generalizing s with
  | zero => rfl
  | succ k ih =>
      have hstep : step useGpuFlag s .call = some { s with launched := s.launched + 1 } := by
        unfold step CoalescedCall.call
        rw [hphase]
        exact if_pos (by omega)
      have hrest := ih (s := { s with launched := s.launched + 1 }) hphase (by
        dsimp only
        omega)
      rw [List.replicate_succ, Machine.run, hstep, Option.bind_some, hrest]
      dsimp only
      rw [Nat.add_assoc, Nat.add_comm 1 k]

/-- All gathers are launched, only the first completes, and the call returns. -/
def firstOnly (n : ℕ) : List CoalescedAction :=
  List.replicate n .call ++ [.complete 0, .call, .call, .call, .call]

/-- The call returns and the second gather has not completed. -/
theorem run_firstOnly (hrank : rank < worldSize) (useGpuFlag : Bool) (g : ℕ → ℕ → α)
    (hlt : 1 < ps.length) :
    ∃ s, Machine.run (step useGpuFlag) (start rank g ps) (firstOnly ps.length) = some s ∧
      s.paramList = ps ∧ s.phase = .returned ∧ s.completed 1 = false := by
  have hne : ps ≠ [] := List.ne_nil_of_length_pos (by omega)
  have hphase : (start rank g ps).phase = .launch := if_neg hne
  have hlaunch : Machine.run (step useGpuFlag) (start rank g ps)
      (List.replicate ps.length .call) =
        some { start rank g ps with launched := 0 + ps.length } :=
    run_launch hphase (by
      rw [show (start rank g ps).launched = 0 from rfl, Nat.zero_add]
      exact le_refl _)
  obtain ⟨p, hp⟩ : ∃ p, ps[0]? = some p :=
    ⟨ps[0], List.getElem?_eq_getElem (by omega)⟩
  have hinv := inv_start hrank useGpuFlag g ps
  have hcomplete : complete { start rank g ps with launched := 0 + ps.length } 0 =
      some { start rank g ps with
        launched := 0 + ps.length
        allgatherParams := Function.update (start rank g ps).allgatherParams 0 (gathered p)
        completed := Function.update (fun _ => false) 0 true } := by
    unfold complete
    rw [show ({ start rank g ps with launched := 0 + ps.length } :
      CoalescedCall worldSize α).paramList = ps from rfl, hp]
    dsimp only
    rw [if_pos ⟨by omega, rfl⟩, allGatherBase_gathered p (hinv.length 0 p hp)]
    rfl
  unfold firstOnly
  rw [Machine.run_append, hlaunch, Option.bind_some, Machine.run]
  have hstep : step useGpuFlag { start rank g ps with launched := 0 + ps.length }
      (.complete 0) = _ := hcomplete
  rw [hstep, Option.bind_some]
  set s₁ : CoalescedCall worldSize α := { start rank g ps with
    launched := 0 + ps.length
    allgatherParams := Function.update (start rank g ps).allgatherParams 0 (gathered p)
    completed := Function.update (fun _ => false) 0 true } with hs₁
  have hfirst : s₁.completed 0 = true := rfl
  have hcall₁ : s₁.call useGpuFlag = some { s₁ with phase := .wait } := by
    unfold call
    rw [show s₁.phase = .launch from hphase]
    exact if_neg (by
      rw [show s₁.launched = 0 + ps.length from rfl, Nat.zero_add]
      exact lt_irrefl _)
  have hcall₂ : ({ s₁ with phase := .wait } : CoalescedCall worldSize α).call useGpuFlag =
      some { s₁ with phase := .publish } := by
    unfold call
    dsimp only
    rw [hfirst, Bool.or_true]
    rfl
  have hcall₄ : ({ s₁ with phase := .synchronize } : CoalescedCall worldSize α).call
      useGpuFlag = some { s₁ with phase := .returned } := by
    unfold call
    dsimp only
    rw [hfirst, Bool.or_true]
    rfl
  refine ⟨{ s₁ with phase := .returned }, ?_, rfl, rfl, rfl⟩
  have hstep₁ : step useGpuFlag s₁ .call = some { s₁ with phase := .wait } := hcall₁
  have hstep₂ : step useGpuFlag { s₁ with phase := .wait } .call =
      some { s₁ with phase := .publish } := hcall₂
  have hstep₃ : step useGpuFlag { s₁ with phase := .publish } .call =
      some { s₁ with phase := .synchronize } := rfl
  have hstep₄ : step useGpuFlag { s₁ with phase := .synchronize } .call =
      some { s₁ with phase := .returned } := hcall₄
  simp only [Machine.run, hstep₁, hstep₂, hstep₃, hstep₄, Option.bind_some]

end CoalescedCall

/-- Whatever the order in which the gathers complete, all have completed and all
parameters are full when the call returns, exactly if there is at most one. -/
theorem coalesced_waits_iff {rank : ℕ} (hrank : rank < worldSize) (useGpuFlag : Bool)
    (g : ℕ → ℕ → α) (ps : List (SplitParameter worldSize α)) :
    (∀ acts, Machine.AllStates (CoalescedCall.step useGpuFlag) (CoalescedCall.Waited rank)
      (CoalescedCall.start rank g ps) acts) ↔ ps.length ≤ 1 := by
  constructor
  · intro h
    by_contra hlt
    obtain ⟨s, hrun, hparams, hreturned, hnot⟩ :=
      CoalescedCall.run_firstOnly hrank useGpuFlag g (show 1 < ps.length by omega)
    have hwaited := (h _).last hrun hreturned 1 ps[1] (by
      rw [hparams]
      exact List.getElem?_eq_getElem (by omega))
    rw [hnot] at hwaited
    cases hwaited.1
  · intro hle acts
    apply (Machine.AllSteps.of_true _ acts).allStates
      (I := CoalescedCall.Inv useGpuFlag ps)
    · intro s a s' _ hstep h
      exact h.step hstep
    · intro s h
      exact h.waited_of_le hrank hle
    · exact CoalescedCall.inv_start hrank useGpuFlag g ps

/-- A call for the four elements on three ranks. -/
theorem coalesced_waits_four :
    0 < 3 ∧ ∀ acts, Machine.AllStates (CoalescedCall.step false) (CoalescedCall.Waited 0)
      (CoalescedCall.start 0 (fun _ _ => 7) [fourOnThree]) acts :=
  ⟨by decide, (coalesced_waits_iff (by decide) false (fun _ _ => 7) [fourOnThree]).mpr
    (by decide)⟩

/-- The call for two parameters returns after the gather of the first. -/
theorem not_coalesced_waits_two :
    ¬ ∀ acts, Machine.AllStates (CoalescedCall.step false) (CoalescedCall.Waited 0)
      (CoalescedCall.start 0 (fun _ _ => 7) [fourOnThree, oneOnThree]) acts := by
  intro h
  have hrun : (Machine.run (CoalescedCall.step false)
      (CoalescedCall.start 0 (fun _ _ => 7) [fourOnThree, oneOnThree])
      (CoalescedCall.firstOnly 2)).map
        (fun s => (s.phase, s.completed 1, s.paramList[1]?.isSome)) =
      some (.returned, false, true) := by
    decide +kernel
  obtain ⟨s, hrun, heq⟩ := Option.map_eq_some_iff.mp hrun
  obtain ⟨hreturned, hrest⟩ := Prod.mk.inj heq
  obtain ⟨hnot, hsome⟩ := Prod.mk.inj hrest
  obtain ⟨p, hp⟩ := Option.isSome_iff_exists.mp hsome
  have hdone := ((h _).last hrun hreturned 1 p hp).1
  rw [hnot] at hdone
  cases hdone

end SmartNic.Partition
