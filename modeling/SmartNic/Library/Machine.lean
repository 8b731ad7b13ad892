/-!
# Runs of a machine with actions

A machine takes an action or refuses it.  `AllSteps` states a condition on every
step of a run, and an invariant is what such steps preserve.
-/

namespace SmartNic.Machine

variable {σ α : Type}

/-- Take a list of actions. -/
def run (step : σ → α → Option σ) (s : σ) : List α → Option σ
  | [] => some s
  | a :: acts => (step s a).bind fun s => run step s acts

theorem foldlM_eq_run (step : σ → α → Option σ) (s : σ) (acts : List α) :
    acts.foldlM step s = run step s acts := by
  induction acts generalizing s with
  | nil => rfl
  | cons a acts ih =>
      rw [List.foldlM_cons, run]
      exact congrArg _ (funext ih)

/-- What the steps of a list of actions put out. -/
def outputs {β : Type} (step : σ → α → Option σ) (out : σ → α → List β) (s : σ) :
    List α → List β
  | [] => []
  | a :: acts =>
      match step s a with
      | none => []
      | some s' => out s a ++ outputs step out s' acts

/-- Every step that a list of actions takes meets a condition on the state
before it and the action. -/
def AllSteps (step : σ → α → Option σ) (P : σ → α → Prop) (s : σ) :
    List α → Prop
  | [] => True
  | a :: acts => P s a ∧ ∀ s', step s a = some s' → AllSteps step P s' acts

section

variable {step : σ → α → Option σ} {P : σ → α → Prop} {I : σ → Prop}

/-- What every step that meets the condition preserves holds at the end of a
run. -/
theorem AllSteps.invariant {s s' : σ} {acts : List α}
    (h : AllSteps step P s acts)
    (hpreserved : ∀ s a s', P s a → step s a = some s' → I s → I s')
    (hrun : run step s acts = some s') (hs : I s) : I s' := by
  induction acts generalizing s with
  | nil =>
      obtain rfl := Option.some.inj hrun
      exact hs
  | cons a acts ih =>
      obtain ⟨s₁, hstep, hrest⟩ := Option.bind_eq_some_iff.mp hrun
      exact ih (h.2 s₁ hstep) hrest (hpreserved s a s₁ h.1 hstep hs)

theorem AllSteps.of_true (s : σ) (acts : List α) :
    AllSteps step (fun _ _ => True) s acts := by
  induction acts generalizing s with
  | nil => trivial
  | cons a acts ih => exact ⟨trivial, fun s' _ => ih s'⟩

/-- What every step preserves holds at the end of a run. -/
theorem run_invariant {s s' : σ} {acts : List α}
    (hpreserved : ∀ s a s', step s a = some s' → I s → I s')
    (hrun : run step s acts = some s') (hs : I s) : I s' :=
  (AllSteps.of_true s acts).invariant (fun s a s' _ => hpreserved s a s') hrun hs

/-- Every state that a list of actions reaches has a property. -/
def AllStates (step : σ → α → Option σ) (P : σ → Prop) (s : σ) : List α → Prop
  | [] => P s
  | a :: acts => P s ∧ ∀ s', step s a = some s' → AllStates step P s' acts

/-- What holds of all states reached holds of the last one. -/
theorem AllStates.last {Q : σ → Prop} {s s' : σ} {acts : List α}
    (h : AllStates step Q s acts) (hrun : run step s acts = some s') : Q s' := by
  induction acts generalizing s with
  | nil =>
      obtain rfl := Option.some.inj hrun
      exact h
  | cons a acts ih =>
      obtain ⟨s₁, hstep, hrest⟩ := Option.bind_eq_some_iff.mp hrun
      exact ih (h.2 s₁ hstep) hrest

/-- An invariant of the steps that meet a condition gives a property of all
states reached. -/
theorem AllSteps.allStates {Q : σ → Prop} {s : σ} {acts : List α}
    (h : AllSteps step P s acts)
    (hpreserved : ∀ s a s', P s a → step s a = some s' → I s → I s')
    (hQ : ∀ s, I s → Q s) (hs : I s) : AllStates step Q s acts := by
  induction acts generalizing s with
  | nil => exact hQ s hs
  | cons a acts ih =>
      refine ⟨hQ s hs, ?_⟩
      intro s' hstep
      exact ih (h.2 s' hstep) (hpreserved s a s' h.1 hstep hs)

/-- If a step that does not meet the condition leads to a state without the
property, the condition is exact. -/
theorem allStates_iff_allSteps {Q : σ → Prop} {s : σ} {acts : List α}
    (hpreserved : ∀ s a s', P s a → step s a = some s' → I s → I s')
    (hQ : ∀ s, I s → Q s)
    (hexact : ∀ s a, I s → (∀ s', step s a = some s' → Q s') → P s a) (hs : I s) :
    AllStates step Q s acts ↔ AllSteps step P s acts := by
  constructor
  · intro h
    induction acts generalizing s with
    | nil => trivial
    | cons a acts ih =>
        have hnow : ∀ s', step s a = some s' → Q s' := by
          intro s' hstep
          cases acts with
          | nil => exact h.2 s' hstep
          | cons a' acts => exact (h.2 s' hstep).1
        have hP := hexact s a hs hnow
        refine ⟨hP, ?_⟩
        intro s' hstep
        exact ih (hpreserved s a s' hP hstep hs) (h.2 s' hstep)
  · intro h
    exact h.allStates hpreserved hQ hs

/-- A condition that follows from another in the states of an invariant. -/
theorem AllSteps.imp {R : σ → α → Prop} {s : σ} {acts : List α}
    (h : AllSteps step P s acts)
    (hpreserved : ∀ s a s', P s a → step s a = some s' → I s → I s')
    (himp : ∀ s a, I s → P s a → R s a) (hs : I s) : AllSteps step R s acts := by
  induction acts generalizing s with
  | nil => trivial
  | cons a acts ih =>
      refine ⟨himp s a hs h.1, ?_⟩
      intro s' hstep
      exact ih (h.2 s' hstep) (hpreserved s a s' h.1 hstep hs)

/-- Steps of one kind that each make a measure smaller lead to a state in which
no step of this kind is possible. -/
theorem exists_blocked {Q : α → Prop} {μ : σ → Nat}
    (hstep : ∀ s a s', Q a → step s a = some s' → I s → I s' ∧ μ s' < μ s) {s : σ}
    (hs : I s) :
    ∃ acts s', (∀ a ∈ acts, Q a) ∧ run step s acts = some s' ∧ I s' ∧
      ∀ a, Q a → step s' a = none := by
  induction hμ : μ s using Nat.strongRecOn generalizing s with
  | ind k ih =>
      by_cases hblocked : ∀ a, Q a → step s a = none
      · exact ⟨[], s, nofun, rfl, hs, hblocked⟩
      · simp only [Classical.not_forall] at hblocked
        obtain ⟨a, ha, hsome⟩ := hblocked
        obtain ⟨s₁, hs₁⟩ := Option.ne_none_iff_exists'.mp hsome
        obtain ⟨hI, hlt⟩ := hstep s a s₁ ha hs₁ hs
        obtain ⟨acts, s', hacts, hrun, hend⟩ := ih _ (hμ ▸ hlt) hI rfl
        refine ⟨a :: acts, s', fun b hb => ?_,
          Option.bind_eq_some_iff.mpr ⟨s₁, hs₁, hrun⟩, hend⟩
        cases hb with
        | head => exact ha
        | tail _ hb => exact hacts b hb

theorem run_append (s : σ) (xs ys : List α) :
    run step s (xs ++ ys) = (run step s xs).bind fun s => run step s ys := by
  induction xs generalizing s with
  | nil => rfl
  | cons a xs ih =>
      rw [List.cons_append, run, run, Option.bind_assoc]
      congr 1
      funext s
      exact ih s

/-- The steps of the first actions and those after them. -/
theorem AllSteps.append {s : σ} {xs ys : List α}
    (h : AllSteps step P s (xs ++ ys)) :
    AllSteps step P s xs ∧
      ∀ s', run step s xs = some s' → AllSteps step P s' ys := by
  induction xs generalizing s with
  | nil =>
      refine ⟨trivial, ?_⟩
      rintro s' hrun
      obtain rfl := Option.some.inj hrun
      exact h
  | cons a xs ih =>
      refine ⟨⟨h.1, fun s₁ hstep => (ih (h.2 s₁ hstep)).1⟩, ?_⟩
      intro s' hrun
      obtain ⟨s₁, hstep, hrest⟩ := Option.bind_eq_some_iff.mp hrun
      exact (ih (h.2 s₁ hstep)).2 s' hrest

/-- A list of actions leads from one state to another, and all its steps meet
the condition. -/
structure Leads (step : σ → α → Option σ) (P : σ → α → Prop) (s : σ)
    (acts : List α) (s' : σ) : Prop where
  run_eq : run step s acts = some s'
  allSteps : AllSteps step P s acts

theorem Leads.append {s s₁ s₂ : σ} {xs ys : List α}
    (hx : Leads step P s xs s₁) (hy : Leads step P s₁ ys s₂) :
    Leads step P s (xs ++ ys) s₂ := by
  induction xs generalizing s with
  | nil =>
      obtain rfl := Option.some.inj hx.run_eq
      exact hy
  | cons a xs ih =>
      obtain ⟨s', hstep, hrest⟩ := Option.bind_eq_some_iff.mp hx.run_eq
      have htail := ih ⟨hrest, hx.allSteps.2 s' hstep⟩
      refine ⟨?_, hx.allSteps.1, ?_⟩
      · simp only [List.cons_append, run, hstep, Option.bind_some]
        exact htail.run_eq
      · intro s'' hstep'
        obtain rfl := Option.some.inj (hstep.symm.trans hstep')
        exact htail.allSteps

instance AllSteps.decidable [∀ s a, Decidable (P s a)] (s : σ) :
    (acts : List α) → Decidable (AllSteps step P s acts)
  | [] => isTrue trivial
  | a :: acts =>
      match h : step s a with
      | none => decidable_of_iff (P s a)
          ⟨fun hP => ⟨hP, fun _ hstep => nomatch h.symm.trans hstep⟩, And.left⟩
      | some s' =>
          have : Decidable (AllSteps step P s' acts) := AllSteps.decidable s' acts
          decidable_of_iff (P s a ∧ AllSteps step P s' acts)
            ⟨fun hP => ⟨hP.1, fun _ hstep =>
                Option.some.inj (h.symm.trans hstep) ▸ hP.2⟩,
              fun hP => ⟨hP.1, hP.2 s' h⟩⟩

end

end SmartNic.Machine
