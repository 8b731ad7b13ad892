import Mathlib
import SmartNic.Library.Machine

/-!
# Simulation of one machine by another

Some actions of a machine are visible.  If every step of one machine that meets a
condition is matched by a run of another with the same visible actions, every run of
such steps is.
-/

namespace SmartNic.Simulation

open Machine

variable {σ τ α β : Type} {γ : Type}

/-- The second machine matches every step of the first that meets the condition, with
the same visible actions and the relation kept. -/
def Simulates (step : σ → α → Option σ) (P : σ → α → Prop) (label : α → Option γ)
    (step' : τ → β → Option τ) (label' : β → Option γ) (R : σ → τ → Prop) : Prop :=
  ∀ s t a s', R s t → P s a → step s a = some s' →
    ∃ bs t', run step' t bs = some t' ∧
      bs.filterMap label' = [a].filterMap label ∧ R s' t'

variable {step : σ → α → Option σ} {P : σ → α → Prop} {label : α → Option γ}
  {step' : τ → β → Option τ} {label' : β → Option γ} {R : σ → τ → Prop}

/-- Every run of such steps is matched by a run with the same visible actions. -/
theorem Simulates.run (h : Simulates step P label step' label' R) {s s' : σ} {t : τ}
    {acts : List α} (hR : R s t) (hsteps : AllSteps step P s acts)
    (hrun : Machine.run step s acts = some s') :
    ∃ bs t', Machine.run step' t bs = some t' ∧
      bs.filterMap label' = acts.filterMap label ∧ R s' t' := by
  induction acts generalizing s t with
  | nil =>
      obtain rfl := Option.some.inj hrun
      exact ⟨[], t, rfl, rfl, hR⟩
  | cons a acts ih =>
      obtain ⟨s₁, hstep, hrest⟩ := Option.bind_eq_some_iff.mp hrun
      obtain ⟨bs₁, t₁, hrun₁, hlabel₁, hR₁⟩ := h s t a s₁ hR hsteps.1 hstep
      obtain ⟨bs₂, t₂, hrun₂, hlabel₂, hR₂⟩ := ih hR₁ (hsteps.2 s₁ hstep) hrest
      refine ⟨bs₁ ++ bs₂, t₂, ?_, ?_, hR₂⟩
      · rw [run_append, hrun₁]
        exact hrun₂
      · rw [List.filterMap_append, hlabel₁, hlabel₂, ← List.filterMap_append]
        rfl

end SmartNic.Simulation
