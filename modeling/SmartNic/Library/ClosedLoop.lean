import Mathlib.Data.Fintype.Basic
import Mathlib.Logic.Function.Basic
import SmartNic.Library.Machine

/-!
# Parties in a closed loop

Parties work in rounds.  The input of a party in a round is computed from what all
parties put out when they entered it.  If the runs of a party are known for given
inputs, then those of the loop are known from the inputs that reproduce themselves.
-/

namespace SmartNic.ClosedLoop

open Machine

variable {R σ α X W : Type}

/-- A party: its step is given the inputs of all rounds and looks at that of the
round it is in, if the action reads at all. -/
structure Party (σ α X W : Type) where
  step : (ℕ → X) → σ → α → Option σ
  round : σ → ℕ
  out : σ → W
  reads : α → Bool
  step_congr : ∀ x y s a, x (round s) = y (round s) → step x s a = step y s a
  step_of_not_reads : ∀ x y s a, reads a = false → step x s a = step y s a
  round_step : ∀ x s a s', step x s a = some s' →
    round s' = round s ∨ round s' = round s + 1

/-- The parties, and what each put out when it entered a round. -/
structure Loop (R σ W : Type) where
  state : R → σ
  log : ℕ → R → W

section

variable [DecidableEq R] [Fintype R] (party : R → Party σ α X W)
  (feed : R → ℕ → (R → W) → X)

def Loop.init (start : R → σ) : Loop R σ W where
  state := start
  log _ r := (party r).out (start r)

/-- The inputs of a party as far as they are known. -/
def Loop.input (c : Loop R σ W) (r : R) : ℕ → X := fun t => feed r t (c.log t)

/-- A party takes a step; to read it waits until all parties have entered the
round. -/
def step (c : Loop R σ W) (a : R × α) : Option (Loop R σ W) :=
  let p := party a.1
  let s := c.state a.1
  if p.reads a.2 = true → ∀ q, p.round s ≤ (party q).round (c.state q) then
    (p.step (c.input feed a.1) s a.2).map fun s' =>
      { state := Function.update c.state a.1 s'
        log :=
          if p.round s' = p.round s then c.log
          else Function.update c.log (p.round s')
            (Function.update (c.log (p.round s')) a.1 (p.out s')) }
  else none

/-- What is known of the parties for inputs `x`: an invariant, and what a party
puts out in a round. -/
structure Solves (x : R → ℕ → X) (Ok : ℕ → R → W → Prop) (I : R → σ → Prop)
    (P : R → σ → α → Prop) : Prop where
  /-- The inputs reproduce themselves. -/
  feed : ∀ r t l, (∀ q, Ok t q (l q)) → feed r t l = x r t
  step : ∀ r s a s', P r s a → (party r).step (x r) s a = some s' → I r s → I r s'
  out : ∀ r s, I r s → Ok ((party r).round s) r ((party r).out s)

variable {party feed} {x : R → ℕ → X} {Ok : ℕ → R → W → Prop} {I : R → σ → Prop}
  {P : R → σ → α → Prop}

/-- The parties are as for the inputs `x`, and so is what they have put out. -/
structure Loop.Follows (party : R → Party σ α X W) (Ok : ℕ → R → W → Prop)
    (I : R → σ → Prop) (c : Loop R σ W) : Prop where
  state : ∀ r, I r (c.state r)
  log : ∀ r, ∀ t ≤ (party r).round (c.state r), Ok t r (c.log t r)

omit [DecidableEq R] [Fintype R] in
theorem Loop.Follows.init (h : Solves party feed x Ok I P) {start : R → σ}
    (hround : ∀ r, (party r).round (start r) = 0) (hstart : ∀ r, I r (start r)) :
    (Loop.init party start).Follows party Ok I where
  state := hstart
  log r t ht := by
    have hzero : t = (party r).round (start r) := by
      have hround := hround r
      have hle : t ≤ (party r).round (start r) := ht
      omega
    rw [hzero]
    exact h.out r (start r) (hstart r)

omit [DecidableEq R] [Fintype R] in
/-- A step of the loop is one with the inputs `x`. -/
theorem Loop.Follows.step_eq {c : Loop R σ W} (hc : c.Follows party Ok I)
    (h : Solves party feed x Ok I P) {r : R} {a : α}
    (hwait : (party r).reads a = true →
      ∀ q, (party r).round (c.state r) ≤ (party q).round (c.state q)) :
    (party r).step (c.input feed r) (c.state r) a =
      (party r).step (x r) (c.state r) a := by
  cases hreads : (party r).reads a with
  | false => exact (party r).step_of_not_reads _ _ _ _ hreads
  | true =>
      refine (party r).step_congr _ _ _ _ ?_
      exact h.feed r _ _ fun q => hc.log q _ (hwait hreads q)

theorem Loop.Follows.step {c c' : Loop R σ W} (hc : c.Follows party Ok I)
    (h : Solves party feed x Ok I P) {a : R × α} (hP : P a.1 (c.state a.1) a.2)
    (hstep : ClosedLoop.step party feed c a = some c') : c'.Follows party Ok I := by
  obtain ⟨r, a⟩ := a
  simp only [ClosedLoop.step] at hstep
  split at hstep
  next hwait =>
    rw [hc.step_eq h hwait] at hstep
    obtain ⟨s', hs', rfl⟩ := Option.map_eq_some_iff.mp hstep
    have hI := h.step r (c.state r) a s' hP hs' (hc.state r)
    have hround := (party r).round_step _ _ _ _ hs'
    constructor
    · intro q
      dsimp only
      by_cases hq : q = r
      · subst hq
        rw [Function.update_self]
        exact hI
      · rw [Function.update_of_ne hq]
        exact hc.state q
    · intro q t ht
      dsimp only at ht ⊢
      by_cases hq : q = r
      · subst hq
        rw [Function.update_self] at ht
        by_cases hsame : (party q).round s' = (party q).round (c.state q)
        · rw [if_pos hsame]
          exact hc.log q t (hsame ▸ ht)
        · rw [if_neg hsame]
          by_cases hlast : t = (party q).round s'
          · subst hlast
            rw [Function.update_self, Function.update_self]
            exact h.out q s' hI
          · rw [Function.update_of_ne hlast]
            refine hc.log q t ?_
            omega
      · rw [Function.update_of_ne hq] at ht
        have hold := hc.log q t ht
        split
        · exact hold
        · by_cases hlast : t = (party r).round s'
          · subst hlast
            rw [Function.update_self, Function.update_of_ne hq]
            exact hold
          · rw [Function.update_of_ne hlast]
            exact hold
  · cases hstep

/-- All runs of the loop are as for the inputs that reproduce themselves. -/
theorem Solves.run (h : Solves party feed x Ok I P) {start : R → σ}
    (hround : ∀ r, (party r).round (start r) = 0) (hstart : ∀ r, I r (start r))
    {acts : List (R × α)} {c : Loop R σ W}
    (hP : AllSteps (ClosedLoop.step party feed) (fun c a => P a.1 (c.state a.1) a.2)
      (Loop.init party start) acts)
    (hrun : Machine.run (ClosedLoop.step party feed) (Loop.init party start) acts =
      some c) :
    c.Follows party Ok I :=
  hP.invariant (fun _ _ _ hPa hstep hc => hc.step h hPa hstep) hrun
    (.init h hround hstart)

end

end SmartNic.ClosedLoop
