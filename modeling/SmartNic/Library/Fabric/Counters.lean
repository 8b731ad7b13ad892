import Mathlib.Data.List.Count
import Mathlib.Data.Set.Insert
import SmartNic.Library.Fabric.Program

/-!
# Counters

A counter is initialised with the number of the transfers that will be
submitted on it and waited for until it is zero.  Whether a transfer succeeds
or fails, it decrements its counter once.  `Settles` follows the counters
through a program, and every run, with failures or not, keeps the node in step.
-/

namespace SmartNic.Fabric

section

variable {R Q C Loc V D A : Type} [DecidableEq C]

/-! ## Incomplete transfers -/

/-- The number of incomplete transfers on a counter. -/
def Node.incomplete (n : Node Q C Loc V D) (c : C) : ℕ :=
  n.pending.countP (fun t => t.counter = c) + n.done.count c

/-- The counters of a node, when `credit` counts the submissions that a counter
was initialised for and that are still to come, and `live` has the counters of
all transfers that may be incomplete. -/
structure Counted (credit : C → ℕ) (live : Set C) (n : Node Q C Loc V D) :
    Prop where
  pending_live : ∀ t ∈ n.pending, t.counter ∈ live
  done_live : ∀ c ∈ n.done, c ∈ live
  count_eq : ∀ c, n.count c = credit c + n.incomplete c

section Counted

variable {credit : C → ℕ} {live live' : Set C} {n n' : Node Q C Loc V D}

theorem Counted.incomplete_eq_zero (h : Counted credit live n) {c : C}
    (hc : c ∉ live) : n.incomplete c = 0 := by
  have hpending : n.pending.countP (fun t => t.counter = c) = 0 := by
    rw [List.countP_eq_zero]
    intro t ht htc
    rw [decide_eq_true_eq] at htc
    exact hc (htc ▸ h.pending_live t ht)
  have hdone : n.done.count c = 0 :=
    List.count_eq_zero.mpr fun hmem => hc (h.done_live c hmem)
  rw [Node.incomplete, hpending, hdone]

theorem Counted.mono (h : Counted credit live n) (hlive : live ⊆ live') :
    Counted credit live' n where
  pending_live t ht := hlive (h.pending_live t ht)
  done_live c hc := hlive (h.done_live c hc)
  count_eq := h.count_eq

/-! ## Instructions -/

theorem Counted.init (h : Counted credit live n) {c : C} (k : ℕ)
    (hlive : c ∉ live) (rest : List (Instr Q C Loc V D)) :
    Counted (set credit c k) live
      { n with prog := rest, count := set n.count c k } where
  pending_live := h.pending_live
  done_live := h.done_live
  count_eq d := by
    have hd := h.count_eq d
    simp only [Node.incomplete] at hd ⊢
    by_cases hdc : d = c
    · subst hdc
      have hzero := h.incomplete_eq_zero hlive
      simp only [Node.incomplete] at hzero
      simp [hzero]
    · simp only [set_of_ne hdc]
      exact hd

theorem Counted.submit (h : Counted credit live n) {t : Task Q C Loc} {k : ℕ}
    (hcredit : credit t.counter = k + 1) (rest : List (Instr Q C Loc V D)) :
    Counted (set credit t.counter k) (insert t.counter live)
      { n with prog := rest, pending := n.pending ++ [t] } where
  pending_live t' ht' := by
    rcases List.mem_append.mp ht' with ht' | ht'
    · exact .inr (h.pending_live t' ht')
    · rw [List.mem_singleton.mp ht']
      exact .inl rfl
  done_live d hd := .inr (h.done_live d hd)
  count_eq d := by
    have hd := h.count_eq d
    simp only [Node.incomplete, List.countP_append] at hd ⊢
    by_cases hdc : d = t.counter
    · subst hdc
      rw [hcredit] at hd
      simp only [set_same, hd, List.countP_singleton, decide_true, if_true]
      push_cast
      omega
    · simp only [set_of_ne hdc, hd, List.countP_singleton, Ne.symm hdc,
        decide_false, if_false, Bool.false_eq_true, Nat.add_zero]

/-- A submission that fails uses up its credit. -/
theorem Counted.reject (h : Counted credit live n) {t : Task Q C Loc} {k : ℕ}
    (hcredit : credit t.counter = k + 1) (rest : List (Instr Q C Loc V D))
    (log : List Status) :
    Counted (set credit t.counter k) (insert t.counter live)
      { n with
        prog := rest
        count := set n.count t.counter (n.count t.counter - 1)
        log := log } where
  pending_live t' ht' := .inr (h.pending_live t' ht')
  done_live d hd := .inr (h.done_live d hd)
  count_eq d := by
    have hd := h.count_eq d
    simp only [Node.incomplete] at hd ⊢
    by_cases hdc : d = t.counter
    · subst hdc
      rw [hcredit] at hd
      simp only [set_same, hd]
      push_cast
      omega
    · simp only [set_of_ne hdc]
      exact hd

/-- Nothing is incomplete on a counter that has been waited for. -/
theorem Counted.incomplete_of_wait (h : Counted credit live n) {cs : List C}
    (hcredit : ∀ c ∈ cs, credit c = 0) (hle : ∀ c ∈ cs, n.count c ≤ 0) :
    (∀ t ∈ n.pending, t.counter ∉ cs) ∧ ∀ d ∈ n.done, d ∉ cs := by
  have hnone : ∀ c ∈ cs, n.incomplete c = 0 := by
    intro c hcs
    have hcount := h.count_eq c
    have hzero := hle c hcs
    rw [hcredit c hcs] at hcount
    omega
  constructor
  · intro t ht hcs
    have hzero := hnone _ hcs
    have hpos : 0 < n.pending.countP (fun t' => t'.counter = t.counter) :=
      List.countP_pos_iff.mpr ⟨t, ht, by simp⟩
    simp only [Node.incomplete] at hzero
    omega
  · intro d hd hcs
    have hzero := hnone _ hcs
    have hpos : 0 < n.done.count d := List.count_pos_iff.mpr hd
    simp only [Node.incomplete] at hzero
    omega

theorem Counted.wait (h : Counted credit live n) {cs : List C}
    (hcredit : ∀ c ∈ cs, credit c = 0) (hle : ∀ c ∈ cs, n.count c ≤ 0)
    (rest : List (Instr Q C Loc V D)) :
    Counted credit {c | c ∈ live ∧ c ∉ cs} { n with prog := rest } :=
  have hnone := h.incomplete_of_wait hcredit hle
  { pending_live := fun t ht => ⟨h.pending_live t ht, hnone.1 t ht⟩
    done_live := fun d hd => ⟨h.done_live d hd, hnone.2 d hd⟩
    count_eq := h.count_eq }

/-! ## Transfers -/

/-- A transfer takes effect. -/
theorem Counted.move {pre post : List (Task Q C Loc)} {t : Task Q C Loc}
    (h : Counted credit live n) (hpending : n.pending = pre ++ t :: post)
    (hpending' : n'.pending = pre ++ post)
    (hdone : n'.done = t.counter :: n.done) (hcount : n'.count = n.count) :
    Counted credit live n' where
  pending_live t' ht' := by
    refine h.pending_live t' ?_
    rw [hpending' , List.mem_append] at ht'
    rw [hpending, List.mem_append, List.mem_cons]
    exact ht'.imp_right Or.inr
  done_live c hc := by
    rw [hdone, List.mem_cons] at hc
    rcases hc with rfl | hc
    · exact h.pending_live t (by simp [hpending])
    · exact h.done_live c hc
  count_eq c := by
    have hsame : n'.incomplete c = n.incomplete c := by
      simp only [Node.incomplete, hpending, hpending', hdone,
        List.countP_append, List.countP_cons, List.count_cons,
        decide_eq_true_eq, beq_iff_eq]
      omega
    rw [hcount, hsame, h.count_eq]

/-- One transfer fewer is incomplete and its counter is decremented. -/
theorem Counted.count_eq_of_remove {c : C} (h : Counted credit live n)
    (hone : ∀ d, n.incomplete d = n'.incomplete d + if c = d then 1 else 0)
    (hcount : n'.count = set n.count c (n.count c - 1)) (d : C) :
    n'.count d = credit d + n'.incomplete d := by
  have hd := hone d
  have hold := h.count_eq d
  rw [hcount]
  by_cases hcd : d = c
  · subst hcd
    rw [if_pos rfl] at hd
    rw [set_same, hold, hd]
    push_cast
    omega
  · rw [if_neg (Ne.symm hcd)] at hd
    rw [set_of_ne hcd, hold, hd, Nat.add_zero]

/-- The completion of a transfer that took effect. -/
theorem Counted.complete {i : ℕ} (h : Counted credit live n)
    (hstep : n.complete i = some n') : Counted credit live n' := by
  simp only [Node.complete, Option.bind_eq_bind, Option.bind_eq_some_iff,
    Option.some.injEq] at hstep
  obtain ⟨⟨c, done⟩, hpick, rfl⟩ := hstep
  obtain ⟨pre, post, hdone, rfl⟩ := pick_eq hpick
  refine ⟨h.pending_live, ?_, h.count_eq_of_remove (fun d => ?_) rfl⟩
  · intro d hd
    refine h.done_live d ?_
    rw [List.mem_append] at hd
    rw [hdone, List.mem_append, List.mem_cons]
    exact hd.imp_right Or.inr
  · simp only [Node.incomplete, hdone, List.count_append, List.count_cons,
      beq_iff_eq]
    omega

/-- The failure of a pending transfer. -/
theorem Counted.fail {i : ℕ} (h : Counted credit live n)
    (hstep : n.fail i = some n') : Counted credit live n' := by
  simp only [Node.fail, Option.bind_eq_bind, Option.bind_eq_some_iff,
    Option.some.injEq] at hstep
  obtain ⟨⟨t, pending⟩, hpick, rfl⟩ := hstep
  obtain ⟨pre, post, hpending, rfl⟩ := pick_eq hpick
  refine ⟨?_, h.done_live, h.count_eq_of_remove (fun d => ?_) rfl⟩
  · intro t' ht'
    refine h.pending_live t' ?_
    rw [List.mem_append] at ht'
    rw [hpending, List.mem_append, List.mem_cons]
    exact ht'.imp_right Or.inr
  · simp only [Node.incomplete, hpending, List.countP_append,
      List.countP_cons, decide_eq_true_eq]
    omega

end Counted

end

end SmartNic.Fabric
