import SmartNic.Library.Fabric.Relocate

/-!
# Receive tasks

A context has some number of receive tasks, and a receive that finds all of them in
use is refused.  A program that submits no more receives on a context than this
always finds one, however late its receives complete.
-/

namespace SmartNic.Fabric

section

variable {R Q C Loc V D A : Type} [DecidableEq Q]

/-- The instruction submits a receive on a context. -/
def Instr.receives (q : Q) : Instr Q C Loc V D → Bool
  | .submit t => (t.recvOn q).isSome
  | _ => false

/-- The receives that a program submits on a context. -/
def recvCount (q : Q) (prog : List (Instr Q C Loc V D)) : ℕ :=
  prog.countP (Instr.receives q)

/-- The node is in a program.  A receive that comes next has a task, even if none of
those before has completed. -/
def Node.HasTask (tasks : Q → ℕ) (prog : List (Instr Q C Loc V D))
    (n : Node Q C Loc V D) : Prop :=
  ∃ before, prog = before ++ n.prog ∧ ∀ i rest, n.prog = i :: rest →
    ∀ q, i.receives q = true → recvCount q before < tasks q

theorem recvCount_append (q : Q) (prog prog' : List (Instr Q C Loc V D)) :
    recvCount q (prog ++ prog') = recvCount q prog + recvCount q prog' :=
  List.countP_append

theorem recvCount_flatMap_le {q : Q} {body : ℕ → List (Instr Q C Loc V D)} {k n : ℕ}
    (h : ∀ i < n, recvCount q (body i) ≤ k) :
    recvCount q ((List.range n).flatMap body) ≤ n * k := by
  induction n with
  | zero => exact Nat.zero_le _
  | succ n ih =>
      rw [List.range_succ, List.flatMap_append, List.flatMap_singleton,
        recvCount_append, Nat.succ_mul]
      exact Nat.add_le_add (ih fun i hi => h i (Nat.lt_succ_of_lt hi))
        (h n (Nat.lt_succ_self n))

theorem recvCount_relocate {Loc' : Type} (φ : Loc → Loc') (q : Q)
    (prog : List (Instr Q C Loc V D)) :
    recvCount q (prog.map (.relocate φ)) = recvCount q prog := by
  unfold recvCount
  rw [List.countP_map]
  refine List.countP_congr fun i _ => ?_
  cases i with
  | submit t =>
      change ((t.relocate φ).recvOn q).isSome = true ↔ (t.recvOn q).isSome = true
      rw [Task.relocate_recvOn, Option.isSome_map]
  | init c k => exact Iff.rfl
  | wait cs => exact Iff.rfl
  | call f => exact Iff.rfl

/-- A program fits if it submits no more receives than there are tasks. -/
theorem Node.hasTask_of_fits {tasks : Q → ℕ} {prog : List (Instr Q C Loc V D)}
    {n : Node Q C Loc V D} (hfits : ∀ q, recvCount q prog ≤ tasks q)
    (hin : n.prog <:+ prog) : n.HasTask tasks prog := by
  obtain ⟨before, hprog⟩ := hin
  refine ⟨before, hprog.symm, fun i rest hnext q hq => ?_⟩
  have hone : recvCount q n.prog = recvCount q rest + 1 := by
    rw [hnext]
    exact List.countP_cons_of_pos hq
  have hle := hfits q
  rw [← hprog, recvCount_append, hone] at hle
  omega

/-! ## A node goes on in its program -/

variable [DecidableEq C] [DecidableEq Loc] {n n' : Node Q C Loc V D}

omit [DecidableEq Q] [DecidableEq Loc] in
theorem Node.exec_suffix (hstep : n.exec = some n') : n'.prog <:+ n.prog := by
  unfold Node.exec at hstep
  split at hstep
  · cases hstep
  next hprog =>
    obtain rfl := Option.some.inj hstep
    rw [hprog]
    exact List.suffix_cons _ _
  next hprog =>
    obtain rfl := Option.some.inj hstep
    rw [hprog]
    exact List.suffix_cons _ _
  next hprog =>
    split at hstep
    · obtain rfl := Option.some.inj hstep
      rw [hprog]
      exact List.suffix_cons _ _
    · cases hstep
  next hprog =>
    obtain ⟨x, -, rfl⟩ := Option.map_eq_some_iff.mp hstep
    rw [hprog]
    exact List.suffix_cons _ _

omit [DecidableEq Q] [DecidableEq Loc] in
theorem Node.reject_suffix (hstep : n.reject = some n') : n'.prog <:+ n.prog := by
  unfold Node.reject at hstep
  split at hstep
  next hprog =>
    obtain rfl := Option.some.inj hstep
    rw [hprog]
    exact List.suffix_cons _ _
  · cases hstep

omit [DecidableEq Q] [DecidableEq C] in
theorem Node.copy_prog {i : ℕ} (hstep : n.copy i = some n') : n'.prog = n.prog := by
  unfold Node.copy at hstep
  obtain ⟨⟨t, pending⟩, -, hstep⟩ := Option.bind_eq_some_iff.mp hstep
  dsimp only at hstep
  split at hstep
  · obtain rfl := Option.some.inj hstep
    rfl
  · cases hstep

omit [DecidableEq C] [DecidableEq Loc] in
theorem Node.sendOut_prog {q : Q} {payload : List V}
    (hstep : n.sendOut q = some (payload, n')) : n'.prog = n.prog := by
  unfold Node.sendOut at hstep
  obtain ⟨x, -, hstep⟩ := Option.bind_eq_some_iff.mp hstep
  obtain ⟨-, rfl⟩ := Prod.mk.inj (Option.some.inj hstep)
  rfl

omit [DecidableEq C] in
theorem Node.recvIn_prog {q : Q} {payload : List V}
    (hstep : n.recvIn q payload = some n') : n'.prog = n.prog := by
  unfold Node.recvIn at hstep
  obtain ⟨x, -, hstep⟩ := Option.bind_eq_some_iff.mp hstep
  obtain rfl := Option.some.inj hstep
  rfl

omit [DecidableEq Q] [DecidableEq Loc] in
theorem Node.complete_prog {i : ℕ} (hstep : n.complete i = some n') :
    n'.prog = n.prog := by
  unfold Node.complete at hstep
  obtain ⟨x, -, hstep⟩ := Option.bind_eq_some_iff.mp hstep
  obtain rfl := Option.some.inj hstep
  rfl

omit [DecidableEq Q] [DecidableEq Loc] in
theorem Node.fail_prog {i : ℕ} (hstep : n.fail i = some n') : n'.prog = n.prog := by
  unfold Node.fail at hstep
  obtain ⟨x, -, hstep⟩ := Option.bind_eq_some_iff.mp hstep
  obtain rfl := Option.some.inj hstep
  rfl

variable [DecidableEq R] {sys : System R Loc V D A} {s s' : R → Node Q C Loc V D}

omit [DecidableEq Q] [DecidableEq C] [DecidableEq Loc] in
/-- A step on a node and none of the others. -/
theorem suffix_set {r : R} (h : n'.prog <:+ (s r).prog) (q : R) :
    (set s r n' q).prog <:+ (s q).prog := by
  by_cases hq : q = r
  · subst hq
    rwa [set_same]
  · rw [set_of_ne hq]

omit [DecidableEq Q] [DecidableEq C] [DecidableEq Loc] in
theorem suffix_set_of_eq {r : R} (h : n'.prog = (s r).prog) (q : R) :
    (set s r n' q).prog <:+ (s q).prog := by
  refine suffix_set ?_ q
  rw [h]

theorem step_suffix {a : Action R Q A} (hstep : step sys s a = some s') (q : R) :
    (s' q).prog <:+ (s q).prog := by
  cases a with
  | exec r =>
      obtain ⟨n', hn, rfl⟩ := Option.map_eq_some_iff.mp hstep
      exact suffix_set (Node.exec_suffix hn) q
  | reject r =>
      obtain ⟨n', hn, rfl⟩ := Option.map_eq_some_iff.mp hstep
      exact suffix_set (Node.reject_suffix hn) q
  | copy r i =>
      obtain ⟨n', hn, rfl⟩ := Option.map_eq_some_iff.mp hstep
      exact suffix_set_of_eq (Node.copy_prog hn) q
  | deliver r c =>
      unfold step deliver at hstep
      obtain ⟨⟨payload, n₁⟩, hsend, hstep⟩ := Option.bind_eq_some_iff.mp hstep
      obtain ⟨n₂, hrecv, hstep⟩ := Option.bind_eq_some_iff.mp hstep
      obtain rfl := Option.some.inj hstep
      have hfirst : ∀ q, (set s r n₁ q).prog <:+ (s q).prog :=
        suffix_set_of_eq (Node.sendOut_prog hsend)
      exact (suffix_set_of_eq (Node.recvIn_prog hrecv) q).trans (hfirst q)
  | complete r i =>
      obtain ⟨n', hn, rfl⟩ := Option.map_eq_some_iff.mp hstep
      exact suffix_set_of_eq (Node.complete_prog hn) q
  | fail r i =>
      obtain ⟨n', hn, rfl⟩ := Option.map_eq_some_iff.mp hstep
      exact suffix_set_of_eq (Node.fail_prog hn) q
  | device r d =>
      obtain ⟨n', hn, rfl⟩ := Option.map_eq_some_iff.mp hstep
      obtain ⟨x, -, rfl⟩ := Option.map_eq_some_iff.mp hn
      refine suffix_set_of_eq ?_ q
      rfl

theorem run_suffix {acts : List (Action R Q A)} (hrun : run sys s acts = some s') (q : R) :
    (s' q).prog <:+ (s q).prog := by
  induction acts generalizing s with
  | nil =>
      obtain rfl := Option.some.inj hrun
      exact List.suffix_refl _
  | cons a acts ih =>
      obtain ⟨s₁, hstep, hrest⟩ := Option.bind_eq_some_iff.mp hrun
      exact (ih hrest).trans (step_suffix hstep q)

end

end SmartNic.Fabric
