import SmartNic.Library.Fabric.Program

/-!
# A node that waits for each of its transfers

The program of such a node is a list of items, each a store by the processor or
a copy that is submitted and waited for.  In every state of a run the memory is
what a prefix of the items makes of the first one, and when the node returns it
is what all of them make of it.
-/

namespace SmartNic.Fabric

/-- A store by the processor, a copy that the node waits for, or an access that
stops the node for good. -/
inductive Item (Q Loc V : Type) where
  | store (f : (Loc → V) → Loc → V)
  | copy (pairs : List (Loc × Loc)) (ctx : Q)
  | fault

section Inline

variable {Q C Loc V D : Type}

/-- The instructions of an item; all copies use the counter `c` in turn. -/
def Item.code (c : C) : Item Q Loc V → List (Instr Q C Loc V D)
  | .store f => [.call fun d m => some (d, f m)]
  | .copy pairs ctx => [.init c 1, .submit ⟨.copy pairs, ctx, c⟩, .wait [c]]
  | .fault => [.call fun _ _ => none]

def inlineProgram (c : C) (items : List (Item Q Loc V)) :
    List (Instr Q C Loc V D) :=
  items.flatMap (Item.code c)

/-- A node by itself. -/
def loneSystem (Loc V D : Type) : System Unit Loc V D Empty where
  next := id
  deviceStep a _ _ := nomatch a

variable [DecidableEq Loc]

def Item.effect (m : Loc → V) : Item Q Loc V → Loc → V
  | .store f => f m
  | .copy pairs _ => writeAll m (pairs.map fun p => (p.2, m p.1))
  | .fault => m

/-- The memory after a list of items. -/
def effects (m : Loc → V) (items : List (Item Q Loc V)) : Loc → V :=
  items.foldl Item.effect m

theorem effects_append (m : Loc → V) (xs ys : List (Item Q Loc V)) :
    effects m (xs ++ ys) = effects (effects m xs) ys :=
  List.foldl_append ..

@[simp]
theorem effects_cons (m : Loc → V) (i : Item Q Loc V)
    (items : List (Item Q Loc V)) :
    effects m (i :: items) = effects (i.effect m) items := rfl

@[simp]
theorem effects_nil (m : Loc → V) :
    effects m ([] : List (Item Q Loc V)) = m := rfl

/-- How far a node is with its items: `done` have taken effect and `rest` are
still to come. -/
inductive At (c : C) (m : Loc → V) (done rest : List (Item Q Loc V)) :
    Node Q C Loc V D → Prop where
  | ready {n : Node Q C Loc V D} (hprog : n.prog = inlineProgram c rest)
      (hpending : n.pending = []) (hdone : n.done = [])
      (hmem : n.mem = effects m done) : At c m done rest n
  | started {n : Node Q C Loc V D} {rest' : List (Item Q Loc V)}
      {pairs : List (Loc × Loc)} {ctx : Q}
      (hrest : rest = .copy pairs ctx :: rest')
      (hprog : n.prog = .submit ⟨.copy pairs, ctx, c⟩ :: .wait [c] ::
        inlineProgram c rest')
      (hpending : n.pending = []) (hdone : n.done = []) (hcount : n.count c = 1)
      (hmem : n.mem = effects m done) : At c m done rest n
  | submitted {n : Node Q C Loc V D} {rest' : List (Item Q Loc V)}
      {pairs : List (Loc × Loc)} {ctx : Q}
      (hrest : rest = .copy pairs ctx :: rest')
      (hprog : n.prog = .wait [c] :: inlineProgram c rest')
      (hpending : n.pending = [⟨.copy pairs, ctx, c⟩]) (hdone : n.done = [])
      (hcount : n.count c = 1)
      (hmem : n.mem = effects m done) : At c m done rest n
  | moved {n : Node Q C Loc V D}
      (hprog : n.prog = .wait [c] :: inlineProgram c rest)
      (hpending : n.pending = []) (hdone : n.done = [c]) (hcount : n.count c = 1)
      (hmem : n.mem = effects m done) : At c m done rest n
  | completed {n : Node Q C Loc V D}
      (hprog : n.prog = .wait [c] :: inlineProgram c rest)
      (hpending : n.pending = []) (hdone : n.done = [])
      (hmem : n.mem = effects m done) : At c m done rest n

/-- The state of a node between its first and its last item. -/
def Between (c : C) (m : Loc → V) (items : List (Item Q Loc V))
    (n : Node Q C Loc V D) : Prop :=
  ∃ done rest, items = done ++ rest ∧ .fault ∉ done ∧
    At c m done rest n

variable {c : C} {m : Loc → V} {items : List (Item Q Loc V)}

theorem Between.start (c : C) (m : Loc → V) (items : List (Item Q Loc V))
    (dev : D) : Between c m items (Node.start (inlineProgram c items) m dev) :=
  ⟨[], items, rfl, by simp, .ready rfl rfl rfl rfl⟩

/-- In every state the memory is that after a prefix of the items. -/
theorem Between.mem_eq {n : Node Q C Loc V D} (h : Between c m items n) :
    ∃ done, done <+: items ∧ n.mem = effects m done := by
  obtain ⟨done, rest, rfl, -, hat⟩ := h
  refine ⟨done, List.prefix_append _ _, ?_⟩
  cases hat <;> assumption

/-- When the node returns, all items have taken effect. -/
theorem Between.returned {n : Node Q C Loc V D} (h : Between c m items n)
    (hprog : n.prog = []) : n.mem = effects m items ∧ .fault ∉ items := by
  obtain ⟨done, rest, rfl, hfault, hat⟩ := h
  cases hat with
  | ready hprog' hpending hdone hmem =>
      rw [hprog] at hprog'
      have hrest : rest = [] := by
        cases rest with
        | nil => rfl
        | cons i rest => cases i <;> cases hprog'
      subst hrest
      rw [List.append_nil]
      exact ⟨hmem, hfault⟩
  | started hrest hprog' => rw [hprog] at hprog'; cases hprog'
  | submitted hrest hprog' => rw [hprog] at hprog'; cases hprog'
  | moved hprog' => rw [hprog] at hprog'; cases hprog'
  | completed hprog' => rw [hprog] at hprog'; cases hprog'

theorem Between.copy {n n' : Node Q C Loc V D} {i : ℕ}
    (h : Between c m items n) (hstep : n.copy i = some n') :
    Between c m items n' := by
  obtain ⟨done, rest, rfl, hfault, hat⟩ := h
  cases hat with
  | submitted hrest hprog hpending hdone hcount hmem =>
      rename_i rest' pairs ctx
      subst hrest
      cases i with
      | succ i => simp [Node.copy, hpending, pick] at hstep
      | zero =>
          simp only [Node.copy, hpending, pick, Option.bind_eq_bind,
            Option.bind_some, Option.some.injEq] at hstep
          subst hstep
          refine ⟨done ++ [.copy pairs ctx], rest', by simp, by simp [hfault],
            .moved hprog rfl (by simp [hdone]) hcount ?_⟩
          rw [effects_append, ← hmem]
          rfl
  | ready hprog hpending => simp [Node.copy, hpending, pick] at hstep
  | started hrest hprog hpending => simp [Node.copy, hpending, pick] at hstep
  | moved hprog hpending => simp [Node.copy, hpending, pick] at hstep
  | completed hprog hpending => simp [Node.copy, hpending, pick] at hstep

variable [DecidableEq C]

theorem Between.exec {n n' : Node Q C Loc V D} (h : Between c m items n)
    (hstep : n.exec = some n') : Between c m items n' := by
  obtain ⟨done, rest, rfl, hfault, hat⟩ := h
  cases hat with
  | ready hprog hpending hdone hmem =>
      cases rest with
      | nil =>
          simp [Node.exec, hprog, inlineProgram] at hstep
      | cons i rest =>
          cases i with
          | store f =>
              simp only [Node.exec, hprog, inlineProgram, List.flatMap_cons,
                Item.code, List.singleton_append, Option.map_some,
                Option.some.injEq] at hstep
              subst hstep
              refine ⟨done ++ [.store f], rest, by simp, by simp [hfault],
                .ready rfl hpending hdone ?_⟩
              rw [effects_append, ← hmem]
              rfl
          | copy pairs ctx =>
              simp only [Node.exec, hprog, inlineProgram, List.flatMap_cons,
                Item.code, List.cons_append, Option.some.injEq] at hstep
              subst hstep
              exact ⟨done, _, rfl, hfault,
                .started rfl rfl hpending hdone (set_same _ _ _) hmem⟩
          | fault =>
              simp [Node.exec, hprog, inlineProgram, Item.code] at hstep
  | started hrest hprog hpending hdone hcount hmem =>
      simp only [Node.exec, hprog, Option.some.injEq] at hstep
      subst hstep
      exact ⟨done, rest, rfl, hfault,
        .submitted hrest rfl (by simp [hpending]) hdone hcount hmem⟩
  | submitted hrest hprog hpending hdone hcount hmem =>
      simp [Node.exec, hprog, hcount] at hstep
  | moved hprog hpending hdone hcount hmem =>
      simp [Node.exec, hprog, hcount] at hstep
  | completed hprog hpending hdone hmem =>
      simp only [Node.exec, hprog] at hstep
      split at hstep
      · cases hstep
        exact ⟨done, rest, rfl, hfault, .ready rfl hpending hdone hmem⟩
      · cases hstep

theorem Between.complete {n n' : Node Q C Loc V D} {i : ℕ}
    (h : Between c m items n) (hstep : n.complete i = some n') :
    Between c m items n' := by
  obtain ⟨done, rest, rfl, hfault, hat⟩ := h
  cases hat with
  | moved hprog hpending hdone hcount hmem =>
      cases i with
      | succ i => simp [Node.complete, hdone, pick] at hstep
      | zero =>
          simp only [Node.complete, hdone, pick, Option.bind_eq_bind,
            Option.bind_some, Option.some.injEq] at hstep
          subst hstep
          exact ⟨done, rest, rfl, hfault, .completed hprog hpending rfl hmem⟩
  | ready hprog hpending hdone => simp [Node.complete, hdone, pick] at hstep
  | started hrest hprog hpending hdone =>
      simp [Node.complete, hdone, pick] at hstep
  | submitted hrest hprog hpending hdone =>
      simp [Node.complete, hdone, pick] at hstep
  | completed hprog hpending hdone => simp [Node.complete, hdone, pick] at hstep

variable [DecidableEq Q]

omit [DecidableEq C] in
/-- There is nothing to send. -/
theorem Between.sendOut_eq_none {n : Node Q C Loc V D} (h : Between c m items n)
    (q : Q) : n.sendOut q = none := by
  obtain ⟨done, rest, rfl, hfault, hat⟩ := h
  cases hat with
  | submitted hrest hprog hpending =>
      simp [Node.sendOut, hpending, takeFirst, Task.sendOn]
  | ready hprog hpending => simp [Node.sendOut, hpending, takeFirst]
  | started hrest hprog hpending => simp [Node.sendOut, hpending, takeFirst]
  | moved hprog hpending => simp [Node.sendOut, hpending, takeFirst]
  | completed hprog hpending => simp [Node.sendOut, hpending, takeFirst]

/-- A step in which nothing fails. -/
theorem Between.step {s s' : Unit → Node Q C Loc V D}
    {a : Action Unit Q Empty} (h : Between c m items (s ()))
    (ha : a.failsAt = none)
    (hstep : Fabric.step (loneSystem Loc V D) s a = some s') :
    Between c m items (s' ()) := by
  cases a with
  | exec r =>
      obtain ⟨n, hn, rfl⟩ := Option.map_eq_some_iff.mp hstep
      exact (set_same s r n).symm ▸ h.exec hn
  | copy r i =>
      obtain ⟨n, hn, rfl⟩ := Option.map_eq_some_iff.mp hstep
      exact (set_same s r n).symm ▸ h.copy hn
  | complete r i =>
      obtain ⟨n, hn, rfl⟩ := Option.map_eq_some_iff.mp hstep
      exact (set_same s r n).symm ▸ h.complete hn
  | deliver r q =>
      simp [Fabric.step, deliver, h.sendOut_eq_none] at hstep
  | reject r => cases ha
  | fail r i => cases ha
  | device r a => cases a

theorem Between.run {s s' : Unit → Node Q C Loc V D}
    {acts : List (Action Unit Q Empty)} (h : Between c m items (s ()))
    (hacts : ∀ a ∈ acts, a.failsAt = none)
    (hrun : Fabric.run (loneSystem Loc V D) s acts = some s') :
    Between c m items (s' ()) := by
  induction acts generalizing s with
  | nil => exact Option.some.inj hrun ▸ h
  | cons a acts ih =>
      obtain ⟨s₁, hstep, hrun⟩ := Option.bind_eq_some_iff.mp hrun
      exact ih (h.step (hacts a (by simp)) hstep)
        (fun b hb => hacts b (by simp [hb])) hrun

/-! ## The node returns -/

/-- A store takes one action and a copy five. -/
theorem exists_item {i : Item Q Loc V} (hi : i ≠ .fault)
    {rest : List (Item Q Loc V)} {s : Unit → Node Q C Loc V D}
    (hprog : (s ()).prog = inlineProgram c (i :: rest))
    (hpending : (s ()).pending = []) (hdone : (s ()).done = []) :
    ∃ (acts : List (Action Unit Q Empty)) (s' : Unit → Node Q C Loc V D),
      (∀ a ∈ acts, a.failsAt = none) ∧
      Fabric.run (loneSystem Loc V D) s acts = some s' ∧
      (s' ()).prog = inlineProgram c rest ∧ (s' ()).pending = [] ∧
      (s' ()).done = [] := by
  cases i with
  | store f =>
      refine ⟨[.exec ()], ?_⟩
      simp [Action.failsAt, Fabric.run, Fabric.step, Node.exec, hprog, hpending,
        hdone, inlineProgram, Item.code]
  | copy pairs ctx =>
      refine ⟨[.exec (), .exec (), .copy () 0, .complete () 0, .exec ()], ?_⟩
      simp [Action.failsAt, Fabric.run, Fabric.step, Node.exec, Node.copy,
        Node.complete, pick, hprog, hpending, hdone, inlineProgram, Item.code]
  | fault => exact absurd rfl hi

/-- Without a fault there is a run in which the node returns. -/
theorem exists_return {s : Unit → Node Q C Loc V D} (hfault : .fault ∉ items)
    (hprog : (s ()).prog = inlineProgram c items)
    (hpending : (s ()).pending = []) (hdone : (s ()).done = []) :
    ∃ (acts : List (Action Unit Q Empty)) (s' : Unit → Node Q C Loc V D),
      (∀ a ∈ acts, a.failsAt = none) ∧
      Fabric.run (loneSystem Loc V D) s acts = some s' ∧
      (s' ()).prog = [] := by
  induction items generalizing s with
  | nil => exact ⟨[], s, by simp, rfl, hprog⟩
  | cons i items ih =>
      rw [List.mem_cons, not_or] at hfault
      obtain ⟨acts, s₁, hacts, hrun, hprog, hpending, hdone⟩ :=
        exists_item (Ne.symm hfault.1) hprog hpending hdone
      obtain ⟨acts', s₂, hacts', hrun', hprog'⟩ :=
        ih hfault.2 hprog hpending hdone
      refine ⟨acts ++ acts', s₂, ?_, (run_append hrun).trans hrun', hprog'⟩
      intro a ha
      exact (List.mem_append.mp ha).elim (hacts a) (hacts' a)

end Inline

end SmartNic.Fabric
