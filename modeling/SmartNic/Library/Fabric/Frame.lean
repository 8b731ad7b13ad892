import SmartNic.Library.Fabric.Knowledge

/-!
# Locations that a program spares

A location that no transfer of a node writes keeps its value, whatever the other
nodes do.
-/

namespace SmartNic.Fabric

section Frame

variable {R Q C Loc V D A : Type}

/-- Neither the rest of the program nor a pending transfer writes `l`. -/
structure Spares (l : Loc) (n : Node Q C Loc V D) : Prop where
  submit : ∀ t, .submit t ∈ n.prog → l ∉ t.dst
  call : ∀ f, .call f ∉ n.prog
  pending : ∀ t ∈ n.pending, l ∉ t.dst

/-- A step of the node that spares `l`. -/
structure Keeps (l : Loc) (n n' : Node Q C Loc V D) : Prop where
  spares : Spares l n'
  mem_eq : n'.mem l = n.mem l

variable {l : Loc} {n n' : Node Q C Loc V D}

/-- No instruction of a program writes `l`. -/
def Avoids (l : Loc) (prog : List (Instr Q C Loc V D)) : Prop :=
  (∀ t, .submit t ∈ prog → l ∉ t.dst) ∧ ∀ f, .call f ∉ prog

theorem Avoids.nil : Avoids l ([] : List (Instr Q C Loc V D)) :=
  ⟨by simp, by simp⟩

theorem Avoids.append {prog prog' : List (Instr Q C Loc V D)}
    (h : Avoids l prog) (h' : Avoids l prog') : Avoids l (prog ++ prog') :=
  ⟨fun t ht => (List.mem_append.mp ht).elim (h.1 t) (h'.1 t),
    fun f hf => (List.mem_append.mp hf).elim (h.2 f) (h'.2 f)⟩

theorem Avoids.flatMap {β : Type} {xs : List β}
    {prog : β → List (Instr Q C Loc V D)} (h : ∀ x ∈ xs, Avoids l (prog x)) :
    Avoids l (xs.flatMap prog) := by
  constructor
  · intro t ht
    obtain ⟨x, hx, ht⟩ := List.mem_flatMap.mp ht
    exact (h x hx).1 t ht
  · intro f hf
    obtain ⟨x, hx, hf⟩ := List.mem_flatMap.mp hf
    exact (h x hx).2 f hf

theorem Avoids.wait (cs : List C) :
    Avoids l [(.wait cs : Instr Q C Loc V D)] :=
  ⟨by simp, by simp⟩

theorem Avoids.batch {c : C} {ts : List (Task Q C Loc)}
    (h : ∀ t ∈ ts, l ∉ t.dst) :
    Avoids l (batch c ts : List (Instr Q C Loc V D)) := by
  constructor
  · intro t ht
    simp only [Fabric.batch, List.mem_cons, reduceCtorEq, List.mem_map,
      Instr.submit.injEq, false_or] at ht
    obtain ⟨_, ht, rfl⟩ := ht
    exact h _ ht
  · intro f hf
    simp [Fabric.batch] at hf

theorem Spares.start {prog : List (Instr Q C Loc V D)} {mem : Loc → V} {dev : D}
    (h : Avoids l prog) : Spares l (Node.start prog mem dev) :=
  ⟨h.1, h.2, by simp [Node.start]⟩

theorem Keeps.trans {n n₁ n₂ : Node Q C Loc V D} (h : Keeps l n n₁)
    (h' : Keeps l n₁ n₂) : Keeps l n n₂ :=
  ⟨h'.spares, h'.mem_eq.trans h.mem_eq⟩

theorem Spares.refl (h : Spares l n) : Keeps l n n := ⟨h, rfl⟩

/-- A step of the program that submits no more than it has. -/
theorem Spares.next {i : Instr Q C Loc V D} {rest : List (Instr Q C Loc V D)}
    (h : Spares l n) (hprog : n.prog = i :: rest) (hprog' : n'.prog = rest)
    (hpending : ∀ t ∈ n'.pending, t ∈ n.pending ∨ i = .submit t)
    (hmem : n'.mem = n.mem) : Keeps l n n' where
  spares :=
    { submit := fun t ht => h.submit t (by simp [hprog, ← hprog', ht])
      call := fun f hf => h.call f (by simp [hprog, ← hprog', hf])
      pending := fun t ht => (hpending t ht).elim (h.pending t) fun hi =>
        h.submit t (by simp [hprog, hi]) }
  mem_eq := by rw [hmem]

/-- A transfer that leaves `l` alone takes effect or goes away. -/
theorem Spares.drop (h : Spares l n) (hprog : n'.prog = n.prog)
    (hpending : ∀ t ∈ n'.pending, t ∈ n.pending) (hmem : n'.mem l = n.mem l) :
    Keeps l n n' where
  spares :=
    { submit := fun t ht => h.submit t (hprog ▸ ht)
      call := fun f hf => h.call f (hprog ▸ hf)
      pending := fun t ht => h.pending t (hpending t ht) }
  mem_eq := hmem

theorem mem_of_mem_rest {β : Type} {pre post : List β} {x y : β}
    (h : x ∈ pre ++ post) : x ∈ pre ++ y :: post :=
  List.mem_append.mpr ((List.mem_append.mp h).imp_right (List.mem_cons_of_mem y))

theorem Spares.sendOut [DecidableEq Q] {q : Q} {payload : List V}
    (h : Spares l n) (hstep : n.sendOut q = some (payload, n')) :
    Keeps l n n' := by
  obtain ⟨⟨t, src, pending⟩, htake, hstep⟩ := Option.bind_eq_some_iff.mp hstep
  obtain ⟨-, pre, post, hpending, rfl, -⟩ := takeFirst_eq htake
  cases hstep
  exact h.drop rfl (fun t' ht' => hpending ▸ mem_of_mem_rest ht') rfl

variable [DecidableEq C]

theorem Spares.exec {n n' : Node Q C Loc V D} (h : Spares l n)
    (hstep : n.exec = some n') : Keeps l n n' := by
  unfold Node.exec at hstep
  split at hstep
  · cases hstep
  next c k rest hprog =>
    cases hstep
    exact h.next hprog rfl (fun t ht => .inl ht) rfl
  next t rest hprog =>
    cases hstep
    refine h.next hprog rfl (fun t' ht' => ?_) rfl
    rcases List.mem_append.mp ht' with ht' | ht'
    · exact .inl ht'
    · exact .inr (by rw [List.mem_singleton.mp ht'])
  next cs rest hprog =>
    split at hstep
    · cases hstep
      exact h.next hprog rfl (fun t ht => .inl ht) rfl
    · cases hstep
  next f rest hprog =>
    exact absurd (by simp [hprog]) (h.call f)

theorem Spares.reject (h : Spares l n) (hstep : n.reject = some n') :
    Keeps l n n' := by
  unfold Node.reject at hstep
  split at hstep
  next t rest hprog =>
    cases hstep
    exact h.next hprog rfl (fun t ht => .inl ht) rfl
  · cases hstep

theorem Spares.complete {i : ℕ} (h : Spares l n)
    (hstep : n.complete i = some n') : Keeps l n n' := by
  obtain ⟨⟨c, done⟩, hpick, hstep⟩ := Option.bind_eq_some_iff.mp hstep
  cases hstep
  exact h.drop rfl (fun t ht => ht) rfl

theorem Spares.fail {i : ℕ} (h : Spares l n) (hstep : n.fail i = some n') :
    Keeps l n n' := by
  obtain ⟨⟨t, pending⟩, hpick, hstep⟩ := Option.bind_eq_some_iff.mp hstep
  obtain ⟨pre, post, hpending, rfl⟩ := pick_eq hpick
  cases hstep
  exact h.drop rfl (fun t' ht' => hpending ▸ mem_of_mem_rest ht') rfl

variable [DecidableEq Loc]

omit [DecidableEq C] in
theorem Spares.copy {i : ℕ} (h : Spares l n) (hstep : n.copy i = some n') :
    Keeps l n n' := by
  obtain ⟨⟨t, pending⟩, hpick, hstep⟩ := Option.bind_eq_some_iff.mp hstep
  obtain ⟨pre, post, hpending, rfl⟩ := pick_eq hpick
  have hl := h.pending t (by simp [hpending])
  dsimp only at hstep
  split at hstep
  next pairs hop =>
    cases hstep
    refine h.drop rfl (fun t' ht' => hpending ▸ mem_of_mem_rest ht')
      (writeAll_of_notMem ?_)
    simpa [Task.dst, hop, Function.comp_def] using hl
  · cases hstep

variable [DecidableEq Q]

omit [DecidableEq C] in
theorem Spares.recvIn {q : Q} {payload : List V} (h : Spares l n)
    (hstep : n.recvIn q payload = some n') : Keeps l n n' := by
  obtain ⟨⟨t, dst, pending⟩, htake, hstep⟩ := Option.bind_eq_some_iff.mp hstep
  obtain ⟨hrecv, pre, post, hpending, rfl, -⟩ := takeFirst_eq htake
  cases hstep
  have hdst : l ∉ dst := by
    rw [← (Task.dst_of_recvOn hrecv).1]
    exact h.pending t (by simp [hpending])
  refine h.drop rfl (fun t' ht' => hpending ▸ mem_of_mem_rest ht')
    (writeAll_of_notMem fun hin => ?_)
  obtain ⟨p, hp, rfl⟩ := List.mem_map.mp hin
  exact hdst (List.of_mem_zip hp).1

/-! ## Runs -/

variable [DecidableEq R] {sys : System R Loc V D A}
  {s s' : R → Node Q C Loc V D} {r : R}

omit [DecidableEq C] [DecidableEq Loc] [DecidableEq Q] in
/-- A step that replaces one node. -/
theorem Spares.set {r' : R} {n : Node Q C Loc V D} (h : Spares l (s r))
    (hn : Spares l (s r') → Keeps l (s r') n) :
    Keeps l (s r) (Fabric.set s r' n r) := by
  by_cases hr : r = r'
  · subst hr
    rw [set_same]
    exact hn h
  · rw [set_of_ne hr]
    exact h.refl

theorem Spares.step (h : Spares l (s r))
    (hdevice : ∀ a d m d' m', sys.deviceStep a d m = some (d', m') →
      m' l = m l)
    {a : Action R Q A} (hstep : Fabric.step sys s a = some s') :
    Keeps l (s r) (s' r) := by
  cases a with
  | exec r' =>
      obtain ⟨n, hn, rfl⟩ := Option.map_eq_some_iff.mp hstep
      exact h.set fun hs => hs.exec hn
  | reject r' =>
      obtain ⟨n, hn, rfl⟩ := Option.map_eq_some_iff.mp hstep
      exact h.set fun hs => hs.reject hn
  | copy r' i =>
      obtain ⟨n, hn, rfl⟩ := Option.map_eq_some_iff.mp hstep
      exact h.set fun hs => hs.copy hn
  | complete r' i =>
      obtain ⟨n, hn, rfl⟩ := Option.map_eq_some_iff.mp hstep
      exact h.set fun hs => hs.complete hn
  | fail r' i =>
      obtain ⟨n, hn, rfl⟩ := Option.map_eq_some_iff.mp hstep
      exact h.set fun hs => hs.fail hn
  | device r' a =>
      obtain ⟨n, hn, rfl⟩ := Option.map_eq_some_iff.mp hstep
      obtain ⟨⟨d', m'⟩, hd, rfl⟩ := Option.map_eq_some_iff.mp hn
      exact h.set fun hs => hs.drop rfl (fun t ht => ht) (hdevice a _ _ _ _ hd)
  | deliver r' q =>
      obtain ⟨⟨payload, n⟩, hsend, hstep⟩ := Option.bind_eq_some_iff.mp hstep
      obtain ⟨n', hrecv, hstep⟩ := Option.bind_eq_some_iff.mp hstep
      cases hstep
      have hout := h.set fun hs => hs.sendOut hsend
      exact hout.trans (hout.spares.set fun hs => hs.recvIn hrecv)

theorem Spares.run (h : Spares l (s r))
    (hdevice : ∀ a d m d' m', sys.deviceStep a d m = some (d', m') →
      m' l = m l)
    {acts : List (Action R Q A)} (hrun : Fabric.run sys s acts = some s') :
    (s' r).mem l = (s r).mem l := by
  induction acts generalizing s with
  | nil =>
      cases hrun
      rfl
  | cons a acts ih =>
      obtain ⟨s₁, hstep, hrun⟩ := Option.bind_eq_some_iff.mp hrun
      have hkeeps := h.step hdevice hstep
      exact (ih hkeeps.spares hrun).trans hkeeps.mem_eq

end Frame

end SmartNic.Fabric
