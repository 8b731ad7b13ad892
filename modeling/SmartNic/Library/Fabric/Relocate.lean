import Mathlib.Data.Set.Function
import SmartNic.Library.Fabric.Frame
import SmartNic.Library.Fabric.Progress

/-!
# Programs at other locations

A program runs alike on every memory in which the locations that it uses have a
place of their own.  A node may also be parked: it has no program yet, and until
it starts one nothing happens on it.
-/

namespace SmartNic.Fabric

section

variable {R Q C Loc Loc' V D : Type}

def Op.relocate (φ : Loc → Loc') : Op Loc → Op Loc'
  | .copy pairs => .copy (pairs.map fun p => (φ p.1, φ p.2))
  | .send src => .send (src.map φ)
  | .recv dst => .recv (dst.map φ)

def Task.relocate (φ : Loc → Loc') (t : Task Q C Loc) : Task Q C Loc' where
  op := t.op.relocate φ
  ctx := t.ctx
  counter := t.counter

/-- A call sees the memory at its new place and leaves it as it is. -/
def Instr.relocate (φ : Loc → Loc') : Instr Q C Loc V D → Instr Q C Loc' V D
  | .init c n => .init c n
  | .submit t => .submit (t.relocate φ)
  | .wait cs => .wait cs
  | .call f => .call fun d m => (f d fun l => m (φ l)).map fun r => (r.1, m)

/-- The transfer stays inside `U`. -/
structure Task.Within (U : Set Loc) (t : Task Q C Loc) : Prop where
  src : ∀ l ∈ t.src, l ∈ U
  dst : ∀ l ∈ t.dst, l ∈ U

/-- The program has no calls and its transfers stay inside `U`. -/
structure Within (U : Set Loc) (prog : List (Instr Q C Loc V D)) : Prop where
  submit : ∀ t, .submit t ∈ prog → t.Within U
  call : ∀ f, .call f ∉ prog

/-- `n'` is `n` with every location `l` of `U` at `φ l`. -/
structure Mirrors (φ : Loc → Loc') (U : Set Loc) (n : Node Q C Loc V D)
    (n' : Node Q C Loc' V D) : Prop where
  prog_eq : n'.prog = n.prog.map (Instr.relocate φ)
  pending_eq : n'.pending = n.pending.map (Task.relocate φ)
  done_eq : n'.done = n.done
  count_eq : n'.count = n.count
  mem_eq : ∀ l ∈ U, n'.mem (φ l) = n.mem l
  prog_within : Within U n.prog
  pending_within : ∀ t ∈ n.pending, t.Within U

/-- Start another program on the memory as it is, with new counters. -/
def Node.load (n : Node Q C Loc V D) (prog : List (Instr Q C Loc V D)) :
    Node Q C Loc V D :=
  { n with prog := prog, count := fun _ => 0 }

/-- Nothing happens on the node before it starts a program. -/
structure Node.Parked (n : Node Q C Loc V D) : Prop where
  prog_eq : n.prog = []
  pending_eq : n.pending = []
  done_eq : n.done = []

/-- A node that has returned has nothing under way. -/
theorem Accounted.parked [DecidableEq C] {total : ℕ} {n : Node Q C Loc V D}
    (h : Accounted total n) (hprog : n.prog = []) : n.Parked where
  prog_eq := hprog
  pending_eq := (h.settled hprog).1
  done_eq := (h.settled hprog).2

/-! ## Tasks -/

theorem Task.relocate_dst (φ : Loc → Loc') (t : Task Q C Loc) :
    (t.relocate φ).dst = t.dst.map φ := by
  obtain ⟨op, ctx, counter⟩ := t
  cases op with
  | copy pairs => simp [Task.relocate, Op.relocate, Task.dst]
  | send src => rfl
  | recv dst => rfl

theorem Task.relocate_sendOn [DecidableEq Q] (φ : Loc → Loc') (q : Q)
    (t : Task Q C Loc) : (t.relocate φ).sendOn q = (t.sendOn q).map (List.map φ) := by
  obtain ⟨op, ctx, counter⟩ := t
  cases op with
  | copy pairs => rfl
  | send src =>
      by_cases hctx : ctx = q
      · simp [Task.relocate, Op.relocate, Task.sendOn, hctx]
      · simp [Task.relocate, Op.relocate, Task.sendOn, hctx]
  | recv dst => rfl

theorem Task.relocate_recvOn [DecidableEq Q] (φ : Loc → Loc') (q : Q)
    (t : Task Q C Loc) : (t.relocate φ).recvOn q = (t.recvOn q).map (List.map φ) := by
  obtain ⟨op, ctx, counter⟩ := t
  cases op with
  | copy pairs => rfl
  | send src => rfl
  | recv dst =>
      by_cases hctx : ctx = q
      · simp [Task.relocate, Op.relocate, Task.recvOn, hctx]
      · simp [Task.relocate, Op.relocate, Task.recvOn, hctx]

theorem pick_map {β γ : Type} (f : β → γ) (xs : List β) (i : ℕ) :
    pick (xs.map f) i = (pick xs i).map fun r => (f r.1, r.2.map f) := by
  induction xs generalizing i with
  | nil => rfl
  | cons x xs ih =>
      cases i with
      | zero => rfl
      | succ i =>
          rw [List.map_cons, pick, pick, ih, Option.map_map, Option.map_map]
          rfl

theorem takeFirst_map {β γ δ ε : Type} {f : β → γ} {g : δ → ε} {p : β → Option δ}
    {p' : γ → Option ε} (hp : ∀ x, p' (f x) = (p x).map g) (xs : List β) :
    takeFirst p' (xs.map f) =
      (takeFirst p xs).map fun r => (f r.1, g r.2.1, r.2.2.map f) := by
  induction xs with
  | nil => rfl
  | cons x xs ih =>
      rw [List.map_cons, takeFirst, takeFirst, hp]
      cases p x with
      | some y => rfl
      | none =>
          simp only [Option.map_none, ih, Option.map_map]
          rfl

theorem rel_bind {α β γ δ : Type} {p : α → β → Prop} {q : γ → δ → Prop}
    {o : Option α} {o' : Option β} {f : α → Option γ} {g : β → Option δ}
    (h : Option.Rel p o o') (hfg : ∀ x y, p x y → Option.Rel q (f x) (g y)) :
    Option.Rel q (o >>= f) (o' >>= g) := by
  cases h with
  | none => exact .none
  | some hxy => exact hfg _ _ hxy

theorem set_eq_update {β γ : Type} [DecidableEq β] (f : β → γ) (x : β) (y : γ) :
    set f x y = Function.update f x y := by
  funext z
  by_cases hz : z = x
  · rw [hz, set_same, Function.update_self]
  · rw [set_of_ne hz, Function.update_of_ne hz]

/-- Writes at the new places leave in each of them what the writes leave at the
location itself. -/
theorem writeAll_relocate [DecidableEq Loc] [DecidableEq Loc'] {φ : Loc → Loc'}
    {U : Set Loc} (hφ : Set.InjOn φ U) {ws : List (Loc × V)}
    (hws : ∀ w ∈ ws, w.1 ∈ U) {m : Loc → V} {m' : Loc' → V}
    (hm : ∀ l ∈ U, m' (φ l) = m l) {l : Loc} (hl : l ∈ U) :
    writeAll m' (ws.map fun w => (φ w.1, w.2)) (φ l) = writeAll m ws l := by
  induction ws generalizing m m' with
  | nil => exact hm l hl
  | cons w ws ih =>
      have hw : w.1 ∈ U := hws w List.mem_cons_self
      refine ih (fun v hv => hws v (List.mem_cons_of_mem _ hv)) fun x hx => ?_
      by_cases hxw : x = w.1
      · rw [hxw, set_same, set_same]
      · rw [set_of_ne hxw, set_of_ne fun heq => hxw (hφ hx hw heq)]
        exact hm x hx

theorem price_relocate (cost : ℕ) (φ : Loc → Loc') (prog : List (Instr Q C Loc V D)) :
    price cost (prog.map (Instr.relocate φ)) = price cost prog := by
  induction prog with
  | nil => rfl
  | cons i prog ih =>
      rw [List.map_cons, price_cons, price_cons, ih]
      cases i <;> rfl

theorem Settles.relocate [DecidableEq C] {credit : C → ℕ} {live live' : Set C}
    {prog : List (Instr Q C Loc V D)} (φ : Loc → Loc')
    (h : Settles credit live prog live') :
    Settles credit live (prog.map (Instr.relocate φ)) live' := by
  induction h with
  | nil hlive => exact .nil hlive
  | init c n hcredit hfresh _ ih => exact .init c n hcredit hfresh ih
  | submit t n hcredit _ ih => exact .submit (t.relocate φ) n hcredit ih
  | wait cs hcredit _ ih => exact .wait cs hcredit ih
  | call f _ ih => exact .call _ ih

/-- A parked node accounts for the transfers of a program that it starts. -/
theorem Node.Parked.accounted [DecidableEq C] {prog : List (Instr Q C Loc V D)}
    {n : Node Q C Loc V D} (h : n.Parked) (hsettles : Settles (fun _ => 0) ∅ prog ∅) :
    Accounted (n.log.length + submissions prog) (n.load prog) := by
  have hpending : (n.load prog).pending = [] := h.pending_eq
  have hdone : (n.load prog).done = [] := h.done_eq
  refine ⟨⟨fun _ => 0, ∅, hsettles, ?_, ?_, fun c => ?_⟩, ?_⟩
  · rw [hpending]
    exact nofun
  · rw [hdone]
    exact nofun
  · rw [Node.incomplete, hpending, hdone]
    rfl
  · rw [Node.transfers, hpending, hdone]
    rfl

/-! ## Steps of one node -/

section Nodes

variable {φ : Loc → Loc'} {U : Set Loc} {n n₁ : Node Q C Loc V D}
  {n' n₁' : Node Q C Loc' V D}

theorem Within.tail {i : Instr Q C Loc V D} {rest : List (Instr Q C Loc V D)}
    (h : Within U (i :: rest)) : Within U rest :=
  ⟨fun t ht => h.submit t (List.mem_cons_of_mem _ ht),
    fun f hf => h.call f (List.mem_cons_of_mem _ hf)⟩

/-- A parked node starts a program at its new place. -/
theorem Node.Parked.load {prog : List (Instr Q C Loc V D)} {mem : Loc → V} {dev : D}
    (h : n'.Parked) (hprog : Within U prog) (hmem : ∀ l ∈ U, n'.mem (φ l) = mem l) :
    Mirrors φ U (Node.start prog mem dev) (n'.load (prog.map (.relocate φ))) where
  prog_eq := rfl
  pending_eq := h.pending_eq
  done_eq := h.done_eq
  count_eq := rfl
  mem_eq := hmem
  prog_within := hprog
  pending_within _ ht := nomatch ht

/-- A transfer that is gone leaves the others in their places. -/
theorem Mirrors.drop (h : Mirrors φ U n n') (hprog : n₁.prog = n.prog)
    (hprog' : n₁'.prog = n'.prog) (hsub : ∀ t ∈ n₁.pending, t ∈ n.pending)
    (hpending : n₁'.pending = n₁.pending.map (Task.relocate φ))
    (hdone : n₁'.done = n₁.done) (hcount : n₁'.count = n₁.count)
    (hmem : ∀ l ∈ U, n₁'.mem (φ l) = n₁.mem l) : Mirrors φ U n₁ n₁' where
  prog_eq := by rw [hprog', hprog, h.prog_eq]
  pending_eq := hpending
  done_eq := hdone
  count_eq := hcount
  mem_eq := hmem
  prog_within := hprog ▸ h.prog_within
  pending_within t ht := h.pending_within t (hsub t ht)

theorem Mirrors.exec [DecidableEq C] (h : Mirrors φ U n n') :
    Option.Rel (Mirrors φ U) n.exec n'.exec := by
  have hwithin := h.prog_within
  have hprog' := h.prog_eq
  cases hprog : n.prog with
  | nil =>
      rw [hprog] at hprog'
      simp only [Node.exec, hprog, hprog', List.map_nil]
      exact .none
  | cons i rest =>
      rw [hprog] at hprog' hwithin
      cases i with
      | init c k =>
          simp only [Node.exec, hprog, hprog', List.map_cons, Instr.relocate]
          exact .some ⟨rfl, h.pending_eq, h.done_eq, by rw [h.count_eq], h.mem_eq,
            hwithin.tail, h.pending_within⟩
      | submit t =>
          simp only [Node.exec, hprog, hprog', List.map_cons, Instr.relocate]
          refine .some ⟨rfl, ?_, h.done_eq, h.count_eq, h.mem_eq, hwithin.tail, ?_⟩
          · rw [h.pending_eq, List.map_append]
            rfl
          · intro u hu
            rcases List.mem_append.mp hu with hu | hu
            · exact h.pending_within u hu
            · rw [List.mem_singleton.mp hu]
              exact hwithin.submit t List.mem_cons_self
      | wait cs =>
          simp only [Node.exec, hprog, hprog', List.map_cons, Instr.relocate, h.count_eq]
          split
          · exact .some ⟨rfl, h.pending_eq, h.done_eq, rfl, h.mem_eq, hwithin.tail,
              h.pending_within⟩
          · exact .none
      | call f => exact absurd List.mem_cons_self (hwithin.call f)

theorem Mirrors.reject [DecidableEq C] (h : Mirrors φ U n n') :
    Option.Rel (Mirrors φ U) n.reject n'.reject := by
  have hwithin := h.prog_within
  have hprog' := h.prog_eq
  cases hprog : n.prog with
  | nil =>
      rw [hprog] at hprog'
      simp only [Node.reject, hprog, hprog', List.map_nil]
      exact .none
  | cons i rest =>
      rw [hprog] at hprog' hwithin
      cases i with
      | submit t =>
          simp only [Node.reject, hprog, hprog', List.map_cons, Instr.relocate]
          exact .some ⟨rfl, h.pending_eq, h.done_eq, by rw [h.count_eq]; rfl, h.mem_eq,
            hwithin.tail, h.pending_within⟩
      | _ =>
          simp only [Node.reject, hprog, hprog', List.map_cons, Instr.relocate]
          exact .none

theorem Mirrors.complete [DecidableEq C] (h : Mirrors φ U n n') (i : ℕ) :
    Option.Rel (Mirrors φ U) (n.complete i) (n'.complete i) := by
  rw [Node.complete, Node.complete, h.done_eq]
  cases pick n.done i with
  | none => exact .none
  | some found =>
      refine .some (h.drop rfl rfl (fun t ht => ht) h.pending_eq rfl ?_ h.mem_eq)
      simp only [h.count_eq]

theorem Mirrors.fail [DecidableEq C] (h : Mirrors φ U n n') (i : ℕ) :
    Option.Rel (Mirrors φ U) (n.fail i) (n'.fail i) := by
  rw [Node.fail, Node.fail, h.pending_eq, pick_map]
  cases hpick : pick n.pending i with
  | none => exact .none
  | some found =>
      obtain ⟨t, rest⟩ := found
      obtain ⟨pre, post, hpending, rfl⟩ := pick_eq hpick
      refine .some (h.drop rfl rfl (fun u hu => ?_) rfl h.done_eq ?_ h.mem_eq)
      · rw [hpending]
        exact mem_of_mem_rest hu
      · simp only [h.count_eq]
        rfl

theorem Mirrors.sendOut [DecidableEq Q] (h : Mirrors φ U n n') (q : Q) :
    Option.Rel (fun r r' => r.1 = r'.1 ∧ Mirrors φ U r.2 r'.2) (n.sendOut q)
      (n'.sendOut q) := by
  rw [Node.sendOut, Node.sendOut, h.pending_eq,
    takeFirst_map (Task.relocate_sendOn φ q)]
  cases htake : takeFirst (Task.sendOn q) n.pending with
  | none => exact .none
  | some found =>
      obtain ⟨t, src, rest⟩ := found
      obtain ⟨hsend, pre, post, hpending, rfl, -⟩ := takeFirst_eq htake
      have ht : t ∈ n.pending := by
        rw [hpending]
        exact List.mem_append_right _ List.mem_cons_self
      refine .some ⟨?_, h.drop rfl rfl (fun u hu => ?_) rfl ?_ h.count_eq h.mem_eq⟩
      · rw [List.map_map]
        refine List.map_congr_left fun l hl => (h.mem_eq l ?_).symm
        refine (h.pending_within t ht).src l ?_
        rw [(Task.src_of_sendOn hsend).1]
        exact hl
      · rw [hpending]
        exact mem_of_mem_rest hu
      · simp only [h.done_eq]
        rfl

variable [DecidableEq Loc] [DecidableEq Loc']

theorem Mirrors.recvIn [DecidableEq Q] (h : Mirrors φ U n n')
    (hφ : Set.InjOn φ U) (q : Q) (payload : List V) :
    Option.Rel (Mirrors φ U) (n.recvIn q payload) (n'.recvIn q payload) := by
  rw [Node.recvIn, Node.recvIn, h.pending_eq,
    takeFirst_map (Task.relocate_recvOn φ q)]
  cases htake : takeFirst (Task.recvOn q) n.pending with
  | none => exact .none
  | some found =>
      obtain ⟨t, dst, rest⟩ := found
      obtain ⟨hrecv, pre, post, hpending, rfl, -⟩ := takeFirst_eq htake
      have ht : t ∈ n.pending := by
        rw [hpending]
        exact List.mem_append_right _ List.mem_cons_self
      refine .some (h.drop rfl rfl (fun u hu => ?_) rfl ?_ h.count_eq fun l hl => ?_)
      · rw [hpending]
        exact mem_of_mem_rest hu
      · simp only [h.done_eq]
        rfl
      · have hzip : (dst.map φ).zip payload =
            (dst.zip payload).map fun w => (φ w.1, w.2) :=
          List.zip_map_left
        simp only [hzip]
        refine writeAll_relocate hφ (fun w hw => ?_) h.mem_eq hl
        refine (h.pending_within t ht).dst w.1 ?_
        rw [(Task.dst_of_recvOn hrecv).1]
        exact (List.of_mem_zip hw).1

theorem Mirrors.copy (h : Mirrors φ U n n') (hφ : Set.InjOn φ U) (i : ℕ) :
    Option.Rel (Mirrors φ U) (n.copy i) (n'.copy i) := by
  rw [Node.copy, Node.copy, h.pending_eq, pick_map]
  cases hpick : pick n.pending i with
  | none => exact .none
  | some found =>
      obtain ⟨⟨op, ctx, counter⟩, rest⟩ := found
      obtain ⟨pre, post, hpending, rfl⟩ := pick_eq hpick
      have ht : (⟨op, ctx, counter⟩ : Task Q C Loc) ∈ n.pending := by
        rw [hpending]
        exact List.mem_append_right _ List.mem_cons_self
      have hwithin := h.pending_within _ ht
      cases op with
      | send src => exact .none
      | recv dst => exact .none
      | copy pairs =>
          refine .some (h.drop rfl rfl (fun u hu => ?_) rfl ?_ h.count_eq
            fun l hl => ?_)
          · rw [hpending]
            exact mem_of_mem_rest hu
          · simp only [h.done_eq]
            rfl
          · have hws : (pairs.map fun p => (φ p.1, φ p.2)).map
                (fun p => (p.2, n'.mem p.1)) =
                (pairs.map fun p => (p.2, n.mem p.1)).map fun w => (φ w.1, w.2) := by
              rw [List.map_map, List.map_map]
              refine List.map_congr_left fun p hp => ?_
              have hsrc := hwithin.src p.1 (List.mem_map_of_mem hp)
              simp only [Function.comp_apply, h.mem_eq _ hsrc]
            simp only [hws]
            refine writeAll_relocate hφ (fun w hw => ?_) h.mem_eq hl
            obtain ⟨p, hp, rfl⟩ := List.mem_map.mp hw
            exact hwithin.dst p.2 (List.mem_map_of_mem hp)

end Nodes

theorem call_notMem_relocate {φ : Loc → Loc'} {prog : List (Instr Q C Loc V D)}
    (hcalls : ∀ f, .call f ∉ prog) (f : D → (Loc' → V) → Option (D × (Loc' → V))) :
    .call f ∉ prog.map (Instr.relocate φ) := by
  intro hf
  obtain ⟨i, hi, heq⟩ := List.mem_map.mp hf
  cases i with
  | call g => exact hcalls g hi
  | _ => cases heq

/-- A location at which the program writes nothing. -/
theorem Avoids.relocate {φ : Loc → Loc'} {prog : List (Instr Q C Loc V D)} {l : Loc'}
    (hcalls : ∀ f, .call f ∉ prog) (h : ∀ x, φ x = l → Avoids x prog) :
    Avoids l (prog.map (.relocate φ)) := by
  constructor
  · intro t ht hmem
    obtain ⟨i, hi, heq⟩ := List.mem_map.mp ht
    cases i with
    | submit t₀ =>
        obtain rfl := Instr.submit.inj heq
        rw [Task.relocate_dst] at hmem
        obtain ⟨x, hx, rfl⟩ := List.mem_map.mp hmem
        exact (h x rfl).1 t₀ hi hx
    | _ => cases heq
  · exact call_notMem_relocate hcalls

/-! ## Steps of the system -/

section Runs

variable {A : Type} [DecidableEq R] [DecidableEq Q] [DecidableEq C]
  [DecidableEq Loc] [DecidableEq Loc'] {sys : System R Loc V D Empty}
  {sys' : System R Loc' V D Empty} {φ : R → Loc → Loc'} {U : R → Set Loc}
  {held : R → Prop} {s s₁ : R → Node Q C Loc V D} {s' s₁' : R → Node Q C Loc' V D}

/-- The nodes that an action is about. -/
def Action.touches (next : R → R) : Action R Q A → R → Prop
  | .exec r, x | .reject r, x | .copy r _, x | .complete r _, x | .fail r _, x
  | .device r _, x => x = r
  | .deliver r _, x => x = r ∨ x = next r

/-- A step leaves the nodes that it is not about as they are. -/
theorem step_untouched {sys : System R Loc V D A} {a : Action R Q A}
    (hstep : step sys s a = some s₁) {r : R} (hr : ¬ a.touches sys.next r) :
    s₁ r = s r := by
  cases a with
  | deliver x q =>
      obtain ⟨⟨payload, n⟩, -, hrest⟩ := Option.bind_eq_some_iff.mp hstep
      obtain ⟨n', -, hs₁⟩ := Option.bind_eq_some_iff.mp hrest
      obtain rfl := Option.some.inj hs₁
      rw [set_of_ne fun heq => hr (.inr heq), set_of_ne fun heq => hr (.inl heq)]
  | _ =>
      obtain ⟨n, -, rfl⟩ := Option.map_eq_some_iff.mp hstep
      exact set_of_ne hr

/-- A program that has returned stays so. -/
theorem step_returned {sys : System R Loc V D A} {a : Action R Q A}
    (hstep : step sys s a = some s₁) {r : R} (hprog : (s r).prog = []) :
    (s₁ r).prog = [] := by
  have hlocal : ∀ {x : R} {n : Node Q C Loc V D} {s₂ : R → Node Q C Loc V D},
      ((s₂ x).prog = [] → n.prog = []) → (s₂ r).prog = [] →
        (set s₂ x n r).prog = [] := by
    intro x n s₂ hn hs₂
    by_cases hx : r = x
    · rw [hx, set_same]
      exact hn (hx ▸ hs₂)
    · rw [set_of_ne hx]
      exact hs₂
  cases a with
  | exec x =>
      obtain ⟨n, hn, rfl⟩ := Option.map_eq_some_iff.mp hstep
      refine hlocal (fun hx => ?_) hprog
      rw [Node.exec, hx] at hn
      cases hn
  | reject x =>
      obtain ⟨n, hn, rfl⟩ := Option.map_eq_some_iff.mp hstep
      refine hlocal (fun hx => ?_) hprog
      rw [Node.reject, hx] at hn
      cases hn
  | copy x i =>
      obtain ⟨n, hn, rfl⟩ := Option.map_eq_some_iff.mp hstep
      obtain ⟨⟨t, rest⟩, -, hn⟩ := Option.bind_eq_some_iff.mp hn
      refine hlocal (fun hx => ?_) hprog
      dsimp only at hn
      split at hn
      · cases hn
        exact hx
      · cases hn
  | deliver x q =>
      obtain ⟨⟨payload, n⟩, hsend, hrest⟩ := Option.bind_eq_some_iff.mp hstep
      obtain ⟨n', hrecv, hs₁⟩ := Option.bind_eq_some_iff.mp hrest
      obtain rfl := Option.some.inj hs₁
      obtain ⟨found, -, hn⟩ := Option.bind_eq_some_iff.mp hsend
      obtain ⟨found', -, hn'⟩ := Option.bind_eq_some_iff.mp hrecv
      cases hn
      cases hn'
      exact hlocal id (hlocal id hprog)
  | complete x i =>
      obtain ⟨n, hn, rfl⟩ := Option.map_eq_some_iff.mp hstep
      obtain ⟨found, -, hn⟩ := Option.bind_eq_some_iff.mp hn
      cases hn
      exact hlocal id hprog
  | fail x i =>
      obtain ⟨n, hn, rfl⟩ := Option.map_eq_some_iff.mp hstep
      obtain ⟨found, -, hn⟩ := Option.bind_eq_some_iff.mp hn
      cases hn
      exact hlocal id hprog
  | device x a =>
      obtain ⟨n, hn, rfl⟩ := Option.map_eq_some_iff.mp hstep
      obtain ⟨found, -, rfl⟩ := Option.map_eq_some_iff.mp hn
      exact hlocal id hprog

/-- The nodes that are held are parked and the others mirror those of `s`. -/
structure Shadows (φ : R → Loc → Loc') (U : R → Set Loc) (held : R → Prop)
    (s : R → Node Q C Loc V D) (s' : R → Node Q C Loc' V D) : Prop where
  parked : ∀ r, held r → (s' r).Parked
  mirrors : ∀ r, ¬ held r → Mirrors (φ r) (U r) (s r) (s' r)

omit [DecidableEq Q] [DecidableEq C] [DecidableEq Loc] [DecidableEq Loc'] in
theorem Shadows.set (h : Shadows φ U held s s') {r : R} {n : Node Q C Loc V D}
    {n' : Node Q C Loc' V D} (hr : ¬ held r) (hn : Mirrors (φ r) (U r) n n') :
    Shadows φ U held (Fabric.set s r n) (Fabric.set s' r n') where
  parked x hx := by
    have hxr : x ≠ r := by
      rintro rfl
      exact hr hx
    rw [set_of_ne hxr]
    exact h.parked x hx
  mirrors x hx := by
    by_cases hxr : x = r
    · rw [hxr, set_same, set_same]
      exact hn
    · rw [set_of_ne hxr, set_of_ne hxr]
      exact h.mirrors x hx

omit [DecidableEq Q] [DecidableEq C] [DecidableEq Loc] [DecidableEq Loc'] in
/-- A step of a node that is not held. -/
theorem Shadows.local (h : Shadows φ U held s s') {r : R} (hr : ¬ held r)
    {n : Option (Node Q C Loc V D)} {n' : Option (Node Q C Loc' V D)}
    (hn : Option.Rel (Mirrors (φ r) (U r)) n n') :
    Option.Rel (Shadows φ U held) (n.map (Fabric.set s r)) (n'.map (Fabric.set s' r)) := by
  cases hn with
  | none => exact .none
  | some hn => exact .some (h.set hr hn)

/-- An action on nodes that are not held is possible on both sides or on none. -/
theorem Shadows.rel (h : Shadows φ U held s s') (hnext : sys'.next = sys.next)
    (hφ : ∀ r, Set.InjOn (φ r) (U r)) {a : Action R Q Empty}
    (ha : ∀ r, a.touches sys.next r → ¬ held r) :
    Option.Rel (Shadows φ U held) (step sys s a) (step sys' s' a) := by
  cases a with
  | exec r => exact h.local (ha r rfl) (h.mirrors r (ha r rfl)).exec
  | reject r => exact h.local (ha r rfl) (h.mirrors r (ha r rfl)).reject
  | copy r i => exact h.local (ha r rfl) ((h.mirrors r (ha r rfl)).copy (hφ r) i)
  | complete r i => exact h.local (ha r rfl) ((h.mirrors r (ha r rfl)).complete i)
  | fail r i => exact h.local (ha r rfl) ((h.mirrors r (ha r rfl)).fail i)
  | device r a => exact a.elim
  | deliver r q =>
      have hr := ha r (.inl rfl)
      have hr' := ha (sys.next r) (.inr rfl)
      rw [step, step, deliver, deliver, hnext]
      refine rel_bind ((h.mirrors r hr).sendOut q) ?_
      rintro ⟨payload, n⟩ ⟨payload', n'⟩ ⟨rfl, hn⟩
      have hmid := h.set hr hn
      refine rel_bind ((hmid.mirrors _ hr').recvIn (hφ _) q payload) fun n n' hn => ?_
      exact .some (hmid.set hr' hn)

omit [DecidableEq Loc] in
/-- Nothing happens on nodes that are held. -/
theorem Shadows.not_held (h : Shadows φ U held s s') {a : Action R Q Empty}
    (hstep : step sys' s' a = some s₁') : ∀ r, a.touches sys'.next r → ¬ held r := by
  have hexec : ∀ r, held r → (s' r).exec = none := by
    intro r hr
    rw [Node.exec, (h.parked r hr).prog_eq]
  have hreject : ∀ r, held r → (s' r).reject = none := by
    intro r hr
    rw [Node.reject, (h.parked r hr).prog_eq]
  have hpick : ∀ r i, held r → pick (s' r).pending i = none := by
    intro r i hr
    rw [(h.parked r hr).pending_eq]
    rfl
  cases a with
  | exec r =>
      intro x hx hr
      rw [show x = r from hx] at hr
      rw [step, hexec r hr] at hstep
      cases hstep
  | reject r =>
      intro x hx hr
      rw [show x = r from hx] at hr
      rw [step, hreject r hr] at hstep
      cases hstep
  | copy r i =>
      intro x hx hr
      rw [show x = r from hx] at hr
      rw [step, Node.copy, hpick r i hr] at hstep
      cases hstep
  | complete r i =>
      intro x hx hr
      rw [show x = r from hx] at hr
      rw [step, Node.complete, (h.parked r hr).done_eq] at hstep
      cases hstep
  | fail r i =>
      intro x hx hr
      rw [show x = r from hx] at hr
      rw [step, Node.fail, hpick r i hr] at hstep
      cases hstep
  | device r a => exact a.elim
  | deliver r q =>
      obtain ⟨⟨payload, n⟩, hsend, hrest⟩ := Option.bind_eq_some_iff.mp hstep
      obtain ⟨n₁, hrecv, -⟩ := Option.bind_eq_some_iff.mp hrest
      have hout : ¬ held r := by
        intro hr
        rw [Node.sendOut, (h.parked r hr).pending_eq] at hsend
        cases hsend
      rintro _ (rfl | rfl) hr
      · exact hout hr
      · have hne : sys'.next r ≠ r := by
          intro heq
          exact hout (heq ▸ hr)
        rw [set_of_ne hne, Node.recvIn, (h.parked _ hr).pending_eq] at hrecv
        cases hrecv

/-- Every step is one of the nodes that are mirrored. -/
theorem Shadows.step (h : Shadows φ U held s s') (hnext : sys'.next = sys.next)
    (hφ : ∀ r, Set.InjOn (φ r) (U r)) {a : Action R Q Empty}
    (hstep : Fabric.step sys' s' a = some s₁') :
    ∃ s₁, Fabric.step sys s a = some s₁ ∧ Shadows φ U held s₁ s₁' := by
  have hrel := h.rel hnext hφ (hnext ▸ h.not_held hstep)
  rw [hstep] at hrel
  generalize Fabric.step sys s a = o at hrel ⊢
  cases hrel with
  | some hs₁ => exact ⟨_, rfl, hs₁⟩

/-- When no node is held, the nodes are stuck together. -/
theorem Shadows.stuck (h : Shadows φ U held s s') (hnext : sys'.next = sys.next)
    (hφ : ∀ r, Set.InjOn (φ r) (U r)) (hheld : ∀ r, ¬ held r) (hstuck : Stuck sys' s') :
    Stuck sys s := by
  intro a ha
  have hrel := h.rel hnext hφ (a := a) fun r _ => hheld r
  rw [hstuck a ha] at hrel
  generalize Fabric.step sys s a = o at hrel ⊢
  cases hrel
  rfl

end Runs

end

end SmartNic.Fabric
