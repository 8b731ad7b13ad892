import Mathlib.Algebra.BigOperators.Group.Finset.Basic
import Mathlib.Algebra.Order.BigOperators.Group.Finset
import Mathlib.Data.Fintype.EquivFin
import SmartNic.Library.Fabric.Deadlock

/-!
# Progress

Every step uses up part of a budget that the programs bring with them, so that
all runs are bounded, with failures or not.  Together with the freedom from
deadlock this says that a ring of nodes completes: a run without failures can
always go on until every program has returned, and it cannot go on for ever.
-/

namespace SmartNic.Fabric

section

variable {R Q C Loc V D A : Type}

/-! ## Local devices -/

/-- A device that keeps an invariant between the rest of its node's program and
its own state: it has `work` left to do, of which a call adds at most `cost`,
and it can work while a call is blocked. -/
structure Serves (sys : System R Loc V D A)
    (I : List (Instr Q C Loc V D) → D → Prop) (work : D → ℕ) (cost : ℕ) :
    Prop where
  skip : ∀ i rest d, (∀ f, i ≠ .call f) → I (i :: rest) d → I rest d
  call : ∀ f rest d m d' m', I (.call f :: rest) d → f d m = some (d', m') →
    I rest d' ∧ work d' ≤ work d + cost
  blocked : ∀ f rest d m, I (.call f :: rest) d → f d m = none →
    ∃ a, sys.deviceStep a d m ≠ none
  device : ∀ prog d a m d' m', I prog d →
    sys.deviceStep a d m = some (d', m') → I prog d' ∧ work d' < work d

/-- A program without calls needs no device. -/
theorem Serves.none (sys : System R Loc V D Empty) :
    Serves (Q := Q) (C := C) sys (fun prog _ => ∀ f, .call f ∉ prog)
      (fun _ => 0) 0 where
  skip _ _ _ _ h f hf := h f (List.mem_cons_of_mem _ hf)
  call f _ _ _ _ _ h _ := absurd List.mem_cons_self (h f)
  blocked f _ _ _ h _ := absurd List.mem_cons_self (h f)
  device _ _ a := nomatch a

/-! ## Budgets -/

/-- The steps that an instruction pays for: its own and, for a transfer, that it
takes effect and that its completion is noticed. -/
def Instr.price (cost : ℕ) : Instr Q C Loc V D → ℕ
  | .init _ _ => 1
  | .submit _ => 3
  | .wait _ => 1
  | .call _ => cost + 1

def price (cost : ℕ) : List (Instr Q C Loc V D) → ℕ
  | [] => 0
  | i :: prog => i.price cost + price cost prog

/-- What is left of the budget of a node. -/
def Node.budget (work : D → ℕ) (cost : ℕ) (n : Node Q C Loc V D) : ℕ :=
  price cost n.prog + 2 * n.pending.length + n.done.length + work n.dev

theorem price_append (cost : ℕ) (prog prog' : List (Instr Q C Loc V D)) :
    price cost (prog ++ prog') = price cost prog + price cost prog' := by
  induction prog with
  | nil => exact (Nat.zero_add _).symm
  | cons i prog ih => rw [List.cons_append, price, price, ih, Nat.add_assoc]

theorem price_cons (cost : ℕ) (i : Instr Q C Loc V D)
    (prog : List (Instr Q C Loc V D)) :
    price cost (i :: prog) = i.price cost + price cost prog := rfl

theorem price_batch (cost : ℕ) (c : C) (ts : List (Task Q C Loc)) :
    price cost (batch c ts : List (Instr Q C Loc V D)) = 3 * ts.length + 1 := by
  induction ts with
  | nil => rfl
  | cons t ts ih =>
      simp only [batch, price_cons, List.map_cons, List.length_cons, Instr.price]
        at ih ⊢
      omega

theorem price_flatMap (cost : ℕ) {body : ℕ → List (Instr Q C Loc V D)} {k n : ℕ}
    (h : ∀ i < n, price cost (body i) = k) :
    price cost ((List.range n).flatMap body) = n * k := by
  induction n with
  | zero => exact (Nat.zero_mul k).symm
  | succ n ih =>
      rw [List.range_succ, List.flatMap_append, List.flatMap_singleton,
        price_append, ih fun i hi => h i (Nat.lt_succ_of_lt hi),
        h n (Nat.lt_succ_self n), Nat.succ_mul]

section Nodes

variable {sys : System R Loc V D A} {I : List (Instr Q C Loc V D) → D → Prop}
  {work : D → ℕ} {cost : ℕ} {n n' : Node Q C Loc V D}

/-- A step that keeps the device in its place and leaves less of the budget. -/
def Spends (I : List (Instr Q C Loc V D) → D → Prop) (work : D → ℕ) (cost : ℕ)
    (n n' : Node Q C Loc V D) : Prop :=
  I n.prog n.dev → I n'.prog n'.dev ∧ n'.budget work cost < n.budget work cost

theorem Serves.exec [DecidableEq C] (h : Serves sys I work cost)
    (hstep : n.exec = some n') : Spends I work cost n n' := by
  intro hI
  unfold Node.exec at hstep
  split at hstep
  · cases hstep
  next c k rest hprog =>
    obtain rfl := Option.some.inj hstep
    rw [hprog] at hI
    refine ⟨h.skip (.init c k) _ _ nofun hI, ?_⟩
    simp only [Node.budget, hprog, price_cons, Instr.price]
    omega
  next t rest hprog =>
    obtain rfl := Option.some.inj hstep
    rw [hprog] at hI
    refine ⟨h.skip (.submit t) _ _ nofun hI, ?_⟩
    simp only [Node.budget, hprog, price_cons, Instr.price, List.length_append,
      List.length_singleton]
    omega
  next cs rest hprog =>
    split at hstep
    · obtain rfl := Option.some.inj hstep
      rw [hprog] at hI
      refine ⟨h.skip (.wait cs) _ _ nofun hI, ?_⟩
      simp only [Node.budget, hprog, price_cons, Instr.price]
      omega
    · cases hstep
  next f rest hprog =>
    obtain ⟨⟨d', m'⟩, hf, rfl⟩ := Option.map_eq_some_iff.mp hstep
    rw [hprog] at hI
    obtain ⟨hI', hwork⟩ := h.call _ _ _ _ _ _ hI hf
    refine ⟨hI', ?_⟩
    simp only [Node.budget, hprog, price_cons, Instr.price]
    omega

theorem Serves.reject [DecidableEq C] (h : Serves sys I work cost)
    (hstep : n.reject = some n') : Spends I work cost n n' := by
  intro hI
  unfold Node.reject at hstep
  split at hstep
  next t rest hprog =>
    obtain rfl := Option.some.inj hstep
    rw [hprog] at hI
    refine ⟨h.skip (.submit t) _ _ nofun hI, ?_⟩
    simp only [Node.budget, hprog, price_cons, Instr.price]
    omega
  · cases hstep

theorem Serves.device_step (h : Serves sys I work cost) {a : A}
    (hstep : n.device sys a = some n') : Spends I work cost n n' := by
  intro hI
  obtain ⟨⟨d', m'⟩, hdev, rfl⟩ := Option.map_eq_some_iff.mp hstep
  obtain ⟨hI', hlt⟩ := h.device _ _ _ _ _ _ hI hdev
  exact ⟨hI', Nat.add_lt_add_left hlt _⟩

/-- A step that changes what is pending or done, and not more. -/
theorem Spends.of_lists (hprog : n'.prog = n.prog) (hdev : n'.dev = n.dev)
    (hlt : 2 * n'.pending.length + n'.done.length <
      2 * n.pending.length + n.done.length) : Spends I work cost n n' := by
  intro hI
  rw [hprog, hdev]
  refine ⟨hI, ?_⟩
  simp only [Node.budget, hprog, hdev]
  omega

theorem spends_copy [DecidableEq Loc] {i : ℕ} (hstep : n.copy i = some n') :
    Spends I work cost n n' := by
  obtain ⟨⟨t, pending⟩, hpick, hrest⟩ := Option.bind_eq_some_iff.mp hstep
  obtain ⟨pre, post, hpending, rfl⟩ := pick_eq hpick
  dsimp only at hrest
  split at hrest
  · obtain rfl := Option.some.inj hrest
    refine .of_lists rfl rfl ?_
    simp only [hpending, List.length_append, List.length_cons]
    omega
  · cases hrest

theorem spends_complete [DecidableEq C] {i : ℕ} (hstep : n.complete i = some n') :
    Spends I work cost n n' := by
  obtain ⟨⟨c, done⟩, hpick, hrest⟩ := Option.bind_eq_some_iff.mp hstep
  obtain ⟨pre, post, hdone, rfl⟩ := pick_eq hpick
  obtain rfl := Option.some.inj hrest
  refine .of_lists rfl rfl ?_
  simp only [hdone, List.length_append, List.length_cons]
  omega

theorem spends_fail [DecidableEq C] {i : ℕ} (hstep : n.fail i = some n') :
    Spends I work cost n n' := by
  obtain ⟨⟨t, pending⟩, hpick, hrest⟩ := Option.bind_eq_some_iff.mp hstep
  obtain ⟨pre, post, hpending, rfl⟩ := pick_eq hpick
  obtain rfl := Option.some.inj hrest
  refine .of_lists rfl rfl ?_
  simp only [hpending, List.length_append, List.length_cons]
  omega

variable [DecidableEq Q]

theorem spends_sendOut {q : Q} {payload : List V}
    (hstep : n.sendOut q = some (payload, n')) : Spends I work cost n n' := by
  obtain ⟨⟨t, src, pending⟩, htake, hrest⟩ := Option.bind_eq_some_iff.mp hstep
  obtain ⟨-, rfl⟩ := Prod.mk.inj (Option.some.inj hrest)
  obtain ⟨-, pre, post, hpending, rfl, -⟩ := takeFirst_eq htake
  refine .of_lists rfl rfl ?_
  simp only [hpending, List.length_append, List.length_cons]
  omega

theorem spends_recvIn [DecidableEq Loc] {q : Q} {payload : List V}
    (hstep : n.recvIn q payload = some n') : Spends I work cost n n' := by
  obtain ⟨⟨t, dst, pending⟩, htake, hrest⟩ := Option.bind_eq_some_iff.mp hstep
  obtain rfl := Option.some.inj hrest
  obtain ⟨-, pre, post, hpending, rfl, -⟩ := takeFirst_eq htake
  refine .of_lists rfl rfl ?_
  simp only [hpending, List.length_append, List.length_cons]
  omega

end Nodes

/-! ## Runs are bounded -/

section Runs

variable [Fintype R] [DecidableEq R] [DecidableEq Q] [DecidableEq C]
  [DecidableEq Loc] {sys : System R Loc V D A}
  {I : List (Instr Q C Loc V D) → D → Prop} {work : D → ℕ} {cost : ℕ}
  {s s' : R → Node Q C Loc V D}

/-- The devices of all nodes are in their place. -/
def Placed (I : List (Instr Q C Loc V D) → D → Prop)
    (s : R → Node Q C Loc V D) : Prop :=
  ∀ r, I (s r).prog (s r).dev

def totalBudget (work : D → ℕ) (cost : ℕ) (s : R → Node Q C Loc V D) : ℕ :=
  ∑ r, (s r).budget work cost

omit [DecidableEq Q] [DecidableEq C] [DecidableEq Loc] in
theorem Spends.set {r : R} {n : Node Q C Loc V D}
    (h : Spends I work cost (s r) n) (hI : Placed I s) :
    Placed I (set s r n) ∧
      totalBudget work cost (Fabric.set s r n) < totalBudget work cost s := by
  obtain ⟨hn, hlt⟩ := h (hI r)
  constructor
  · intro r'
    by_cases hr : r' = r
    · subst hr
      rw [set_same]
      exact hn
    · rw [set_of_ne hr]
      exact hI r'
  · refine Finset.sum_lt_sum (fun r' _ => ?_) ⟨r, Finset.mem_univ r, ?_⟩
    · by_cases hr : r' = r
      · subst hr
        rw [set_same]
        exact hlt.le
      · rw [set_of_ne hr]
    · rw [set_same]
      exact hlt

/-- Every action spends some of the budget. -/
theorem Serves.step (h : Serves sys I work cost) (hI : Placed I s)
    {a : Action R Q A} (hstep : step sys s a = some s') :
    Placed I s' ∧ totalBudget work cost s' < totalBudget work cost s := by
  cases a with
  | exec r =>
      obtain ⟨n', hn', rfl⟩ := Option.map_eq_some_iff.mp hstep
      exact (h.exec hn').set hI
  | reject r =>
      obtain ⟨n', hn', rfl⟩ := Option.map_eq_some_iff.mp hstep
      exact (h.reject hn').set hI
  | copy r i =>
      obtain ⟨n', hn', rfl⟩ := Option.map_eq_some_iff.mp hstep
      exact (spends_copy hn').set hI
  | deliver r q =>
      obtain ⟨⟨payload, n⟩, hsend, hrest⟩ := Option.bind_eq_some_iff.mp hstep
      obtain ⟨n', hrecv, hs'⟩ := Option.bind_eq_some_iff.mp hrest
      obtain rfl := Option.some.inj hs'
      have hout : Spends I work cost (s r) n := spends_sendOut hsend
      obtain ⟨hmid, hlt⟩ := hout.set hI
      have hin : Spends I work cost (Fabric.set s r n (sys.next r)) n' :=
        spends_recvIn hrecv
      obtain ⟨hend, hlt'⟩ := hin.set hmid
      exact ⟨hend, hlt'.trans hlt⟩
  | complete r i =>
      obtain ⟨n', hn', rfl⟩ := Option.map_eq_some_iff.mp hstep
      exact (spends_complete hn').set hI
  | fail r i =>
      obtain ⟨n', hn', rfl⟩ := Option.map_eq_some_iff.mp hstep
      exact (spends_fail hn').set hI
  | device r a =>
      obtain ⟨n', hn', rfl⟩ := Option.map_eq_some_iff.mp hstep
      exact (h.device_step hn').set hI

theorem Serves.run (h : Serves sys I work cost) (hI : Placed I s)
    {acts : List (Action R Q A)} (hrun : run sys s acts = some s') :
    Placed I s' ∧
      acts.length + totalBudget work cost s' ≤ totalBudget work cost s := by
  induction acts generalizing s with
  | nil =>
      obtain rfl := Option.some.inj hrun
      exact ⟨hI, (Nat.zero_add _).le⟩
  | cons a acts ih =>
      obtain ⟨s₁, hstep, hrest⟩ := Option.bind_eq_some_iff.mp hrun
      obtain ⟨hI₁, hlt⟩ := h.step hI hstep
      obtain ⟨hI', hle⟩ := ih hI₁ hrest
      refine ⟨hI', ?_⟩
      rw [List.length_cons]
      omega

/-! ## Completion -/

/-- From `s` on, no run has more than `bound` actions, and every run without
failures can be continued until all nodes have returned: it only gets stuck
then. -/
structure Completes (sys : System R Loc V D A) (s : R → Node Q C Loc V D)
    (bound : ℕ) : Prop where
  bounded : ∀ acts s', run sys s acts = some s' → acts.length ≤ bound
  returned : ∀ acts s', (∀ a ∈ acts, a.failsAt = none) →
    run sys s acts = some s' → Stuck sys s' → ∀ r, (s' r).prog = []
  continues : ∀ acts s', (∀ a ∈ acts, a.failsAt = none) →
    run sys s acts = some s' → ∃ acts' s'', (∀ a ∈ acts', a.failsAt = none) ∧
      run sys s' acts' = some s'' ∧ ∀ r, (s'' r).prog = []

omit [Fintype R] in
/-- Bounded runs that only get stuck in the end can be continued to it. -/
theorem Completes.intro {bound : ℕ}
    (bounded : ∀ acts s', run sys s acts = some s' → acts.length ≤ bound)
    (returned : ∀ acts s', (∀ a ∈ acts, a.failsAt = none) →
      run sys s acts = some s' → Stuck sys s' → ∀ r, (s' r).prog = []) :
    Completes sys s bound := by
  refine ⟨bounded, returned, fun acts s' hacts hrun => ?_⟩
  induction hk : bound - acts.length using Nat.strong_induction_on
    generalizing acts s' with
  | h k ih =>
      by_cases hstuck : Stuck sys s'
      · exact ⟨[], s', nofun, rfl, returned acts s' hacts hrun hstuck⟩
      · simp only [Stuck, not_forall] at hstuck
        obtain ⟨a, ha, hsome⟩ := hstuck
        obtain ⟨s₁, hstep⟩ := Option.ne_none_iff_exists'.mp hsome
        have hrun₁ : run sys s (acts ++ [a]) = some s₁ :=
          (run_append hrun).trans (Option.bind_eq_some_iff.mpr ⟨s₁, hstep, rfl⟩)
        have hacts₁ : ∀ b ∈ acts ++ [a], b.failsAt = none := by
          intro b hb
          rcases List.mem_append.mp hb with hb | hb
          · exact hacts b hb
          · rw [List.mem_singleton.mp hb]
            exact ha
        have hle := bounded _ _ hrun₁
        rw [List.length_append, List.length_singleton] at hle
        obtain ⟨acts', s'', hacts', hrun', hend⟩ := ih _ (by
          rw [List.length_append, List.length_singleton]
          omega) _ _ hacts₁ hrun₁ rfl
        refine ⟨a :: acts', s'', fun b hb => ?_,
          Option.bind_eq_some_iff.mpr ⟨s₁, hstep, hrun'⟩, hend⟩
        rcases List.mem_cons.mp hb with rfl | hb
        · exact ha
        · exact hacts' b hb

omit [Fintype R] in
theorem Completes.mono {bound bound' : ℕ} (h : Completes sys s bound)
    (hle : bound ≤ bound') : Completes sys s bound' :=
  ⟨fun acts s' hrun => (h.bounded acts s' hrun).trans hle, h.returned,
    h.continues⟩

/-- A ring of nodes completes if their programs settle, keep pace and use the
links in the same order, and their devices serve them. -/
theorem completes {progs : R → List (Instr Q C Loc V D)} {mem : R → Loc → V}
    {dev : R → D} (hnext : Function.Injective sys.next)
    (hpaces : ∀ r, Paces [] (progs r))
    (hsettles : ∀ r, Settles (fun _ => 0) ∅ (progs r) ∅)
    (hsame : ∀ r r', links (tasks (progs r)) = links (tasks (progs r')))
    (hserves : Serves sys I work cost) (hI : ∀ r, I (progs r) (dev r)) :
    Completes sys (fun r => Node.start (progs r) (mem r) (dev r))
      (∑ r, (price cost (progs r) + work (dev r))) := by
  have hprev : Function.Surjective sys.next :=
    Finite.injective_iff_surjective.mp hnext
  have hplaced : Placed I fun r => Node.start (progs r) (mem r) (dev r) := hI
  refine .intro (fun acts s' hrun => ?_) fun acts s' hacts hrun hstuck => ?_
  · have hle := (hserves.run hplaced hrun).2
    exact (Nat.le_add_right _ _).trans hle
  · refine hstuck.returned hprev
      ((Paired.start hpaces mem dev).run hnext hacts hrun) hsame
      (accounted_run (fun r => .start (hsettles r) (mem r) (dev r)) hrun) ?_
    intro r f rest hprog hnone
    have hI' := (hserves.run hplaced hrun).1 r
    rw [hprog] at hI'
    exact hserves.blocked _ _ _ _ hI' hnone

end Runs

end

end SmartNic.Fabric
