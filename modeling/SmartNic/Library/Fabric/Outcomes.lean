import SmartNic.Library.Fabric.Counters
import SmartNic.Library.Fabric.Knowledge

/-!
# Outcomes

What the log of a node says when its program has ended, in every run: each
submitted transfer has reported, and an error stands in the log if and only if
an action made a transfer of the node fail.
-/

namespace SmartNic.Fabric

section

variable {R Q C Loc V D A : Type}

/-! ## What the steps of a node log -/

section Logs

variable {n n' : Node Q C Loc V D}

theorem exec_log [DecidableEq C] (h : n.exec = some n') : n'.log = n.log := by
  unfold Node.exec at h
  split at h
  · cases h
  · obtain rfl := Option.some.inj h
    rfl
  · obtain rfl := Option.some.inj h
    rfl
  · split at h
    · obtain rfl := Option.some.inj h
      rfl
    · cases h
  · obtain ⟨_, -, rfl⟩ := Option.map_eq_some_iff.mp h
    rfl

theorem error_mem_reject [DecidableEq C] (h : n.reject = some n') :
    .error ∈ n'.log := by
  unfold Node.reject at h
  split at h
  · obtain rfl := Option.some.inj h
    exact List.mem_append_right _ (List.mem_singleton_self _)
  · cases h

theorem copy_log [DecidableEq Loc] {i : ℕ} (h : n.copy i = some n') :
    n'.log = n.log := by
  obtain ⟨⟨t, pending⟩, -, hrest⟩ := Option.bind_eq_some_iff.mp h
  dsimp only at hrest
  split at hrest
  · obtain rfl := Option.some.inj hrest
    rfl
  · cases hrest

theorem error_mem_complete [DecidableEq C] {i : ℕ}
    (h : n.complete i = some n') : .error ∈ n'.log ↔ .error ∈ n.log := by
  obtain ⟨⟨c, done⟩, -, hrest⟩ := Option.bind_eq_some_iff.mp h
  obtain rfl := Option.some.inj hrest
  rw [List.mem_append, List.mem_singleton, or_iff_left nofun]

theorem error_mem_fail [DecidableEq C] {i : ℕ}
    (h : n.fail i = some n') : .error ∈ n'.log := by
  obtain ⟨⟨t, pending⟩, -, hrest⟩ := Option.bind_eq_some_iff.mp h
  obtain rfl := Option.some.inj hrest
  exact List.mem_append_right _ (List.mem_singleton_self _)

theorem sendOut_log [DecidableEq Q] {q : Q} {payload : List V}
    (h : n.sendOut q = some (payload, n')) : n'.log = n.log := by
  obtain ⟨⟨t, src, pending⟩, -, hrest⟩ := Option.bind_eq_some_iff.mp h
  obtain ⟨-, rfl⟩ := Prod.mk.inj (Option.some.inj hrest)
  rfl

theorem recvIn_log [DecidableEq Q] [DecidableEq Loc] {q : Q}
    {payload : List V} (h : n.recvIn q payload = some n') : n'.log = n.log := by
  obtain ⟨⟨t, dst, pending⟩, -, hrest⟩ := Option.bind_eq_some_iff.mp h
  obtain rfl := Option.some.inj hrest
  rfl

variable [DecidableEq R] {s : R → Node Q C Loc V D} {r : R}

/-- A step of one node that logs no error leaves the errors of all nodes. -/
theorem error_mem_set_of_iff
    (h : .error ∈ n.log ↔ .error ∈ (s r).log) (r' : R) :
    .error ∈ (set s r n r').log ↔ .error ∈ (s r').log := by
  by_cases hr : r' = r
  · subst hr
    rw [set_same]
    exact h
  · rw [set_of_ne hr]

/-- A step that logs an error on a node leaves the errors of the others. -/
theorem error_mem_set_of_mem (h : .error ∈ n.log) (r' : R) :
    .error ∈ (set s r n r').log ↔ .error ∈ (s r').log ∨ some r = some r' := by
  by_cases hr : r' = r
  · subst hr
    rw [set_same]
    exact ⟨fun _ => .inr rfl, fun _ => h⟩
  · rw [set_of_ne hr, Option.some_inj, or_iff_left fun heq => hr heq.symm]

end Logs

/-! ## Programs that wait for all their transfers -/

/-- The number of transfers that a program submits. -/
def submissions : List (Instr Q C Loc V D) → ℕ
  | [] => 0
  | .submit _ :: rest => submissions rest + 1
  | _ :: rest => submissions rest

variable [DecidableEq C]

/-- A program that initialises, uses up and waits for its counters; at its end
only the transfers on the counters of `live'` may be incomplete. -/
inductive Settles : (C → ℕ) → Set C → List (Instr Q C Loc V D) → Set C →
    Prop where
  | nil {live live'} (hlive : live ⊆ live') : Settles (fun _ => 0) live [] live'
  | init {credit live rest live'} (c : C) (n : ℕ) (hcredit : credit c = 0)
      (hlive : c ∉ live) (hrest : Settles (set credit c n) live rest live') :
      Settles credit live (.init c n :: rest) live'
  | submit {credit live rest live'} (t : Task Q C Loc) (n : ℕ)
      (hcredit : credit t.counter = n + 1)
      (hrest : Settles (set credit t.counter n) (insert t.counter live) rest
        live') :
      Settles credit live (.submit t :: rest) live'
  | wait {credit live rest live'} (cs : List C) (hcredit : ∀ c ∈ cs, credit c = 0)
      (hrest : Settles credit {c | c ∈ live ∧ c ∉ cs} rest live') :
      Settles credit live (.wait cs :: rest) live'
  | call {credit live rest live'}
      (f : D → (Loc → V) → Option (D × (Loc → V)))
      (hrest : Settles credit live rest live') :
      Settles credit live (.call f :: rest) live'

section Rules

variable {credit : C → ℕ} {live live₁ live' : Set C}
  {prog prog' : List (Instr Q C Loc V D)}

theorem Settles.mono (h : Settles credit live prog live') (hlive : live₁ ⊆ live) :
    Settles credit live₁ prog live' := by
  induction h generalizing live₁ with
  | nil h => exact .nil (hlive.trans h)
  | init c n hcredit hfresh _ ih =>
      exact .init c n hcredit (fun hc => hfresh (hlive hc)) (ih hlive)
  | submit t n hcredit _ ih =>
      exact .submit t n hcredit (ih (Set.insert_subset_insert hlive))
  | wait cs hcredit _ ih =>
      exact .wait cs hcredit (ih fun c hc => ⟨hlive hc.1, hc.2⟩)
  | call f _ ih => exact .call f (ih hlive)

theorem Settles.weaken (h : Settles credit live prog live₁)
    (hlive : live₁ ⊆ live') : Settles credit live prog live' := by
  induction h with
  | nil h => exact .nil (h.trans hlive)
  | init c n hcredit hfresh _ ih => exact .init c n hcredit hfresh (ih hlive)
  | submit t n hcredit _ ih => exact .submit t n hcredit (ih hlive)
  | wait cs hcredit _ ih => exact .wait cs hcredit (ih hlive)
  | call f _ ih => exact .call f (ih hlive)

theorem Settles.append (h : Settles credit live prog live₁)
    (h' : Settles (fun _ => 0) live₁ prog' live') :
    Settles credit live (prog ++ prog') live' := by
  induction h with
  | nil hlive => exact h'.mono hlive
  | init c n hcredit hfresh _ ih => exact .init c n hcredit hfresh (ih h')
  | submit t n hcredit _ ih => exact .submit t n hcredit (ih h')
  | wait cs hcredit _ ih => exact .wait cs hcredit (ih h')
  | call f _ ih => exact .call f (ih h')

theorem Settles.range {body : ℕ → List (Instr Q C Loc V D)}
    {live : ℕ → Set C} (n : ℕ)
    (h : ∀ i < n, Settles (fun _ => 0) (live i) (body i) (live (i + 1))) :
    Settles (fun _ => 0) (live 0) ((List.range n).flatMap body) (live n) := by
  induction n with
  | zero => exact .nil subset_rfl
  | succ n ih =>
      rw [List.range_succ, List.flatMap_append, List.flatMap_singleton]
      exact (ih fun i hi => h i (Nat.lt_succ_of_lt hi)).append
        (h n (Nat.lt_succ_self n))

theorem set_set_zero (c : C) (k n : ℕ) :
    set (set (fun _ : C => 0) c k) c n = set (fun _ => 0) c n := by
  funext d
  by_cases hd : d = c
  · rw [hd, set_same, set_same]
  · rw [set_of_ne hd, set_of_ne hd, set_of_ne hd]

theorem set_zero_zero (c : C) : set (fun _ : C => 0) c 0 = fun _ => 0 := by
  funext d
  by_cases hd : d = c
  · rw [hd, set_same]
  · rw [set_of_ne hd]

/-- The submissions of a batch use up what its counter was initialised for. -/
theorem Settles.submits {c : C} {ts : List (Task Q C Loc)}
    (hts : ∀ t ∈ ts, t.counter = c) (hlive : insert c live ⊆ live') :
    Settles (D := D) (V := V) (set (fun _ => 0) c ts.length) live
      (ts.map .submit) live' := by
  induction ts generalizing live with
  | nil =>
      rw [List.length_nil, set_zero_zero]
      exact .nil ((Set.subset_insert c live).trans hlive)
  | cons t ts ih =>
      obtain rfl := hts t List.mem_cons_self
      refine .submit t ts.length (set_same _ _ _) ?_
      rw [List.length_cons, set_set_zero]
      refine ih (fun t' ht' => hts t' (List.mem_cons_of_mem _ ht')) ?_
      rw [Set.insert_eq_of_mem (Set.mem_insert _ _)]
      exact hlive

theorem Settles.batch {c : C} {ts : List (Task Q C Loc)}
    (hts : ∀ t ∈ ts, t.counter = c) (hfresh : c ∉ live) :
    Settles (D := D) (V := V) (fun _ => 0) live (Fabric.batch c ts)
      (insert c live) :=
  .init c ts.length rfl hfresh (.submits hts subset_rfl)

theorem Settles.awaits (cs : List C) (hlive : ∀ c ∈ live, c ∈ cs ∨ c ∈ live') :
    Settles (fun _ => 0) live ([.wait cs] : List (Instr Q C Loc V D)) live' :=
  .wait cs (fun _ _ => rfl) (.nil fun c hc => (hlive c hc.1).resolve_left hc.2)

/-- A batch that is waited for at once. -/
theorem Settles.batch_wait {c : C} {ts : List (Task Q C Loc)}
    (hts : ∀ t ∈ ts, t.counter = c) (hfresh : c ∉ live) :
    Settles (D := D) (V := V) (fun _ => 0) live
      (Fabric.batch c ts ++ [.wait [c]]) live := by
  refine (Settles.batch hts hfresh).append (.awaits [c] ?_)
  rintro d (rfl | hd)
  · exact .inl (List.mem_singleton_self d)
  · exact .inr hd

end Rules

/-! ## Steps of a node -/

/-- The transfers that have reported, may still report or are to be
submitted. -/
def Node.transfers (n : Node Q C Loc V D) : ℕ :=
  n.log.length + n.pending.length + n.done.length + submissions n.prog

/-- A node whose program ends settled, with `total` transfers altogether. -/
def Accounted (total : ℕ) (n : Node Q C Loc V D) : Prop :=
  (∃ credit live, Settles credit live n.prog ∅ ∧ Counted credit live n) ∧
    n.transfers = total

theorem Accounted.start {prog : List (Instr Q C Loc V D)}
    (h : Settles (fun _ => 0) ∅ prog ∅) (mem : Loc → V) (dev : D) :
    Accounted (submissions prog) (Node.start prog mem dev) where
  left := ⟨fun _ => 0, ∅, h, nofun, nofun, fun _ => rfl⟩
  right := Nat.zero_add _

section Steps

variable {total : ℕ} {n n' : Node Q C Loc V D}

theorem Accounted.exec (h : Accounted total n)
    (hstep : n.exec = some n') : Accounted total n' := by
  obtain ⟨⟨credit, live, hsettles, hc⟩, htotal⟩ := h
  unfold Node.transfers at htotal
  generalize hprog : n.prog = prog at hsettles
  cases hsettles with
  | nil _ => simp [Node.exec, hprog] at hstep
  | init c k hcredit hfresh hrest =>
      simp only [Node.exec, hprog, Option.some.injEq] at hstep
      subst hstep
      rw [hprog] at htotal
      exact ⟨⟨_, _, hrest, hc.init k hfresh _⟩, htotal⟩
  | submit t k hcredit hrest =>
      simp only [Node.exec, hprog, Option.some.injEq] at hstep
      subst hstep
      refine ⟨⟨_, _, hrest, hc.submit hcredit _⟩, ?_⟩
      rw [hprog, submissions] at htotal
      simp only [Node.transfers, List.length_append, List.length_singleton]
      omega
  | wait cs hcredit hrest =>
      simp only [Node.exec, hprog] at hstep
      split at hstep
      next hle =>
        obtain rfl := Option.some.inj hstep
        rw [hprog] at htotal
        exact ⟨⟨_, _, hrest, hc.wait hcredit hle _⟩, htotal⟩
      · cases hstep
  | call f hrest =>
      simp only [Node.exec, hprog, Option.map_eq_some_iff] at hstep
      obtain ⟨⟨d', m'⟩, -, rfl⟩ := hstep
      rw [hprog] at htotal
      exact ⟨⟨_, _, hrest, ⟨hc.pending_live, hc.done_live, hc.count_eq⟩⟩, htotal⟩

theorem Accounted.reject (h : Accounted total n) (hstep : n.reject = some n') :
    Accounted total n' := by
  obtain ⟨⟨credit, live, hsettles, hc⟩, htotal⟩ := h
  unfold Node.transfers at htotal
  generalize hprog : n.prog = prog at hsettles
  cases hsettles with
  | submit t k hcredit hrest =>
      simp only [Node.reject, hprog, Option.some.injEq] at hstep
      subst hstep
      refine ⟨⟨_, _, hrest, hc.reject hcredit _ _⟩, ?_⟩
      rw [hprog, submissions] at htotal
      simp only [Node.transfers, List.length_append, List.length_singleton]
      omega
  | _ => simp [Node.reject, hprog] at hstep

/-- A transfer takes effect. -/
theorem Accounted.move {pre post : List (Task Q C Loc)} {t : Task Q C Loc}
    (h : Accounted total n) (hpending : n.pending = pre ++ t :: post)
    (hpending' : n'.pending = pre ++ post)
    (hdone : n'.done = t.counter :: n.done) (hcount : n'.count = n.count)
    (hprog : n'.prog = n.prog) (hlog : n'.log = n.log) : Accounted total n' := by
  obtain ⟨⟨credit, live, hsettles, hc⟩, htotal⟩ := h
  refine ⟨⟨credit, live, hprog ▸ hsettles,
    hc.move hpending hpending' hdone hcount⟩, ?_⟩
  simp only [Node.transfers, hpending, hpending', hdone, hprog, hlog,
    List.length_append, List.length_cons] at htotal ⊢
  omega

theorem Accounted.complete {i : ℕ} (h : Accounted total n)
    (hstep : n.complete i = some n') : Accounted total n' := by
  obtain ⟨⟨credit, live, hsettles, hc⟩, htotal⟩ := h
  have hc' := hc.complete hstep
  simp only [Node.complete, Option.bind_eq_bind, Option.bind_eq_some_iff,
    Option.some.injEq] at hstep
  obtain ⟨⟨c, done⟩, hpick, rfl⟩ := hstep
  obtain ⟨pre, post, hdone, rfl⟩ := pick_eq hpick
  refine ⟨⟨credit, live, hsettles, hc'⟩, ?_⟩
  simp only [Node.transfers, hdone, List.length_append, List.length_cons,
    List.length_nil] at htotal ⊢
  omega

theorem Accounted.fail {i : ℕ} (h : Accounted total n)
    (hstep : n.fail i = some n') : Accounted total n' := by
  obtain ⟨⟨credit, live, hsettles, hc⟩, htotal⟩ := h
  have hc' := hc.fail hstep
  simp only [Node.fail, Option.bind_eq_bind, Option.bind_eq_some_iff,
    Option.some.injEq] at hstep
  obtain ⟨⟨t, pending⟩, hpick, rfl⟩ := hstep
  obtain ⟨pre, post, hpending, rfl⟩ := pick_eq hpick
  refine ⟨⟨credit, live, hsettles, hc'⟩, ?_⟩
  simp only [Node.transfers, hpending, List.length_append, List.length_cons,
    List.length_nil] at htotal ⊢
  omega

variable [DecidableEq Loc]

theorem Accounted.copy {i : ℕ} (h : Accounted total n)
    (hstep : n.copy i = some n') : Accounted total n' := by
  simp only [Node.copy, Option.bind_eq_bind, Option.bind_eq_some_iff] at hstep
  obtain ⟨⟨t, pending⟩, hpick, hstep⟩ := hstep
  obtain ⟨pre, post, hpending, rfl⟩ := pick_eq hpick
  dsimp only at hstep
  split at hstep
  · obtain rfl := Option.some.inj hstep
    exact h.move hpending rfl rfl rfl rfl rfl
  · cases hstep

variable [DecidableEq Q]

omit [DecidableEq Loc] in
theorem Accounted.sendOut {q : Q} {payload : List V} (h : Accounted total n)
    (hstep : n.sendOut q = some (payload, n')) : Accounted total n' := by
  simp only [Node.sendOut, Option.bind_eq_bind, Option.bind_eq_some_iff,
    Option.some.injEq, Prod.mk.injEq] at hstep
  obtain ⟨⟨t, src, pending⟩, htake, -, rfl⟩ := hstep
  obtain ⟨-, pre, post, hpending, rfl, -⟩ := takeFirst_eq htake
  exact h.move hpending rfl rfl rfl rfl rfl

theorem Accounted.recvIn {q : Q} {payload : List V} (h : Accounted total n)
    (hstep : n.recvIn q payload = some n') : Accounted total n' := by
  simp only [Node.recvIn, Option.bind_eq_bind, Option.bind_eq_some_iff,
    Option.some.injEq] at hstep
  obtain ⟨⟨t, dst, pending⟩, htake, rfl⟩ := hstep
  obtain ⟨-, pre, post, hpending, rfl, -⟩ := takeFirst_eq htake
  exact h.move hpending rfl rfl rfl rfl rfl

omit [DecidableEq Loc] [DecidableEq Q] in
/-- A program that has ended leaves no transfer behind. -/
theorem Accounted.settled (h : Accounted total n) (hprog : n.prog = []) :
    n.pending = [] ∧ n.done = [] := by
  obtain ⟨⟨credit, live, hsettles, hc⟩, -⟩ := h
  rw [hprog] at hsettles
  obtain ⟨hlive⟩ := hsettles
  constructor
  · refine List.eq_nil_iff_forall_not_mem.mpr fun t ht => ?_
    exact hlive (hc.pending_live t ht)
  · refine List.eq_nil_iff_forall_not_mem.mpr fun c hc' => ?_
    exact hlive (hc.done_live c hc')

omit [DecidableEq Loc] [DecidableEq Q] in
/-- All transfers of a program that has ended have reported. -/
theorem Accounted.returned (h : Accounted total n) (hprog : n.prog = []) :
    n.log.length = total := by
  obtain ⟨hpending, hdone⟩ := h.settled hprog
  have htotal := h.2
  rw [Node.transfers, hpending, hdone, hprog] at htotal
  exact htotal

end Steps

/-! ## Runs -/

section Runs

variable [DecidableEq R] [DecidableEq Q] [DecidableEq Loc]
  {sys : System R Loc V D A} {s s' : R → Node Q C Loc V D} {total : R → ℕ}

omit [DecidableEq Q] [DecidableEq Loc] in
theorem accounted_set (h : ∀ r, Accounted (total r) (s r)) {r : R}
    {n : Node Q C Loc V D} (hn : Accounted (total r) n) (r' : R) :
    Accounted (total r') (set s r n r') := by
  by_cases hr : r' = r
  · subst hr
    rw [set_same]
    exact hn
  · rw [set_of_ne hr]
    exact h r'

/-- Every step keeps account of the transfers of every node. -/
theorem accounted_step (h : ∀ r, Accounted (total r) (s r))
    {a : Action R Q A} (hstep : step sys s a = some s') (r : R) :
    Accounted (total r) (s' r) := by
  cases a with
  | exec r' =>
      obtain ⟨n', hn', rfl⟩ := Option.map_eq_some_iff.mp hstep
      exact accounted_set h ((h r').exec hn') r
  | reject r' =>
      obtain ⟨n', hn', rfl⟩ := Option.map_eq_some_iff.mp hstep
      exact accounted_set h ((h r').reject hn') r
  | copy r' i =>
      obtain ⟨n', hn', rfl⟩ := Option.map_eq_some_iff.mp hstep
      exact accounted_set h ((h r').copy hn') r
  | deliver r' q =>
      obtain ⟨⟨payload, n⟩, hsend, hrest⟩ := Option.bind_eq_some_iff.mp hstep
      obtain ⟨n', hrecv, hs'⟩ := Option.bind_eq_some_iff.mp hrest
      obtain rfl := Option.some.inj hs'
      have hmid := accounted_set h ((h r').sendOut hsend)
      exact accounted_set hmid ((hmid _).recvIn hrecv) r
  | complete r' i =>
      obtain ⟨n', hn', rfl⟩ := Option.map_eq_some_iff.mp hstep
      exact accounted_set h ((h r').complete hn') r
  | fail r' i =>
      obtain ⟨n', hn', rfl⟩ := Option.map_eq_some_iff.mp hstep
      exact accounted_set h ((h r').fail hn') r
  | device r' a =>
      obtain ⟨n', hn', rfl⟩ := Option.map_eq_some_iff.mp hstep
      refine accounted_set h ?_ r
      obtain ⟨⟨credit, live, hsettles, hc⟩, htotal⟩ := h r'
      obtain ⟨d, -, rfl⟩ := Option.map_eq_some_iff.mp hn'
      exact ⟨⟨credit, live, hsettles, hc.pending_live, hc.done_live,
        hc.count_eq⟩, htotal⟩

theorem accounted_run (h : ∀ r, Accounted (total r) (s r))
    {acts : List (Action R Q A)} (hrun : run sys s acts = some s') (r : R) :
    Accounted (total r) (s' r) := by
  induction acts generalizing s with
  | nil =>
      obtain rfl := Option.some.inj hrun
      exact h r
  | cons a acts ih =>
      obtain ⟨s₁, hstep, hrest⟩ := Option.bind_eq_some_iff.mp hrun
      exact ih (accounted_step h hstep) hrest

/-! ## Errors in a run -/

/-- An action logs an error where it makes a transfer fail, and nowhere
else. -/
theorem error_mem_step {a : Action R Q A} (hstep : step sys s a = some s')
    (r : R) :
    .error ∈ (s' r).log ↔ .error ∈ (s r).log ∨ a.failsAt = some r := by
  cases a with
  | exec r' =>
      obtain ⟨n', hn', rfl⟩ := Option.map_eq_some_iff.mp hstep
      rw [error_mem_set_of_iff (by rw [exec_log hn']) r, or_iff_left nofun]
  | reject r' =>
      obtain ⟨n', hn', rfl⟩ := Option.map_eq_some_iff.mp hstep
      exact error_mem_set_of_mem (error_mem_reject hn') r
  | copy r' i =>
      obtain ⟨n', hn', rfl⟩ := Option.map_eq_some_iff.mp hstep
      rw [error_mem_set_of_iff (by rw [copy_log hn']) r, or_iff_left nofun]
  | deliver r' q =>
      obtain ⟨⟨payload, n⟩, hsend, hrest⟩ := Option.bind_eq_some_iff.mp hstep
      obtain ⟨n', hrecv, hs'⟩ := Option.bind_eq_some_iff.mp hrest
      obtain rfl := Option.some.inj hs'
      rw [error_mem_set_of_iff (by rw [recvIn_log hrecv]) r,
        error_mem_set_of_iff (by rw [sendOut_log hsend]) r, or_iff_left nofun]
  | complete r' i =>
      obtain ⟨n', hn', rfl⟩ := Option.map_eq_some_iff.mp hstep
      rw [error_mem_set_of_iff (error_mem_complete hn') r, or_iff_left nofun]
  | fail r' i =>
      obtain ⟨n', hn', rfl⟩ := Option.map_eq_some_iff.mp hstep
      exact error_mem_set_of_mem (error_mem_fail hn') r
  | device r' a =>
      obtain ⟨n', hn', rfl⟩ := Option.map_eq_some_iff.mp hstep
      obtain ⟨d, -, rfl⟩ := Option.map_eq_some_iff.mp hn'
      rw [error_mem_set_of_iff (by rfl) r, or_iff_left nofun]

theorem error_mem_run {acts : List (Action R Q A)}
    (hrun : run sys s acts = some s') (r : R) :
    .error ∈ (s' r).log ↔
      .error ∈ (s r).log ∨ ∃ a ∈ acts, a.failsAt = some r := by
  induction acts generalizing s with
  | nil =>
      obtain rfl := Option.some.inj hrun
      simp
  | cons a acts ih =>
      obtain ⟨s₁, hstep, hrest⟩ := Option.bind_eq_some_iff.mp hrun
      rw [ih hrest, error_mem_step hstep, or_assoc, List.exists_mem_cons_iff]

/-- A program that has ended reports that all its transfers succeeded if and
only if no action made one of them fail. -/
theorem log_eq_replicate_iff {prog : R → List (Instr Q C Loc V D)}
    (h : ∀ r, Settles (fun _ => 0) ∅ (prog r) ∅) {mem : R → Loc → V}
    {dev : R → D} {acts : List (Action R Q A)}
    (hrun : run sys (fun r => Node.start (prog r) (mem r) (dev r)) acts =
      some s')
    {r : R} (hreturned : (s' r).prog = []) :
    (s' r).log = List.replicate (submissions (prog r)) .success ↔
      ∀ a ∈ acts, a.failsAt ≠ some r := by
  have hlength : (s' r).log.length = submissions (prog r) :=
    (accounted_run (fun r => .start (h r) (mem r) (dev r)) hrun r).returned
      hreturned
  have herror : .error ∈ (s' r).log ↔ ∃ a ∈ acts, a.failsAt = some r := by
    rw [error_mem_run hrun r]
    exact or_iff_right nofun
  rw [List.eq_replicate_iff]
  constructor
  · rintro ⟨-, hsuccess⟩ a ha hfails
    cases hsuccess _ (herror.mpr ⟨a, ha, hfails⟩)
  · refine fun hacts => ⟨hlength, fun status hstatus => ?_⟩
    cases status with
    | success => rfl
    | error =>
        obtain ⟨a, ha, hfails⟩ := herror.mp hstatus
        exact absurd hfails (hacts a ha)

end Runs

end

end SmartNic.Fabric
