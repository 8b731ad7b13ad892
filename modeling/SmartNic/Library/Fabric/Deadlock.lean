import SmartNic.Library.Fabric.Links

/-!
# Freedom from deadlock

Nodes on a ring whose programs settle, keep pace and use the ends of the links
in one and the same order never wait for each other in a circle: of the nodes
that have not returned, the one that has submitted the fewest transfers can go
on.
-/

namespace SmartNic.Fabric

section

variable {R Q C Loc V D A : Type} [DecidableEq Q]

/-! ## Where a node stands -/

/-- A node in the middle of its program: it has submitted the transfers of
`past`, and `gone k` of those at the end `k` have met their counterpart. -/
structure Along (prog : List (Instr Q C Loc V D)) (past : List (Task Q C Loc))
    (gone : Link Q → ℕ) (n : Node Q C Loc V D) : Prop where
  tasks_eq : tasks prog = past ++ tasks n.prog
  paces : Paces past n.prog
  gone_le : ∀ k, gone k ≤ (countersAt k past).length
  pending_eq : ∀ k, countersAt k n.pending = (countersAt k past).drop (gone k)

variable {prog : List (Instr Q C Loc V D)} {past : List (Task Q C Loc)}
  {gone : Link Q → ℕ} {n n' : Node Q C Loc V D}

theorem Along.start (h : Paces [] prog) (mem : Loc → V) (dev : D) :
    Along prog [] (fun _ => 0) (Node.start prog mem dev) where
  tasks_eq := rfl
  paces := h
  gone_le _ := Nat.zero_le _
  pending_eq _ := rfl

/-- Nothing changes but the counters, the memory and the device. -/
theorem Along.congr (h : Along prog past gone n) (hprog : n'.prog = n.prog)
    (hpending : n'.pending = n.pending) : Along prog past gone n' where
  tasks_eq := by
    rw [hprog]
    exact h.tasks_eq
  paces := by
    rw [hprog]
    exact h.paces
  gone_le := h.gone_le
  pending_eq := by
    rw [hpending]
    exact h.pending_eq

/-- The node submits its next transfer. -/
theorem Along.submit (h : Along prog past gone n) {t : Task Q C Loc}
    {rest : List (Instr Q C Loc V D)} (hprog : n.prog = .submit t :: rest) :
    Along prog (past ++ [t]) gone
      { n with prog := rest, pending := n.pending ++ [t] } where
  tasks_eq := by
    rw [h.tasks_eq, hprog, tasks, List.append_assoc]
    rfl
  paces := by
    have hpaces := h.paces
    rw [hprog] at hpaces
    exact hpaces
  gone_le k := by
    rw [countersAt_append, List.length_append]
    exact Nat.le_add_right_of_le (h.gone_le k)
  pending_eq k := by
    rw [countersAt_append, countersAt_append, h.pending_eq,
      List.drop_append_of_le_length (h.gone_le k)]

theorem Along.exec [DecidableEq C] (h : Along prog past gone n)
    (hstep : n.exec = some n') : ∃ past', Along prog past' gone n' := by
  obtain ⟨htasks, hpaces, hle, hpending⟩ := h
  unfold Node.exec at hstep
  split at hstep
  · cases hstep
  next c k rest hprog =>
    obtain rfl := Option.some.inj hstep
    rw [hprog] at htasks hpaces
    exact ⟨past, htasks, hpaces, hle, hpending⟩
  next t rest hprog =>
    obtain rfl := Option.some.inj hstep
    exact ⟨past ++ [t], Along.submit ⟨htasks, hpaces, hle, hpending⟩ hprog⟩
  next cs rest hprog =>
    split at hstep
    · obtain rfl := Option.some.inj hstep
      rw [hprog] at htasks hpaces
      exact ⟨past, htasks, hpaces.2, hle, hpending⟩
    · cases hstep
  next f rest hprog =>
    obtain ⟨_, -, rfl⟩ := Option.map_eq_some_iff.mp hstep
    rw [hprog] at htasks hpaces
    exact ⟨past, htasks, hpaces, hle, hpending⟩

/-- The first transfer at an end meets its counterpart. -/
theorem Along.meet (h : Along prog past gone n) {k : Link Q}
    {pre post : List (Task Q C Loc)} {t : Task Q C Loc}
    (hlink : t.link = some k) (hpre : ∀ z ∈ pre, z.link ≠ some k)
    (hprog : n'.prog = n.prog) (hpending : n.pending = pre ++ t :: post)
    (hpending' : n'.pending = pre ++ post) :
    Along prog past (set gone k (gone k + 1)) n' := by
  have hhead : t.counter :: countersAt k post = (countersAt k past).drop (gone k) := by
    rw [← h.pending_eq, hpending, countersAt_append, countersAt_of_ne hpre,
      countersAt_cons_of_eq hlink, List.nil_append]
  have hlt : gone k < (countersAt k past).length := by
    by_contra hge
    rw [List.drop_eq_nil_of_le (Nat.not_lt.mp hge)] at hhead
    cases hhead
  refine ⟨hprog ▸ h.tasks_eq, hprog ▸ h.paces, fun k' => ?_, fun k' => ?_⟩
  · by_cases hk : k' = k
    · subst hk
      rw [set_same]
      exact hlt
    · rw [set_of_ne hk]
      exact h.gone_le k'
  · rw [hpending', countersAt_append]
    by_cases hk : k' = k
    · subst hk
      rw [set_same, countersAt_of_ne hpre, List.nil_append, ← List.tail_drop,
        ← hhead, List.tail_cons]
    · have hne : t.link ≠ some k' := by
        rw [hlink]
        exact fun heq => hk (Option.some.inj heq).symm
      rw [set_of_ne hk, ← h.pending_eq, hpending, countersAt_append,
        countersAt_cons_of_ne hne]

/-- A copy takes effect. -/
theorem Along.copy [DecidableEq Loc] {i : ℕ} (h : Along prog past gone n)
    (hstep : n.copy i = some n') : Along prog past gone n' := by
  obtain ⟨⟨t, pending⟩, hpick, hrest⟩ := Option.bind_eq_some_iff.mp hstep
  obtain ⟨pre, post, hpending, rfl⟩ := pick_eq hpick
  dsimp only at hrest
  split at hrest
  next pairs hop =>
    obtain rfl := Option.some.inj hrest
    refine ⟨h.tasks_eq, h.paces, h.gone_le, fun k => ?_⟩
    have hne : t.link ≠ some k := by
      rw [Task.link, hop]
      exact (Option.some_ne_none k).symm
    rw [← h.pending_eq, hpending, countersAt_append, countersAt_append,
      countersAt_cons_of_ne hne]
  · cases hrest

theorem Along.sendOut {q : Q} {payload : List V} (h : Along prog past gone n)
    (hstep : n.sendOut q = some (payload, n')) :
    Along prog past (set gone (.send q) (gone (.send q) + 1)) n' := by
  obtain ⟨⟨t, src, pending⟩, htake, hrest⟩ := Option.bind_eq_some_iff.mp hstep
  obtain ⟨-, rfl⟩ := Prod.mk.inj (Option.some.inj hrest)
  obtain ⟨hsend, pre, post, hpending, rfl, hpre⟩ := takeFirst_eq htake
  exact h.meet (Task.link_of_sendOn hsend)
    (fun z hz => Task.sendOn_eq_none_iff.mp (hpre z hz)) rfl hpending rfl

theorem Along.recvIn [DecidableEq Loc] {q : Q} {payload : List V}
    (h : Along prog past gone n) (hstep : n.recvIn q payload = some n') :
    Along prog past (set gone (.recv q) (gone (.recv q) + 1)) n' := by
  obtain ⟨⟨t, dst, pending⟩, htake, hrest⟩ := Option.bind_eq_some_iff.mp hstep
  obtain rfl := Option.some.inj hrest
  obtain ⟨hrecv, pre, post, hpending, rfl, hpre⟩ := takeFirst_eq htake
  exact h.meet (Task.link_of_recvOn hrecv)
    (fun z hz => Task.recvOn_eq_none_iff.mp (hpre z hz)) rfl hpending rfl

/-! ## Both ends of the links -/

/-- The nodes are in the middle of their programs, and at both ends of each link
the same number of transfers has met its counterpart. -/
def Paired (sys : System R Loc V D A) (prog : R → List (Instr Q C Loc V D))
    (s : R → Node Q C Loc V D) : Prop :=
  ∃ (past : R → List (Task Q C Loc)) (gone : R → Link Q → ℕ),
    (∀ r, Along (prog r) (past r) (gone r) (s r)) ∧
      ∀ r q, gone r (.send q) = gone (sys.next r) (.recv q)

variable {sys : System R Loc V D A} {progs : R → List (Instr Q C Loc V D)}
  {s s' : R → Node Q C Loc V D}

theorem Paired.start (h : ∀ r, Paces [] (progs r)) (mem : R → Loc → V)
    (dev : R → D) :
    Paired sys progs fun r => Node.start (progs r) (mem r) (dev r) :=
  ⟨fun _ => [], fun _ _ => 0, fun r => .start (h r) (mem r) (dev r),
    fun _ _ => rfl⟩

variable [DecidableEq R]

/-- A step of one node at which no transfer meets its counterpart. -/
theorem Paired.update (h : Paired sys progs s) (r : R)
    {n : Node Q C Loc V D}
    (hnode : ∀ past gone, Along (progs r) past gone (s r) →
      ∃ past', Along (progs r) past' gone n) :
    Paired sys progs (set s r n) := by
  obtain ⟨past, gone, halong, hmet⟩ := h
  obtain ⟨past', hn⟩ := hnode _ _ (halong r)
  refine ⟨set past r past', gone, fun r' => ?_, hmet⟩
  by_cases hr : r' = r
  · subst hr
    rw [set_same, set_same]
    exact hn
  · rw [set_of_ne hr, set_of_ne hr]
    exact halong r'

variable [DecidableEq C] [DecidableEq Loc]

omit [DecidableEq C] in
/-- A delivery counts at both ends of its link. -/
theorem Paired.deliver (hnext : Function.Injective sys.next)
    (h : Paired sys progs s) {r : R} {q : Q}
    (hstep : deliver sys s r q = some s') : Paired sys progs s' := by
  obtain ⟨past, gone, halong, hmet⟩ := h
  obtain ⟨⟨payload, n⟩, hsend, hrest⟩ := Option.bind_eq_some_iff.mp hstep
  obtain ⟨n', hrecv, hs'⟩ := Option.bind_eq_some_iff.mp hrest
  obtain rfl := Option.some.inj hs'
  let mid := set gone r (set (gone r) (.send q) (gone r (.send q) + 1))
  have hmid : ∀ r', Along (progs r') (past r') (mid r') (set s r n r') := by
    intro r'
    by_cases hr : r' = r
    · subst hr
      simp only [mid, set_same]
      exact (halong r').sendOut hsend
    · simp only [mid, set_of_ne hr]
      exact halong r'
  have hrecv_eq : ∀ r' q', mid r' (.recv q') = gone r' (.recv q') := by
    intro r' q'
    by_cases hr : r' = r
    · subst hr
      simp only [mid, set_same]
      exact set_of_ne (by simp)
    · simp only [mid, set_of_ne hr]
  refine ⟨past, set mid (sys.next r) (set (mid (sys.next r)) (.recv q)
    (mid (sys.next r) (.recv q) + 1)), fun r' => ?_, fun r' q' => ?_⟩
  · by_cases hr : r' = sys.next r
    · subst hr
      rw [set_same, set_same]
      exact (hmid (sys.next r)).recvIn hrecv
    · rw [set_of_ne hr, set_of_ne hr]
      exact hmid r'
  · have hsend_eq : set mid (sys.next r) (set (mid (sys.next r)) (.recv q)
        (mid (sys.next r) (.recv q) + 1)) r' (.send q') = mid r' (.send q') := by
      by_cases hr : r' = sys.next r
      · subst hr
        rw [set_same]
        exact set_of_ne (by simp)
      · rw [set_of_ne hr]
    rw [hsend_eq]
    by_cases hr : r' = r
    · subst hr
      simp only [set_same, hrecv_eq]
      by_cases hq : q' = q
      · subst hq
        simp only [mid, set_same, hmet]
      · simp only [mid, set_same, set_of_ne (fun heq => hq (Link.send.inj heq)),
          set_of_ne (fun heq => hq (Link.recv.inj heq)), hrecv_eq]
        rw [hmet]
    · simp only [mid, set_of_ne hr, set_of_ne fun heq => hr (hnext heq)]
      exact (hmet r' q').trans (hrecv_eq _ _).symm

theorem Paired.step (hnext : Function.Injective sys.next)
    (h : Paired sys progs s) {a : Action R Q A} (ha : a.failsAt = none)
    (hstep : step sys s a = some s') : Paired sys progs s' := by
  cases a with
  | exec r =>
      obtain ⟨n', hn', rfl⟩ := Option.map_eq_some_iff.mp hstep
      exact h.update r fun _ _ halong => halong.exec hn'
  | copy r i =>
      obtain ⟨n', hn', rfl⟩ := Option.map_eq_some_iff.mp hstep
      exact h.update r fun past _ halong => ⟨past, halong.copy hn'⟩
  | deliver r q => exact h.deliver hnext hstep
  | complete r i =>
      obtain ⟨n', hn', rfl⟩ := Option.map_eq_some_iff.mp hstep
      obtain ⟨_, -, hrest⟩ := Option.bind_eq_some_iff.mp hn'
      obtain rfl := Option.some.inj hrest
      exact h.update r fun past _ halong => ⟨past, halong.congr rfl rfl⟩
  | device r a =>
      obtain ⟨n', hn', rfl⟩ := Option.map_eq_some_iff.mp hstep
      obtain ⟨_, -, rfl⟩ := Option.map_eq_some_iff.mp hn'
      exact h.update r fun past _ halong => ⟨past, halong.congr rfl rfl⟩
  | reject r => cases ha
  | fail r i => cases ha

theorem Paired.run (hnext : Function.Injective sys.next)
    {acts : List (Action R Q A)} (hacts : ∀ a ∈ acts, a.failsAt = none)
    (h : Paired sys progs s) (hrun : run sys s acts = some s') :
    Paired sys progs s' := by
  induction acts generalizing s with
  | nil =>
      obtain rfl := Option.some.inj hrun
      exact h
  | cons a acts ih =>
      obtain ⟨s₁, hstep, hrest⟩ := Option.bind_eq_some_iff.mp hrun
      exact ih (fun b hb => hacts b (List.mem_cons_of_mem _ hb))
        (h.step hnext (hacts a List.mem_cons_self) hstep) hrest

/-! ## Stuck states -/

/-- No action but failures is possible. -/
def Stuck (sys : System R Loc V D A) (s : R → Node Q C Loc V D) : Prop :=
  ∀ a : Action R Q A, a.failsAt = none → step sys s a = none

/-- A call of the node that is blocked waits for its device. -/
def Node.Served (sys : System R Loc V D A) (n : Node Q C Loc V D) : Prop :=
  ∀ f rest, n.prog = .call f :: rest → f n.dev n.mem = none →
    ∃ a, sys.deviceStep a n.dev n.mem ≠ none

omit [DecidableEq R] [DecidableEq C] [DecidableEq Loc] [DecidableEq Q] in
theorem exists_pick {β : Type} {x : β} {xs : List β} (h : x ∈ xs) :
    ∃ i ys, pick xs i = some (x, ys) := by
  induction xs with
  | nil => cases h
  | cons y xs ih =>
      rcases List.mem_cons.mp h with rfl | h
      · exact ⟨0, xs, rfl⟩
      · obtain ⟨i, ys, hpick⟩ := ih h
        refine ⟨i + 1, y :: ys, ?_⟩
        rw [pick, hpick, Option.map_some]

omit [DecidableEq R] [DecidableEq C] [DecidableEq Loc] [DecidableEq Q] in
theorem exists_takeFirst {β γ : Type} {p : β → Option γ} {x : β} {xs : List β}
    (h : x ∈ xs) (hp : p x ≠ none) : ∃ found, takeFirst p xs = some found := by
  induction xs with
  | nil => cases h
  | cons y xs ih =>
      rw [takeFirst]
      cases hy : p y with
      | some z => exact ⟨_, rfl⟩
      | none =>
          have hxs : x ∈ xs := by
            refine (List.mem_cons.mp h).resolve_left ?_
            rintro rfl
            exact hp hy
          obtain ⟨found, htake⟩ := ih hxs
          exact ⟨_, by rw [htake]; rfl⟩

theorem Stuck.exec (hstuck : Stuck sys s) (r : R) : (s r).exec = none :=
  Option.map_eq_none_iff.mp (hstuck (.exec r) rfl)

theorem Stuck.done_eq_nil (hstuck : Stuck sys s) (r : R) : (s r).done = [] := by
  refine List.eq_nil_iff_forall_not_mem.mpr fun c hc => ?_
  obtain ⟨i, ys, hpick⟩ := exists_pick hc
  have hnone : (s r).complete i = none :=
    Option.map_eq_none_iff.mp (hstuck (.complete r i) rfl)
  rw [Node.complete, hpick] at hnone
  cases hnone

/-- All copies have taken effect. -/
theorem Stuck.link_ne_none (hstuck : Stuck sys s) {r : R} {t : Task Q C Loc}
    (ht : t ∈ (s r).pending) : t.link ≠ none := by
  intro hlink
  obtain ⟨i, ys, hpick⟩ := exists_pick ht
  have hnone : (s r).copy i = none :=
    Option.map_eq_none_iff.mp (hstuck (.copy r i) rfl)
  rw [Node.copy, hpick] at hnone
  unfold Task.link at hlink
  cases hop : t.op with
  | copy pairs => simp [hop] at hnone
  | send src => simp [hop] at hlink
  | recv dst => simp [hop] at hlink

/-- No link has transfers at both ends. -/
theorem Stuck.recv_eq_nil (hstuck : Stuck sys s) {r : R} {q : Q}
    (hsend : countersAt (.send q) (s r).pending ≠ []) :
    countersAt (.recv q) (s (sys.next r)).pending = [] := by
  by_contra hrecv
  obtain ⟨c, hc⟩ := List.exists_mem_of_ne_nil _ hsend
  obtain ⟨t, ht, hlink, -⟩ := mem_countersAt.mp hc
  obtain ⟨⟨t₀, src, pending⟩, htake⟩ := exists_takeFirst (p := Task.sendOn q) ht
    fun hnone => Task.sendOn_eq_none_iff.mp hnone hlink
  obtain ⟨hsend₀, pre, post, hpending, rfl, -⟩ := takeFirst_eq htake
  have hout : (s r).sendOut q = some (src.map (s r).mem,
      { s r with pending := pre ++ post, done := t₀.counter :: (s r).done }) := by
    rw [Node.sendOut, htake]
    rfl
  set n : Node Q C Loc V D :=
    { s r with pending := pre ++ post, done := t₀.counter :: (s r).done }
  have hkept : countersAt (.recv q) (set s r n (sys.next r)).pending =
      countersAt (.recv q) (s (sys.next r)).pending := by
    by_cases hr : sys.next r = r
    · have hne : t₀.link ≠ some (.recv q) := by
        rw [Task.link_of_sendOn hsend₀]
        simp
      rw [hr, set_same, hpending, countersAt_append, countersAt_append,
        countersAt_cons_of_ne hne]
    · rw [set_of_ne hr]
  rw [← hkept] at hrecv
  obtain ⟨c', hc'⟩ := List.exists_mem_of_ne_nil _ hrecv
  obtain ⟨t', ht', hlink', -⟩ := mem_countersAt.mp hc'
  obtain ⟨found, htake'⟩ := exists_takeFirst (p := Task.recvOn q) ht'
    fun hnone => Task.recvOn_eq_none_iff.mp hnone hlink'
  have hdeliver := hstuck (.deliver r q) rfl
  rw [Fabric.step, Fabric.deliver, hout] at hdeliver
  simp only [Option.bind_eq_bind, Option.bind_some, Node.recvIn, htake'] at hdeliver
  cases hdeliver

/-- A node that has not returned waits for a counter. -/
theorem Stuck.waits (hstuck : Stuck sys s) {r : R}
    (hserved : (s r).Served sys) (hprog : (s r).prog ≠ []) :
    ∃ cs rest, (s r).prog = .wait cs :: rest ∧ ∃ c ∈ cs, 0 < (s r).count c := by
  have hexec := hstuck.exec r
  unfold Node.exec at hexec
  split at hexec
  next hnil => exact absurd hnil hprog
  · cases hexec
  · cases hexec
  next cs rest hwait =>
    split at hexec
    · cases hexec
    next hcount =>
      simp only [not_forall, not_le] at hcount
      obtain ⟨c, hc, hpos⟩ := hcount
      exact ⟨cs, rest, hwait, c, hc, hpos⟩
  next f rest hcall =>
    obtain ⟨a, ha⟩ := hserved f rest hcall (Option.map_eq_none_iff.mp hexec)
    have hnone : (s r).device sys a = none :=
      Option.map_eq_none_iff.mp (hstuck (.device r a) rfl)
    exact absurd (Option.map_eq_none_iff.mp hnone) ha

/-- It waits for a send or a receive. -/
theorem Stuck.exists_pending (hstuck : Stuck sys s) {r : R} {total : ℕ}
    (hserved : (s r).Served sys) (hacc : Accounted total (s r)) (hprog : (s r).prog ≠ []) :
    ∃ cs rest, (s r).prog = .wait cs :: rest ∧
      ∃ k, ∃ c ∈ cs, c ∈ countersAt k (s r).pending := by
  obtain ⟨cs, rest, hwait, c, hc, hpos⟩ := hstuck.waits hserved hprog
  refine ⟨cs, rest, hwait, ?_⟩
  obtain ⟨⟨credit, live, hsettles, hcounted⟩, -⟩ := hacc
  rw [hwait] at hsettles
  cases hsettles with
  | wait _ hcredit _ =>
      have hcount := hcounted.count_eq c
      rw [hcredit c hc, Node.incomplete, hstuck.done_eq_nil r, List.count_nil]
        at hcount
      have hsome : 0 < (s r).pending.countP (fun t => t.counter = c) := by omega
      obtain ⟨t, ht, hcounter⟩ := List.countP_pos_iff.mp hsome
      obtain ⟨k, hlink⟩ := Option.ne_none_iff_exists'.mp (hstuck.link_ne_none ht)
      exact ⟨k, c, hc,
        mem_countersAt.mpr ⟨t, ht, hlink, decide_eq_true_eq.mp hcounter⟩⟩

/-! ## Deadlock freedom -/

omit [DecidableEq R] [DecidableEq C] [DecidableEq Loc] in
/-- A transfer that a node waits for has a lower number than there are
transfers of the node at the opposite end. -/
theorem Along.gone_lt {cs : List C} {rest : List (Instr Q C Loc V D)}
    {k : Link Q} {c : C} (h : Along prog past gone n)
    (hprog : n.prog = .wait cs :: rest) (hc : c ∈ cs)
    (hpending : c ∈ countersAt k n.pending) :
    gone k < (countersAt k.opposite past).length := by
  rw [h.pending_eq] at hpending
  obtain ⟨i, hi⟩ := List.getElem?_of_mem hpending
  rw [List.getElem?_drop] at hi
  have hpaces := h.paces
  rw [hprog] at hpaces
  exact Nat.lt_of_le_of_lt (Nat.le_add_right _ i) (hpaces.1 k _ c hi hc)

omit [DecidableEq R] [DecidableEq C] [DecidableEq Loc] in
/-- Of two nodes that use the ends in the same order, the one with fewer
transfers at some end has submitted fewer altogether. -/
theorem Along.length_links_lt {prog' : List (Instr Q C Loc V D)}
    {past' : List (Task Q C Loc)} {gone' : Link Q → ℕ} {k : Link Q}
    (h : Along prog past gone n) (h' : Along prog' past' gone' n')
    (hsame : links (tasks prog) = links (tasks prog'))
    (hlt : (countersAt k past').length < (countersAt k past).length) :
    (links past').length < (links past).length := by
  rw [length_countersAt, length_countersAt] at hlt
  by_contra hge
  have hpast : links past <+: links (tasks prog) := by
    rw [h.tasks_eq, links_append]
    exact List.prefix_append _ _
  have hpast' : links past' <+: links (tasks prog) := by
    rw [hsame, h'.tasks_eq, links_append]
    exact List.prefix_append _ _
  have hsub := List.prefix_of_prefix_length_le hpast hpast' (Nat.not_lt.mp hge)
  exact absurd (hsub.sublist.count_le k) (Nat.not_le.mpr hlt)

omit [DecidableEq R] [DecidableEq C] [DecidableEq Loc] in
/-- A node that has returned has submitted all its transfers. -/
theorem Along.past_eq (h : Along prog past gone n) (hprog : n.prog = []) :
    past = tasks prog := by
  rw [h.tasks_eq, hprog, tasks, List.append_nil]

/-- A node that waits for a transfer has a neighbour that has submitted
fewer. -/
theorem Stuck.exists_behind (hstuck : Stuck sys s)
    (hprev : Function.Surjective sys.next)
    {past : R → List (Task Q C Loc)} {gone : R → Link Q → ℕ}
    (halong : ∀ r, Along (progs r) (past r) (gone r) (s r))
    (hmet : ∀ r q, gone r (.send q) = gone (sys.next r) (.recv q))
    (hsame : ∀ r r', links (tasks (progs r)) = links (tasks (progs r')))
    {r : R} {cs : List C} {rest : List (Instr Q C Loc V D)}
    (hwait : (s r).prog = .wait cs :: rest) {k : Link Q} {c : C} (hc : c ∈ cs)
    (hpending : c ∈ countersAt k (s r).pending) :
    ∃ r', (links (past r')).length < (links (past r)).length := by
  have hlt := (halong r).gone_lt hwait hc hpending
  have hne : countersAt k (s r).pending ≠ [] := List.ne_nil_of_mem hpending
  have hpeer : ∀ r' k', countersAt k' (s r').pending = [] →
      (countersAt k' (past r')).length ≤ gone r' k' := by
    intro r' k' hnone
    rw [(halong r').pending_eq] at hnone
    exact List.drop_eq_nil_iff.mp hnone
  cases k with
  | send q =>
      have hle := hpeer _ _ (hstuck.recv_eq_nil hne)
      rw [← hmet r q] at hle
      exact ⟨sys.next r, (halong r).length_links_lt (halong _)
        (hsame r (sys.next r)) (Nat.lt_of_le_of_lt hle hlt)⟩
  | recv q =>
      obtain ⟨p, rfl⟩ := hprev r
      have hnone : countersAt (.send q) (s p).pending = [] := by
        by_contra hsend
        exact hne (hstuck.recv_eq_nil hsend)
      have hle := hpeer _ _ hnone
      rw [hmet p q] at hle
      exact ⟨p, (halong _).length_links_lt (halong p) (hsame _ p)
        (Nat.lt_of_le_of_lt hle hlt)⟩

/-- Nodes that can only fail have returned. -/
theorem Stuck.returned (hstuck : Stuck sys s)
    (hprev : Function.Surjective sys.next) (h : Paired sys progs s)
    (hsame : ∀ r r', links (tasks (progs r)) = links (tasks (progs r')))
    {total : R → ℕ} (hacc : ∀ r, Accounted (total r) (s r))
    (hserved : ∀ r, (s r).Served sys) (r : R) : (s r).prog = [] := by
  obtain ⟨past, gone, halong, hmet⟩ := h
  induction hm : (links (past r)).length using Nat.strong_induction_on
    generalizing r with
  | h m ih =>
      by_contra hprog
      obtain ⟨cs, rest, hwait, k, c, hc, hpending⟩ :=
        hstuck.exists_pending (hserved r) (hacc r) hprog
      obtain ⟨r', hlt⟩ :=
        hstuck.exists_behind hprev halong hmet hsame hwait hc hpending
      have hreturned := ih _ (hm ▸ hlt) r' rfl
      have hall := (halong r').past_eq hreturned
      have hle : (links (past r)).length ≤ (links (tasks (progs r))).length := by
        rw [(halong r).tasks_eq, links_append, List.length_append]
        exact Nat.le_add_right _ _
      rw [hall, hsame r' r] at hlt
      exact absurd hlt (Nat.not_lt.mpr hle)

end

end SmartNic.Fabric
