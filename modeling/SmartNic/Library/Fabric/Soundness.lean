import SmartNic.Library.Fabric.Counters
import SmartNic.Library.Fabric.Knowledge

/-!
# Soundness of the derivations

If the program of every node has a derivation and the payloads that it sends
are the ones that its successor expects, then every run without failures keeps
every node in agreement with its knowledge, whatever the interleaving.
-/

namespace SmartNic.Fabric

section

variable {R Q C Loc V D A : Type} {sys : System R Loc V D A}
  {fp : Footprint C Loc} [DecidableEq C]

theorem Counted.implies {K K' : Knowledge sys fp} {n : Node Q C Loc V D}
    (h : Counted K.credit K.live n) (himp : K.Implies K') :
    Counted K'.credit K'.live n :=
  himp.credit_eq ▸ h.mono himp.live_sub

/-! ## Memory -/

/-- The memory, the device and the pending transfers of a node agree with its
knowledge. -/
structure Agrees (K : Knowledge sys fp) (n : Node Q C Loc V D) : Prop where
  known : ∀ l ∈ K.known, n.mem l = K.exp l
  admits : ∀ t ∈ n.pending, K.Admits t
  posted : ∀ x ∈ K.posted,
    (∃ t ∈ n.pending, t.counter = x.1 ∧ x.2 ∈ t.dst) ∨
      n.mem x.2 = K.exp x.2
  inv : K.inv n.dev n.mem

omit [DecidableEq C] in
theorem Agrees.implies {K K' : Knowledge sys fp} {n : Node Q C Loc V D}
    (h : Agrees K n) (himp : K.Implies K') : Agrees K' n where
  known l hl := by
    rw [himp.exp_eq]
    exact h.known l (himp.known_sub hl)
  admits t ht := (h.admits t ht).of_exp himp.exp_eq
  posted x hx := by
    rw [himp.exp_eq]
    exact h.posted x (himp.posted_sub hx)
  inv := by
    rw [himp.inv_eq]
    exact h.inv

/-- The source of a pending transfer holds the values it is to hold. -/
theorem Agrees.src_eq {K : Knowledge sys fp} {n : Node Q C Loc V D}
    (h : Agrees K n) (hc : Counted K.credit K.live n) {t : Task Q C Loc}
    (ht : t ∈ n.pending) {l : Loc} (hl : l ∈ t.src) : n.mem l = K.exp l :=
  h.known l (K.reads_known _ (hc.pending_live t ht)
    ((h.admits t ht).src_reads l hl))

omit [DecidableEq C] in
theorem Agrees.device {K : Knowledge sys fp} {n n' : Node Q C Loc V D}
    {a : A} (h : Agrees K n) (hstep : n.device sys a = some n') :
    Agrees K n' := by
  simp only [Node.device, Option.map_eq_some_iff] at hstep
  obtain ⟨⟨d', m'⟩, hdev, rfl⟩ := hstep
  obtain ⟨hinv, hsame⟩ := K.inv_step _ _ _ _ _ h.inv h.known hdev
  refine ⟨?_, h.admits, ?_, hinv⟩
  · intro l hl
    exact (hsame l (K.known_own l hl)).trans (h.known l hl)
  · intro x hx
    refine (h.posted x hx).imp_right fun hval => ?_
    exact (hsame x.2 (K.posted_own x hx)).trans hval

/-! ## Execution -/

variable [DecidableEq Q]

/-- From `n` at `K` to `n'` at `K'` by an instruction that sends `out` and
expects `inc`. -/
structure Follows (K : Knowledge sys fp) (n : Node Q C Loc V D)
    (K' : Knowledge sys fp) (n' : Node Q C Loc V D)
    (out inc : Q → List (List V)) : Prop where
  counted : Counted K'.credit K'.live n'
  agrees : Agrees K n → Agrees K' n'
  sends_eq : Agrees K n →
    ∀ q, sends K'.exp n'.pending q = sends K.exp n.pending q ++ out q
  recvs_eq : Agrees K n →
    ∀ q, recvs K'.exp n'.pending q = recvs K.exp n.pending q ++ inc q

theorem follows_init {K : Knowledge sys fp} {n : Node Q C Loc V D}
    (hc : Counted K.credit K.live n) {c : C} {k : ℕ} (hlive : c ∉ K.live)
    (rest : List (Instr Q C Loc V D)) :
    Follows K n (K.init c k)
      { n with prog := rest, count := set n.count c k }
      (fun _ => []) (fun _ => []) where
  counted := hc.init k hlive rest
  agrees h := ⟨h.known, fun t ht => (h.admits t ht).of_exp rfl, h.posted, h.inv⟩
  sends_eq _ _ := (List.append_nil _).symm
  recvs_eq _ _ := (List.append_nil _).symm

theorem follows_submit {K : Knowledge sys fp} {n : Node Q C Loc V D}
    (hc : Counted K.credit K.live n) {t : Task Q C Loc} {k : ℕ}
    (hcredit : K.credit t.counter = k + 1)
    (hreads : fp.reads t.counter ⊆ K.known)
    (hwrites : ∀ l ∈ fp.writes t.counter, l ∉ K.own) (hadmits : K.Admits t)
    (rest : List (Instr Q C Loc V D)) :
    Follows K n (K.submit t k hreads hwrites hadmits)
      { n with prog := rest, pending := n.pending ++ [t] }
      (sends K.exp [t]) (recvs K.exp [t]) where
  counted := hc.submit hcredit rest
  agrees h := by
    refine ⟨h.known, fun t' ht' => ?_, ?_, h.inv⟩
    · rcases List.mem_append.mp ht' with ht' | ht'
      · exact (h.admits t' ht').of_exp rfl
      · rw [List.mem_singleton.mp ht']
        exact hadmits.of_exp rfl
    · rintro x (hx | ⟨hcounter, hl⟩)
      · refine (h.posted x hx).imp_left ?_
        rintro ⟨t', ht', hin⟩
        exact ⟨t', List.mem_append_left _ ht', hin⟩
      · exact .inl ⟨t, by simp, hcounter.symm, hl⟩
  sends_eq _ q := sends_append _ _ _ q
  recvs_eq _ q := recvs_append _ _ _ q

theorem follows_wait {K : Knowledge sys fp} {n : Node Q C Loc V D}
    (hc : Counted K.credit K.live n) {cs : List C} (hcredit : ∀ c ∈ cs, K.credit c = 0)
    (hle : ∀ c ∈ cs, n.count c ≤ 0) (rest : List (Instr Q C Loc V D)) :
    Follows K n (K.wait cs) { n with prog := rest }
      (fun _ => []) (fun _ => []) where
  counted := hc.wait hcredit hle rest
  agrees h := by
    refine ⟨?_, fun t ht => (h.admits t ht).of_exp rfl, h.posted, h.inv⟩
    rintro l (hl | ⟨c, hcs, hl⟩)
    · exact h.known l hl
    · refine (h.posted _ hl).resolve_left ?_
      rintro ⟨t, ht, hcounter, -⟩
      exact (hc.incomplete_of_wait hcredit hle).1 t ht (hcounter ▸ hcs)
  sends_eq _ _ := (List.append_nil _).symm
  recvs_eq _ _ := (List.append_nil _).symm

theorem follows_call {K K' : Knowledge sys fp} {n : Node Q C Loc V D}
    (hc : Counted K.credit K.live n) {f : D → (Loc → V) → Option (D × (Loc → V))}
    (hcalls : K.Calls K' f) {d' : D} {m' : Loc → V}
    (hf : f n.dev n.mem = some (d', m')) (rest : List (Instr Q C Loc V D)) :
    Follows K n K' { n with prog := rest, dev := d', mem := m' }
      (fun _ => []) (fun _ => []) := by
  have hsrc (h : Agrees K n) : ∀ t ∈ n.pending, ∀ l ∈ t.src,
      K'.exp l = K.exp l :=
    fun t ht l hl => hcalls.reads_exp _ (hc.pending_live t ht) l
      ((h.admits t ht).src_reads l hl)
  have hdst (h : Agrees K n) : ∀ t ∈ n.pending, ∀ l ∈ t.dst,
      K'.exp l = K.exp l :=
    fun t ht l hl => hcalls.writes_exp _ (hc.pending_live t ht) l
      ((h.admits t ht).dst_writes l hl)
  refine ⟨⟨?_, ?_, ?_⟩, fun h => ?_, fun h q => ?_, fun h q => ?_⟩
  · exact fun t ht => hcalls.live_sub (hc.pending_live t ht)
  · exact fun d hd => hcalls.live_sub (hc.done_live d hd)
  · intro d
    rw [hcalls.credit_eq]
    exact hc.count_eq d
  · obtain ⟨hinv, hknown, hkeep⟩ := hcalls.spec _ _ _ _ h.inv h.known hf
    refine ⟨hknown, fun t ht => ?_, fun x hx => ?_, hinv⟩
    · refine ⟨(h.admits t ht).src_reads, (h.admits t ht).dst_writes, ?_⟩
      intro pairs hop p hp
      have hp1 : p.1 ∈ t.src := by
        simp only [Task.src, hop]
        exact List.mem_map_of_mem hp
      have hp2 : p.2 ∈ t.dst := by
        simp only [Task.dst, hop]
        exact List.mem_map_of_mem hp
      rw [hsrc h t ht p.1 hp1, hdst h t ht p.2 hp2]
      exact (h.admits t ht).copy_exp pairs hop p hp
    · refine (h.posted x (hcalls.posted_sub hx)).imp_right fun hval => ?_
      rw [hcalls.posted_exp x hx]
      exact (hkeep x hx).trans hval
  · rw [List.append_nil]
    exact sends_congr (hsrc h) q
  · rw [List.append_nil]
    exact recvs_congr (hdst h) q

/-- The execution of an instruction follows the derivation. -/
theorem Run.exec {K K' : Knowledge sys fp} {prog : List (Instr Q C Loc V D)}
    {out inc : Q → List (List V)} (hrun : Run K prog K' out inc)
    {n n' : Node Q C Loc V D} (hprog : n.prog = prog) (hc : Counted K.credit K.live n)
    (hstep : n.exec = some n') :
    ∃ K₁ o i out' inc', Run K₁ n'.prog K' out' inc' ∧
      Follows K n K₁ n' o i ∧
      ∀ q, out q = o q ++ out' q ∧ inc q = i q ++ inc' q := by
  induction hrun with
  | nil K => simp [Node.exec, hprog] at hstep
  | conseq himp _ ih =>
      obtain ⟨K₁, o, i, out', inc', hrun', hfollows, htraffic⟩ :=
        ih hprog (hc.implies himp)
      refine ⟨K₁, o, i, out', inc', hrun', ⟨hfollows.counted, ?_, ?_, ?_⟩,
        htraffic⟩
      · exact fun h => hfollows.agrees (h.implies himp)
      · rw [← himp.exp_eq]
        exact fun h => hfollows.sends_eq (h.implies himp)
      · rw [← himp.exp_eq]
        exact fun h => hfollows.recvs_eq (h.implies himp)
  | init c k hcredit hlive hrun _ =>
      simp only [Node.exec, hprog, Option.some.injEq] at hstep
      subst hstep
      exact ⟨_, _, _, _, _, hrun, follows_init hc hlive _, fun q => ⟨rfl, rfl⟩⟩
  | submit t k hcredit hreads hwrites hadmits hrun _ =>
      simp only [Node.exec, hprog, Option.some.injEq] at hstep
      subst hstep
      exact ⟨_, _, _, _, _, hrun,
        follows_submit hc hcredit hreads hwrites hadmits _,
        fun q => ⟨rfl, rfl⟩⟩
  | wait cs hcredit hrun _ =>
      simp only [Node.exec, hprog] at hstep
      split at hstep
      next hle =>
        obtain rfl := Option.some.inj hstep
        exact ⟨_, _, _, _, _, hrun, follows_wait hc hcredit hle _,
          fun q => ⟨rfl, rfl⟩⟩
      · cases hstep
  | call f hcalls hrun _ =>
      simp only [Node.exec, hprog, Option.map_eq_some_iff] at hstep
      obtain ⟨⟨d', m'⟩, hf, rfl⟩ := hstep
      exact ⟨_, _, _, _, _, hrun, follows_call hc hcalls hf _,
        fun q => ⟨rfl, rfl⟩⟩

/-! ## Transfers -/

variable [DecidableEq Loc]

omit [DecidableEq Q] in
/-- A transfer takes effect and writes the values that its destination is to
hold. -/
theorem Agrees.move {K : Knowledge sys fp} {n n' : Node Q C Loc V D}
    {pre post : List (Task Q C Loc)} {t : Task Q C Loc}
    {ws : List (Loc × V)} (h : Agrees K n) (hc : Counted K.credit K.live n)
    (hpending : n.pending = pre ++ t :: post)
    (hpending' : n'.pending = pre ++ post) (hdev : n'.dev = n.dev)
    (hmem : n'.mem = writeAll n.mem ws) (hdst : ws.map Prod.fst = t.dst)
    (hws : ∀ w ∈ ws, w.2 = K.exp w.1) : Agrees K n' where
  known l hl := by
    rw [hmem]
    exact writeAll_keeps hws (h.known l hl)
  admits t' ht' := by
    refine h.admits t' ?_
    rw [hpending', List.mem_append] at ht'
    rw [hpending, List.mem_append, List.mem_cons]
    exact ht'.imp_right Or.inr
  posted x hx := by
    rw [hmem]
    rcases h.posted x hx with ⟨t', ht', hcounter, hl⟩ | hval
    · rw [hpending, List.mem_append, List.mem_cons] at ht'
      rcases ht' with ht' | rfl | ht'
      · exact .inl ⟨t', by simp [hpending', ht'], hcounter, hl⟩
      · rw [← hdst] at hl
        exact .inr (writeAll_of_mem hws hl)
      · exact .inl ⟨t', by simp [hpending', ht'], hcounter, hl⟩
    · exact .inr (writeAll_keeps hws hval)
  inv := by
    have ht : t ∈ n.pending := by simp [hpending]
    rw [hdev, hmem]
    refine K.inv_stable _ _ _ ?_ h.inv
    intro l hl
    by_cases hin : l ∈ ws.map Prod.fst
    · have hwrites := (h.admits t ht).dst_writes l (hdst ▸ hin)
      have hown := K.writes_own _ (hc.pending_live t ht) l hwrites
      have hknown := hl.resolve_left hown
      rw [writeAll_of_mem hws hin, h.known l hknown]
    · exact writeAll_of_notMem hin

/-- The node agrees with a derivation that ends in `K'`, and `out` and `inc`
are the payloads that it has still to send and to receive. -/
def NodeOk (K' : Knowledge sys fp) (out inc : Q → List (List V))
    (n : Node Q C Loc V D) : Prop :=
  ∃ K out' inc', Run K n.prog K' out' inc' ∧ Counted K.credit K.live n ∧ Agrees K n ∧
    ∀ q, out q = sends K.exp n.pending q ++ out' q ∧
      inc q = recvs K.exp n.pending q ++ inc' q

section NodeOk

variable {K' : Knowledge sys fp} {out inc : Q → List (List V)}
  {n n' : Node Q C Loc V D}

omit [DecidableEq Loc] in
theorem NodeOk.exec (h : NodeOk K' out inc n) (hstep : n.exec = some n') :
    NodeOk K' out inc n' := by
  obtain ⟨K, out', inc', hrun, hc, ha, htraffic⟩ := h
  obtain ⟨K₁, o, i, out₁, inc₁, hrun₁, hfollows, hsplit⟩ :=
    hrun.exec rfl hc hstep
  refine ⟨K₁, out₁, inc₁, hrun₁, hfollows.counted, hfollows.agrees ha,
    fun q => ⟨?_, ?_⟩⟩
  · rw [(htraffic q).1, (hsplit q).1, hfollows.sends_eq ha, List.append_assoc]
  · rw [(htraffic q).2, (hsplit q).2, hfollows.recvs_eq ha, List.append_assoc]

omit [DecidableEq Loc] in
theorem NodeOk.complete (h : NodeOk K' out inc n) {i : ℕ}
    (hstep : n.complete i = some n') : NodeOk K' out inc n' := by
  obtain ⟨K, out', inc', hrun, hc, ha, htraffic⟩ := h
  have hc' := hc.complete hstep
  simp only [Node.complete, Option.bind_eq_bind, Option.bind_eq_some_iff,
    Option.some.injEq] at hstep
  obtain ⟨⟨c, done⟩, -, rfl⟩ := hstep
  exact ⟨K, out', inc', hrun, hc', ⟨ha.known, ha.admits, ha.posted, ha.inv⟩,
    htraffic⟩

omit [DecidableEq Loc] in
theorem NodeOk.device (h : NodeOk K' out inc n) {a : A}
    (hstep : n.device sys a = some n') : NodeOk K' out inc n' := by
  obtain ⟨K, out', inc', hrun, hc, ha, htraffic⟩ := h
  have ha' := ha.device hstep
  simp only [Node.device, Option.map_eq_some_iff] at hstep
  obtain ⟨r, -, rfl⟩ := hstep
  exact ⟨K, out', inc', hrun, ⟨hc.pending_live, hc.done_live, hc.count_eq⟩,
    ha', htraffic⟩

/-- A copy brings the values that its destination is to hold. -/
theorem NodeOk.copy (h : NodeOk K' out inc n) {i : ℕ}
    (hstep : n.copy i = some n') : NodeOk K' out inc n' := by
  obtain ⟨K, out', inc', hrun, hc, ha, htraffic⟩ := h
  simp only [Node.copy, Option.bind_eq_bind, Option.bind_eq_some_iff] at hstep
  obtain ⟨⟨t, pending⟩, hpick, hstep⟩ := hstep
  obtain ⟨pre, post, hpending, rfl⟩ := pick_eq hpick
  have ht : t ∈ n.pending := by simp [hpending]
  dsimp only at hstep
  split at hstep
  next pairs hop =>
    obtain rfl := Option.some.inj hstep
    have hws : ∀ w ∈ pairs.map fun p => (p.2, n.mem p.1),
        w.2 = K.exp w.1 := by
      intro w hw
      obtain ⟨p, hp, rfl⟩ := List.mem_map.mp hw
      have hsrc : p.1 ∈ t.src := by
        rw [Task.src, hop]
        exact List.mem_map_of_mem hp
      rw [ha.src_eq hc ht hsrc]
      exact (ha.admits t ht).copy_exp pairs hop p hp
    refine ⟨K, out', inc', hrun, hc.move hpending rfl rfl rfl,
      ha.move hc hpending rfl rfl rfl ?_ hws, fun q => ⟨?_, ?_⟩⟩
    · rw [Task.dst, hop, List.map_map]
      rfl
    · have hnone : t.sendOn q = none := by rw [Task.sendOn, hop]
      rw [(htraffic q).1, hpending, sends_append, sends_append,
        sends_cons_of_none hnone]
    · have hnone : t.recvOn q = none := by rw [Task.recvOn, hop]
      rw [(htraffic q).2, hpending, recvs_append, recvs_append,
        recvs_cons_of_none hnone]
  · cases hstep

/-- The first send leaves with the first payload that is to go out. -/
theorem NodeOk.sendOut (h : NodeOk K' out inc n) {q : Q} {payload : List V}
    (hstep : n.sendOut q = some (payload, n')) :
    ∃ rest, out q = payload :: rest ∧ NodeOk K' (set out q rest) inc n' := by
  obtain ⟨K, out', inc', hrun, hc, ha, htraffic⟩ := h
  simp only [Node.sendOut, Option.bind_eq_bind, Option.bind_eq_some_iff,
    Option.some.injEq, Prod.mk.injEq] at hstep
  obtain ⟨⟨t, src, pending⟩, htake, hpayload, rfl⟩ := hstep
  obtain ⟨hsend, pre, post, hpending, rfl, hpre⟩ := takeFirst_eq htake
  obtain ⟨hsrc, hdst⟩ := Task.src_of_sendOn hsend
  have ht : t ∈ n.pending := by simp [hpending]
  have hexp : src.map K.exp = payload := by
    rw [← hpayload]
    refine List.map_congr_left fun l hl => (ha.src_eq hc ht ?_).symm
    rw [hsrc]
    exact hl
  have hnone : sends K.exp pre q = [] := by
    refine List.filterMap_eq_nil_iff.mpr fun z hz => ?_
    rw [hpre z hz, Option.map_none]
  have hmem : n.mem = writeAll n.mem [] := rfl
  refine ⟨sends K.exp post q ++ out' q, ?_, K, out', inc', hrun,
    hc.move hpending rfl rfl rfl,
    ha.move hc hpending rfl rfl hmem hdst.symm (by simp),
    fun q' => ⟨?_, ?_⟩⟩
  · rw [(htraffic q).1, hpending, sends_append, hnone,
      sends_cons_of_some hsend, hexp]
    rfl
  · by_cases hq : q' = q
    · subst hq
      rw [set_same, sends_append, hnone, List.nil_append]
    · rw [set_of_ne hq, (htraffic q').1, hpending, sends_append, sends_append,
        sends_cons_of_none (Task.sendOn_of_ne hsend hq)]
  · rw [(htraffic q').2, hpending, recvs_append, recvs_append,
      recvs_cons_of_none (Task.recvOn_of_sendOn hsend q')]

/-- The first receive takes the payload that it expects. -/
theorem NodeOk.recvIn (h : NodeOk K' out inc n) {q : Q} {payload : List V}
    {rest : List (List V)} (hinc : inc q = payload :: rest)
    (hstep : n.recvIn q payload = some n') :
    NodeOk K' out (set inc q rest) n' := by
  obtain ⟨K, out', inc', hrun, hc, ha, htraffic⟩ := h
  simp only [Node.recvIn, Option.bind_eq_bind, Option.bind_eq_some_iff,
    Option.some.injEq] at hstep
  obtain ⟨⟨t, dst, pending⟩, htake, rfl⟩ := hstep
  obtain ⟨hrecv, pre, post, hpending, rfl, hpre⟩ := takeFirst_eq htake
  obtain ⟨hdst, hsrc⟩ := Task.dst_of_recvOn hrecv
  have hnone : recvs K.exp pre q = [] := by
    refine List.filterMap_eq_nil_iff.mpr fun z hz => ?_
    rw [hpre z hz, Option.map_none]
  have hhead := (htraffic q).2
  rw [hinc, hpending, recvs_append, hnone, recvs_cons_of_some hrecv,
    List.nil_append, List.cons_append, List.cons.injEq] at hhead
  obtain ⟨hpayload, hrest⟩ := hhead
  have hzip : dst.zip payload = dst.map fun l => (l, K.exp l) := by
    rw [hpayload, List.map_prod_left_eq_zip]
  have hws : ∀ w ∈ dst.zip payload, w.2 = K.exp w.1 := by
    rw [hzip]
    intro w hw
    obtain ⟨l, -, rfl⟩ := List.mem_map.mp hw
    rfl
  refine ⟨K, out', inc', hrun, hc.move hpending rfl rfl rfl,
    ha.move hc hpending rfl rfl rfl ?_ hws, fun q' => ⟨?_, ?_⟩⟩
  · rw [hzip, hdst]
    simp [Function.comp_def]
  · rw [(htraffic q').1, hpending, sends_append, sends_append,
      sends_cons_of_none (Task.sendOn_of_recvOn hrecv q')]
  · by_cases hq : q' = q
    · subst hq
      rw [set_same, recvs_append, hnone, List.nil_append, hrest]
    · rw [set_of_ne hq, (htraffic q').2, hpending, recvs_append, recvs_append,
        recvs_cons_of_none (Task.recvOn_of_ne hrecv hq)]

end NodeOk

/-! ## Runs -/

variable [DecidableEq R]

/-- Every node agrees with a derivation that ends in `final`, and what a node
has still to send is what its successor has still to receive. -/
def Invariant (sys : System R Loc V D A) {fp : R → Footprint C Loc}
    (final : ∀ r, Knowledge sys (fp r)) (s : R → Node Q C Loc V D) : Prop :=
  ∃ out inc : R → Q → List (List V),
    (∀ r, NodeOk (final r) (out r) (inc r) (s r)) ∧
      ∀ r q, out r q = inc (sys.next r) q

section Invariant

/-- What the knowledge before a program has to say about its start. -/
structure Knowledge.Initial (K : Knowledge sys fp) (mem : Loc → V) (dev : D) :
    Prop where
  known : ∀ l ∈ K.known, mem l = K.exp l
  posted : K.posted = ∅
  credit : ∀ c, K.credit c = 0
  inv : K.inv dev mem

variable {fp : R → Footprint C Loc} {final : ∀ r, Knowledge sys (fp r)}
  {s s' : R → Node Q C Loc V D}

omit [DecidableEq R] [DecidableEq Loc] in
/-- The invariant holds when all nodes start. -/
theorem Invariant.start {K : ∀ r, Knowledge sys (fp r)}
    {prog : R → List (Instr Q C Loc V D)} {out inc : R → Q → List (List V)}
    {mem : R → Loc → V} {dev : R → D}
    (hrun : ∀ r, Run (K r) (prog r) (final r) (out r) (inc r))
    (hinit : ∀ r, (K r).Initial (mem r) (dev r))
    (htraffic : ∀ r q, out r q = inc (sys.next r) q) :
    Invariant sys final fun r => Node.start (prog r) (mem r) (dev r) := by
  refine ⟨out, inc, fun r => ⟨K r, out r, inc r, hrun r, ⟨?_, ?_, ?_⟩,
    ⟨(hinit r).known, ?_, ?_, (hinit r).inv⟩, fun q => ⟨rfl, rfl⟩⟩, htraffic⟩
  · intro t ht
    cases ht
  · intro c hc
    cases hc
  · intro c
    simp [Node.start, Node.incomplete, (hinit r).credit c]
  · intro t ht
    cases ht
  · intro x hx
    rw [(hinit r).posted] at hx
    cases hx

omit [DecidableEq Loc] in
/-- A step of one node that keeps what it has to send and to receive. -/
theorem Invariant.update (h : Invariant sys final s) (r : R)
    {n' : Node Q C Loc V D}
    (hnode : ∀ out inc, NodeOk (final r) out inc (s r) →
      NodeOk (final r) out inc n') :
    Invariant sys final (set s r n') := by
  obtain ⟨out, inc, hok, htraffic⟩ := h
  refine ⟨out, inc, fun r' => ?_, htraffic⟩
  by_cases hr : r' = r
  · subst hr
    rw [set_same]
    exact hnode _ _ (hok r')
  · rw [set_of_ne hr]
    exact hok r'

/-- A delivery takes the first payload off both ends of a link. -/
theorem Invariant.deliver (hnext : Function.Injective sys.next)
    (h : Invariant sys final s) {r : R} {q : Q}
    (hstep : deliver sys s r q = some s') : Invariant sys final s' := by
  obtain ⟨out, inc, hok, htraffic⟩ := h
  simp only [Fabric.deliver, Option.bind_eq_bind, Option.bind_eq_some_iff,
    Option.some.injEq] at hstep
  obtain ⟨⟨payload, n⟩, hsend, n', hrecv, rfl⟩ := hstep
  obtain ⟨rest, hout, hn⟩ := (hok r).sendOut hsend
  have hinc : inc (sys.next r) q = payload :: rest :=
    (htraffic r q).symm.trans hout
  have hmid : ∀ r', NodeOk (final r')
      (set out r (set (out r) q rest) r') (inc r') (set s r n r') := by
    intro r'
    by_cases hr : r' = r
    · subst hr
      rw [set_same, set_same]
      exact hn
    · rw [set_of_ne hr, set_of_ne hr]
      exact hok r'
  have hn' := (hmid (sys.next r)).recvIn hinc hrecv
  refine ⟨set out r (set (out r) q rest),
    set inc (sys.next r) (set (inc (sys.next r)) q rest), fun r' => ?_,
    fun r' q' => ?_⟩
  · by_cases hr : r' = sys.next r
    · subst hr
      rw [set_same, set_same]
      exact hn'
    · rw [set_of_ne hr, set_of_ne hr]
      exact hmid r'
  · by_cases hr : r' = r
    · subst hr
      rw [set_same, set_same]
      by_cases hq : q' = q
      · rw [hq, set_same, set_same]
      · rw [set_of_ne hq, set_of_ne hq]
        exact htraffic r' q'
    · rw [set_of_ne hr, set_of_ne fun hsame => hr (hnext hsame)]
      exact htraffic r' q'

theorem Invariant.step (hnext : Function.Injective sys.next)
    (h : Invariant sys final s) {a : Action R Q A} (ha : a.failsAt = none)
    (hstep : step sys s a = some s') : Invariant sys final s' := by
  cases a with
  | exec r =>
      obtain ⟨n', hn', rfl⟩ := Option.map_eq_some_iff.mp hstep
      exact h.update r fun _ _ hok => hok.exec hn'
  | copy r i =>
      obtain ⟨n', hn', rfl⟩ := Option.map_eq_some_iff.mp hstep
      exact h.update r fun _ _ hok => hok.copy hn'
  | deliver r q => exact h.deliver hnext hstep
  | complete r i =>
      obtain ⟨n', hn', rfl⟩ := Option.map_eq_some_iff.mp hstep
      exact h.update r fun _ _ hok => hok.complete hn'
  | device r a =>
      obtain ⟨n', hn', rfl⟩ := Option.map_eq_some_iff.mp hstep
      exact h.update r fun _ _ hok => hok.device hn'
  | reject r => cases ha
  | fail r i => cases ha

/-- Whatever the interleaving, a run without failures keeps the invariant. -/
theorem Invariant.run (hnext : Function.Injective sys.next)
    {acts : List (Action R Q A)} (hacts : ∀ a ∈ acts, a.failsAt = none)
    (h : Invariant sys final s) (hrun : run sys s acts = some s') :
    Invariant sys final s' := by
  induction acts generalizing s with
  | nil =>
      obtain rfl := Option.some.inj hrun
      exact h
  | cons a acts ih =>
      obtain ⟨s₁, hstep, hrest⟩ := Option.bind_eq_some_iff.mp hrun
      exact ih (fun b hb => hacts b (by simp [hb]))
        (h.step hnext (hacts a (by simp)) hstep) hrest

omit [DecidableEq Loc] [DecidableEq R] in
/-- A node whose program has ended is as its derivation promises. -/
theorem Invariant.returned (h : Invariant sys final s) {r : R}
    (hprog : (s r).prog = []) : Agrees (final r) (s r) := by
  obtain ⟨out, inc, hok, -⟩ := h
  obtain ⟨K, out', inc', hrun, -, ha, -⟩ := hok r
  rw [hprog] at hrun
  exact ha.implies hrun.nil_inv

end Invariant

end

end SmartNic.Fabric
