import Mathlib.Data.Set.Lattice
import SmartNic.Library.Fabric.Program

/-!
# What is known at a point of a program

A `Knowledge` describes a node between two instructions: the values that some
locations are known to hold, the locations that will hold a value once a
counter has been waited for, and the locations left to the local device.
`Run` derives the knowledge after a program from the knowledge before it,
together with the payloads that the program sends and expects.
-/

namespace SmartNic.Fabric

/-- For each counter the locations that its transfers may read and write. -/
structure Footprint (C Loc : Type) where
  reads : C → Set Loc
  writes : C → Set Loc

/-- The knowledge at a point of a node's program.  `exp` gives the values,
`known` the locations that hold them now, and `(c, l) ∈ posted` says that `l`
holds its value once the transfers on `c` are complete.  `credit` counts the
submissions that a counter was initialised for and that are still to come;
`live` has the counters of all transfers that may be incomplete.  The device
owns `own` and keeps `inv`. -/
structure Knowledge {R C Loc V D A : Type} (sys : System R Loc V D A)
    (fp : Footprint C Loc) where
  exp : Loc → V
  known : Set Loc
  posted : Set (C × Loc)
  credit : C → ℕ
  live : Set C
  own : Set Loc
  inv : D → (Loc → V) → Prop
  reads_known : ∀ c ∈ live, fp.reads c ⊆ known
  writes_own : ∀ c ∈ live, ∀ l ∈ fp.writes c, l ∉ own
  known_own : ∀ l ∈ known, l ∉ own
  posted_own : ∀ x ∈ posted, x.2 ∉ own
  inv_stable : ∀ d m m', (∀ l, l ∈ own ∨ l ∈ known → m' l = m l) →
    inv d m → inv d m'
  inv_step : ∀ a d m d' m', inv d m → (∀ l ∈ known, m l = exp l) →
    sys.deviceStep a d m = some (d', m') →
    inv d' m' ∧ ∀ l, l ∉ own → m' l = m l

section

variable {R Q C Loc V D A : Type} {sys : System R Loc V D A}
  {fp : Footprint C Loc}

namespace Knowledge

/-- The knowledge of a node whose device is at rest.  The transfers on the
counters of `sub` that have been submitted write all that they may write. -/
def passive (exp : Loc → V) (known : Set Loc) (sub live : Set C)
    (rest : D → Prop) (hreads : ∀ c ∈ live, fp.reads c ⊆ known)
    (hdevice : ∀ a d m d' m', rest d → sys.deviceStep a d m = some (d', m') →
      rest d' ∧ m' = m) :
    Knowledge sys fp where
  exp := exp
  known := known
  posted := {x | x.1 ∈ sub ∧ x.2 ∈ fp.writes x.1}
  credit := fun _ => 0
  live := live
  own := ∅
  inv := fun d _ => rest d
  reads_known := hreads
  writes_own := by simp
  known_own := by simp
  posted_own := by simp
  inv_stable := fun _ _ _ _ h => h
  inv_step := by
    intro a d m d' m' hrest _ h
    obtain ⟨hrest', rfl⟩ := hdevice a d m d' m' hrest h
    exact ⟨hrest', fun _ _ => rfl⟩

/-- `K'` asserts no more than `K`. -/
structure Implies (K K' : Knowledge sys fp) : Prop where
  exp_eq : K'.exp = K.exp
  known_sub : K'.known ⊆ K.known
  posted_sub : K'.posted ⊆ K.posted
  credit_eq : K'.credit = K.credit
  live_sub : K.live ⊆ K'.live
  own_eq : K'.own = K.own
  inv_eq : K'.inv = K.inv

theorem Implies.refl (K : Knowledge sys fp) : K.Implies K :=
  ⟨rfl, subset_rfl, subset_rfl, rfl, subset_rfl, rfl, rfl⟩

theorem Implies.trans {K₁ K₂ K₃ : Knowledge sys fp} (h : K₁.Implies K₂)
    (h' : K₂.Implies K₃) : K₁.Implies K₃ where
  exp_eq := h'.exp_eq.trans h.exp_eq
  known_sub := h'.known_sub.trans h.known_sub
  posted_sub := h'.posted_sub.trans h.posted_sub
  credit_eq := h'.credit_eq.trans h.credit_eq
  live_sub := h.live_sub.trans h'.live_sub
  own_eq := h'.own_eq.trans h.own_eq
  inv_eq := h'.inv_eq.trans h.inv_eq

variable [DecidableEq C]

/-- After a counter was initialised. -/
def init (K : Knowledge sys fp) (c : C) (n : ℕ) : Knowledge sys fp :=
  { K with credit := set K.credit c n }

/-- A transfer that may be submitted: it stays inside the footprint of its
counter, and a copy brings the right values. -/
structure Admits (K : Knowledge sys fp) (t : Task Q C Loc) : Prop where
  src_reads : ∀ l ∈ t.src, l ∈ fp.reads t.counter
  dst_writes : ∀ l ∈ t.dst, l ∈ fp.writes t.counter
  copy_exp : ∀ pairs, t.op = .copy pairs →
    ∀ p ∈ pairs, K.exp p.1 = K.exp p.2

/-- After a submission that leaves `n` to come on the counter. -/
def submit (K : Knowledge sys fp) (t : Task Q C Loc) (n : ℕ)
    (hreads : fp.reads t.counter ⊆ K.known)
    (hwrites : ∀ l ∈ fp.writes t.counter, l ∉ K.own)
    (hadmits : K.Admits t) : Knowledge sys fp :=
  { K with
    credit := set K.credit t.counter n
    live := insert t.counter K.live
    posted := K.posted ∪ {x | x.1 = t.counter ∧ x.2 ∈ t.dst}
    reads_known := by
      rintro c (rfl | hc)
      · exact hreads
      · exact K.reads_known c hc
    writes_own := by
      rintro c (rfl | hc)
      · exact hwrites
      · exact K.writes_own c hc
    posted_own := by
      rintro ⟨c, l⟩ (hx | ⟨rfl, hl⟩)
      · exact K.posted_own _ hx
      · exact hwrites l (hadmits.dst_writes l hl) }

/-- After a wait. -/
def wait (K : Knowledge sys fp) (cs : List C) : Knowledge sys fp :=
  { K with
    known := K.known ∪ {l | ∃ c ∈ cs, (c, l) ∈ K.posted}
    live := {c | c ∈ K.live ∧ c ∉ cs}
    reads_known := fun c hc =>
      (K.reads_known c hc.1).trans Set.subset_union_left
    writes_own := fun c hc => K.writes_own c hc.1
    known_own := by
      rintro l (hl | ⟨c, _, hl⟩)
      · exact K.known_own l hl
      · exact K.posted_own _ hl
    inv_stable := by
      intro d m m' h
      exact K.inv_stable d m m' fun l hl => h l (hl.imp_right Or.inl)
    inv_step := by
      intro a d m d' m' hinv hm
      exact K.inv_step a d m d' m' hinv fun l hl => hm l (Or.inl hl) }

/-- What a call has to establish to lead from `K` to `K'`. -/
structure Calls (K K' : Knowledge sys fp)
    (f : D → (Loc → V) → Option (D × (Loc → V))) : Prop where
  credit_eq : K'.credit = K.credit
  live_sub : K.live ⊆ K'.live
  posted_sub : K'.posted ⊆ K.posted
  reads_exp : ∀ c ∈ K.live, ∀ l ∈ fp.reads c, K'.exp l = K.exp l
  writes_exp : ∀ c ∈ K.live, ∀ l ∈ fp.writes c, K'.exp l = K.exp l
  posted_exp : ∀ x ∈ K'.posted, K'.exp x.2 = K.exp x.2
  spec : ∀ d m d' m', K.inv d m → (∀ l ∈ K.known, m l = K.exp l) →
    f d m = some (d', m') →
    K'.inv d' m' ∧ (∀ l ∈ K'.known, m' l = K'.exp l) ∧
      ∀ x ∈ K'.posted, m' x.2 = m x.2

end Knowledge

/-! ## Traffic -/

variable [DecidableEq Q]

/-- The payloads that the sends of a list of tasks carry on a context. -/
def sends (e : Loc → V) (ts : List (Task Q C Loc)) (q : Q) : List (List V) :=
  ts.filterMap fun t => (t.sendOn q).map (List.map e)

/-- The payloads that the receives of a list of tasks expect on a context. -/
def recvs (e : Loc → V) (ts : List (Task Q C Loc)) (q : Q) : List (List V) :=
  ts.filterMap fun t => (t.recvOn q).map (List.map e)

theorem sends_cons (e : Loc → V) (t : Task Q C Loc)
    (ts : List (Task Q C Loc)) :
    sends e (t :: ts) = fun q => sends e [t] q ++ sends e ts q :=
  funext fun _ => List.filterMap_append (l := [t])

theorem recvs_cons (e : Loc → V) (t : Task Q C Loc)
    (ts : List (Task Q C Loc)) :
    recvs e (t :: ts) = fun q => recvs e [t] q ++ recvs e ts q :=
  funext fun _ => List.filterMap_append (l := [t])

theorem sends_append (e : Loc → V) (ts ts' : List (Task Q C Loc)) (q : Q) :
    sends e (ts ++ ts') q = sends e ts q ++ sends e ts' q :=
  List.filterMap_append

theorem recvs_append (e : Loc → V) (ts ts' : List (Task Q C Loc)) (q : Q) :
    recvs e (ts ++ ts') q = recvs e ts q ++ recvs e ts' q :=
  List.filterMap_append

theorem Task.src_of_sendOn {t : Task Q C Loc} {q : Q} {src : List Loc}
    (h : t.sendOn q = some src) : t.src = src ∧ t.dst = [] := by
  unfold Task.sendOn at h
  split at h
  next s hop =>
    split at h
    · obtain rfl := Option.some.inj h
      simp [Task.src, Task.dst, hop]
    · cases h
  · cases h

theorem Task.dst_of_recvOn {t : Task Q C Loc} {q : Q} {dst : List Loc}
    (h : t.recvOn q = some dst) : t.dst = dst ∧ t.src = [] := by
  unfold Task.recvOn at h
  split at h
  next s hop =>
    split at h
    · obtain rfl := Option.some.inj h
      simp [Task.src, Task.dst, hop]
    · cases h
  · cases h

theorem Task.recvOn_of_sendOn {t : Task Q C Loc} {q : Q} {src : List Loc}
    (h : t.sendOn q = some src) (q' : Q) : t.recvOn q' = none := by
  unfold Task.sendOn at h
  split at h
  next s hop => simp [Task.recvOn, hop]
  · cases h

theorem Task.sendOn_of_recvOn {t : Task Q C Loc} {q : Q} {dst : List Loc}
    (h : t.recvOn q = some dst) (q' : Q) : t.sendOn q' = none := by
  unfold Task.recvOn at h
  split at h
  next s hop => simp [Task.sendOn, hop]
  · cases h

theorem Task.sendOn_of_ne {t : Task Q C Loc} {q q' : Q} {src : List Loc}
    (h : t.sendOn q = some src) (hq : q' ≠ q) : t.sendOn q' = none := by
  unfold Task.sendOn at h ⊢
  split at h
  · split at h
    next hctx => simp [hctx, Ne.symm hq]
    · cases h
  · cases h

theorem Task.recvOn_of_ne {t : Task Q C Loc} {q q' : Q} {dst : List Loc}
    (h : t.recvOn q = some dst) (hq : q' ≠ q) : t.recvOn q' = none := by
  unfold Task.recvOn at h ⊢
  split at h
  · split at h
    next hctx => simp [hctx, Ne.symm hq]
    · cases h
  · cases h

theorem sends_cons_of_none {e : Loc → V} {t : Task Q C Loc} {q : Q}
    (h : t.sendOn q = none) (ts : List (Task Q C Loc)) :
    sends e (t :: ts) q = sends e ts q := by
  simp [sends, h]

theorem recvs_cons_of_none {e : Loc → V} {t : Task Q C Loc} {q : Q}
    (h : t.recvOn q = none) (ts : List (Task Q C Loc)) :
    recvs e (t :: ts) q = recvs e ts q := by
  simp [recvs, h]

theorem sends_cons_of_some {e : Loc → V} {t : Task Q C Loc} {q : Q}
    {src : List Loc} (h : t.sendOn q = some src) (ts : List (Task Q C Loc)) :
    sends e (t :: ts) q = src.map e :: sends e ts q := by
  simp [sends, h]

theorem recvs_cons_of_some {e : Loc → V} {t : Task Q C Loc} {q : Q}
    {dst : List Loc} (h : t.recvOn q = some dst) (ts : List (Task Q C Loc)) :
    recvs e (t :: ts) q = dst.map e :: recvs e ts q := by
  simp [recvs, h]

/-- Payloads only depend on the values inside the tasks' footprints. -/
theorem sends_congr {e e' : Loc → V} {ts : List (Task Q C Loc)}
    (h : ∀ t ∈ ts, ∀ l ∈ t.src, e' l = e l) (q : Q) :
    sends e' ts q = sends e ts q := by
  refine List.filterMap_congr fun t ht => ?_
  cases hsend : t.sendOn q with
  | none => rfl
  | some src =>
      rw [Option.map_some, Option.map_some, Option.some_inj]
      refine List.map_congr_left fun l hl => h t ht l ?_
      rw [(Task.src_of_sendOn hsend).1]
      exact hl

theorem recvs_congr {e e' : Loc → V} {ts : List (Task Q C Loc)}
    (h : ∀ t ∈ ts, ∀ l ∈ t.dst, e' l = e l) (q : Q) :
    recvs e' ts q = recvs e ts q := by
  refine List.filterMap_congr fun t ht => ?_
  cases hrecv : t.recvOn q with
  | none => rfl
  | some dst =>
      rw [Option.map_some, Option.map_some, Option.some_inj]
      refine List.map_congr_left fun l hl => h t ht l ?_
      rw [(Task.dst_of_recvOn hrecv).1]
      exact hl

variable [DecidableEq C]

/-! ## Derivations -/

/-- From `K` the program leads to `K'` and sends and expects the given
payloads on each context. -/
inductive Run : Knowledge sys fp → List (Instr Q C Loc V D) →
    Knowledge sys fp → (Q → List (List V)) → (Q → List (List V)) → Prop where
  | nil (K) : Run K [] K (fun _ => []) (fun _ => [])
  | conseq {K K₁ K' prog out inc} (h : K.Implies K₁)
      (hrun : Run K₁ prog K' out inc) : Run K prog K' out inc
  | init {K K' rest out inc} (c : C) (n : ℕ) (hcredit : K.credit c = 0)
      (hlive : c ∉ K.live) (hrun : Run (K.init c n) rest K' out inc) :
      Run K (.init c n :: rest) K' out inc
  | submit {K K' rest out inc} (t : Task Q C Loc) (n : ℕ)
      (hcredit : K.credit t.counter = n + 1)
      (hreads : fp.reads t.counter ⊆ K.known)
      (hwrites : ∀ l ∈ fp.writes t.counter, l ∉ K.own)
      (hadmits : K.Admits t)
      (hrun : Run (K.submit t n hreads hwrites hadmits) rest K' out inc) :
      Run K (.submit t :: rest) K'
        (fun q => sends K.exp [t] q ++ out q)
        (fun q => recvs K.exp [t] q ++ inc q)
  | wait {K K' rest out inc} (cs : List C)
      (hcredit : ∀ c ∈ cs, K.credit c = 0)
      (hrun : Run (K.wait cs) rest K' out inc) :
      Run K (.wait cs :: rest) K' out inc
  | call {K K₁ K' rest out inc}
      (f : D → (Loc → V) → Option (D × (Loc → V))) (h : K.Calls K₁ f)
      (hrun : Run K₁ rest K' out inc) :
      Run K (.call f :: rest) K' out inc

/-- The end of a program: nothing is left but to forget. -/
theorem Run.nil_inv {K K' : Knowledge sys fp} {out inc : Q → List (List V)}
    (h : Run K [] K' out inc) : K.Implies K' := by
  generalize hprog : ([] : List (Instr Q C Loc V D)) = prog at h
  induction h with
  | nil K => exact .refl K
  | conseq h _ ih => exact h.trans (ih hprog)
  | _ => cases hprog

theorem Run.append {K K₁ K' : Knowledge sys fp}
    {prog prog' : List (Instr Q C Loc V D)}
    {out inc out' inc' : Q → List (List V)} (h : Run K prog K₁ out inc)
    (h' : Run K₁ prog' K' out' inc') :
    Run K (prog ++ prog') K' (fun q => out q ++ out' q)
      (fun q => inc q ++ inc' q) := by
  induction h with
  | nil K => exact h'
  | conseq h _ ih => exact .conseq h (ih h')
  | init c n hcredit hlive _ ih => exact .init c n hcredit hlive (ih h')
  | submit t n hcredit hreads hwrites hadmits _ ih =>
      simp only [List.cons_append, List.append_assoc]
      exact .submit t n hcredit hreads hwrites hadmits (ih h')
  | wait cs hcredit _ ih => exact .wait cs hcredit (ih h')
  | call f h _ ih => exact .call f h (ih h')

/-- The knowledge after a program may be weakened. -/
theorem Run.weaken {K K₁ K' : Knowledge sys fp}
    {prog : List (Instr Q C Loc V D)} {out inc : Q → List (List V)}
    (h : Run K prog K₁ out inc) (himp : K₁.Implies K') :
    Run K prog K' out inc := by
  have hrun := h.append (.conseq himp (.nil _))
  simp only [List.append_nil] at hrun
  exact hrun

/-- A loop: each pass leads from one knowledge to the next. -/
theorem Run.range {K : ℕ → Knowledge sys fp}
    {body : ℕ → List (Instr Q C Loc V D)} {out inc : ℕ → Q → List (List V)}
    (n : ℕ) (h : ∀ i < n, Run (K i) (body i) (K (i + 1)) (out i) (inc i)) :
    Run (K 0) ((List.range n).flatMap body) (K n)
      (fun q => (List.range n).flatMap fun i => out i q)
      (fun q => (List.range n).flatMap fun i => inc i q) := by
  induction n with
  | zero => exact .nil _
  | succ n ih =>
      have hfirst := ih fun i hi => h i (by omega)
      have hlast := h n (by omega)
      simp only [List.range_succ, List.flatMap_append, List.flatMap_singleton]
      exact hfirst.append hlast

/-! ## Batches -/

/-- Initialise a counter and submit its transfers. -/
def batch (c : C) (ts : List (Task Q C Loc)) : List (Instr Q C Loc V D) :=
  .init c ts.length :: ts.map .submit

namespace Knowledge

/-- After a batch. -/
def post (K : Knowledge sys fp) (c : C) (ts : List (Task Q C Loc))
    (hreads : fp.reads c ⊆ K.known)
    (hwrites : ∀ l ∈ fp.writes c, l ∉ K.own)
    (hts : ∀ t ∈ ts, t.counter = c ∧ K.Admits t) : Knowledge sys fp :=
  { K with
    live := insert c K.live
    posted := K.posted ∪ {x | x.1 = c ∧ ∃ t ∈ ts, x.2 ∈ t.dst}
    reads_known := by
      rintro c' (rfl | hc)
      · exact hreads
      · exact K.reads_known c' hc
    writes_own := by
      rintro c' (rfl | hc)
      · exact hwrites
      · exact K.writes_own c' hc
    posted_own := by
      rintro ⟨c', l⟩ (hx | ⟨rfl, t, ht, hl⟩)
      · exact K.posted_own _ hx
      · obtain ⟨hc, hadmits⟩ := hts t ht
        exact hwrites l (hc ▸ hadmits.dst_writes l hl) }

end Knowledge

omit [DecidableEq Q] [DecidableEq C] in
theorem Knowledge.Admits.of_exp {K K' : Knowledge sys fp} {t : Task Q C Loc}
    (h : K.Admits t) (hexp : K'.exp = K.exp) : K'.Admits t where
  src_reads := h.src_reads
  dst_writes := h.dst_writes
  copy_exp := by
    rw [hexp]
    exact h.copy_exp

/-- The submissions of a batch, one after the other. -/
theorem Run.submits (K : Knowledge sys fp) (c : C) (ts : List (Task Q C Loc))
    (hcredit : K.credit c = ts.length) (hreads : fp.reads c ⊆ K.known)
    (hwrites : ∀ l ∈ fp.writes c, l ∉ K.own)
    (hts : ∀ t ∈ ts, t.counter = c ∧ K.Admits t) :
    Run K (ts.map .submit) ((K.post c ts hreads hwrites hts).init c 0)
      (sends K.exp ts) (recvs K.exp ts) := by
  induction ts generalizing K with
  | nil =>
      have himplies : K.Implies
          ((K.post c [] hreads hwrites hts).init c 0) := by
        refine ⟨rfl, subset_rfl, ?_, ?_, Set.subset_insert _ _, rfl, rfl⟩
        · rintro x (hx | ⟨-, t, ht, -⟩)
          · exact hx
          · cases ht
        · funext c'
          by_cases h : c' = c
          · subst h
            simpa [Knowledge.init, Knowledge.post] using hcredit.symm
          · simp [Knowledge.init, Knowledge.post, set, h]
      exact .conseq himplies (.nil _)
  | cons t ts ih =>
      obtain ⟨rfl, hadmits⟩ := hts t (by simp)
      have hrest : ∀ t' ∈ ts, t'.counter = t.counter ∧
          (K.submit t ts.length hreads hwrites hadmits).Admits t' :=
        fun t' ht' =>
          ⟨(hts t' (by simp [ht'])).1, (hts t' (by simp [ht'])).2.of_exp rfl⟩
      have hloop := ih (K.submit t ts.length hreads hwrites hadmits)
        (by simp [Knowledge.submit]) hreads hwrites hrest
      have himplies : ((((K.submit t ts.length hreads hwrites
          hadmits).post t.counter ts hreads hwrites hrest).init t.counter
          0)).Implies
          ((K.post t.counter (t :: ts) hreads hwrites hts).init t.counter
            0) := by
        refine ⟨rfl, subset_rfl, ?_, ?_, ?_, rfl, rfl⟩
        · rintro x (hx | ⟨hc, t', ht', hl⟩)
          · exact .inl (.inl hx)
          · rcases List.mem_cons.mp ht' with rfl | ht'
            · exact .inl (.inr ⟨hc, hl⟩)
            · exact .inr ⟨hc, t', ht', hl⟩
        · funext c'
          by_cases h : c' = t.counter
          · simp [Knowledge.init, set, h]
          · simp [Knowledge.init, Knowledge.post, Knowledge.submit, set, h]
        · exact Set.insert_subset_iff.mpr ⟨.inl rfl, subset_rfl⟩
      rw [sends_cons, recvs_cons]
      exact .submit t ts.length hcredit hreads hwrites hadmits
        (hloop.weaken himplies)

/-- A whole batch on a counter that is not in use. -/
theorem Run.batch {K : Knowledge sys fp} (c : C) (ts : List (Task Q C Loc))
    (hcredit : K.credit c = 0) (hlive : c ∉ K.live)
    (hreads : fp.reads c ⊆ K.known)
    (hwrites : ∀ l ∈ fp.writes c, l ∉ K.own)
    (hts : ∀ t ∈ ts, t.counter = c ∧ K.Admits t) :
    Run K (batch c ts) (K.post c ts hreads hwrites hts)
      (sends K.exp ts) (recvs K.exp ts) := by
  have hts' : ∀ t ∈ ts, t.counter = c ∧ (K.init c ts.length).Admits t :=
    fun t ht => ⟨(hts t ht).1, (hts t ht).2.of_exp rfl⟩
  have hloop := Run.submits (K.init c ts.length) c ts
    (by simp [Knowledge.init]) hreads hwrites hts'
  have hend : ((((K.init c ts.length).post c ts hreads hwrites hts').init c
      0)).Implies (K.post c ts hreads hwrites hts) := by
    refine ⟨rfl, subset_rfl, subset_rfl, ?_, subset_rfl, rfl, rfl⟩
    funext c'
    by_cases h : c' = c
    · subst h
      simpa [Knowledge.init, Knowledge.post] using hcredit
    · simp [Knowledge.init, Knowledge.post, set, h]
  exact .init c ts.length hcredit hlive (hloop.weaken hend)

/-! ## Nodes whose device is at rest -/

section Passive

variable {exp : Loc → V} {known known' : Set Loc} {sub sub' live live' : Set C}
  {rest : D → Prop} {hreads : ∀ c ∈ live, fp.reads c ⊆ known}
  (hreads' : ∀ c ∈ live', fp.reads c ⊆ known')
  {hdevice : ∀ a d m d' m', rest d → sys.deviceStep a d m = some (d', m') →
    rest d' ∧ m' = m}

variable (hdevice) in
omit [DecidableEq Q] [DecidableEq C] in
theorem Knowledge.passive_implies (hknown : known' ⊆ known)
    (hsub : sub' ⊆ sub) (hlive : live ⊆ live') :
    (passive exp known sub live rest hreads hdevice).Implies
      (passive exp known' sub' live' rest hreads' hdevice) where
  exp_eq := rfl
  known_sub := hknown
  posted_sub := fun _ hx => ⟨hsub hx.1, hx.2⟩
  credit_eq := rfl
  live_sub := hlive
  own_eq := rfl
  inv_eq := rfl

/-- A batch that writes all that its counter may write. -/
theorem Run.passive_batch (c : C) (ts : List (Task Q C Loc)) (hfresh : c ∉ live)
    (hknown : fp.reads c ⊆ known)
    (hts : ∀ t ∈ ts, t.counter = c ∧
      (Knowledge.passive exp known sub live rest hreads hdevice).Admits t)
    (hcover : ∀ l ∈ fp.writes c, ∃ t ∈ ts, l ∈ t.dst)
    (hknown' : known' ⊆ known) (hsub : sub' ⊆ insert c sub)
    (hlive : insert c live ⊆ live') :
    Run (Knowledge.passive exp known sub live rest hreads hdevice) (Fabric.batch c ts)
      (Knowledge.passive exp known' sub' live' rest hreads' hdevice)
      (sends exp ts) (recvs exp ts) := by
  have hbatch := Run.batch (K := Knowledge.passive exp known sub live rest
    hreads hdevice) c ts rfl hfresh hknown (fun l _ => Set.notMem_empty l) hts
  have hend : ((Knowledge.passive exp known sub live rest hreads hdevice).post c ts
      hknown (fun l _ => Set.notMem_empty l) hts).Implies
      (Knowledge.passive exp known' sub' live' rest hreads' hdevice) := by
    refine ⟨rfl, hknown', ?_, rfl, hlive, rfl, rfl⟩
    rintro ⟨c', l⟩ ⟨hc', hl⟩
    rcases hsub hc' with rfl | hc'
    · exact .inr ⟨rfl, hcover l hl⟩
    · exact .inl ⟨hc', hl⟩
  exact hbatch.weaken hend

/-- After a wait the locations that the counters may write are known. -/
theorem Run.passive_wait (cs : List C)
    (hknown : ∀ l ∈ known', l ∈ known ∨ ∃ c ∈ cs, c ∈ sub ∧ l ∈ fp.writes c)
    (hsub : sub' ⊆ sub) (hlive : ∀ c ∈ live, c ∈ cs ∨ c ∈ live') :
    Run (Knowledge.passive exp known sub live rest hreads hdevice)
      [.wait cs (Q := Q)]
      (Knowledge.passive exp known' sub' live' rest hreads' hdevice)
      (fun _ => []) (fun _ => []) := by
  refine .wait cs (fun _ _ => rfl) (.conseq ?_ (.nil _))
  refine ⟨rfl, ?_, fun _ hx => ⟨hsub hx.1, hx.2⟩, rfl, ?_, rfl, rfl⟩
  · intro l hl
    rcases hknown l hl with hl | ⟨c, hc, hcsub, hl⟩
    · exact .inl hl
    · exact .inr ⟨c, hc, hcsub, hl⟩
  · rintro c ⟨hc, hcs⟩
    exact (hlive c hc).resolve_left hcs

end Passive

end

end SmartNic.Fabric
