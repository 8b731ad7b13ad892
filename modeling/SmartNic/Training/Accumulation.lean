import SmartNic.Library.Machine
import SmartNic.Training.Optimizer

/-!
# Accumulated gradients

`__partition_grads` copies a reduced gradient, adds it or finds it in place.
What a parameter's shard has been given is the sum of its gradients since
`zero_grad` as long as each result is used in the way that its micro-step needs.
-/

namespace SmartNic.Training

open SmartNic.Machine Ranges

variable {V O H : Type}

/-! ## Output in place -/

section InPlace

variable (cfg : Config V O H)

/-- The parts of an output are the slots of its parameters. -/
def Config.Aligned (params : List DsId) : Prop :=
  ∀ p ∈ params, cfg.inSlot params p = true

instance (params : List DsId) : Decidable (cfg.Aligned params) :=
  inferInstanceAs (Decidable (∀ p ∈ params, cfg.inSlot params p = true))

variable {cfg}

/-- Then the output meets no other slot. -/
theorem Config.Aligned.apart {params : List DsId} (h : cfg.Aligned params)
    (hnodup : params.Nodup) (hknown : ∀ p ∈ params, p ∈ cfg.allParams) {q : DsId}
    (hq : q ∉ params) : (cfg.output params).Apart (cfg.slot q) := by
  refine apart_of_parts cfg.partitionNumel params hnodup (cfg.output params).start _ ?_
  intro p hp
  obtain ⟨-, hstart⟩ := of_decide_eq_true (h p hp)
  have hne : p ≠ q := by
    rintro rfl
    exact hq hp
  rw [hstart]
  exact apart_of_offsets cfg.partitionNumel _ (hknown p hp) hne

end InPlace

/-! ## Results of a bucket -/

theorem update_update_apply {I P : Type} [DecidableEq I] [DecidableEq P]
    (f : I → P → V) (i j : I) (p q : P) (v : V) :
    Function.update f j (Function.update (f j) p v) i q =
      if i = j ∧ q = p then v else f i q := by
  by_cases hi : i = j
  · subst hi
    rw [Function.update_self]
    by_cases hq : q = p
    · subst hq
      rw [Function.update_self, if_pos ⟨rfl, rfl⟩]
    · rw [Function.update_of_ne hq, if_neg fun h => hq h.2]
  · rw [Function.update_of_ne hi, if_neg fun h => hi h.1]

section Flush

variable (cfg : Config V O H) (w : Wait V) (rs : PendingRs V)

/-- A parameter of the bucket that has a shard here. -/
def Config.Hits (params : List DsId) (p : DsId) : Prop :=
  p ∈ params ∧ cfg.emptyOn cfg.rank p = false

instance (params : List DsId) (p : DsId) : Decidable (cfg.Hits params p) :=
  inferInstanceAs (Decidable (_ ∧ _))

theorem Config.hits_singleton {p q : DsId} :
    cfg.Hits [p] q ↔ q = p ∧ cfg.emptyOn cfg.rank p = false := by
  unfold Config.Hits
  rw [List.mem_singleton]
  constructor
  · rintro ⟨rfl, hne⟩
    exact ⟨rfl, hne⟩
  · rintro ⟨rfl, hne⟩
    exact ⟨rfl, hne⟩

variable [Add V]

/-- The new gradient of a shard. -/
def State.landed (s : State V O H) (p : DsId) : V :=
  if rs.inPlace && cfg.inSlot rs.params p then s.gradPartitions p
  else if s.microStepId = 0 then w.result p
  else s.gradPartitions p + w.result p

/-- The gradient that the host reads. -/
def State.seen (s : State V O H) (p : DsId) : V :=
  if cfg.rsUseNccl && (!(rs.inPlace && cfg.inSlot rs.params p) &&
      s.microStepId = 0) && p ∈ w.late then
    s.gradPartitions p
  else s.landed cfg w rs p

/-- What `__partition_grads` makes of a state. -/
def State.partitioned (s : State V O H) (params : List DsId) : State V O H :=
  { s with
    kept := params.foldl (fun kept p => insert p kept) s.kept
    gradPartitions := fun p =>
      if cfg.Hits params p then s.landed cfg w rs p else s.gradPartitions p
    fp32GradBufs := fun i p =>
      if s.boundary cfg ∧ i = s.gradBufSwitch ∧ cfg.Hits params p then
        s.seen cfg w rs p
      else s.fp32GradBufs i p }

variable {cfg w rs} {s : State V O H}

theorem State.partitionGrad_eq (p : DsId) :
    State.partitionGrad cfg w rs s p = s.partitioned cfg w rs [p] := by
  unfold State.partitionGrad State.partitioned
  simp only [Config.hits_singleton]
  cases hempty : cfg.emptyOn cfg.rank p with
  | true => simp
  | false =>
      have hboundary : State.boundary cfg { s with kept := insert p s.kept } =
          s.boundary cfg := rfl
      simp only [Bool.false_eq_true, if_false, and_true, hboundary]
      congr 1
      · funext q
        by_cases hq : q = p
        · subst hq
          rw [Function.update_self, if_pos rfl]
          rfl
        · rw [Function.update_of_ne hq, if_neg hq]
      · funext i q
        cases hb : s.boundary cfg with
        | true =>
            simp only [if_true, true_and, update_update_apply]
            by_cases hq : i = s.gradBufSwitch ∧ q = p
            · rw [if_pos hq, if_pos hq, hq.2]
              rfl
            · rw [if_neg hq, if_neg hq]
        | false => simp

/-- A part of the bucket first. -/
theorem State.partitioned_append {ps qs : List DsId} (h : ps.Disjoint qs) :
    (s.partitioned cfg w rs ps).partitioned cfg w rs qs =
      s.partitioned cfg w rs (ps ++ qs) := by
  have hcases : ∀ p, cfg.Hits (ps ++ qs) p ↔ cfg.Hits ps p ∨ cfg.Hits qs p := by
    intro p
    unfold Config.Hits
    rw [List.mem_append, or_and_right]
  have hsame : ∀ p, cfg.Hits qs p →
      (s.partitioned cfg w rs ps).gradPartitions p = s.gradPartitions p := by
    intro p hp
    exact if_neg fun hps => h hps.1 hp.1
  have hlanded : ∀ p, cfg.Hits qs p →
      (s.partitioned cfg w rs ps).landed cfg w rs p = s.landed cfg w rs p := by
    intro p hp
    unfold State.landed
    rw [hsame p hp]
    rfl
  have hseen : ∀ p, cfg.Hits qs p →
      (s.partitioned cfg w rs ps).seen cfg w rs p =
        s.seen cfg w rs p := by
    intro p hp
    unfold State.seen
    rw [hsame p hp, hlanded p hp]
    rfl
  unfold State.partitioned
  congr 1
  · funext p
    by_cases hqs : cfg.Hits qs p
    · rw [if_pos hqs, if_pos ((hcases p).mpr (.inr hqs))]
      exact hlanded p hqs
    · rw [if_neg hqs]
      simp only [hcases, hqs, or_false]
  · funext i p
    by_cases hqs : cfg.Hits qs p
    · have hps : ¬ cfg.Hits ps p := fun hps => h hps.1 hqs.1
      simp only [hcases, hqs, hps, or_true, and_true, and_false, if_false]
      by_cases hwritten : s.boundary cfg = true ∧ i = s.gradBufSwitch
      · rw [if_pos hwritten]
        exact (if_pos hwritten).trans (hseen p hqs)
      · rw [if_neg hwritten]
        exact if_neg hwritten
    · simp only [hcases, hqs, or_false, and_false, if_false]
  · rw [List.foldl_append]

theorem State.foldl_partitionGrad {params : List DsId} (h : params.Nodup) :
    params.foldl (State.partitionGrad cfg w rs) s =
      s.partitioned cfg w rs params := by
  induction params generalizing s with
  | nil =>
      unfold State.partitioned Config.Hits
      simp
  | cons p params ih =>
      rw [List.foldl_cons, State.partitionGrad_eq, ih h.of_cons,
        State.partitioned_append ?_]
      · rfl
      · intro q hq hq'
        obtain rfl := List.mem_singleton.mp hq
        exact (List.nodup_cons.mp h).1 hq'

theorem State.mem_kept_partitioned {params : List DsId} {p : DsId} :
    p ∈ (s.partitioned cfg w rs params).kept ↔ p ∈ params ∨ p ∈ s.kept := by
  change p ∈ params.foldl (fun kept p => insert p kept) s.kept ↔ _
  generalize s.kept = kept
  induction params generalizing kept with
  | nil => simp
  | cons q params ih =>
      rw [List.foldl_cons, ih, Finset.mem_insert, List.mem_cons]
      tauto

end Flush

/-! ## The invariant -/

section Invariant

variable {cfg : Config V O H} {b : Backward V} {s : State V O H}

/-- The parameters of the pending ReduceScatter. -/
def State.pendingParams (s : State V O H) : List DsId :=
  match s.pendingRs with
  | some rs => rs.params
  | none => []

/-- The parameters whose gradients `__partition_grads` has yet to see. -/
def State.waiting (s : State V O H) : List DsId :=
  s.paramsInIpgBucket ++ s.pendingParams

theorem State.waiting_some {rs : PendingRs V} (h : s.pendingRs = some rs) :
    s.waiting = s.paramsInIpgBucket ++ rs.params := by
  unfold State.waiting State.pendingParams
  rw [h]

theorem State.waiting_none (h : s.pendingRs = none) :
    s.waiting = s.paramsInIpgBucket := by
  unfold State.waiting State.pendingParams
  rw [h, List.append_nil]

/-- What reducing and partitioning leaves alone. -/
structure State.Frame (s s' : State V O H) : Prop where
  eq : s' =
    { s with
      paramsInIpgBucket := s'.paramsInIpgBucket
      pendingRs := s'.pendingRs
      gradPartitions := s'.gradPartitions
      fp32GradBufs := s'.fp32GradBufs
      kept := s'.kept }
  waiting : ∀ p ∈ s'.waiting, p ∈ s.waiting
  kept : ∀ p ∉ s.waiting, (p ∈ s'.kept ↔ p ∈ s.kept)
  bufs : ∀ i p, p ∉ s.waiting ∨ i ≠ s.gradBufSwitch →
    s'.fp32GradBufs i p = s.fp32GradBufs i p

section Frame

variable {s s' : State V O H} (h : s.Frame s')

include h

theorem State.Frame.phase : s'.phase = s.phase := by rw [h.eq]

theorem State.Frame.globalIter : s'.globalIter = s.globalIter := by rw [h.eq]

theorem State.Frame.boundary (cfg : Config V O H) :
    s'.boundary cfg = s.boundary cfg := by
  rw [h.eq]
  rfl

theorem State.Frame.reached : s'.reached = s.reached := by rw [h.eq]

theorem State.Frame.since : s'.since = s.since := by rw [h.eq]

theorem State.Frame.due : s'.due = s.due := by rw [h.eq]

end Frame

theorem State.Frame.refl (s : State V O H) : s.Frame s where
  eq := rfl
  waiting _ hp := hp
  kept _ _ := Iff.rfl
  bufs _ _ _ := rfl

variable [AddZeroClass V]

/-- The reduced gradient of the current micro-step. -/
def State.mean (cfg : Config V O H) (b : Backward V) (s : State V O H)
    (p : DsId) : V :=
  cfg.reduced p fun r => b.grad s.globalIter r p

/-- What a shard has been given since `zero_grad`. -/
def State.given (s : State V O H) (p : DsId) : V :=
  if p ∈ s.kept then s.gradPartitions p else 0

structure State.Inv (cfg : Config V O H) (b : Backward V) (s : State V O H) :
    Prop where
  nodup : s.waiting.Nodup
  known : ∀ p ∈ s.waiting, p ∈ cfg.allParams
  reached : ∀ p ∈ s.waiting, p ∈ s.reached
  since : s.reached ⊆ s.since
  kept : s.kept ⊆ s.since
  /-- A shard that waits for nothing has been given all that is due. -/
  drained : ∀ p ∈ s.since, p ∉ s.waiting → p ∈ s.kept
  settled : ∀ p, cfg.emptyOn cfg.rank p = false → p ∉ s.waiting →
    s.given p = s.due p
  due : ∀ p, cfg.emptyOn cfg.rank p = false → p ∈ s.waiting →
    s.due p = s.given p + s.mean cfg b p
  result : ∀ rs, s.pendingRs = some rs → ∀ p ∈ rs.params,
    rs.submitted p = s.mean cfg b p
  clean : ∀ p ∈ s.paramsInIpgBucket, p ∈ s.kept →
    ∀ r < cfg.worldSize, cfg.emptyOn r p = false
  first : s.microStepId = 0 → ∀ p ∈ s.waiting, p ∉ s.kept
  seen : s.microStepId = 0 → s.kept ⊆ s.reached
  written : s.boundary cfg → ∀ p, cfg.emptyOn cfg.rank p = false →
    p ∈ s.reached → p ∉ s.waiting → s.phase ≠ .start →
      s.fp32GradBufs s.gradBufSwitch p = s.gradPartitions p
  idle : s.phase = .start ∨ s.phase = .update → s.waiting = []
  bucket : s.phase = .partition → s.paramsInIpgBucket = []
  later : s.phase = .partition ∨ s.phase = .update → s.microStepId ≠ 0
  fresh : s.phase = .start → s.microStepId = 0 → s.kept = ∅
  covered : s.phase = .partition ∨ s.phase = .update → s.boundary cfg →
    s.since ⊆ s.reached

theorem State.Inv.init : (State.init cfg).Inv cfg b where
  nodup := List.nodup_nil
  known p hp := by cases hp
  reached p hp := by cases hp
  since := Finset.Subset.refl _
  kept := Finset.Subset.refl _
  drained p hp := absurd hp (Finset.notMem_empty p)
  settled p _ _ := if_neg (Finset.notMem_empty p)
  due p _ hp := by cases hp
  result rs h := by cases h
  clean p hp := by cases hp
  first _ p hp := by cases hp
  seen _ := Finset.Subset.refl _
  written _ _ _ _ _ h := absurd rfl h
  idle _ := rfl
  bucket h := by cases h
  later h := by rcases h with h | h <;> cases h
  fresh _ _ := rfl
  covered h := by rcases h with h | h <;> cases h

/-- The pending ReduceScatter has delivered what the gradients that were submitted
are reduced to. -/
def State.Delivered (cfg : Config V O H) (s : State V O H) (w : Wait V) : Prop :=
  ∀ rs, s.pendingRs = some rs → ∀ p ∈ rs.params,
    cfg.emptyOn cfg.rank p = false → w.result p = rs.submitted p

/-- Its result can be used as it will be: an output in place has every shard in its
slot; it is in place or copied for a first gradient, and added for a later one. -/
def State.FlushOk (cfg : Config V O H) (s : State V O H) (w : Wait V) : Prop :=
  s.Delivered cfg w ∧
    ∀ rs, s.pendingRs = some rs → (rs.inPlace → cfg.Aligned rs.params) ∧
      ∀ p ∈ rs.params, cfg.emptyOn cfg.rank p = false →
        if rs.inPlace then p ∉ s.kept
        else if s.microStepId = 0 then
          s.boundary cfg → cfg.rsUseNccl → p ∉ w.late
        else p ∈ s.kept ∨ s.gradPartitions p = 0

theorem State.flushPendingRs_some {w : Wait V} {rs : PendingRs V}
    (h : s.pendingRs = some rs) (hnodup : rs.params.Nodup) :
    s.flushPendingRs cfg w =
      { (s.arrived cfg w rs).partitioned cfg w rs rs.params with
        pendingRs := none } := by
  unfold State.flushPendingRs
  rw [h]
  dsimp only
  rw [State.foldl_partitionGrad hnodup]

theorem State.flushPendingRs_none {w : Wait V} (h : s.pendingRs = none) :
    s.flushPendingRs cfg w = s := by
  unfold State.flushPendingRs
  rw [h]

omit [AddZeroClass V] in
/-- The slots of the other parameters are as before. -/
theorem State.arrived_of_notMem {w : Wait V} {rs : PendingRs V}
    (haligned : rs.inPlace → cfg.Aligned rs.params) (hnodup : rs.params.Nodup)
    (hknown : ∀ p ∈ rs.params, p ∈ cfg.allParams) {p : DsId} (hp : p ∉ rs.params) :
    (s.arrived cfg w rs).gradPartitions p = s.gradPartitions p := by
  unfold State.arrived
  dsimp only
  rw [if_neg, if_neg]
  · rintro ⟨hplace, hmeets⟩
    exact hmeets ((haligned hplace).apart hnodup hknown hp)
  · rintro ⟨-, hslot⟩
    exact hp (of_decide_eq_true hslot).1

/-- A result that can be used is used as it has to be. -/
theorem State.Inv.landed (h : s.Inv cfg b) {w : Wait V}
    (hok : s.FlushOk cfg w) {rs : PendingRs V} (hrs : s.pendingRs = some rs)
    {p : DsId} (hp : p ∈ rs.params) (hne : cfg.emptyOn cfg.rank p = false) :
    (s.arrived cfg w rs).landed cfg w rs p = s.due p := by
  have hwaiting : p ∈ s.waiting := by
    rw [State.waiting_some hrs]
    exact List.mem_append_right _ hp
  obtain ⟨haligned, hparams⟩ := hok.2 rs hrs
  have hresult := hok.1 rs hrs p hp hne
  have hfits := hparams p hp hne
  rw [h.due p hne hwaiting, ← h.result rs hrs p hp, ← hresult]
  unfold State.landed State.given State.arrived
  split at hfits
  next hplace => simp [hplace, hfits, haligned hplace p hp]
  next hplace =>
    split at hfits
    next hfirst => simp [hplace, hfirst, h.first hfirst p hwaiting]
    next hlater =>
      rcases hfits with hkept | hzero
      · simp [hplace, hlater, hkept]
      · simp [hplace, hlater, hzero]

theorem State.FlushOk.seen_eq {w : Wait V}
    (hok : s.FlushOk cfg w) {rs : PendingRs V} (hrs : s.pendingRs = some rs)
    {p : DsId} (hp : p ∈ rs.params) (hne : cfg.emptyOn cfg.rank p = false)
    (hboundary : s.boundary cfg) :
    (s.arrived cfg w rs).seen cfg w rs p =
      (s.arrived cfg w rs).landed cfg w rs p := by
  obtain ⟨haligned, hparams⟩ := hok.2 rs hrs
  have hfits := hparams p hp hne
  unfold State.seen
  refine if_neg ?_
  intro hlate
  simp only [Bool.and_eq_true, Bool.not_eq_true', decide_eq_true_eq] at hlate
  obtain ⟨⟨hnccl, hcopy, hfirst⟩, hmem⟩ := hlate
  have hplace : rs.inPlace = false := by
    cases hplace : rs.inPlace with
    | true => simp [hplace, haligned hplace p hp] at hcopy
    | false => rfl
  have hzero : s.microStepId = 0 := hfirst
  rw [hplace, if_neg Bool.false_ne_true, if_pos hzero] at hfits
  exact hfits hboundary hnccl hmem

/-- A pending ReduceScatter has parameters of the model, once each. -/
theorem State.Inv.pending (h : s.Inv cfg b) {rs : PendingRs V}
    (hrs : s.pendingRs = some rs) :
    rs.params.Nodup ∧ ∀ p ∈ rs.params, p ∈ cfg.allParams := by
  have hnodup := h.nodup
  have hknown := h.known
  rw [State.waiting_some hrs] at hnodup hknown
  exact ⟨(List.nodup_append'.mp hnodup).2.1,
    fun p hp => hknown p (List.mem_append_right _ hp)⟩

/-- Neither the output nor the partition changes the other shards. -/
theorem State.Inv.gradPartitions_other (h : s.Inv cfg b) {w : Wait V}
    (hok : s.FlushOk cfg w) {rs : PendingRs V} (hrs : s.pendingRs = some rs)
    {p : DsId} (hp : p ∉ rs.params) :
    ((s.arrived cfg w rs).partitioned cfg w rs rs.params).gradPartitions p =
      s.gradPartitions p := by
  obtain ⟨hnodup, hknown⟩ := h.pending hrs
  have hmiss : ¬ cfg.Hits rs.params p := fun hit => hp hit.1
  exact (if_neg hmiss).trans
    (State.arrived_of_notMem (hok.2 rs hrs).1 hnodup hknown hp)

/-- Nor what they have been given. -/
theorem State.Inv.given_other (h : s.Inv cfg b) {w : Wait V}
    (hok : s.FlushOk cfg w) {rs : PendingRs V} (hrs : s.pendingRs = some rs)
    {p : DsId} (hp : p ∉ rs.params) :
    ((s.arrived cfg w rs).partitioned cfg w rs rs.params).given p = s.given p := by
  have hmem : p ∈ ((s.arrived cfg w rs).partitioned cfg w rs rs.params).kept ↔
      p ∈ rs.params ∨ p ∈ s.kept := State.mem_kept_partitioned
  unfold State.given
  exact if_congr (hmem.trans (or_iff_right hp)) (h.gradPartitions_other hok hrs hp) rfl

/-- The partitioned shards hold what they were to be given. -/
theorem State.Inv.gradPartitions_partitioned (h : s.Inv cfg b) {w : Wait V}
    (hok : s.FlushOk cfg w) {rs : PendingRs V} (hrs : s.pendingRs = some rs)
    {p : DsId} (hp : p ∈ rs.params) (hne : cfg.emptyOn cfg.rank p = false) :
    ((s.arrived cfg w rs).partitioned cfg w rs rs.params).gradPartitions p =
      s.due p := by
  rw [← h.landed hok hrs hp hne]
  exact if_pos ⟨hp, hne⟩

/-- At a boundary the buffer of a partitioned shard is what the shard holds. -/
theorem State.Inv.bufs_partitioned (h : s.Inv cfg b) {w : Wait V}
    (hok : s.FlushOk cfg w) {rs : PendingRs V} (hrs : s.pendingRs = some rs)
    {p : DsId} (hp : p ∈ rs.params) (hne : cfg.emptyOn cfg.rank p = false)
    (hboundary : s.boundary cfg) :
    ((s.arrived cfg w rs).partitioned cfg w rs rs.params).fp32GradBufs
        s.gradBufSwitch p =
      ((s.arrived cfg w rs).partitioned cfg w rs rs.params).gradPartitions p := by
  have hseen := hok.seen_eq hrs hp hne hboundary
  have hnew : ((s.arrived cfg w rs).partitioned cfg w rs rs.params).fp32GradBufs
      s.gradBufSwitch p = (s.arrived cfg w rs).seen cfg w rs p :=
    if_pos ⟨hboundary, rfl, hp, hne⟩
  rw [hseen, h.landed hok hrs hp hne] at hnew
  exact hnew.trans (h.gradPartitions_partitioned hok hrs hp hne).symm

theorem State.Inv.flush (h : s.Inv cfg b) {w : Wait V}
    (hok : s.FlushOk cfg w) (hphase : s.phase ≠ .start) :
    (s.flushPendingRs cfg w).Inv cfg b := by
  cases hrs : s.pendingRs with
  | none =>
      rw [State.flushPendingRs_none hrs]
      exact h
  | some rs =>
      have hwaiting := State.waiting_some hrs
      have hnodup := h.nodup
      rw [hwaiting, List.nodup_append'] at hnodup
      obtain ⟨hbucket, hparams, hdisjoint⟩ := hnodup
      rw [State.flushPendingRs_some hrs hparams]
      have hpending : ∀ p ∈ rs.params, p ∈ s.waiting := fun p hp => by
        rw [hwaiting]
        exact List.mem_append_right _ hp
      have hwaits : ∀ p ∈ s.paramsInIpgBucket, p ∈ s.waiting := fun p hp => by
        rw [hwaiting]
        exact List.mem_append_left _ hp
      have hmem : ∀ p, p ∈ ((s.arrived cfg w rs).partitioned cfg w rs rs.params).kept ↔
          p ∈ rs.params ∨ p ∈ s.kept := fun p => State.mem_kept_partitioned
      have hkept : ∀ p ∈ s.paramsInIpgBucket,
          (p ∈ ((s.arrived cfg w rs).partitioned cfg w rs rs.params).kept ↔ p ∈ s.kept) :=
        fun p hp => (hmem p).trans (or_iff_right (hdisjoint hp))
      constructor
      · rw [State.waiting_none rfl]
        exact hbucket
      · intro p hp
        rw [State.waiting_none rfl] at hp
        exact h.known p (hwaits p hp)
      · intro p hp
        rw [State.waiting_none rfl] at hp
        exact h.reached p (hwaits p hp)
      · exact h.since
      · intro p hp
        rcases (hmem p).mp hp with hp | hp
        · exact h.since (h.reached p (hpending p hp))
        · exact h.kept hp
      · intro p hp hnot
        rw [State.waiting_none rfl] at hnot
        refine (hmem p).mpr ?_
        by_cases hin : p ∈ rs.params
        · exact .inl hin
        · refine .inr (h.drained p hp ?_)
          rw [hwaiting, List.mem_append]
          exact fun hor => hor.elim hnot hin
      · intro p hne hnot
        rw [State.waiting_none rfl] at hnot
        by_cases hin : p ∈ rs.params
        · have hkept' : p ∈ ((s.arrived cfg w rs).partitioned cfg w rs rs.params).kept :=
            (hmem p).mpr (.inl hin)
          exact (if_pos hkept').trans (h.gradPartitions_partitioned hok hrs hin hne)
        · refine (h.given_other hok hrs hin).trans (h.settled p hne ?_)
          rw [hwaiting, List.mem_append]
          exact fun hor => hor.elim hnot hin
      · intro p hne hp
        rw [State.waiting_none rfl] at hp
        have hdue := h.due p hne (hwaits p hp)
        rw [← h.given_other hok hrs (hdisjoint hp)] at hdue
        exact hdue
      · nofun
      · intro p hp hin
        exact h.clean p hp ((hkept p hp).mp hin)
      · intro hfirst p hp hin
        rw [State.waiting_none rfl] at hp
        exact h.first hfirst p (hwaits p hp) ((hkept p hp).mp hin)
      · intro hfirst p hp
        rcases (hmem p).mp hp with hp | hp
        · exact h.reached p (hpending p hp)
        · exact h.seen hfirst hp
      · intro hboundary p hne hreached hnot _
        rw [State.waiting_none rfl] at hnot
        by_cases hin : p ∈ rs.params
        · exact h.bufs_partitioned hok hrs hin hne hboundary
        · have hold := h.written hboundary p hne hreached (fun hwait => by
            rw [hwaiting, List.mem_append] at hwait
            exact hwait.elim hnot hin) hphase
          have hbuf : ((s.arrived cfg w rs).partitioned cfg w rs rs.params).fp32GradBufs
              s.gradBufSwitch p = s.fp32GradBufs s.gradBufSwitch p :=
            if_neg fun hit => hin hit.2.2.1
          exact hbuf.trans (hold.trans (h.gradPartitions_other hok hrs hin).symm)
      · intro hidle
        have hnil := h.idle hidle
        rw [hwaiting] at hnil
        rw [State.waiting_none rfl]
        exact (List.append_eq_nil_iff.mp hnil).1
      · exact h.bucket
      · exact h.later
      · exact fun hstart => absurd hstart hphase
      · exact h.covered

theorem State.localGrad_eq (h : s.Inv cfg b) {p : DsId}
    (hp : p ∈ s.paramsInIpgBucket) :
    cfg.reduced p (s.localGrad cfg b p) = s.mean cfg b p := by
  unfold State.mean Config.reduced
  refine congrArg (cfg.sum p) (List.map_congr_left ?_)
  intro r hr
  unfold State.localGrad
  rw [if_neg]
  rintro ⟨hkept, hempty⟩
  exact absurd (hempty.symm.trans (h.clean p hp hkept r (List.mem_range.mp hr)))
    (by decide)

/-- The ReduceScatter of the bucket takes the place of the one that was
partitioned. -/
theorem State.Inv.submit (h : s.Inv cfg b) (hnone : s.pendingRs = none) :
    State.Inv cfg b
      { s with
        pendingRs := some (s.avgScatterGrads cfg b)
        paramsInIpgBucket := [] } := by
  have hperm : (s.avgScatterGrads cfg b).params.Perm s.waiting := by
    rw [State.waiting_none hnone]
    exact List.perm_insertionSort _ _
  have hwaiting : ∀ p, p ∈ (s.avgScatterGrads cfg b).params ↔ p ∈ s.waiting :=
    fun p => hperm.mem_iff
  constructor
  · exact hperm.nodup_iff.mpr h.nodup
  · exact fun p hp => h.known p ((hwaiting p).mp hp)
  · exact fun p hp => h.reached p ((hwaiting p).mp hp)
  · exact h.since
  · exact h.kept
  · exact fun p hp hnot => h.drained p hp fun hin => hnot ((hwaiting p).mpr hin)
  · exact fun p hne hnot =>
      h.settled p hne fun hin => hnot ((hwaiting p).mpr hin)
  · exact fun p hne hp => h.due p hne ((hwaiting p).mp hp)
  · intro rs hrs p hp
    obtain rfl := Option.some.inj hrs
    have hin := (hwaiting p).mp hp
    rw [State.waiting_none hnone] at hin
    exact State.localGrad_eq h hin
  · nofun
  · exact fun hfirst p hp => h.first hfirst p ((hwaiting p).mp hp)
  · exact h.seen
  · exact fun hboundary p hne hp hnot =>
      h.written hboundary p hne hp fun hin => hnot ((hwaiting p).mpr hin)
  · intro hidle
    have hnil := hperm
    rw [h.idle hidle] at hnil
    exact hnil.eq_nil
  · exact fun _ => rfl
  · exact h.later
  · exact h.fresh
  · exact h.covered

theorem State.Inv.flush_frame (h : s.Inv cfg b) (w : Wait V) :
    s.Frame (s.flushPendingRs cfg w) := by
  cases hrs : s.pendingRs with
  | none =>
      rw [State.flushPendingRs_none hrs]
      exact .refl s
  | some rs =>
      have hwaiting := State.waiting_some hrs
      have hnodup := h.nodup
      rw [hwaiting, List.nodup_append'] at hnodup
      rw [State.flushPendingRs_some hrs hnodup.2.1]
      constructor
      · rfl
      · intro p hp
        rw [State.waiting_none rfl] at hp
        rw [hwaiting]
        exact List.mem_append_left _ hp
      · intro p hp
        rw [hwaiting, List.mem_append] at hp
        have hmem : p ∈ (s.partitioned cfg w rs rs.params).kept ↔
            p ∈ rs.params ∨ p ∈ s.kept := State.mem_kept_partitioned
        exact hmem.trans (or_iff_right fun hin => hp (.inr hin))
      · intro i p hp
        refine if_neg ?_
        rintro ⟨-, hi, hin, -⟩
        rcases hp with hp | hp
        · rw [hwaiting, List.mem_append] at hp
          exact hp (.inr hin)
        · exact hp hi

theorem State.Inv.reduceAndPartition (h : s.Inv cfg b) {w : Wait V}
    (hok : s.paramsInIpgBucket ≠ [] → s.FlushOk cfg w)
    (hphase : s.phase ≠ .start) :
    (s.reduceAndPartition cfg b w).Inv cfg b ∧
      s.Frame (s.reduceAndPartition cfg b w) ∧
      (s.reduceAndPartition cfg b w).paramsInIpgBucket = [] := by
  unfold State.reduceAndPartition
  split
  next hnil => exact ⟨h, .refl s, hnil⟩
  next hcons =>
    have hne : s.paramsInIpgBucket ≠ [] := by
      rw [hcons]
      nofun
    have hflush := h.flush (hok hne) hphase
    have hframe := h.flush_frame w
    have hnone : (s.flushPendingRs cfg w).pendingRs = none := by
      unfold State.flushPendingRs
      split
      · rfl
      next heq => exact heq
    refine ⟨hflush.submit hnone, ?_, rfl⟩
    constructor
    · dsimp only
      exact congrArg (fun s' : State V O H =>
        { s' with
          pendingRs := some ((s.flushPendingRs cfg w).avgScatterGrads cfg b)
          paramsInIpgBucket := [] }) hframe.eq
    · intro p hp
      refine hframe.waiting p ?_
      rw [State.waiting_none hnone]
      exact (List.perm_insertionSort _ _).mem_iff.mp hp
    · exact hframe.kept
    · exact hframe.bufs

/-! ## The actions -/

/-- Results that are partitioned can be used; a gradient is not added to one that
some rank has kept; and a parameter with gradients since `zero_grad` has one in
the micro-step at the boundary. -/
def Lossless (cfg : Config V O H) (s : State V O H) : Action V → Prop
  | .hook p w =>
      (p ∈ s.kept → ∀ r < cfg.worldSize, cfg.emptyOn r p = false) ∧
        (s.full cfg p → s.FlushOk cfg w)
  | .epilogue w =>
      (s.paramsInIpgBucket ≠ [] → s.FlushOk cfg w) ∧
        (s.boundary cfg → s.since ⊆ s.reached)
  | .partitionAll w => s.FlushOk cfg w
  | _ => True

variable {s' : State V O H}

/-- A backward pass begins, after `zero_grad` or without it. -/
theorem State.Inv.begin (h : s.Inv cfg b) (hstart : s.phase = .start)
    (hphase : s'.phase = .backward) (hreached : s'.reached = ∅)
    (hwaiting : s'.waiting = s.waiting)
    (hzero : (s'.kept = ∅ ∧ s'.since = ∅ ∧ s'.due = fun _ => 0) ∨
      (s'.kept = s.kept ∧ s'.since = s.since ∧ s'.due = s.due ∧
        s'.gradPartitions = s.gradPartitions ∧
        s'.microStepId = s.microStepId)) :
    s'.Inv cfg b := by
  have hnil : s'.waiting = [] := hwaiting.trans (h.idle (.inl hstart))
  obtain ⟨hbucket, hpending⟩ := List.append_eq_nil_iff.mp hnil
  have hgiven : ∀ p, cfg.emptyOn cfg.rank p = false → s'.given p = s'.due p := by
    intro p hne
    rcases hzero with ⟨hkept, -, hdue⟩ | ⟨hkept, -, hdue, hparts, -⟩
    · unfold State.given
      rw [hkept, hdue]
      exact if_neg (Finset.notMem_empty p)
    · unfold State.given
      rw [hkept, hdue, hparts]
      refine h.settled p hne ?_
      rw [h.idle (.inl hstart)]
      nofun
  have hkeptSince : s'.kept ⊆ s'.since ∧ ∀ p ∈ s'.since, p ∈ s'.kept := by
    rcases hzero with ⟨hkept, hsince, -⟩ | ⟨hkept, hsince, -⟩
    · rw [hkept, hsince]
      exact ⟨Finset.Subset.refl _, fun p hp => hp⟩
    · rw [hkept, hsince]
      refine ⟨h.kept, fun p hp => h.drained p hp ?_⟩
      rw [h.idle (.inl hstart)]
      nofun
  have hfresh : s'.microStepId = 0 → s'.kept = ∅ := by
    intro hfirst
    rcases hzero with ⟨hkept, -⟩ | ⟨hkept, -, -, -, hid⟩
    · exact hkept
    · exact hkept.trans (h.fresh hstart (hid.symm.trans hfirst))
  constructor
  · rw [hnil]
    exact List.nodup_nil
  · rw [hnil]
    nofun
  · rw [hnil]
    nofun
  · rw [hreached]
    exact Finset.empty_subset _
  · exact hkeptSince.1
  · exact fun p hp _ => hkeptSince.2 p hp
  · exact fun p hne _ => hgiven p hne
  · rw [hnil]
    nofun
  · intro rs hrs p hp
    unfold State.pendingParams at hpending
    rw [hrs] at hpending
    dsimp only at hpending
    rw [hpending] at hp
    cases hp
  · rw [hbucket]
    nofun
  · rw [hnil]
    nofun
  · intro hfirst
    rw [hfresh hfirst]
    exact Finset.empty_subset _
  · intro _ p _ hp
    rw [hreached] at hp
    exact absurd hp (Finset.notMem_empty p)
  · exact fun _ => hnil
  · exact fun _ => hbucket
  · rw [hphase]
    rintro (h | h) <;> cases h
  · exact fun _ => hfresh
  · rw [hphase]
    rintro (h | h) <;> cases h

theorem State.stepDpu_eq :
    s.stepDpu cfg =
      if s.boundary cfg then
        { s with
          boundaryFlag := true
          microStepId := 0
          kept := ∅
          since := ∅
          due := fun _ => 0
          commands :=
            if s.dpuSteps = 0 then s.commands
            else s.commands ++ [!s.gradBufSwitch]
          adamStepPending := s.dpuSteps ≠ 0
          dpuSteps := s.dpuSteps + 1
          microSteps := s.microSteps + 1 }
      else { s with boundaryFlag := false, microSteps := s.microSteps + 1 } := by
  unfold State.stepDpu State.sendStep
  cases hboundary : s.boundary cfg with
  | true => by_cases hfirst : s.dpuSteps = 0 <;> simp [hfirst, State.zeroGrad]
  | false => simp

theorem State.Inv.stepDpu (h : s.Inv cfg b)
    (hstep : s.step cfg b .stepDpu = some s') : s'.Inv cfg b := by
  unfold State.step at hstep
  dsimp only at hstep
  rw [State.stepDpu_eq] at hstep
  split at hstep
  next hphase =>
    obtain rfl := Option.some.inj hstep
    cases hboundary : s.boundary cfg with
    | true => exact h.begin hphase rfl rfl rfl (.inl ⟨rfl, rfl, rfl⟩)
    | false => exact h.begin hphase rfl rfl rfl (.inr ⟨rfl, rfl, rfl, rfl, rfl⟩)
  · cases hstep

/-- A gradient is put into the bucket. -/
theorem State.Inv.append (h : s.Inv cfg b) (hphase : s.phase = .backward)
    {p : DsId} (hknown : p ∈ cfg.allParams) (hp : p ∉ s.reached)
    (hclean : p ∈ s.kept → ∀ r < cfg.worldSize, cfg.emptyOn r p = false) :
    State.Inv cfg b
      { s with
        paramsInIpgBucket := s.paramsInIpgBucket ++ [p]
        reached := insert p s.reached
        since := insert p s.since
        due := Function.update s.due p (s.due p + s.mean cfg b p) } := by
  set s' : State V O H :=
    { s with
      paramsInIpgBucket := s.paramsInIpgBucket ++ [p]
      reached := insert p s.reached
      since := insert p s.since
      due := Function.update s.due p (s.due p + s.mean cfg b p) } with hs'
  have hnot : p ∉ s.waiting := fun hin => hp (h.reached p hin)
  have hperm : s'.waiting.Perm (p :: s.waiting) := by
    change (s.paramsInIpgBucket ++ [p] ++ s.pendingParams).Perm _
    rw [List.append_assoc]
    exact List.perm_middle
  have hwaiting : ∀ q, q ∈ s'.waiting ↔ q = p ∨ q ∈ s.waiting := fun q =>
    hperm.mem_iff.trans List.mem_cons
  have hdue : ∀ q, q ≠ p → s'.due q = s.due q := fun q hq =>
    Function.update_of_ne hq _ _
  have hnotKept : s.microStepId = 0 → p ∉ s.kept := fun hfirst hkept =>
    hp (h.seen hfirst hkept)
  constructor
  · exact hperm.nodup_iff.mpr (List.nodup_cons.mpr ⟨hnot, h.nodup⟩)
  · intro q hq
    rcases (hwaiting q).mp hq with rfl | hq
    · exact hknown
    · exact h.known q hq
  · intro q hq
    rcases (hwaiting q).mp hq with rfl | hq
    · exact Finset.mem_insert_self _ _
    · exact Finset.mem_insert_of_mem (h.reached q hq)
  · exact Finset.insert_subset_insert p h.since
  · exact h.kept.trans (Finset.subset_insert _ _)
  · intro q hq hq'
    have hne : q ≠ p := fun heq => hq' ((hwaiting q).mpr (.inl heq))
    exact h.drained q (Finset.mem_of_mem_insert_of_ne hq hne) fun hin =>
      hq' ((hwaiting q).mpr (.inr hin))
  · intro q hne hq'
    have hqp : q ≠ p := fun heq => hq' ((hwaiting q).mpr (.inl heq))
    rw [hdue q hqp]
    exact h.settled q hne fun hin => hq' ((hwaiting q).mpr (.inr hin))
  · intro q hne hq
    by_cases hqp : q = p
    · subst hqp
      have hgiven : s'.given q = s.due q := h.settled q hne hnot
      rw [hgiven]
      exact Function.update_self _ _ _
    · rw [hdue q hqp]
      exact h.due q hne (((hwaiting q).mp hq).resolve_left hqp)
  · exact h.result
  · intro q hq hkept
    rcases List.mem_append.mp hq with hq | hq
    · exact h.clean q hq hkept
    · obtain rfl := List.mem_singleton.mp hq
      exact hclean hkept
  · intro hfirst q hq
    rcases (hwaiting q).mp hq with rfl | hq
    · exact hnotKept hfirst
    · exact h.first hfirst q hq
  · exact fun hfirst => (h.seen hfirst).trans (Finset.subset_insert _ _)
  · intro hboundary q hne hq hq'
    have hqp : q ≠ p := fun heq => hq' ((hwaiting q).mpr (.inl heq))
    exact h.written hboundary q hne (Finset.mem_of_mem_insert_of_ne hq hqp)
      fun hin => hq' ((hwaiting q).mpr (.inr hin))
  · intro hidle
    rw [hs'] at hidle
    dsimp only at hidle
    rw [hphase] at hidle
    rcases hidle with h | h <;> cases h
  · intro hpart
    exact absurd (hphase.symm.trans hpart) (by decide)
  · exact h.later
  · exact h.fresh
  · intro hpart
    rw [hs'] at hpart
    dsimp only at hpart
    rw [hphase] at hpart
    rcases hpart with h | h <;> cases h

theorem State.Inv.hook (h : s.Inv cfg b) {p : DsId} {w : Wait V}
    (hlossless : Lossless cfg s (.hook p w))
    (hstep : s.step cfg b (.hook p w) = some s') : s'.Inv cfg b := by
  unfold State.step at hstep
  dsimp only at hstep
  split at hstep
  next hguard =>
    obtain rfl := Option.some.inj hstep
    obtain ⟨hphase, hknown, hp⟩ := hguard
    have hnot : p ∉ s.waiting := fun hin => hp (h.reached p hin)
    have hstart : s.phase ≠ .start := by
      rw [hphase]
      decide
    unfold State.reduceIndependent
    cases hfull : s.full cfg p with
    | true =>
        obtain ⟨hinv, hframe, -⟩ :=
          h.reduceAndPartition (fun _ => hlossless.2 hfull) hstart
        have happend := hinv.append (hframe.phase.trans hphase) hknown
          (by rwa [hframe.reached])
          (fun hin => hlossless.1 ((hframe.kept p hnot).mp hin))
        have hmean : (s.reduceAndPartition cfg b w).mean cfg b p =
            s.mean cfg b p := by
          unfold State.mean
          rw [hframe.globalIter]
        rw [hframe.reached, hframe.since, hframe.due, hmean] at happend
        exact happend
    | false => exact h.append hphase hknown hp hlossless.1
  · cases hstep

theorem State.Inv.epilogue (h : s.Inv cfg b) {w : Wait V}
    (hlossless : Lossless cfg s (.epilogue w))
    (hstep : s.step cfg b (.epilogue w) = some s') : s'.Inv cfg b := by
  unfold State.step at hstep
  dsimp only at hstep
  split at hstep
  next hphase =>
    obtain rfl := Option.some.inj hstep
    have hstart : s.phase ≠ .start := by
      rw [hphase]
      decide
    obtain ⟨hinv, hframe, hnil⟩ := h.reduceAndPartition hlossless.1 hstart
    have hnotStart : (s.reduceAndPartition cfg b w).phase ≠ .start := by
      rw [hframe.phase]
      exact hstart
    have hcovered : (s.reduceAndPartition cfg b w).boundary cfg →
        (s.reduceAndPartition cfg b w).since ⊆
          (s.reduceAndPartition cfg b w).reached := by
      rw [hframe.boundary, hframe.since, hframe.reached]
      exact hlossless.2
    exact
      { hinv with
        first := nofun
        seen := nofun
        written := fun hboundary q hne hq hq' _ =>
          hinv.written hboundary q hne hq hq' hnotStart
        idle := nofun
        bucket := fun _ => hnil
        later := fun _ => Nat.succ_ne_zero _
        fresh := nofun
        covered := fun _ => hcovered }
  · cases hstep

theorem State.Inv.partitionAll (h : s.Inv cfg b) {w : Wait V}
    (hlossless : Lossless cfg s (.partitionAll w))
    (hstep : s.step cfg b (.partitionAll w) = some s') : s'.Inv cfg b := by
  unfold State.step at hstep
  dsimp only at hstep
  split at hstep
  next hphase =>
    obtain rfl := Option.some.inj hstep
    have hstart : s.phase ≠ .start := by
      rw [hphase]
      decide
    have hframe := h.flush_frame w
    have hphase' := hframe.phase.trans hphase
    have hinv := h.flush hlossless hstart
    have hnone : (s.flushPendingRs cfg w).pendingRs = none := by
      unfold State.flushPendingRs
      split
      · rfl
      next heq => exact heq
    have hnil : (s.flushPendingRs cfg w).waiting = [] := by
      rw [State.waiting_none hnone]
      exact hinv.bucket hphase'
    have hnotStart : (s.flushPendingRs cfg w).phase ≠ .start := by
      rw [hframe.phase]
      exact hstart
    exact
      { hinv with
        written := fun hboundary q hne hq hq' _ =>
          hinv.written hboundary q hne hq hq' hnotStart
        idle := fun _ => hnil
        bucket := nofun
        later := fun _ => hinv.later (.inl hphase')
        fresh := nofun
        covered := fun _ => hinv.covered (.inl hphase') }
  · cases hstep

theorem State.update_cases (hstep : s.step cfg b .update = some s') :
    s.phase = .update ∧
      ((s.boundaryFlag = false ∧
        s' = { s with phase := .start, globalIter := s.globalIter + 1 }) ∨
      (s.boundaryFlag = true ∧ ∃ n,
        s.answers = (if s.adamStepPending then n + 1 else n) ∧
        s' =
          { s with
            answers := n
            fp16 := fun p => cfg.half (s.fp32 p)
            gradBufSwitch := !s.gradBufSwitch
            phase := .start
            globalIter := s.globalIter + 1 })) := by
  unfold State.step at hstep
  dsimp only at hstep
  split at hstep
  next hphase =>
    refine ⟨hphase, ?_⟩
    by_cases hflag : s.boundaryFlag = true
    · rw [if_pos hflag] at hstep
      refine .inr ⟨hflag, ?_⟩
      obtain ⟨s₁, hupdate, rfl⟩ := Option.map_eq_some_iff.mp hstep
      unfold State.updateNewParams at hupdate
      dsimp only at hupdate
      split at hupdate
      next hpending =>
        split at hupdate
        · cases hupdate
        next n hanswers =>
          obtain rfl := Option.some.inj hupdate
          refine ⟨n, ?_, rfl⟩
          rw [if_pos hpending]
          exact hanswers
      next hpending =>
        obtain rfl := Option.some.inj hupdate
        refine ⟨s.answers, ?_, rfl⟩
        rw [if_neg hpending]
    · rw [if_neg hflag] at hstep
      exact .inl ⟨eq_false_of_ne_true hflag, (Option.some.inj hstep).symm⟩
  · cases hstep

theorem State.Inv.update (h : s.Inv cfg b)
    (hstep : s.step cfg b .update = some s') : s'.Inv cfg b := by
  obtain ⟨hphase, hcases⟩ := State.update_cases hstep
  have hnil := h.idle (.inr hphase)
  have hbucket : s.paramsInIpgBucket = [] := (List.append_eq_nil_iff.mp hnil).1
  have hfirst := h.later (.inr hphase)
  have hnone : ∀ p, p ∉ s.waiting := by
    rw [hnil]
    nofun
  have hpending : ∀ rs, s.pendingRs = some rs → ∀ p, p ∉ rs.params := by
    intro rs hrs p hp
    refine hnone p ?_
    rw [State.waiting_some hrs]
    exact List.mem_append_right _ hp
  rcases hcases with ⟨-, rfl⟩ | ⟨-, n, -, rfl⟩
  all_goals exact
    { h with
      due := fun p _ hp => absurd hp (hnone p)
      result := fun rs hrs p hp => absurd hp (hpending rs hrs p)
      written := fun _ _ _ _ _ hstart => absurd rfl hstart
      idle := fun _ => hnil
      bucket := nofun
      later := nofun
      fresh := fun _ hzero => absurd hzero hfirst
      covered := nofun }

theorem State.Inv.workerRecv (h : s.Inv cfg b)
    (hstep : s.step cfg b .workerRecv = some s') : s'.Inv cfg b := by
  unfold State.step at hstep
  dsimp only at hstep
  split at hstep
  · obtain rfl := Option.some.inj hstep
    exact { h with }
  · cases hstep

theorem State.Inv.workerStep (h : s.Inv cfg b)
    (hstep : s.step cfg b .workerStep = some s') : s'.Inv cfg b := by
  unfold State.step at hstep
  dsimp only at hstep
  split at hstep
  · split at hstep
    · obtain rfl := Option.some.inj hstep
      exact { h with }
    · cases hstep
  · cases hstep

theorem State.Inv.workerDone (h : s.Inv cfg b)
    (hstep : s.step cfg b .workerDone = some s') : s'.Inv cfg b := by
  unfold State.step at hstep
  dsimp only at hstep
  split at hstep
  · split at hstep
    · obtain rfl := Option.some.inj hstep
      exact { h with }
    · cases hstep
  · cases hstep

theorem State.Inv.step (h : s.Inv cfg b) {a : Action V}
    (hlossless : Lossless cfg s a) (hstep : s.step cfg b a = some s') :
    s'.Inv cfg b := by
  cases a with
  | stepDpu => exact h.stepDpu hstep
  | hook p w => exact h.hook hlossless hstep
  | epilogue w => exact h.epilogue hlossless hstep
  | partitionAll w => exact h.partitionAll hlossless hstep
  | update => exact h.update hstep
  | workerRecv => exact h.workerRecv hstep
  | workerStep => exact h.workerStep hstep
  | workerDone => exact h.workerDone hstep

theorem State.Inv.of_run (h : s.Inv cfg b) {acts : List (Action V)}
    (hlossless : AllSteps (State.step cfg b) (Lossless cfg) s acts)
    (hrun : run (State.step cfg b) s acts = some s') : s'.Inv cfg b :=
  hlossless.invariant (fun _ _ _ hP hstep hinv => hinv.step hP hstep) hrun h

end Invariant

/-! ## Runs -/

section Runs

variable [AddZeroClass V] (cfg : Config V O H)

/-- After the backward pass of a boundary the fp32 gradients of the parameters
that have gradients are the sums that are due. -/
def State.Exact (s : State V O H) : Prop :=
  s.phase = .update → s.boundary cfg → ∀ p ∈ s.since,
    cfg.emptyOn cfg.rank p = false →
      s.fp32GradBufs s.gradBufSwitch p = s.due p

theorem State.Inv.exact {b : Backward V} {s : State V O H} (h : s.Inv cfg b) :
    s.Exact cfg := by
  intro hphase hboundary p hp hne
  have hnot : p ∉ s.waiting := by
    rw [h.idle (.inr hphase)]
    nofun
  have hreached := h.covered (.inr hphase) hboundary hp
  have hstart : s.phase ≠ .start := by
    rw [hphase]
    decide
  have hgiven : s.given p = s.gradPartitions p := if_pos (h.drained p hp hnot)
  calc s.fp32GradBufs s.gradBufSwitch p
      = s.gradPartitions p := h.written hboundary p hne hreached hnot hstart
    _ = s.given p := hgiven.symm
    _ = s.due p := h.settled p hne hnot

/-- No micro-step is lost and no earlier gradient is added again, for any groups,
buckets, gradients and numbers of micro-steps, as long as every result is that of the
gradients submitted and is used in the way that its micro-step needs. -/
theorem accumulated_gradients_exact (b : Backward V) (acts : List (Action V))
    (s : State V O H)
    (hrun : run (State.step cfg b) (.init cfg) acts = some s)
    (hlossless : AllSteps (State.step cfg b) (Lossless cfg) (.init cfg)
      acts) : s.Exact cfg :=
  (State.Inv.init.of_run hlossless hrun).exact cfg

instance [DecidableEq V] (s : State V O H) (w : Wait V) :
    Decidable (s.Delivered cfg w) :=
  inferInstanceAs (Decidable (∀ rs ∈ s.pendingRs, ∀ p ∈ rs.params,
    cfg.emptyOn cfg.rank p = false → w.result p = rs.submitted p))

instance [DecidableEq V] (s : State V O H) (w : Wait V) :
    Decidable (s.FlushOk cfg w) :=
  inferInstanceAs (Decidable (s.Delivered cfg w ∧ ∀ rs ∈ s.pendingRs,
    (rs.inPlace → cfg.Aligned rs.params) ∧
      ∀ p ∈ rs.params, cfg.emptyOn cfg.rank p = false →
        if rs.inPlace then p ∉ s.kept
        else if s.microStepId = 0 then
          s.boundary cfg → cfg.rsUseNccl → p ∉ w.late
        else p ∈ s.kept ∨ s.gradPartitions p = 0))

instance [DecidableEq V] (s : State V O H) :
    (a : Action V) → Decidable (Lossless cfg s a)
  | .hook p w => inferInstanceAs (Decidable
      ((p ∈ s.kept → ∀ r < cfg.worldSize, cfg.emptyOn r p = false) ∧
        (s.full cfg p → s.FlushOk cfg w)))
  | .epilogue w => inferInstanceAs (Decidable
      ((s.paramsInIpgBucket ≠ [] → s.FlushOk cfg w) ∧
        (s.boundary cfg → s.since ⊆ s.reached)))
  | .partitionAll w => inferInstanceAs (Decidable (s.FlushOk cfg w))
  | .stepDpu | .update | .workerRecv | .workerStep | .workerDone => isTrue trivial

end Runs

theorem threeParams_nodup : ([[0, 1, 2]] : List (List DsId)).flatten.Nodup := by
  decide

/-- Two ranks and three parameters, of which the second fills a bucket. -/
def threeParams : Config ℤ ℤ ℤ where
  worldSize := 2
  rank := 0
  fp16Groups := [[0, 1, 2]]
  nodup := threeParams_nodup
  dsNumel p := if p = 1 then 4 else 2
  reduceBucketSize := 4
  gradientAccumulationSteps := 1
  rsUseNccl := false
  numSubgroups := 1
  subGroup _ := 0
  subGroup_lt _ := Nat.zero_lt_one
  preDivide x := x / 2
  sum _ xs := xs.foldr (· + ·) 0
  adam w g := w - g
  half w := w
  weights _ := 0

def constantGradients : Backward ℤ where
  grad _ _ _ := 2
  stale _ _ _ := 0

/-- The mean of these gradients, in time. -/
def constantResults : Wait ℤ where
  result _ := 2
  spoilt _ := 0
  late := []

/-- An iteration with hooks in an order. -/
def iteration (order : List DsId) : List (Action ℤ) :=
  .stepDpu :: order.map (fun p => .hook p constantResults) ++
    [.epilogue constantResults, .partitionAll constantResults]

/-- The buckets are adjacent shards. -/
theorem accumulated_gradients_exact_adjacent :
    ∃ s, run (State.step threeParams constantGradients)
        (.init threeParams) (iteration [2, 1, 0]) = some s ∧
      s.phase = .update ∧ s.since = {0, 1, 2} ∧ s.Exact threeParams := by
  have hend : (run (State.step threeParams constantGradients)
      (.init threeParams) (iteration [2, 1, 0])).map
        (fun s => (s.phase, s.since)) = some (.update, {0, 1, 2}) := by
    decide +kernel
  obtain ⟨s, hrun, hs⟩ := Option.map_eq_some_iff.mp hend
  refine ⟨s, hrun, (Prod.mk.inj hs).1, (Prod.mk.inj hs).2, ?_⟩
  apply accumulated_gradients_exact threeParams constantGradients _ s hrun
  decide +kernel

/-- The last bucket has the shards of the first and the last parameter, which
are not adjacent.  Its result is right but comes after the epilogue, and is added to
that of the iteration before. -/
theorem apart_shards_accumulate :
    AllSteps (State.step threeParams constantGradients)
        (fun s _ => s.Delivered threeParams constantResults) (.init threeParams)
        (iteration [1, 0, 2] ++ .update :: iteration [1, 0, 2]) ∧
      ∃ s, run (State.step threeParams constantGradients) (.init threeParams)
          (iteration [1, 0, 2] ++ .update :: iteration [1, 0, 2]) = some s ∧
        ¬ s.Exact threeParams := by
  have hend : (run (State.step threeParams constantGradients)
      (.init threeParams)
      (iteration [1, 0, 2] ++ .update :: iteration [1, 0, 2])).map (fun s =>
        (s.phase, s.boundary threeParams, s.since,
          s.fp32GradBufs s.gradBufSwitch 0, s.due 0)) =
      some (.update, true, {0, 1, 2}, 4, 2) := by
    decide +kernel
  obtain ⟨s, hrun, hs⟩ := Option.map_eq_some_iff.mp hend
  obtain ⟨hphase, hboundary, hsince, hbuf, hdue⟩ := by
    simpa only [Prod.mk.injEq] using hs
  refine ⟨by decide +kernel, s, hrun, ?_⟩
  intro hexact
  have hsum := hexact hphase hboundary 0 (by rw [hsince]; decide) (by decide)
  rw [hbuf, hdue] at hsum
  exact absurd hsum (by decide)

end SmartNic.Training
