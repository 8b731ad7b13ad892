import SmartNic.Training.Rounds

/-!
# Sharded training is training

What both trainers compute on their shards, on any number of ranks, is what one
process computes that holds all weights and applies the mean gradient of an
iteration one iteration later.
-/

namespace SmartNic.Training

open Machine ClosedLoop

/-- The model, its data on the ranks and the optimizer, for which `E` is what Adam
keeps of an element, `G` an element of a gradient and `F` an fp16 weight.  The
gradients of an iteration are computed from the weights that were gathered.  `sum`
is how what the ranks have of an element is added up, which need not be
associative. -/
structure Task (G E F : Type) where
  worldSize : ℕ
  worldSize_pos : 0 < worldSize
  numParams : ℕ
  fp16Groups : List (List DsId)
  perm : fp16Groups.flatten.Perm (List.range numParams)
  dsNumel : DsId → ℕ
  preDivide : G → G
  sum : DsId → ℕ → List G → G
  adam : E → G → E
  half : E → F
  weights : DsId → ℕ → E
  grad : ℕ → ((p : Fin numParams) → Fin (dsNumel p) → F) → ℕ → DsId → ℕ → G
  stale : ℕ → ((p : Fin numParams) → Fin (dsNumel p) → F) → ℕ → DsId → ℕ → G

/-- What the trainers can be set to. -/
structure Settings where
  reduceBucketSize : ℕ
  numSubgroups : ℕ
  subGroup : DsId → ℕ
  subGroup_lt : ∀ p, subGroup p < numSubgroups

namespace Task

variable {G E F : Type} (T : Task G E F)

/-- The fp16 weights of all parameters. -/
abbrev Full : Type := (p : Fin T.numParams) → Fin (T.dsNumel p) → F

/-! ## One process -/

def halves (w : DsId → ℕ → E) : T.Full := fun p j => T.half (w p j)

/-- The mean over the ranks of the gradients for some weights. -/
def meanGradient (t : ℕ) (w : DsId → ℕ → E) (p : DsId) (j : ℕ) : G :=
  T.sum p j ((List.range T.worldSize).map fun r =>
    T.preDivide (T.grad t (T.halves w) r p j))

/-- The weights of each iteration, with the gradients one iteration late. -/
def reference : ℕ → DsId → ℕ → E
  | 0 => T.weights
  | 1 => T.weights
  | t + 2 => fun p j =>
      T.adam (reference (t + 1) p j) (T.meanGradient t (reference t) p j)

/-! ## Shards -/

def partitionNumel (p : DsId) : ℕ := (T.dsNumel p + T.worldSize - 1) / T.worldSize

/-- The part of a rank of some full values. -/
def shard {α : Type} (r : ℕ) (full : DsId → ℕ → α) : DsId → ℕ → α :=
  fun p i => full p (r * T.partitionNumel p + i)

theorem lt_mul_partitionNumel (p : DsId) {j : ℕ} (hj : j < T.dsNumel p) :
    j / T.partitionNumel p < T.worldSize := by
  refine Nat.div_lt_of_lt_mul ?_
  have hpos := T.worldSize_pos
  have hdiv := Nat.div_add_mod (T.dsNumel p + T.worldSize - 1) T.worldSize
  have hmod := Nat.mod_lt (T.dsNumel p + T.worldSize - 1) hpos
  rw [partitionNumel, Nat.mul_comm]
  omega

/-- The full weights that an AllGather makes of the ranks' shards. -/
def gather (shards : Fin T.worldSize → DsId → ℕ → F) : T.Full := fun p j =>
  shards ⟨j / T.partitionNumel p, T.lt_mul_partitionNumel p j.isLt⟩ p
    (j % T.partitionNumel p)

theorem nodup_params : T.fp16Groups.flatten.Nodup :=
  T.perm.nodup_iff.mpr List.nodup_range

/-- The optimizer of a rank. -/
def config (S : Settings) (rsUseNccl : Bool) (r : ℕ) :
    Config (ℕ → G) (ℕ → E) (ℕ → F) where
  worldSize := T.worldSize
  rank := r
  fp16Groups := T.fp16Groups
  nodup := T.nodup_params
  dsNumel := T.dsNumel
  reduceBucketSize := S.reduceBucketSize
  gradientAccumulationSteps := 1
  rsUseNccl := rsUseNccl
  numSubgroups := S.numSubgroups
  subGroup := S.subGroup
  subGroup_lt := S.subGroup_lt
  preDivide g i := T.preDivide (g i)
  sum p gs i := T.sum p (r * T.partitionNumel p + i) (gs.map fun g => g i)
  adam o g i := T.adam (o i) (g i)
  half o i := T.half (o i)
  weights := T.shard r T.weights

/-- The gradients of an iteration, as far as a rank gets to see them. -/
def gradients (r : ℕ) (t : ℕ) (full : T.Full) : Gradients (ℕ → G) where
  grad q := T.shard r (T.grad t full q)
  stale q := T.shard r (T.stale t full q)

def feed (r : Fin T.worldSize) (t : ℕ) (shards : Fin T.worldSize → DsId → ℕ → F) :
    Gradients (ℕ → G) :=
  T.gradients r t (T.gather shards)

/-- The inputs that reproduce themselves. -/
def inputs (r : Fin T.worldSize) (t : ℕ) : Gradients (ℕ → G) :=
  T.gradients r t (T.halves (T.reference t))

variable (S : Settings) (rsUseNccl : Bool)

theorem full_inputs (r : Fin T.worldSize) (t : ℕ) (p : DsId) :
    (Backward.ofRounds (T.inputs r)).full (T.config S rsUseNccl r) t p =
      T.shard r (T.meanGradient t (T.reference t)) p := by
  funext i
  unfold Backward.full Config.reduced config shard meanGradient
  dsimp only
  rw [List.map_map]
  rfl

theorem weights_inputs (r : Fin T.worldSize) (t : ℕ) (p : DsId) :
    (Backward.ofRounds (T.inputs r)).weights (T.config S rsUseNccl r) t p =
      T.shard r (T.reference t) p := by
  induction t using Nat.strongRecOn with
  | ind t ih =>
      match t with
      | 0 => rfl
      | 1 => rfl
      | t + 2 =>
          have hlast := ih (t + 1) (by omega)
          simp only [Backward.weights] at hlast ⊢
          rw [delayed, hlast, full_inputs]
          rfl

/-- What a rank may have as its fp16 shards in an iteration. -/
def Holds (t : ℕ) (r : Fin T.worldSize) (fp16 : DsId → ℕ → F) : Prop :=
  ∀ p, (T.config S rsUseNccl r).Sharded p → ∀ i,
    fp16 p i = T.half (T.reference t p (r * T.partitionNumel p + i))

end Task

/-! ## The trainers -/

/-- `src/baseline`, or `src/smartnic_offload` with the setting of `RS_USE_NCCL`. -/
inductive Trainer where
  | baseline
  | offload (rsUseNccl : Bool)
deriving DecidableEq, Repr

namespace Trainer

variable {G E F : Type} [AddZeroClass G] (tr : Trainer) (T : Task G E F) (S : Settings)

def usesNccl : Trainer → Bool
  | baseline => true
  | offload rsUseNccl => rsUseNccl

/-- The ranks. -/
def party (r : Fin T.worldSize) :
    Party (State (ℕ → G) (ℕ → E) (ℕ → F)) (Action (ℕ → G)) (Gradients (ℕ → G))
      (DsId → ℕ → F) :=
  let cfg := T.config S tr.usesNccl r
  match tr with
  | baseline => Training.baseline cfg
  | offload _ => Training.offload cfg

def start (r : Fin T.worldSize) : State (ℕ → G) (ℕ → E) (ℕ → F) :=
  .init (T.config S tr.usesNccl r)

/-- All parameters have gradients in every iteration; the trainer that defers its
ReduceScatters also has to use every result in the way that its micro-step needs. -/
def Asks (r : Fin T.worldSize) (s : State (ℕ → G) (ℕ → E) (ℕ → F))
    (a : Action (ℕ → G)) : Prop :=
  let cfg := T.config S tr.usesNccl r
  Baseline.Covers cfg s a ∧ (tr ≠ .baseline → Lossless cfg s a)

/-- What holds of a rank. -/
def Inv (r : Fin T.worldSize) (s : State (ℕ → G) (ℕ → E) (ℕ → F)) : Prop :=
  let cfg := T.config S tr.usesNccl r
  match tr with
  | baseline => Baseline.Inv cfg (.ofRounds (T.inputs r)) s
  | offload _ => s.DelayInv cfg (.ofRounds (T.inputs r))

variable {tr T S}

theorem Inv.delay {r : Fin T.worldSize} {s : State (ℕ → G) (ℕ → E) (ℕ → F)}
    (h : tr.Inv T S r s) :
    s.DelayInv (T.config S tr.usesNccl r) (.ofRounds (T.inputs r)) := by
  cases tr with
  | baseline => exact Baseline.Inv.delay h
  | offload rsUseNccl => exact h

theorem Inv.holds {r : Fin T.worldSize} {s : State (ℕ → G) (ℕ → E) (ℕ → F)}
    (h : tr.Inv T S r s) : T.Holds S tr.usesNccl s.globalIter r s.fp16 := by
  intro p hp i
  rw [h.delay.fp16 p hp, T.weights_inputs]
  rfl

variable (tr T S)

theorem inv_start (r : Fin T.worldSize) : tr.Inv T S r (tr.start T S r) := by
  cases tr with
  | baseline => exact Baseline.Inv.init
  | offload rsUseNccl => exact State.DelayInv.init

def twoNumels (p : DsId) : ℕ := if p = 0 then 3 else 1

theorem two_lt_twoNumels : 2 < twoNumels 0 := by
  decide

theorem twoGroups_perm : ([[1], [0]] : List (List DsId)).flatten.Perm (List.range 2) := by
  decide

/-- Two parameters, of three elements and one, whose gradients are a weight of the
iteration and the number of the rank. -/
abbrev twoParams : Task ℤ ℤ ℤ where
  worldSize := 2
  worldSize_pos := Nat.zero_lt_two
  numParams := 2
  fp16Groups := [[1], [0]]
  perm := twoGroups_perm
  dsNumel := twoNumels
  preDivide g := g / 2
  sum _ _ gs := gs.foldr (· + ·) 0
  adam w g := w - g
  half w := w
  weights p j := p + j
  grad _ full r _ _ := 2 * full ⟨0, Nat.zero_lt_two⟩ ⟨2, two_lt_twoNumels⟩ + 4 * r
  stale _ _ _ _ _ := 0

/-- Every gradient fills a bucket. -/
def smallBuckets : Settings where
  reduceBucketSize := 1
  numSubgroups := 1
  subGroup _ := 0
  subGroup_lt _ := Nat.zero_lt_one

/-- The optimizer of a rank with the DPU. -/
abbrev twoConfig (r : Fin 2) : Config (ℕ → ℤ) (ℕ → ℤ) (ℕ → ℤ) :=
  twoParams.config smallBuckets false r

/-- A ReduceScatter that delivers the same for all elements. -/
def uniform (g : ℤ) : Wait (ℕ → ℤ) where
  result _ _ := g
  spoilt _ _ := 0
  late := []

section Direct

variable {r : Fin 2} {s : State (ℕ → ℤ) (ℕ → ℤ) (ℕ → ℤ)} {a : Action (ℕ → ℤ)}

/-- What is pending is delivered where it is kept, in the first element as it was
submitted, and the gradients of an iteration do not meet those of another one. -/
def Direct (r : Fin 2) (s : State (ℕ → ℤ) (ℕ → ℤ) (ℕ → ℤ)) (a : Action (ℕ → ℤ)) : Prop :=
  (∀ rs ∈ s.pendingRs, rs.inPlace = true ∧ (twoConfig r).Aligned rs.params ∧
    ∀ p ∈ rs.params, p ∉ s.kept ∧
      ∀ w ∈ a.wait, w.result p 0 = rs.submitted p 0) ∧
    match a with
    | .hook p _ => p ∉ s.kept
    | .epilogue _ => s.since ⊆ s.reached
    | _ => True

instance : (a : Action (ℕ → ℤ)) → Decidable (Direct r s a)
  | .hook p _ => inferInstanceAs (Decidable (_ ∧ p ∉ s.kept))
  | .epilogue _ => inferInstanceAs (Decidable (_ ∧ s.since ⊆ s.reached))
  | .stepDpu | .partitionAll _ | .update | .workerRecv | .workerStep | .workerDone =>
      inferInstanceAs (Decidable (_ ∧ True))

/-- The gradients that were submitted are the same in all elements. -/
theorem submitted_eq (h : (offload false).Inv twoParams smallBuckets r s)
    {rs : PendingRs (ℕ → ℤ)} (hrs : s.pendingRs = some rs) {p : DsId}
    (hp : p ∈ rs.params) (i : ℕ) : rs.submitted p i = rs.submitted p 0 := by
  have hmean : rs.submitted p =
      (Backward.ofRounds (twoParams.inputs r)).full (twoConfig r) s.globalIter p :=
    h.delay.sums.result rs hrs p hp
  rw [hmean, Task.full_inputs]
  rfl

/-- So are the results, which are then those of the gradients. -/
theorem Direct.delivered (h : Direct r s a)
    (hinv : (offload false).Inv twoParams smallBuckets r s) {g : ℤ}
    (ha : uniform g ∈ a.wait) : s.Delivered (twoConfig r) (uniform g) := by
  intro rs hrs p hp _
  funext i
  rw [submitted_eq hinv hrs hp i]
  exact ((h.1 rs hrs).2.2 p hp).2 _ ha

end Direct

instance {V O H : Type} {cfg : Config V O H} (s : State V O H) (a : Action V) :
    Decidable (Baseline.Covers cfg s a) :=
  inferInstanceAs (Decidable (a.isEpilogue = true → ∀ p ∈ cfg.allParams,
    cfg.emptyOn cfg.rank p = false → p ∈ s.reached))

end Trainer

end SmartNic.Training
