import SmartNic.Library.Moves
import SmartNic.Training.ReduceScatter

/-!
# Where reduced gradients are put

`__param_id_to_grad_offset`, `__avg_scatter_grads` and `__partition_grads` of
`zero_optimizer.py`, for any assignment of the parameters to groups.  The slots
follow the groups and a bucket follows `ds_id`; the ReduceScatter writes into the
slots directly if the first and the last offset fit.
-/

namespace SmartNic.Training

open Moves Ranges

/-- The groups and the sizes on one rank.  A parameter is in one group. -/
structure GradLayout where
  worldSize : ℕ
  rank : ℕ
  rank_lt : rank < worldSize
  fp16Groups : List (List ℕ)
  nodup : fp16Groups.flatten.Nodup
  dsNumel : ℕ → ℕ
  dsNumel_lt : ∀ p, dsNumel p < 2 ^ 53
  rsUseNccl : Bool

/-- A communication data type: the cells of the flat buffer that an element
takes and its conversion with `.to(dtype)`. -/
structure CommType (α ε : Type) where
  width : ℕ
  width_pos : 0 < width
  toDtype : ε → α
  surjective : Function.Surjective toDtype

/-- The data type of the buffer itself. -/
def CommType.float16 (α : Type) : CommType α α :=
  ⟨1, Nat.one_pos, id, Function.surjective_id⟩

/-- A type of twice that size, which holds every value of the buffer's type. -/
def CommType.float32 {α ε : Type} (toDtype : ε → α)
    (surjective : Function.Surjective toDtype) : CommType α ε :=
  ⟨2, Nat.zero_lt_two, toDtype, surjective⟩

/-- An entry of `grad_partitions`: a part of the flat buffer or a tensor of its
own. -/
inductive GradPartition (α : Type) where
  | view (offset length : ℕ)
  | own (values : List α)

namespace GradLayout

variable (lay : GradLayout)

/-- `all_params`. -/
def allParams : List ℕ := lay.fp16Groups.flatten

/-- The gradient of a parameter, of which only the size matters here. -/
def grad (p : ℕ) : Gradient Unit where
  flat := List.replicate (lay.dsNumel p) ()
  numel_lt := by simpa using lay.dsNumel_lt p

/-- `partition_numel`. -/
def partitionNumel (p : ℕ) : ℕ :=
  (lay.dsNumel p + (lay.worldSize - 1)) / lay.worldSize

/-- `__param_id_to_grad_offset`. -/
def gradOffset (p : ℕ) : ℕ :=
  ((lay.allParams.takeWhile (· ≠ p)).map lay.partitionNumel).sum

/-- `__param_id_to_grad_partition`. -/
def slot (p : ℕ) : Range := ⟨lay.gradOffset p, lay.partitionNumel p⟩

/-- The elements that this rank has of a parameter. -/
def localNumel (p : ℕ) : ℕ :=
  ((lay.grad p).partition lay.worldSize lay.rank).length

/-- `total_numel`. -/
def totalNumel (params : List ℕ) : ℕ := (params.map lay.partitionNumel).sum

/-- `first_offset`. -/
def firstOffset (params : List ℕ) : ℕ := lay.gradOffset (params.headD 0)

/-- Whether `output_buf` is a part of the flat buffer. -/
def outputInPlace (params : List ℕ) : Bool :=
  match params with
  | [] => false
  | first :: rest =>
      let last := rest.getLastD first
      lay.gradOffset first + lay.totalNumel params =
        lay.gradOffset last + lay.partitionNumel last ∧ !lay.rsUseNccl

/-- `offset` and size of the entries of `output_lst`. -/
def slices (params : List ℕ) : List (ℕ × ℕ) :=
  outputSlices lay.worldSize lay.rank 0 (params.map lay.grad)

section Drain

variable {α ε : Type} (comm : CommType α ε)

/-- The flat buffer when the ReduceScatter has written its output there.  The
write is refused if the elements do not fit the registered output. -/
def written (result : ℕ → ε) (params : List ℕ) (mem : ℕ → α) : ℕ → α :=
  let first := lay.firstOffset params
  let total := lay.totalNumel params
  if comm.width * total ≤ total then fun y =>
    if first ≤ y ∧ y < first + total then comm.toDtype (result (y - first))
    else mem y
  else mem

/-- The flat buffer and `grad_partitions` when the ReduceScatter is done;
`result` is what it delivers on this rank. -/
def deferred (result : ℕ → ε) (params : List ℕ) (mem : ℕ → α) :
    (ℕ → α) × List (GradPartition α) :=
  if lay.outputInPlace params then
    (lay.written comm result params mem,
      (lay.slices params).map fun s =>
        .view (lay.firstOffset params + s.1) s.2)
  else
    (mem, (lay.slices params).map fun s =>
      .own ((List.range s.2).map fun x => comm.toDtype (result (s.1 + x))))

/-- The loop body of `__partition_grads` at micro-step 0.  `copy_` refuses two
parts of one tensor that overlap. -/
def partitionGrad (mem : ℕ → α) (entry : ℕ × GradPartition α) :
    Option (ℕ → α) :=
  let p := entry.1
  if lay.partitionNumel p * lay.rank > lay.dsNumel p then some mem
  else
    match entry.2 with
    | .view offset length => Move.run ⟨offset, lay.gradOffset p, length⟩ mem
    | .own values =>
        if values.length ≤ lay.partitionNumel p then
          some fun y =>
            if h : y - lay.gradOffset p < values.length then
              if lay.gradOffset p ≤ y then values[y - lay.gradOffset p]
              else mem y
            else mem y
        else none

/-- `params_to_reduce`, which is sorted by `ds_id`. -/
def sorted (bucket : List ℕ) : List ℕ := bucket.insertionSort (· ≤ ·)

/-- The flat buffer after the deferred ReduceScatter of a bucket is drained. -/
def drain (result : ℕ → ε) (bucket : List ℕ) (mem : ℕ → α) :
    Option (ℕ → α) :=
  let params := sorted bucket
  let (mem, partitions) := lay.deferred comm result params mem
  (params.zip partitions).foldlM lay.partitionGrad mem

/-- Every parameter of the bucket has its part of the result in its slot, and
the other slots are as before. -/
structure Placed (result : ℕ → ε) (bucket : List ℕ) (mem mem' : ℕ → α) :
    Prop where
  own : ∀ entry ∈ (sorted bucket).zip (lay.slices (sorted bucket)),
    ∀ x < entry.2.2, mem' (lay.gradOffset entry.1 + x) =
      comm.toDtype (result (entry.2.1 + x))
  others : ∀ q ∈ lay.allParams, q ∉ bucket → ∀ x < lay.partitionNumel q,
    mem' (lay.gradOffset q + x) = mem (lay.gradOffset q + x)

/-- The bucket is placed whatever is reduced and whatever was there before. -/
def Places (bucket : List ℕ) : Prop :=
  ∀ (result : ℕ → ε) (mem : ℕ → α), ∃ mem',
    lay.drain comm result bucket mem = some mem' ∧
      lay.Placed comm result bucket mem mem'

end Drain

/-! ## Slots -/

theorem chunkSz_grad (p : ℕ) :
    (lay.grad p).chunkSz lay.worldSize = lay.partitionNumel p := by
  rw [Gradient.chunkSz_eq _ (Nat.zero_lt_of_lt lay.rank_lt), Gradient.numel,
    grad, List.length_replicate]
  rfl

theorem localNumel_eq (p : ℕ) :
    lay.localNumel p = min (lay.partitionNumel p)
      (lay.dsNumel p - lay.partitionNumel p * lay.rank) := by
  rw [localNumel, Gradient.length_partition, chunkSz_grad, Nat.mul_comm,
    Gradient.numel, grad, List.length_replicate]

theorem localNumel_le (p : ℕ) : lay.localNumel p ≤ lay.partitionNumel p := by
  rw [localNumel_eq]
  exact Nat.min_le_left _ _

/-- A shard that is skipped is empty. -/
theorem localNumel_of_skipped {p : ℕ}
    (h : lay.dsNumel p < lay.partitionNumel p * lay.rank) :
    lay.localNumel p = 0 := by
  rw [localNumel_eq, Nat.sub_eq_zero_of_le h.le, Nat.min_zero]

theorem slot_apart {p q : ℕ} (hp : p ∈ lay.allParams) (hpq : p ≠ q) :
    (lay.slot p).Apart (lay.slot q) :=
  apart_of_offsets lay.partitionNumel _ hp hpq

/-! ## Entries of a bucket -/

/-- A parameter of the bucket with its slice of the output. -/
def entries (params : List ℕ) : List (ℕ × ℕ × ℕ) :=
  params.zip (lay.slices params)

theorem chunkNumel_grads (params : List ℕ) :
    chunkNumel lay.worldSize (params.map lay.grad) = lay.totalNumel params := by
  rw [chunkNumel, totalNumel, List.map_map]
  exact congrArg List.sum (List.map_congr_left fun p _ => lay.chunkSz_grad p)

theorem slices_getElem? (params : List ℕ) (i : ℕ) :
    (lay.slices params)[i]? = params[i]?.map fun p =>
      (lay.totalNumel (params.take i), lay.localNumel p) := by
  rw [slices, outputSlices_getElem?, List.getElem?_map, Option.map_map,
    ← List.map_take, chunkNumel_grads, Nat.zero_add]
  rfl

theorem entries_getElem? (params : List ℕ) (i : ℕ) :
    (lay.entries params)[i]? = params[i]?.map fun p =>
      (p, lay.totalNumel (params.take i), lay.localNumel p) := by
  rw [entries, List.zip, List.getElem?_zipWith, slices_getElem?]
  cases params[i]? with
  | none => rfl
  | some p => rfl

theorem map_fst_entries (params : List ℕ) :
    (lay.entries params).map Prod.fst = params := by
  apply List.map_fst_zip
  simp [slices]

theorem totalNumel_take_add_le (params : List ℕ) {i : ℕ} {p : ℕ}
    (hp : params[i]? = some p) :
    lay.totalNumel (params.take i) + lay.partitionNumel p ≤
      lay.totalNumel params := by
  have hget : (params.map lay.grad)[i]? = some (lay.grad p) := by
    rw [List.getElem?_map, hp, Option.map_some]
  have hle := chunkNumel_take_add_le lay.worldSize hget
  rwa [← List.map_take, chunkNumel_grads, chunkNumel_grads, chunkSz_grad] at hle

/-- The slice of an earlier parameter ends before that of a later one. -/
theorem totalNumel_take_le (params : List ℕ) {i j : ℕ} (hij : i < j) {p : ℕ}
    (hp : params[i]? = some p) :
    lay.totalNumel (params.take i) + lay.partitionNumel p ≤
      lay.totalNumel (params.take j) := by
  have hle := lay.totalNumel_take_add_le (params.take j) (i := i) (p := p)
    (by rw [List.getElem?_take_of_lt hij, hp])
  rwa [List.take_take, Nat.min_eq_left hij.le] at hle

theorem exists_of_mem_entries {params : List ℕ} {entry : ℕ × ℕ × ℕ}
    (h : entry ∈ lay.entries params) : ∃ i, params[i]? = some entry.1 ∧
      entry.2.1 = lay.totalNumel (params.take i) ∧
        entry.2.2 = lay.localNumel entry.1 := by
  obtain ⟨i, hi⟩ := List.mem_iff_getElem?.mp h
  rw [entries_getElem?, Option.map_eq_some_iff] at hi
  obtain ⟨p, hp, rfl⟩ := hi
  exact ⟨i, hp, rfl, rfl⟩

/-! ## The copies out of a registered output -/

/-- The copy of a shard from the flat buffer to its slot. -/
def moves (params : List ℕ) : List Move :=
  (lay.entries params).map fun entry =>
    ⟨lay.firstOffset params + entry.2.1, lay.gradOffset entry.1, entry.2.2⟩

theorem moves_getElem? (params : List ℕ) (i : ℕ) :
    (lay.moves params)[i]? = params[i]?.map fun p =>
      ⟨lay.firstOffset params + lay.totalNumel (params.take i),
        lay.gradOffset p, lay.localNumel p⟩ := by
  rw [moves, List.getElem?_map, entries_getElem?, Option.map_map]
  rfl

theorem apart_moves {params : List ℕ} (hnodup : params.Nodup)
    (hmem : ∀ p ∈ params, p ∈ lay.allParams) : Apart (lay.moves params) := by
  have hget : ∀ {i : ℕ} (h : i < (lay.moves params).length),
      ∃ p, params[i]? = some p ∧ (lay.moves params)[i] =
        ⟨lay.firstOffset params + lay.totalNumel (params.take i),
          lay.gradOffset p, lay.localNumel p⟩ := by
    intro i h
    have hm := (List.getElem?_eq_getElem h).symm
    rw [moves_getElem?, eq_comm, Option.map_eq_some_iff] at hm
    obtain ⟨p, hp, hm⟩ := hm
    exact ⟨p, hp, hm.symm⟩
  constructor
  · rw [List.pairwise_iff_getElem]
    intro i j hi hj hij
    obtain ⟨p, hp, hmi⟩ := hget hi
    obtain ⟨q, hq, hmj⟩ := hget hj
    rw [hmi, hmj]
    refine .inr (.inr (.inl ?_))
    have hle := lay.totalNumel_take_le params hij hp
    have hlocal := lay.localNumel_le p
    simp only [Move.source, Range.stop]
    omega
  · rw [List.pairwise_iff_getElem]
    intro i j hi hj hij
    obtain ⟨p, hp, hmi⟩ := hget hi
    obtain ⟨q, hq, hmj⟩ := hget hj
    rw [hmi, hmj]
    have hpq : p ≠ q := by
      rintro rfl
      have hinj := (List.getElem?_inj (List.getElem?_eq_some_iff.mp hp).1
        hnodup).mp (hp.trans hq.symm)
      omega
    have hslots := lay.slot_apart (hmem p (List.mem_of_getElem? hp)) hpq
    apply hslots.mono <;>
      simp [Move.target, Range.stop, slot, localNumel_le]

section Drain

variable {α ε : Type} {comm : CommType α ε}

theorem partitionGrad_view {params : List ℕ} {entry : ℕ × ℕ × ℕ}
    (h : entry ∈ lay.entries params) (offset : ℕ) (mem : ℕ → α) :
    lay.partitionGrad mem (entry.1, .view offset entry.2.2) =
      Move.run ⟨offset, lay.gradOffset entry.1, entry.2.2⟩ mem := by
  obtain ⟨i, -, -, hlen⟩ := lay.exists_of_mem_entries h
  rw [partitionGrad]
  split_ifs with hskip
  · rw [Move.run, if_pos]
    right
    rw [hlen]
    exact lay.localNumel_of_skipped hskip
  · rfl

/-- The copies out of a registered output are moves. -/
theorem foldlM_partitionGrad_view (params : List ℕ) (mem : ℕ → α) :
    (params.zip ((lay.slices params).map fun s =>
        GradPartition.view (lay.firstOffset params + s.1) s.2)).foldlM
      lay.partitionGrad mem = runAll (lay.moves params) mem := by
  rw [List.zip_map_right, ← entries, List.foldlM_map, runAll, moves,
    List.foldlM_map]
  have hview : ∀ entry ∈ lay.entries params, ∀ offset (mem : ℕ → α),
      lay.partitionGrad mem (entry.1, .view offset entry.2.2) =
        Move.run ⟨offset, lay.gradOffset entry.1, entry.2.2⟩ mem :=
    fun entry h => lay.partitionGrad_view h
  generalize lay.entries params = entries at hview
  induction entries generalizing mem with
  | nil => rfl
  | cons entry entries ih =>
      rw [List.foldlM_cons, List.foldlM_cons]
      dsimp only [Prod.map, id]
      rw [hview entry (List.mem_cons_self ..)]
      refine congrArg (Option.bind _) (funext fun mem' => ?_)
      exact ih mem' fun e he => hview e (List.mem_cons_of_mem _ he)

/-- A tensor of its own is copied to the slot and to nothing else. -/
theorem partitionGrad_own {p : ℕ} {values : List α}
    (hlen : values.length ≤ lay.localNumel p) (mem : ℕ → α) :
    ∃ mem', lay.partitionGrad mem (p, .own values) = some mem' ∧
      (∀ (x : ℕ) (h : x < values.length),
        mem' (lay.gradOffset p + x) = values[x]) ∧
      ∀ y, (∀ x < lay.partitionNumel p, y ≠ lay.gradOffset p + x) →
        mem' y = mem y := by
  have hle := lay.localNumel_le p
  rw [partitionGrad]
  split_ifs with hskip
  · have hzero : lay.localNumel p = 0 := lay.localNumel_of_skipped hskip
    exact ⟨mem, rfl, fun x hx => by omega, fun _ _ => rfl⟩
  · dsimp only
    rw [if_pos (hlen.trans hle)]
    refine ⟨_, rfl, fun x hx => ?_, fun y hy => ?_⟩
    · simp [hx]
    · split_ifs with hlt hge
      · exact absurd (by omega) (hy (y - lay.gradOffset p) (by omega))
      · rfl
      · rfl

/-- Tensors of their own all reach their slots. -/
theorem foldlM_partitionGrad_own {entries : List (ℕ × List α)}
    (hnodup : (entries.map Prod.fst).Nodup)
    (hmem : ∀ entry ∈ entries, entry.1 ∈ lay.allParams)
    (hlen : ∀ entry ∈ entries, entry.2.length ≤ lay.localNumel entry.1)
    (mem : ℕ → α) :
    ∃ mem', (entries.map fun entry => (entry.1, GradPartition.own entry.2)).foldlM
        lay.partitionGrad mem = some mem' ∧
      (∀ entry ∈ entries, ∀ (x : ℕ) (h : x < entry.2.length),
        mem' (lay.gradOffset entry.1 + x) = entry.2[x]) ∧
      ∀ q, q ∉ entries.map Prod.fst → ∀ x < lay.partitionNumel q,
        mem' (lay.gradOffset q + x) = mem (lay.gradOffset q + x) := by
  induction entries generalizing mem with
  | nil => exact ⟨mem, rfl, by simp, by simp⟩
  | cons entry entries ih =>
      rw [List.map_cons, List.nodup_cons] at hnodup
      have hparam := hmem entry (List.mem_cons_self ..)
      obtain ⟨mem₁, hrun, hown, hothers⟩ :=
        lay.partitionGrad_own (hlen entry (List.mem_cons_self ..)) mem
      obtain ⟨mem₂, hruns, hrest, hkeep⟩ := ih hnodup.2
        (fun e he => hmem e (List.mem_cons_of_mem _ he))
        (fun e he => hlen e (List.mem_cons_of_mem _ he)) mem₁
      refine ⟨mem₂, ?_, ?_, ?_⟩
      · rw [List.map_cons, List.foldlM_cons, hrun]
        exact hruns
      · intro e he x hx
        rcases List.mem_cons.mp he with rfl | he
        · rw [hkeep e.1 hnodup.1 x
            (hx.trans_le ((hlen e (List.mem_cons_self ..)).trans
              (lay.localNumel_le e.1)))]
          exact hown x hx
        · exact hrest e he x hx
      · intro q hq x hx
        rw [List.map_cons, List.mem_cons, not_or] at hq
        rw [hkeep q hq.2 x hx]
        refine hothers _ fun y hy => ?_
        exact ((lay.slot_apart hparam (Ne.symm hq.1)).symm).ne hx hy

theorem perm_sorted (bucket : List ℕ) : (sorted bucket).Perm bucket :=
  List.perm_insertionSort _ _

/-- Without a registered output every bucket is placed. -/
theorem places_of_not_inPlace {bucket : List ℕ} (hnodup : bucket.Nodup)
    (hmem : ∀ p ∈ bucket, p ∈ lay.allParams)
    (h : lay.outputInPlace (sorted bucket) = false) :
    lay.Places comm bucket := by
  intro result mem
  let values : ℕ × ℕ → List α := fun s =>
    (List.range s.2).map fun x => comm.toDtype (result (s.1 + x))
  let tensors : List (ℕ × List α) :=
    (lay.entries (sorted bucket)).map fun entry => (entry.1, values entry.2)
  have hparams : tensors.map Prod.fst = sorted bucket := by
    rw [List.map_map]
    exact lay.map_fst_entries _
  have hdrain : lay.drain comm result bucket mem =
      (tensors.map fun entry => (entry.1, GradPartition.own entry.2)).foldlM
        lay.partitionGrad mem := by
    rw [drain]
    dsimp only
    rw [deferred, h, if_neg Bool.false_ne_true, List.zip_map_right, ← entries,
      List.map_map]
    rfl
  have hlen : ∀ entry ∈ tensors, entry.2.length ≤ lay.localNumel entry.1 := by
    intro entry hentry
    obtain ⟨e, he, rfl⟩ := List.mem_map.mp hentry
    obtain ⟨-, -, -, hlocal⟩ := lay.exists_of_mem_entries he
    simp [values, hlocal]
  obtain ⟨mem', hrun, hown, hothers⟩ := lay.foldlM_partitionGrad_own
    (by rw [hparams]; exact (perm_sorted bucket).nodup_iff.mpr hnodup)
    (fun entry hentry => hmem _ ((perm_sorted bucket).mem_iff.mp
      (hparams ▸ List.mem_map_of_mem hentry))) hlen mem
  refine ⟨mem', hdrain.trans hrun, fun entry hentry x hx => ?_,
    fun q _ hq x hx => hothers q ?_ x hx⟩
  · have hget := hown _ (List.mem_map_of_mem hentry) x
      (by simpa [values] using hx)
    simpa [values] using hget
  · rw [hparams]
    exact fun hin => hq ((perm_sorted bucket).mem_iff.mp hin)

theorem drain_of_inPlace {bucket : List ℕ}
    (h : lay.outputInPlace (sorted bucket)) (result : ℕ → ε) (mem : ℕ → α) :
    lay.drain comm result bucket mem =
      runAll (lay.moves (sorted bucket))
        (lay.written comm result (sorted bucket) mem) := by
  rw [drain]
  dsimp only
  rw [deferred, if_pos h]
  exact lay.foldlM_partitionGrad_view _ _

theorem written_of_mem (hwidth : comm.width = 1) (result : ℕ → ε)
    {params : List ℕ} (mem : ℕ → α) {x : ℕ} (hx : x < lay.totalNumel params) :
    lay.written comm result params mem (lay.firstOffset params + x) =
      comm.toDtype (result x) := by
  rw [written, hwidth, Nat.one_mul, if_pos le_rfl, if_pos (by omega),
    Nat.add_sub_cancel_left]

theorem written_of_notMem (result : ℕ → ε) {params : List ℕ} (mem : ℕ → α)
    {y : ℕ} (hy : ∀ x < lay.totalNumel params, y ≠ lay.firstOffset params + x) :
    lay.written comm result params mem y = mem y := by
  rw [written]
  split_ifs with hfits
  · refine if_neg fun hin => hy (y - lay.firstOffset params) (by omega) ?_
    omega
  · rfl

/-- Every memory is what some result leaves behind. -/
theorem exists_written (comm : CommType α ε) (params : List ℕ) (mem : ℕ → α) :
    ∃ result, lay.written comm result params mem = mem := by
  refine ⟨fun x => Function.surjInv comm.surjective
    (mem (lay.firstOffset params + x)), funext fun y => ?_⟩
  rw [written]
  split_ifs with hfits
  · dsimp only
    split_ifs with hin
    · rw [Function.surjInv_eq comm.surjective, Nat.add_sub_cancel' hin.1]
    · rfl
  · rfl

/-- No copy changes the slot of a parameter outside the bucket. -/
theorem runAll_moves_of_notMem {params : List ℕ} {mem mem' : ℕ → α}
    (h : runAll (lay.moves params) mem = some mem')
    (hmem : ∀ p ∈ params, p ∈ lay.allParams) {q : ℕ} (hq : q ∉ params) {x : ℕ}
    (hx : x < lay.partitionNumel q) :
    mem' (lay.gradOffset q + x) = mem (lay.gradOffset q + x) := by
  refine runAll_of_notMem h fun m hm y hy => ?_
  obtain ⟨entry, hentry, rfl⟩ := List.mem_map.mp hm
  obtain ⟨i, hp, -, hlen⟩ := lay.exists_of_mem_entries hentry
  have hin := List.mem_of_getElem? hp
  have hne : entry.1 ≠ q := fun heq => hq (heq ▸ hin)
  have hy' : y < lay.partitionNumel entry.1 :=
    (hlen ▸ hy : y < lay.localNumel entry.1).trans_le (lay.localNumel_le _)
  exact ((lay.slot_apart (hmem _ hin) hne).symm).ne hx hy'

end Drain

/-- The region of the registered output has no slot of another parameter, and
the copies out of it neither overlap nor read what an earlier one wrote. -/
structure InOrder (bucket : List ℕ) : Prop where
  outside : ∀ q ∈ lay.allParams, q ∉ bucket → (lay.slot q).Apart
    ⟨lay.firstOffset (sorted bucket), lay.totalNumel (sorted bucket)⟩
  clear : Clear (lay.moves (sorted bucket))

section Placement

variable {α ε : Type} {comm : CommType α ε}

theorem places_of_inOrder (hwidth : comm.width = 1) {bucket : List ℕ}
    (hnodup : bucket.Nodup) (hmem : ∀ p ∈ bucket, p ∈ lay.allParams)
    (hplace : lay.outputInPlace (sorted bucket)) (h : lay.InOrder bucket) :
    lay.Places comm bucket := by
  have hmem' : ∀ p ∈ sorted bucket, p ∈ lay.allParams := fun p hp =>
    hmem p ((perm_sorted bucket).mem_iff.mp hp)
  have hapart := lay.apart_moves ((perm_sorted bucket).nodup_iff.mpr hnodup) hmem'
  intro result mem
  obtain ⟨mem', hrun, hcopied⟩ := hapart.deliver_of_clear h.clear
    (lay.written comm result (sorted bucket) mem)
  refine ⟨mem', (lay.drain_of_inPlace hplace result mem).trans hrun, ?_, ?_⟩
  · intro entry hentry x hx
    obtain ⟨i, hp, hstart, hlen⟩ := lay.exists_of_mem_entries hentry
    have hcopy := hcopied _ (List.mem_map_of_mem hentry) x hx
    have hfit : entry.2.1 + x < lay.totalNumel (sorted bucket) := by
      have hle := lay.totalNumel_take_add_le _ hp
      have hlocal := lay.localNumel_le entry.1
      omega
    dsimp only at hcopy
    rwa [Nat.add_assoc, lay.written_of_mem hwidth _ _ hfit] at hcopy
  · intro q hq hout x hx
    have hout' : q ∉ sorted bucket := fun hin =>
      hout ((perm_sorted bucket).mem_iff.mp hin)
    rw [lay.runAll_moves_of_notMem hrun hmem' hout' hx]
    exact lay.written_of_notMem _ _ fun y hy => (h.outside q hq hout).ne hx hy

theorem inOrder_of_places [Nontrivial α] (hwidth : comm.width = 1)
    {bucket : List ℕ} (hnodup : bucket.Nodup)
    (hmem : ∀ p ∈ bucket, p ∈ lay.allParams)
    (hplace : lay.outputInPlace (sorted bucket)) (h : lay.Places comm bucket) :
    lay.InOrder bucket := by
  have hmem' : ∀ p ∈ sorted bucket, p ∈ lay.allParams := fun p hp =>
    hmem p ((perm_sorted bucket).mem_iff.mp hp)
  have hapart := lay.apart_moves ((perm_sorted bucket).nodup_iff.mpr hnodup) hmem'
  constructor
  · intro q hq hout
    by_contra hnot
    obtain ⟨x, hx, y, hy, heq⟩ := Range.exists_of_not_apart hnot
    have hout' : q ∉ sorted bucket := fun hin =>
      hout ((perm_sorted bucket).mem_iff.mp hin)
    obtain ⟨a, b, hab⟩ := exists_pair_ne α
    obtain ⟨r, rfl⟩ := comm.surjective a
    obtain ⟨mem', hdrain, hplaced⟩ := h (fun _ => r) fun _ => b
    rw [lay.drain_of_inPlace hplace] at hdrain
    have hkept := hplaced.others q hq hout x hx
    rw [lay.runAll_moves_of_notMem hdrain hmem' hout' hx] at hkept
    have hwritten : lay.written comm (fun _ => r) (sorted bucket) (fun _ => b)
        (lay.gradOffset q + x) = comm.toDtype r := by
      rw [show lay.gradOffset q + x = lay.firstOffset (sorted bucket) + y from heq]
      exact lay.written_of_mem hwidth _ _ hy
    exact hab (hwritten.symm.trans hkept)
  · have hdeliver : ∀ mem : ℕ → α, Deliver (lay.moves (sorted bucket)) mem := by
      intro mem
      obtain ⟨result, hresult⟩ := lay.exists_written comm (sorted bucket) mem
      obtain ⟨mem', hdrain, hplaced⟩ := h result mem
      rw [lay.drain_of_inPlace hplace, hresult] at hdrain
      refine ⟨mem', hdrain, fun m hm x hx => ?_⟩
      obtain ⟨entry, hentry, rfl⟩ := List.mem_map.mp hm
      obtain ⟨i, hp, hstart, hlen⟩ := lay.exists_of_mem_entries hentry
      have hfit : entry.2.1 + x < lay.totalNumel (sorted bucket) := by
        have hle := lay.totalNumel_take_add_le _ hp
        have hlocal := lay.localNumel_le entry.1
        dsimp only at hx
        omega
      dsimp only
      rw [hplaced.own entry hentry x hx, Nat.add_assoc,
        ← lay.written_of_mem hwidth result mem hfit, hresult]
    exact hapart.clear_of_deliver hdeliver

/-- Elements longer than those of the buffer are refused. -/
theorem written_of_wide (hwidth : comm.width ≠ 1) (result : ℕ → ε)
    (params : List ℕ) (mem : ℕ → α) :
    lay.written comm result params mem = mem := by
  rw [written]
  split_ifs with hfits
  · have hpos := comm.width_pos
    have hzero : lay.totalNumel params = 0 := by
      by_contra hne
      have hlt := (Nat.lt_mul_iff_one_lt_left (Nat.pos_of_ne_zero hne)).mpr
        (by omega : 1 < comm.width)
      omega
    exact funext fun y => if_neg (by omega)
  · rfl

theorem places_wide_iff [Nontrivial α] (hwidth : comm.width ≠ 1)
    {bucket : List ℕ} (hnodup : bucket.Nodup)
    (hmem : ∀ p ∈ bucket, p ∈ lay.allParams)
    (hplace : lay.outputInPlace (sorted bucket)) :
    lay.Places comm bucket ↔ ∀ p ∈ bucket, lay.localNumel p = 0 := by
  have hmem' : ∀ p ∈ sorted bucket, p ∈ lay.allParams := fun p hp =>
    hmem p ((perm_sorted bucket).mem_iff.mp hp)
  constructor
  · intro h p hp
    by_contra hlocal
    obtain ⟨a, b, hab⟩ := exists_pair_ne α
    obtain ⟨r, rfl⟩ := comm.surjective a
    obtain ⟨mem', hdrain, hplaced⟩ := h (fun _ => r) fun _ => b
    rw [lay.drain_of_inPlace hplace, lay.written_of_wide hwidth] at hdrain
    obtain ⟨i, hi⟩ := List.mem_iff_getElem?.mp ((perm_sorted bucket).mem_iff.mpr hp)
    have hentry := List.mem_of_getElem? ((lay.entries_getElem? _ i).trans
      (congrArg _ hi))
    have hvalue := hplaced.own _ hentry 0 (Nat.pos_of_ne_zero hlocal)
    rw [runAll_const hdrain] at hvalue
    exact hab hvalue.symm
  · intro h result mem
    have hlen : ∀ entry ∈ lay.entries (sorted bucket), entry.2.2 = 0 := by
      intro entry hentry
      obtain ⟨i, hi, -, hlen⟩ := lay.exists_of_mem_entries hentry
      rw [hlen]
      exact h _ ((perm_sorted bucket).mem_iff.mp (List.mem_of_getElem? hi))
    have hclear : Clear (lay.moves (sorted bucket)) := by
      refine clear_of_len fun m hm => ?_
      obtain ⟨entry, hentry, rfl⟩ := List.mem_map.mp hm
      exact hlen entry hentry
    have hapart := lay.apart_moves ((perm_sorted bucket).nodup_iff.mpr hnodup)
      hmem'
    obtain ⟨mem', hrun, -⟩ := hapart.deliver_of_clear hclear
      (lay.written comm result (sorted bucket) mem)
    refine ⟨mem', (lay.drain_of_inPlace hplace result mem).trans hrun, ?_, ?_⟩
    · intro entry hentry x hx
      exact absurd hx (by rw [hlen entry hentry]; exact Nat.not_lt_zero x)
    · intro q hq hout x hx
      have hout' : q ∉ sorted bucket := fun hin =>
        hout ((perm_sorted bucket).mem_iff.mp hin)
      rw [lay.runAll_moves_of_notMem hrun hmem' hout' hx,
        lay.written_of_wide hwidth]

/-- A bucket is placed if its output is not registered in the flat buffer, or
if it is and the elements have the buffer's own type and are in order there.  The
reduction itself, on the DPU or by NCCL and in whatever type, is taken as delivered:
`result` is any values. -/
theorem places_iff [Nontrivial α] (comm : CommType α ε) {bucket : List ℕ}
    (hnodup : bucket.Nodup) (hmem : ∀ p ∈ bucket, p ∈ lay.allParams) :
    lay.Places comm bucket ↔ (lay.outputInPlace (sorted bucket) →
      if comm.width = 1 then lay.InOrder bucket
      else ∀ p ∈ bucket, lay.localNumel p = 0) := by
  cases hplace : lay.outputInPlace (sorted bucket) with
  | false =>
      exact iff_of_true (lay.places_of_not_inPlace hnodup hmem hplace)
        (fun h => absurd h Bool.false_ne_true)
  | true =>
      rw [forall_prop_of_true rfl]
      split_ifs with hwidth
      · exact ⟨lay.inOrder_of_places hwidth hnodup hmem hplace,
          lay.places_of_inOrder hwidth hnodup hmem hplace⟩
      · exact lay.places_wide_iff hwidth hnodup hmem hplace

end Placement

end GradLayout

/-! ## Two groups with two parameters each -/

/-- The parameters of four elements in the two groups, on the first of two
ranks. -/
def fourParams (fp16Groups : List (List ℕ)) (nodup : fp16Groups.flatten.Nodup) :
    GradLayout where
  worldSize := 2
  rank := 0
  rank_lt := Nat.zero_lt_two
  fp16Groups := fp16Groups
  nodup := nodup
  dsNumel _ := 4
  dsNumel_lt _ := by norm_num
  rsUseNccl := false

/-- The parameters by their groups in order. -/
theorem places_iff_ordered :
    (fourParams [[1, 2], [3, 4]] (by decide)).Places
      (CommType.float16 ℕ) [2, 1] := by
  refine (GradLayout.places_iff _ (CommType.float16 ℕ) (by decide)
    (by decide)).mpr fun _ => ?_
  apply (if_pos rfl).mpr
  exact ⟨by decide +kernel, by decide +kernel, by decide +kernel⟩

/-- With the groups interleaved the first and the last offset fit all the same,
and the shard of parameter 2 is copied over that of parameter 3. -/
theorem not_places_interleaved :
    ¬ (fourParams [[1, 3], [2, 4]] (by decide)).Places
      (CommType.float16 ℕ) [1, 2, 3, 4] := by
  intro h
  have hclear := (GradLayout.inOrder_of_places _ rfl (by decide) (by decide)
    (by decide) h).clear.pairwise
  exact absurd hclear (by decide +kernel)

end SmartNic.Training
