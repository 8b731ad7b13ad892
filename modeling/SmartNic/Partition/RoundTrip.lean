import SmartNic.Partition.Gather
import SmartNic.Partition.Shard

/-!
# Gathering restores what was partitioned

Every gather finds the shards of all ranks in rank order.  The padding that a
rank left behind its chunk is never copied to the full tensor.
-/

namespace SmartNic.Partition

open Shards TrueDivision

/-- A full parameter together with what `_partition_param` made of it on every
rank. -/
structure SplitParameter (worldSize : ℕ) (α : Type) where
  full : Parameter α
  onRank : ℕ → Parameter α
  shape_eq : full.data.shape = full.dsShape.dims
  fresh : full.dsTensor = none
  split : ∀ rank < worldSize, ∃ g hasBeenUpdated,
    partitionParam worldSize rank g hasBeenUpdated full = .ok (onRank rank)

/-! ## Loops that succeed -/

theorem mapM_range_ok {f : ℕ → Except PyError β} {v : ℕ → β} (k : ℕ)
    (h : ∀ i < k, f i = .ok (v i)) :
    (List.range k).mapM f = .ok ((List.range k).map v) := by
  induction k with
  | zero => rfl
  | succ k ih =>
      rw [List.range_succ, List.mapM_append, ih fun i hi => h i (by omega),
        ok_bind, List.mapM_cons, List.mapM_nil, h k (by omega)]
      simp [pure, Except.pure]

theorem getPartition_range {k i : ℕ} (f : ℕ → List α) (h : i < k) :
    getPartition ((List.range k).map f) i = .ok (f i) := by
  simp [getPartition, h]

theorem allGatherBase_ok {worldSize : ℕ}
    {inputs : ℕ → Except PyError (List α)} (output : List α)
    {buffer : ℕ → List α} (h : ∀ q < worldSize, inputs q = .ok (buffer q))
    (hlen : ((List.range worldSize).flatMap buffer).length = output.length) :
    allGatherBase worldSize inputs output =
      .ok ((List.range worldSize).flatMap buffer) := by
  rw [allGatherBase, mapM_range_ok worldSize h, ok_bind, ← List.flatMap_def,
    if_pos hlen]

theorem slots_ok {worldSize size : ℕ} {buffer : ℕ → List α}
    (h : ∀ q < worldSize, (buffer q).length = size) :
    slots worldSize size ((List.range worldSize).flatMap buffer) =
      .ok ((List.range worldSize).map buffer) := by
  refine mapM_range_ok worldSize fun i hi => ?_
  have hlen := length_flatMap_shards worldSize h
  have hfit : (i + 1) * size ≤ worldSize * size :=
    Nat.mul_le_mul_right size hi
  rw [Nat.succ_mul] at hfit
  rw [narrow_of_le (by rw [hlen, Nat.mul_comm]; exact hfit), Nat.mul_comm]
  exact congrArg Except.ok (chunk_flatMap h hi)

/-- Reading the front part of a list in the middle of a slot. -/
theorem narrow_middle {pre mid post : List α} {n : ℕ} (h : n ≤ mid.length) :
    narrow (pre ++ mid ++ post) pre.length n = .ok (mid.take n) := by
  rw [narrow_of_le, List.append_assoc, List.drop_left,
    List.take_append_of_le_length h]
  simp only [List.length_append]
  omega

/-! ## A split parameter -/

namespace SplitParameter

variable {worldSize : ℕ} (p : SplitParameter worldSize α)

theorem length_flat : p.full.data.flat.length = p.full.dsNumel := by
  rw [p.full.data.numel_eq, p.shape_eq, Parameter.dsNumel]

theorem partitionedFrom {rank : ℕ} (h : rank < worldSize) :
    PartitionedFrom worldSize rank p.full (p.onRank rank) := by
  obtain ⟨g, hasBeenUpdated, hsplit⟩ := p.split rank h
  exact partitionedFrom_of_partitionParam p.length_flat p.fresh hsplit

/-- The shard of a rank. -/
def shardOn (rank : ℕ) : List α := (p.onRank rank).shardD

/-- The size of its shards. -/
def size : ℕ := partitionSize worldSize p.full

theorem isShard {rank : ℕ} (h : rank < worldSize) :
    IsShard p.full.data.flat p.size rank (p.shardOn rank) :=
  (p.partitionedFrom h).isShard

theorem length_shardOn {rank : ℕ} (h : rank < worldSize) :
    (p.shardOn rank).length = p.size := (p.isShard h).length_eq

theorem flat_le (h : 0 < worldSize) :
    p.full.data.flat.length ≤ worldSize * p.size := by
  rw [p.length_flat]
  exact dsNumel_le p.full h

theorem dsNumel_onRank {rank : ℕ} (h : rank < worldSize) :
    (p.onRank rank).dsNumel = p.full.data.flat.length := by
  rw [p.length_flat, Parameter.dsNumel, (p.partitionedFrom h).dsShape_eq]
  rfl

theorem view_flat {rank : ℕ} (h : rank < worldSize) {xs : List α}
    (hxs : xs = p.full.data.flat) :
    view xs (p.onRank rank).dsShape.dims = .ok p.full.data := by
  refine view_eq hxs ?_
  rw [(p.partitionedFrom h).dsShape_eq, p.shape_eq]

/-- Both flat paths: the shards of all ranks, cut to the real length. -/
theorem gather_flat (hpos : 0 < worldSize) (output : List α) {rank : ℕ}
    (hrank : rank < worldSize)
    (houtput : output.length = worldSize * p.size)
    {inputs : ℕ → Except PyError (List α)}
    (hinputs : ∀ q < worldSize, inputs q = .ok (p.shardOn q)) :
    (do let gathered ← allGatherBase worldSize inputs output
        let replicated ← narrow gathered 0 (p.onRank rank).dsNumel
        view replicated (p.onRank rank).dsShape.dims) = .ok p.full.data := by
  have hlen : ((List.range worldSize).flatMap p.shardOn).length =
      worldSize * p.size :=
    length_flatMap_shards worldSize fun q hq => p.length_shardOn hq
  have hle := p.flat_le hpos
  rw [allGatherBase_ok output hinputs (hlen.trans houtput.symm), ok_bind,
    p.dsNumel_onRank hrank, narrow_of_le (by omega), ok_bind, List.drop_zero]
  exact p.view_flat hrank (gather_shards (fun q hq => p.isShard hq) hle)

theorem allgatherParam_eq [Zero α] (hpos : 0 < worldSize) {rank : ℕ}
    (hrank : rank < worldSize) :
    allgatherParam worldSize p.onRank rank =
      .ok { p.onRank rank with data := p.full.data } := by
  have hsize : alignedSize worldSize (p.onRank rank) =
      worldSize * p.size := by
    have hnumel : (p.onRank rank).dsNumel = p.full.dsNumel := by
      rw [p.dsNumel_onRank hrank, p.length_flat]
    have halign : alignedSize worldSize (p.onRank rank) =
        alignedSize worldSize p.full := by
      rw [alignedSize, paddingSize, hnumel]
      rfl
    rw [halign]
    exact alignedSize_eq p.full hpos
  have hgather := p.gather_flat hpos
    (List.replicate (alignedSize worldSize (p.onRank rank)) 0) hrank
    (by rw [List.length_replicate, hsize])
    (fun q hq => (p.partitionedFrom hq).shard_eq)
  rw [← bind_assoc] at hgather
  simp only [allgatherParam]
  rw [← bind_assoc, ← bind_assoc, hgather, ok_bind]

/-- The single-parameter branch of `all_gather_coalesced`. -/
theorem allGatherSingle_eq (hpos : 0 < worldSize) (g : ℕ → α)
    {inputs : ℕ → Except PyError (List α)}
    (hinputs : ∀ q < worldSize, inputs q = .ok (p.shardOn q))
    {rank : ℕ} (hrank : rank < worldSize) (param : Parameter α)
    (hshape : param.dsShape = (p.onRank rank).dsShape) :
    allGatherSingle worldSize g inputs param =
      .ok { param with data := p.full.data, dsStatus := .available } := by
  have hnumel : param.dsNumel = (p.onRank rank).dsNumel := by
    rw [Parameter.dsNumel, hshape]
    rfl
  have hlt : param.dsNumel < 2 ^ 53 := param.dsShape.numel_lt
  have hsize : ceilTrueDiv param.dsNumel worldSize = p.size := by
    rw [ceilTrueDiv_eq hlt hpos, size, partitionSize_eq p.full hpos, hnumel,
      p.dsNumel_onRank hrank, p.length_flat]
  have hgather := p.gather_flat hpos
    (empty g (ceilTrueDiv param.dsNumel worldSize * worldSize)) hrank
    (by rw [length_empty, hsize, Nat.mul_comm]) hinputs
  rw [← bind_assoc] at hgather
  simp only [allGatherSingle]
  rw [hnumel] at hgather ⊢
  rw [hshape, ← bind_assoc, ← bind_assoc, hgather, ok_bind]

end SplitParameter

/-! ## Packed buffers -/

section Packed

variable {worldSize : ℕ}

/-- What a rank packs: its shards of the parameters, in their order. -/
def packedOn (ps : List (SplitParameter worldSize α)) (rank : ℕ) : List α :=
  ps.flatMap fun p => p.shardOn rank

/-- The size of a packed buffer. -/
def packedSize (ps : List (SplitParameter worldSize α)) : ℕ :=
  (ps.map fun p => p.size).sum

theorem length_packedOn (ps : List (SplitParameter worldSize α)) {rank : ℕ}
    (h : rank < worldSize) : (packedOn ps rank).length = packedSize ps := by
  induction ps with
  | nil => rfl
  | cons p ps ih =>
      rw [packedOn, List.flatMap_cons, List.length_append, p.length_shardOn h]
      exact congrArg (p.size + ·) ih

/-- The states on `rank` that the gathers work on: partitioned, up to a status
that has changed since. -/
def OnRank (rank : ℕ) (p : SplitParameter worldSize α)
    (param : Parameter α) : Prop :=
  param.dsId = p.full.dsId ∧ param.dsShape = (p.onRank rank).dsShape ∧
    param.dsTensor = (p.onRank rank).dsTensor

theorem OnRank.shard_eq {rank : ℕ} (hrank : rank < worldSize)
    {p : SplitParameter worldSize α} {param : Parameter α}
    (h : OnRank rank p param) : param.shard = .ok (p.shardOn rank) := by
  have hshard := (p.partitionedFrom hrank).shard_eq
  rw [Parameter.shard, ← h.2.2] at hshard
  exact hshard

theorem totalShardSize_ok {rank : ℕ} (hrank : rank < worldSize)
    {ps : List (SplitParameter worldSize α)} {params : List (Parameter α)}
    (h : List.Forall₂ (OnRank rank) ps params) :
    totalShardSize params = .ok (packedSize ps) := by
  induction h with
  | nil => rfl
  | @cons p param ps params hp hps ih =>
      rw [totalShardSize, hp.shard_eq hrank, ok_bind, ih, ok_bind,
        p.length_shardOn hrank]
      rfl

/-- The packing loop fills the buffer behind `pre` with the shards. -/
theorem packShards_ok {rank : ℕ} (hrank : rank < worldSize)
    {ps : List (SplitParameter worldSize α)} {params : List (Parameter α)}
    (h : List.Forall₂ (OnRank rank) ps params) (pre rest : List α)
    (hrest : rest.length = packedSize ps) :
    packShards (pre ++ rest) pre.length params =
      .ok (pre ++ packedOn ps rank) := by
  induction h generalizing pre rest with
  | nil =>
      have hnil : rest = [] := List.length_eq_zero_iff.mp hrest
      simp [packShards, packedOn, hnil]
  | @cons p param ps params hp hps ih =>
      have hsize : rest.length = p.size + packedSize ps := hrest
      have hshard := p.length_shardOn hrank
      have hcopy := copyInto_append pre (rest.take p.size)
        (rest.drop p.size) (p.shardOn rank)
        (by rw [hshard, List.length_take]; omega)
      rw [List.append_assoc, List.take_append_drop, List.length_take,
        Nat.min_eq_left (by omega), ← hshard] at hcopy
      have htail := ih (pre ++ p.shardOn rank) (rest.drop p.size)
        (by rw [List.length_drop]; omega)
      rw [List.length_append] at htail
      rw [packShards, hp.shard_eq hrank, ok_bind, hcopy, ok_bind, hshard]
      rw [hshard] at htail
      rw [htail, packedOn, packedOn, List.flatMap_cons, List.append_assoc]

theorem packedInput_ok (g : ℕ → α) {rank : ℕ} (hrank : rank < worldSize)
    {ps : List (SplitParameter worldSize α)} {params : List (Parameter α)}
    (h : List.Forall₂ (OnRank rank) ps params) :
    packedInput g params = .ok (packedOn ps rank) := by
  rw [packedInput, totalShardSize_ok hrank h, ok_bind]
  exact packShards_ok hrank h [] _ (length_empty g _)

end Packed

/-! ## Reading one parameter out of the slots -/

section Slots

variable {worldSize : ℕ} (p : SplitParameter worldSize α)

/-- Slot `i` holds the shard of rank `i` at the same offset for every `i`. -/
structure InSlots (slot pre post : ℕ → List α) (offset : ℕ) : Prop where
  slot_eq : ∀ i < worldSize, slot i = pre i ++ p.shardOn i ++ post i
  length_pre : ∀ i < worldSize, (pre i).length = offset

variable {p} {slot pre post : ℕ → List α} {offset : ℕ}

/-- The part that either loop narrows out of a slot is the rank's chunk. -/
theorem InSlots.narrow_eq (h : InSlots p slot pre post offset) {i : ℕ}
    (hi : i < worldSize) :
    (do let partition ← getPartition ((List.range worldSize).map slot) i
        narrow partition offset
          (min (p.full.data.flat.length - i * p.size) p.size)) =
      .ok (chunk p.full.data.flat p.size i) := by
  have hshard := p.isShard hi
  rw [getPartition_range slot hi, ok_bind, h.slot_eq i hi,
    ← h.length_pre i hi, narrow_middle (by rw [hshard.length_eq]; omega),
    hshard.take_min]

/-- Copying a chunk to its place in a tensor that starts with the chunks
before it. -/
theorem copyInto_chunk {xs init : List α} {size k : ℕ}
    (hinit : init.length = xs.length) (hstart : k * size < xs.length) :
    copyInto (xs.take (k * size) ++ init.drop (k * size)) (k * size)
        (min (xs.length - k * size) size) (chunk xs size k) =
      .ok (xs.take ((k + 1) * size) ++ init.drop ((k + 1) * size)) := by
  have hlen := length_chunk xs size k
  have hsucc := Nat.add_one_mul k size
  rw [Nat.min_comm] at hlen
  have hmid : ((init.drop (k * size)).take (chunk xs size k).length).length =
      (chunk xs size k).length := by
    rw [List.length_take, List.length_drop]
    omega
  have hcopy := copyInto_append (xs.take (k * size))
    ((init.drop (k * size)).take (chunk xs size k).length)
    ((init.drop (k * size)).drop (chunk xs size k).length)
    (chunk xs size k) hmid.symm
  rw [List.append_assoc, List.take_append_drop, hmid, List.length_take,
    Nat.min_eq_left hstart.le, hlen, List.drop_drop] at hcopy
  have hdrop : init.drop (k * size + min (xs.length - k * size) size) =
      init.drop ((k + 1) * size) := by
    by_cases hfull : size ≤ xs.length - k * size
    · rw [Nat.min_eq_right hfull, hsucc]
    · rw [List.drop_eq_nil_of_le (by omega), List.drop_eq_nil_of_le (by omega)]
  rw [hcopy, hdrop, take_succ_mul]

/-- After `k` ranks the replicated tensor starts with the first `k` chunks. -/
theorem InSlots.copyPart_ok (h : InSlots p slot pre post offset)
    {init : List α} (hinit : init.length = p.full.data.flat.length) (k : ℕ)
    (hk : k ≤ worldSize) :
    (List.range k).foldlM
        (copyPart ((List.range worldSize).map slot) offset
          p.full.data.flat.length p.size) init =
      .ok (p.full.data.flat.take (k * p.size) ++ init.drop (k * p.size)) := by
  induction k with
  | zero => simp [pure, Except.pure]
  | succ k ih =>
      rw [List.range_succ, List.foldlM_append, ih (by omega), ok_bind,
        List.foldlM_cons]
      simp only [copyPart, List.foldlM_nil, bind_pure]
      split_ifs with hstart
      · rw [← bind_assoc, h.narrow_eq (by omega), ok_bind]
        exact copyInto_chunk hinit hstart
      · have hsucc := Nat.add_one_mul k p.size
        rw [List.take_of_length_le (by omega), List.drop_eq_nil_of_le (by omega),
          List.take_of_length_le (by omega), List.drop_eq_nil_of_le (by omega)]

/-- After `k` ranks the collected parts are the first `k` chunks; rank 0 always
contributes one. -/
theorem InSlots.partsOf_ok (h : InSlots p slot pre post offset) (k : ℕ)
    (hk : k ≤ worldSize) :
    ∃ parts, (List.range k).foldlM
        (partsOf ((List.range worldSize).map slot) offset
          p.full.data.flat.length p.size) [] = .ok parts ∧
      parts.flatten = p.full.data.flat.take (k * p.size) ∧
      (0 < k → parts ≠ []) := by
  induction k with
  | zero => exact ⟨[], rfl, by simp, by simp⟩
  | succ k ih =>
      obtain ⟨parts, hparts, hflat, hne⟩ := ih (by omega)
      rw [List.range_succ, List.foldlM_append, hparts, ok_bind,
        List.foldlM_cons]
      simp only [partsOf, List.foldlM_nil, bind_pure]
      split_ifs with hstart
      · refine ⟨parts ++ [chunk p.full.data.flat p.size k], ?_, ?_, by simp⟩
        · rw [← bind_assoc, h.narrow_eq (by omega), ok_bind]
        · rw [List.flatten_append, hflat, take_succ_mul]
          simp
      · refine ⟨parts, rfl, ?_, fun _ => hne ?_⟩
        · rw [hflat, take_succ_mul, chunk_eq_nil hstart, List.append_nil]
        · have hpos := p.full.dsShape.numel_pos
          have hlen := p.length_flat
          rw [Parameter.dsNumel] at hlen
          refine Nat.pos_of_ne_zero fun hzero => hstart ?_
          rw [hzero]
          omega

end Slots

/-! ## The loops over the parameters -/

section Loops

variable {worldSize : ℕ} {rank : ℕ} {ps : List (SplitParameter worldSize α)}
  {params : List (Parameter α)} {slot pre : ℕ → List α} {offset : ℕ}

/-- The slots behind the parameters that a loop has passed. -/
structure Behind (ps : List (SplitParameter worldSize α))
    (slot pre : ℕ → List α) (offset : ℕ) : Prop where
  slot_eq : ∀ i < worldSize, slot i = pre i ++ packedOn ps i
  length_pre : ∀ i < worldSize, (pre i).length = offset

theorem Behind.head {p : SplitParameter worldSize α}
    (h : Behind (p :: ps) slot pre offset) :
    InSlots p slot pre (packedOn ps) offset where
  slot_eq i hi := by
    rw [h.slot_eq i hi, packedOn, List.flatMap_cons, List.append_assoc]
    rfl
  length_pre := h.length_pre

theorem Behind.tail {p : SplitParameter worldSize α}
    (h : Behind (p :: ps) slot pre offset) :
    Behind ps slot (fun i => pre i ++ p.shardOn i) (offset + p.size) where
  slot_eq i hi := h.head.slot_eq i hi
  length_pre i hi := by
    rw [List.length_append, h.length_pre i hi, p.length_shardOn hi]

theorem OnRank.dsNumel_eq (hrank : rank < worldSize)
    {p : SplitParameter worldSize α} {param : Parameter α}
    (h : OnRank rank p param) : param.dsNumel = p.full.data.flat.length := by
  rw [← p.dsNumel_onRank hrank, Parameter.dsNumel, h.2.1]
  rfl

theorem OnRank.view_eq (hrank : rank < worldSize)
    {p : SplitParameter worldSize α} {param : Parameter α}
    (h : OnRank rank p param) {xs : List α} (hxs : xs = p.full.data.flat) :
    view xs param.dsShape.dims = .ok p.full.data := by
  rw [h.2.1]
  exact p.view_flat hrank hxs

/-- What a gather is to leave in a parameter: its full tensor under its id. -/
def Restored (p : SplitParameter worldSize α) (param : Parameter α) : Prop :=
  param.dsId = p.full.dsId ∧ param.data = p.full.data

theorem replicateParams_ok (hpos : 0 < worldSize) (g : ℕ → α)
    (hrank : rank < worldSize) (h : List.Forall₂ (OnRank rank) ps params)
    (hslots : Behind ps slot pre offset) :
    ∃ restored, replicateParams worldSize g
        ((List.range worldSize).map slot) offset params = .ok restored ∧
      List.Forall₂ Restored ps restored := by
  induction h generalizing pre offset with
  | nil => exact ⟨[], rfl, .nil⟩
  | @cons p param ps params hp hps ih =>
      obtain ⟨restored, hrest, hall⟩ := ih hslots.tail
      have hcopy := hslots.head.copyPart_ok (length_empty g _) worldSize le_rfl
      have hview : view (p.full.data.flat.take (worldSize * p.size) ++
          (empty g p.full.data.flat.length).drop (worldSize * p.size))
          param.dsShape.dims = .ok p.full.data := by
        have hle := p.flat_le hpos
        refine hp.view_eq hrank ?_
        rw [List.take_of_length_le hle, List.drop_eq_nil_of_le
          (by rw [length_empty]; exact hle), List.append_nil]
      refine ⟨{ param with data := p.full.data } :: restored, ?_,
        .cons ⟨hp.1, rfl⟩ hall⟩
      rw [replicateParams, hp.shard_eq hrank, ok_bind, p.length_shardOn hrank,
        hp.dsNumel_eq hrank, hcopy, ok_bind, hview, ok_bind, hrest, ok_bind]

theorem waitCoalesced_ok (hpos : 0 < worldSize) (hrank : rank < worldSize)
    (h : List.Forall₂ (OnRank rank) ps params)
    (hstatus : ∀ param ∈ params, param.dsStatus = .inflight)
    (hslots : Behind ps slot pre offset) :
    ∃ restored, waitCoalesced worldSize
        ((List.range worldSize).map slot) offset params = .ok restored ∧
      List.Forall₂ Restored ps restored := by
  induction h generalizing pre offset with
  | nil => exact ⟨[], rfl, .nil⟩
  | @cons p param ps params hp hps ih =>
      obtain ⟨restored, hrest, hall⟩ :=
        ih (fun q hq => hstatus q (by simp [hq])) hslots.tail
      obtain ⟨parts, hparts, hflat, hne⟩ :=
        hslots.head.partsOf_ok worldSize le_rfl
      have hcat : cat parts = .ok p.full.data.flat := by
        rw [cat, if_neg (hne hpos), hflat,
          List.take_of_length_le (p.flat_le hpos)]
      refine ⟨{ param with data := p.full.data, dsStatus := .available } ::
        restored, ?_, .cons ⟨hp.1, rfl⟩ hall⟩
      rw [waitCoalesced, hp.shard_eq hrank, ok_bind, p.length_shardOn hrank,
        if_pos (hstatus param (by simp)), hp.dsNumel_eq hrank, hparts, ok_bind,
        hcat, ok_bind, hp.view_eq hrank rfl, ok_bind, hrest, ok_bind]

end Loops

/-! ## The gathers of several parameters -/

section Gathers

variable {worldSize : ℕ}

/-- The partitioned states of several parameters, on each rank. -/
def statesOf (ps : List (SplitParameter worldSize α)) (rank : ℕ) :
    List (Parameter α) :=
  ps.map fun p => p.onRank rank

theorem onRank_statesOf (ps : List (SplitParameter worldSize α)) {rank : ℕ}
    (h : rank < worldSize) :
    List.Forall₂ (OnRank rank) ps (statesOf ps rank) := by
  induction ps with
  | nil => exact .nil
  | cons p ps ih => exact .cons ⟨(p.partitionedFrom h).dsId_eq, rfl, rfl⟩ ih

theorem behind_packedOn (ps : List (SplitParameter worldSize α)) :
    Behind ps (packedOn ps) (fun _ => []) 0 where
  slot_eq _ _ := rfl
  length_pre _ _ := rfl

theorem length_flatMap_packedOn (ps : List (SplitParameter worldSize α)) :
    ((List.range worldSize).flatMap (packedOn ps)).length =
      worldSize * packedSize ps :=
  length_flatMap_shards worldSize fun _ hq => length_packedOn ps hq

theorem allgatherParams_ok (g : ℕ → α)
    (ps : List (SplitParameter worldSize α)) {rank : ℕ}
    (hrank : rank < worldSize) :
    ∃ restored, allgatherParams worldSize g (statesOf ps) rank =
        .ok restored ∧ List.Forall₂ Restored ps restored := by
  have hon := onRank_statesOf ps hrank
  by_cases hnil : ps = []
  · subst hnil
    exact ⟨[], rfl, .nil⟩
  have hne : statesOf ps rank ≠ [] := by simpa [statesOf] using hnil
  obtain ⟨restored, hloop, hall⟩ := replicateParams_ok (by omega) g hrank hon
    (behind_packedOn ps)
  refine ⟨restored, ?_, hall⟩
  have hgather := allGatherBase_ok (empty g (worldSize * packedSize ps))
    (fun q hq => packedInput_ok g hq (onRank_statesOf ps hq))
    (by rw [length_empty]; exact length_flatMap_packedOn ps)
  rw [allgatherParams]
  simp only [if_neg hne]
  rw [totalShardSize_ok hrank hon, ok_bind, hgather, ok_bind,
    slots_ok fun q hq => length_packedOn ps hq, ok_bind, hloop]

theorem allGatherPacked_ok (g : ℕ → α)
    {inputs : ℕ → Except PyError (List α)} {params : List (Parameter α)}
    {ps : List (SplitParameter worldSize α)} {rank : ℕ}
    (hrank : rank < worldSize)
    (hinputs : ∀ q < worldSize, inputs q = .ok (packedOn ps q))
    (hon : List.Forall₂ (OnRank rank) ps params)
    (hstatus : ∀ param ∈ params, param.dsStatus = .inflight) :
    ∃ restored, allGatherPacked worldSize g inputs params = .ok restored ∧
      List.Forall₂ Restored ps restored := by
  obtain ⟨restored, hloop, hall⟩ := waitCoalesced_ok (by omega) hrank hon
    hstatus (behind_packedOn ps)
  refine ⟨restored, ?_, hall⟩
  have hgather := allGatherBase_ok (empty g (packedSize ps * worldSize)) hinputs
    (by rw [length_empty, Nat.mul_comm]; exact length_flatMap_packedOn ps)
  rw [allGatherPacked, totalShardSize_ok hrank hon, ok_bind, hgather, ok_bind,
    slots_ok fun q hq => length_packedOn ps hq, ok_bind, hloop]

/-- The state of a parameter while it is being gathered. -/
def SplitParameter.started (p : SplitParameter worldSize α) (rank : ℕ) :
    Parameter α :=
  { p.onRank rank with dsStatus := .inflight }

theorem mapM_startGather (ps : List (SplitParameter worldSize α)) {rank : ℕ}
    (h : rank < worldSize) :
    (statesOf ps rank).mapM startGather =
      .ok (ps.map fun p => p.started rank) := by
  have hstart : ∀ param ∈ statesOf ps rank, startGather param =
      .ok { param with dsStatus := .inflight } := by
    intro param hparam
    obtain ⟨p, -, rfl⟩ := List.mem_map.mp hparam
    rw [startGather, if_pos (p.partitionedFrom h).dsStatus_eq]
  rw [mapM_ok _ hstart, statesOf, List.map_map]
  rfl

/-- The order of the ids. -/
def sorted (ps : List (SplitParameter worldSize α)) :
    List (SplitParameter worldSize α) :=
  ps.mergeSort fun p q => p.full.dsId ≤ q.full.dsId

/-- Every rank sorts its states in the same order. -/
theorem sortById_started (ps : List (SplitParameter worldSize α)) {rank : ℕ}
    (h : rank < worldSize) :
    sortById (ps.map fun p => p.started rank) =
      (sorted ps).map fun p => p.started rank := by
  refine (List.map_mergeSort ?_).symm
  intro p _ q _
  have hid (p : SplitParameter worldSize α) :
      (p.started rank).dsId = p.full.dsId := (p.partitionedFrom h).dsId_eq
  simp only [hid]

theorem onRank_started (ps : List (SplitParameter worldSize α)) {rank : ℕ}
    (h : rank < worldSize) :
    List.Forall₂ (OnRank rank) ps (ps.map fun p => p.started rank) := by
  induction ps with
  | nil => exact .nil
  | cons p ps ih => exact .cons ⟨(p.partitionedFrom h).dsId_eq, rfl, rfl⟩ ih

theorem allGatherCoalesced_ok (g : ℕ → α)
    (ps : List (SplitParameter worldSize α)) (hne : ps ≠ []) {rank : ℕ}
    (hrank : rank < worldSize) :
    ∃ restored, allGatherCoalesced worldSize g (statesOf ps) rank =
        .ok restored ∧ List.Forall₂ Restored (sorted ps) restored := by
  have hperm : (sorted ps).Perm ps := List.mergeSort_perm ps _
  have hinput : ∀ q < worldSize,
      (do let params ← (statesOf ps q).mapM startGather
          sortedInput g (sortById params)) =
        sortedInput g ((sorted ps).map fun p => p.started q) := by
    intro q hq
    rw [mapM_startGather ps hq, ok_bind, sortById_started ps hq]
  have hon (q : ℕ) (hq : q < worldSize) := onRank_started (sorted ps) hq
  rw [allGatherCoalesced, mapM_startGather ps hrank, ok_bind]
  simp only [sortById_started ps hrank]
  generalize sorted ps = qs at hperm hinput hon ⊢
  match qs with
  | [] => exact absurd (List.nil_perm.mp hperm) hne
  | [p] =>
      have hsingle := p.allGatherSingle_eq (by omega) g
        (fun q hq => (hinput q hq).trans (p.partitionedFrom hq).shard_eq)
        hrank (p.started rank) rfl
      refine ⟨[{ p.started rank with
        data := p.full.data, dsStatus := .available }], ?_, .cons ?_ .nil⟩
      · simp only [List.map_cons, List.map_nil, hsingle, ok_bind]
      · exact ⟨(p.partitionedFrom hrank).dsId_eq, rfl⟩
  | p :: p' :: qs =>
      have hstatus : ∀ param ∈ (p :: p' :: qs).map fun p => p.started rank,
          param.dsStatus = .inflight := by
        intro param hparam
        obtain ⟨p, -, rfl⟩ := List.mem_map.mp hparam
        rfl
      refine allGatherPacked_ok g hrank ?_ (hon rank hrank) hstatus
      intro q hq
      exact (hinput q hq).trans (packedInput_ok g hq (hon q hq))

end Gathers

/-! ## Round trip -/

theorem map_data_restored {worldSize : ℕ}
    {ps : List (SplitParameter worldSize α)} {restored : List (Parameter α)}
    (h : List.Forall₂ Restored ps restored) :
    restored.map (fun param => (param.dsId, param.data)) =
      ps.map fun p => (p.full.dsId, p.full.data) := by
  induction h with
  | nil => rfl
  | cons hp _ ih => rw [List.map_cons, List.map_cons, hp.1, hp.2, ih]

/-- On every rank each of the four gathers restores the full tensor of every
parameter, whatever the sizes and whatever memory held before. -/
theorem gathers_restore [Zero α] (g : ℕ → α) {worldSize rank : ℕ}
    (hrank : rank < worldSize) (ps : List (SplitParameter worldSize α)) :
    (∀ p ∈ ps, (allgatherParam worldSize p.onRank rank).map (·.data) =
      .ok p.full.data) ∧
    (allgatherParams worldSize g (statesOf ps) rank).map
        (List.map fun param => (param.dsId, param.data)) =
      .ok (ps.map fun p => (p.full.dsId, p.full.data)) ∧
    (∀ p ∈ ps, (allGatherCoalesced worldSize g (statesOf [p]) rank).map
        (List.map fun param => (param.dsId, param.data)) =
      .ok [(p.full.dsId, p.full.data)]) ∧
    (ps ≠ [] → (allGatherCoalesced worldSize g (statesOf ps) rank).map
        (List.map fun param => (param.dsId, param.data)) =
      .ok ((sorted ps).map fun p => (p.full.dsId, p.full.data))) := by
  have hcoalesced (qs : List (SplitParameter worldSize α)) (hne : qs ≠ []) :
      (allGatherCoalesced worldSize g (statesOf qs) rank).map
          (List.map fun param => (param.dsId, param.data)) =
        .ok ((sorted qs).map fun p => (p.full.dsId, p.full.data)) := by
    obtain ⟨restored, hok, hall⟩ := allGatherCoalesced_ok g qs hne hrank
    rw [hok, Except.map, map_data_restored hall]
  refine ⟨?_, ?_, ?_, hcoalesced ps⟩
  · intro p _
    rw [p.allgatherParam_eq (by omega) hrank]
    rfl
  · obtain ⟨restored, hok, hall⟩ := allgatherParams_ok g ps hrank
    rw [hok, Except.map, map_data_restored hall]
  · intro p _
    have h := hcoalesced [p] (by simp)
    rwa [sorted, List.mergeSort_singleton] at h

/-- Partition a parameter on every rank, with zeros in fresh memory. -/
def SplitParameter.ofFull (worldSize : ℕ) (full : Parameter ℕ)
    (hshape : full.data.shape = full.dsShape.dims)
    (hfresh : full.dsTensor = none)
    (hok : ∀ rank < worldSize,
      (partitionParam worldSize rank (fun _ => 0) false full).isOk) :
    SplitParameter worldSize ℕ where
  full := full
  onRank rank :=
    match partitionParam worldSize rank (fun _ => 0) false full with
    | .ok param => param
    | .error _ => full
  shape_eq := hshape
  fresh := hfresh
  split rank hrank := by
    refine ⟨fun _ => 0, false, ?_⟩
    have h := hok rank hrank
    revert h
    cases partitionParam worldSize rank (fun _ => 0) false full with
    | ok param => intro _; rfl
    | error e => intro h; simp [Except.isOk, Except.toBool] at h

/-- A one-dimensional parameter. -/
def vector (dsId : ℕ) (xs : List ℕ) (hpos : 0 < [xs.length].prod)
    (hlt : [xs.length].prod < 2 ^ 53) : Parameter ℕ where
  dsId := dsId
  dsShape := ⟨[xs.length], hpos, hlt⟩
  dsStatus := .available
  dsTensor := none
  dsActiveSubModules := []
  data := ⟨[xs.length], xs, by simp⟩

/-- Four elements on three ranks: the last rank gets none. -/
def fourOnThree : SplitParameter 3 ℕ :=
  .ofFull 3 (vector 5 [10, 11, 12, 13] (by decide) (by decide))
    rfl rfl (by decide)

/-- A single element on three ranks. -/
def oneOnThree : SplitParameter 3 ℕ :=
  .ofFull 3 (vector 2 [20] (by decide) (by decide)) rfl rfl (by decide)

/-- The last rank, which has no element of either parameter, gathers both. -/
theorem gathers_restore_three :
    (allGatherCoalesced 3 (fun _ => 7) (statesOf [fourOnThree, oneOnThree])
        2).map (List.map fun param => (param.dsId, param.data)) =
      .ok [(2, ⟨[1], [20], rfl⟩), (5, ⟨[4], [10, 11, 12, 13], rfl⟩)] := by
  have h := (gathers_restore (fun _ => 7) (show 2 < 3 by decide)
    [fourOnThree, oneOnThree]).2.2.2 (by simp)
  have hsorted : sorted [fourOnThree, oneOnThree] =
      [oneOnThree, fourOnThree] := by
    simp [sorted, List.mergeSort, List.MergeSort.Internal.splitInTwo,
      fourOnThree, oneOnThree, SplitParameter.ofFull, vector]
  rw [hsorted] at h
  exact h

end SmartNic.Partition
