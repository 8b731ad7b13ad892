import SmartNic.Library.TrueDivision
import SmartNic.Partition.Shard

/-!
# The coalesced ReduceScatter

`reduce_scatter_coalesced` of `zero_optimizer.py`.  Every gradient is cut into
one chunk for each rank; the chunks are put together rank by rank, padded to the
size of the first one, and reduced as one flat buffer, from whose part on this
rank the chunks are cut again.
-/

open SmartNic.Partition SmartNic.Shards SmartNic.TrueDivision

namespace SmartNic.Training

/-- The elements of a gradient in C order; see `Shape` for the bound. -/
structure Gradient (α : Type) where
  flat : List α
  numel_lt : flat.length < 2 ^ 53

namespace Gradient

variable {α : Type} (ws : ℕ) (t : Gradient α)

/-- `tensor.numel()`. -/
def numel : ℕ := t.flat.length

/-- `chunk_sz`, an entry of `padded_partition_sz_for_each_tensor`. -/
def chunkSz : ℕ := ceilTrueDiv t.numel ws

/-- `partition_lst_for_each_tensor[tensor_idx][rank]`; a slice ends where the
tensor ends. -/
def partition (rank : ℕ) : List α := chunk t.flat (t.chunkSz ws) rank

/-- A chunk with `torch.empty(padding_sz)` behind it. -/
def padded (g : ℕ → α) (rank : ℕ) : List α :=
  t.partition ws rank ++
    empty g (t.chunkSz ws - (t.partition ws rank).length)

end Gradient

section Coalesced

variable {α : Type} (ws : ℕ)

/-- What one rank is to reduce: its chunks of all tensors.  `g` is what the
memory of the paddings holds. -/
def rankPart (g : ℕ → ℕ → ℕ → α) (tensors : List (Gradient α)) (rank : ℕ) :
    List α :=
  (tensors.mapIdx fun i t => t.padded ws (g rank i) rank).flatten

/-- `tensor_partition_flat_buffer` before the division.  `torch.cat` does not
take an empty list. -/
def flatBuffer (g : ℕ → ℕ → ℕ → α) :
    List (Gradient α) → Except PyError (List α)
  | [] => .error .runtimeError
  | [t] =>
      if t.numel % ws = 0 then .ok t.flat
      else .ok ((List.range ws).flatMap (rankPart ws g [t]))
  | tensors => .ok ((List.range ws).flatMap (rankPart ws g tensors))

/-- The input of the flat ReduceScatter. -/
def flatInput (g : ℕ → ℕ → ℕ → α) (preDivide : α → α)
    (tensors : List (Gradient α)) : Except PyError (List α) := do
  let flat ← flatBuffer ws g tensors
  .ok (flat.map preDivide)

/-- `offset` and `local_numel` of each entry of `output_lst`. -/
def outputSlices (rank : ℕ) : ℕ → List (Gradient α) → List (ℕ × ℕ)
  | _, [] => []
  | offset, t :: tensors =>
      (offset, (t.partition ws rank).length) ::
        outputSlices rank (offset + t.chunkSz ws) tensors

/-- `reduce_scatter_coalesced` and `wait` on one rank.  `outputBuffer` is the
size of `output_buffer`, if there is one, and `reduceScatter` what the flat
ReduceScatter returns on this rank for its input. -/
def reduceScatterCoalesced (rank : ℕ) (outputBuffer : Option ℕ)
    (reduceScatter : List α → List α) (g : ℕ → ℕ → ℕ → α) (preDivide : α → α)
    (tensors : List (Gradient α)) : Except PyError (List (List α)) := do
  let flat ← flatInput ws g preDivide tensors
  let chunkNumel := flat.length / ws
  if ∃ numel ∈ outputBuffer, numel < chunkNumel then .error .assertionError
  else
    let outputFlat := reduceScatter flat
    (outputSlices ws rank 0 tensors).mapM fun slice =>
      narrow outputFlat slice.1 slice.2

/-- The sum over the ranks of the elements from `start` on. -/
def summed [AddMonoid α] (xs : ℕ → List α) (start length : ℕ) : List α :=
  (List.range length).map fun x =>
    ((List.range ws).map fun r => (xs r).getD (start + x) 0).sum

end Coalesced

/-! ## Chunks -/

namespace Gradient

variable {α : Type} {ws : ℕ} (t : Gradient α)

theorem chunkSz_eq (hws : 0 < ws) :
    t.chunkSz ws = (t.numel + (ws - 1)) / ws :=
  ceilTrueDiv_eq t.numel_lt hws

variable (ws) in
theorem length_partition (rank : ℕ) :
    (t.partition ws rank).length =
      min (t.chunkSz ws) (t.numel - rank * t.chunkSz ws) :=
  length_chunk _ _ _

/-- The chunk by its length. -/
theorem take_partition (rank : ℕ) :
    (t.flat.drop (rank * t.chunkSz ws)).take (t.partition ws rank).length =
      t.partition ws rank := by
  simp [partition, chunk]

@[simp]
theorem length_padded (g : ℕ → α) (rank : ℕ) :
    (t.padded ws g rank).length = t.chunkSz ws := by
  have hle := t.length_partition ws rank
  rw [padded, List.length_append, length_empty]
  omega

end Gradient

section Layout

variable {α : Type} {ws : ℕ}

/-- The elements that each rank reduces. -/
def chunkNumel (ws : ℕ) (tensors : List (Gradient α)) : ℕ :=
  (tensors.map (Gradient.chunkSz ws)).sum

@[simp]
theorem length_rankPart (g : ℕ → ℕ → ℕ → α) (tensors : List (Gradient α))
    (rank : ℕ) : (rankPart ws g tensors rank).length = chunkNumel ws tensors := by
  rw [rankPart, List.length_flatten, chunkNumel]
  congr 1
  refine List.ext_getElem (by simp) fun i h h' => ?_
  simp

@[simp]
theorem length_outputSlices (rank offset : ℕ) (tensors : List (Gradient α)) :
    (outputSlices ws rank offset tensors).length = tensors.length := by
  induction tensors generalizing offset with
  | nil => rfl
  | cons t tensors ih => exact congrArg (· + 1) (ih _)

/-- The slice of a tensor starts behind the chunks of the tensors before it. -/
theorem outputSlices_getElem? (rank offset : ℕ) (tensors : List (Gradient α))
    (i : ℕ) :
    (outputSlices ws rank offset tensors)[i]? = tensors[i]?.map fun t =>
      (offset + chunkNumel ws (tensors.take i),
        (t.partition ws rank).length) := by
  induction tensors generalizing offset i with
  | nil => rfl
  | cons t tensors ih =>
      cases i with
      | zero => rfl
      | succ i =>
          simp only [outputSlices, List.getElem?_cons_succ, ih,
            List.take_succ_cons, chunkNumel, List.map_cons, List.sum_cons]
          rw [Nat.add_assoc]

/-- There it finds the chunk of the tensor and no padding. -/
theorem slice_rankPart (g : ℕ → ℕ → ℕ → α) (tensors : List (Gradient α))
    (rank : ℕ) {i : ℕ} {t : Gradient α} (ht : tensors[i]? = some t) :
    ((rankPart ws g tensors rank).drop (chunkNumel ws (tensors.take i))).take
      (t.partition ws rank).length = t.partition ws rank := by
  induction tensors generalizing g i with
  | nil => simp at ht
  | cons t' tensors ih =>
      have hcons : rankPart ws g (t' :: tensors) rank =
          t'.padded ws (g rank 0) rank ++
            rankPart ws (fun r i => g r (i + 1)) tensors rank := by
        simp [rankPart, List.mapIdx_cons]
      rw [hcons]
      cases i with
      | zero =>
          obtain rfl := Option.some.inj ht
          rw [List.take_zero, chunkNumel, List.map_nil, List.sum_nil,
            List.drop_zero, Gradient.padded, List.append_assoc, List.take_left]
      | succ i =>
          have hsum : chunkNumel ws ((t' :: tensors).take (i + 1)) =
              (t'.padded ws (g rank 0) rank).length +
                chunkNumel ws (tensors.take i) := by
            simp [chunkNumel]
          rw [hsum, List.drop_length_add_append]
          exact ih _ ht

theorem length_flatMap_rankPart (g : ℕ → ℕ → ℕ → α)
    (tensors : List (Gradient α)) :
    ((List.range ws).flatMap (rankPart ws g tensors)).length =
      ws * chunkNumel ws tensors :=
  length_flatMap_shards ws fun rank _ => length_rankPart g tensors rank

/-- One tensor that all ranks share evenly needs no padding. -/
theorem flatMap_rankPart_singleton (hws : 0 < ws) (g : ℕ → ℕ → ℕ → α)
    (t : Gradient α) (hdvd : t.numel % ws = 0) :
    (List.range ws).flatMap (rankPart ws g [t]) = t.flat := by
  have hshard : ∀ rank < ws, IsShard t.flat (t.chunkSz ws) rank
      (rankPart ws g [t] rank) := by
    intro rank _
    have hpart : rankPart ws g [t] rank = t.padded ws (g rank 0) rank := by
      simp [rankPart]
    rw [hpart]
    exact isShard_of_append (t.length_padded _ rank)
  have hsize : ws * t.chunkSz ws = t.numel := by
    obtain ⟨c, hc⟩ := Nat.dvd_of_mod_eq_zero hdvd
    rw [t.chunkSz_eq hws, hc, Nat.mul_add_div hws,
      Nat.div_eq_of_lt (Nat.sub_lt hws one_pos), Nat.add_zero]
  have hlen : ((List.range ws).flatMap (rankPart ws g [t])).length =
      t.flat.length := by
    rw [length_flatMap_rankPart, chunkNumel, List.map_singleton,
      List.sum_singleton]
    exact hsize
  have hgather := gather_shards hshard hsize.ge
  rwa [List.take_of_length_le hlen.le] at hgather

/-- The flat buffer is the parts of all ranks one after the other. -/
theorem flatBuffer_eq (hws : 0 < ws) (g : ℕ → ℕ → ℕ → α)
    {tensors : List (Gradient α)} (hne : tensors ≠ []) :
    flatBuffer ws g tensors =
      .ok ((List.range ws).flatMap (rankPart ws g tensors)) := by
  match tensors, hne with
  | [t], _ =>
      rw [flatBuffer]
      split_ifs with hdvd
      · rw [flatMap_rankPart_singleton hws g t hdvd]
      · rfl
  | _ :: _ :: _, _ => rfl

theorem flatInput_eq (hws : 0 < ws) (g : ℕ → ℕ → ℕ → α) (preDivide : α → α)
    {tensors : List (Gradient α)} (hne : tensors ≠ []) :
    flatInput ws g preDivide tensors =
      .ok (((List.range ws).flatMap (rankPart ws g tensors)).map preDivide) := by
  rw [flatInput, flatBuffer_eq hws g hne]
  rfl

variable (ws) in
theorem chunkNumel_take_add_le {tensors : List (Gradient α)} {i : ℕ}
    {t : Gradient α} (ht : tensors[i]? = some t) :
    chunkNumel ws (tensors.take i) + t.chunkSz ws ≤ chunkNumel ws tensors := by
  induction tensors generalizing i with
  | nil => simp at ht
  | cons t' tensors ih =>
      cases i with
      | zero =>
          obtain rfl := Option.some.inj ht
          simp [chunkNumel]
      | succ i =>
          have hle := ih ht
          simp only [chunkNumel, List.take_succ_cons, List.map_cons,
            List.sum_cons] at hle ⊢
          omega

/-- A slice of a slice. -/
theorem slice_slice {β : Type} (xs : List β) (a : ℕ) {n o l : ℕ}
    (h : o + l ≤ n) :
    (((xs.drop a).take n).drop o).take l = (xs.drop (a + o)).take l := by
  rw [List.drop_take, List.take_take, List.drop_drop, Nat.min_eq_left (by omega)]

/-- A tensor's chunk in the flat buffer. -/
theorem slice_flatMap_rankPart (g : ℕ → ℕ → ℕ → α)
    (tensors : List (Gradient α)) {rank : ℕ} (hrank : rank < ws) {i : ℕ}
    {t : Gradient α} (ht : tensors[i]? = some t) :
    (((List.range ws).flatMap (rankPart ws g tensors)).drop
      (rank * chunkNumel ws tensors + chunkNumel ws (tensors.take i))).take
        (t.partition ws rank).length = t.partition ws rank := by
  have hpart : chunk ((List.range ws).flatMap (rankPart ws g tensors))
      (chunkNumel ws tensors) rank = rankPart ws g tensors rank :=
    chunk_flatMap (fun r _ => length_rankPart g tensors r) hrank
  have hfit : chunkNumel ws (tensors.take i) + (t.partition ws rank).length ≤
      chunkNumel ws tensors := by
    have hle := chunkNumel_take_add_le ws ht
    have hlen := t.length_partition ws rank
    omega
  rw [chunk] at hpart
  rw [← slice_slice _ _ hfit, hpart]
  exact slice_rankPart g tensors rank ht

end Layout

/-! ## Sums -/

section Sums

variable {α : Type} [AddMonoid α] {ws : ℕ}

theorem length_summed (xs : ℕ → List α) (start length : ℕ) :
    (summed ws xs start length).length = length := by
  simp [summed]

/-- A slice of a sum is the sum of the slices. -/
theorem slice_summed (xs : ℕ → List α) (start : ℕ) {length o l : ℕ}
    (h : o + l ≤ length) :
    ((summed ws xs start length).drop o).take l =
      summed ws xs (start + o) l := by
  refine List.ext_getElem ?_ fun x hx hx' => ?_
  · rw [List.length_take, List.length_drop, length_summed, length_summed]
    omega
  · simp [summed, Nat.add_assoc]

/-- Only the slices of the ranks matter. -/
theorem summed_congr {xs ys : ℕ → List α} {start start' length : ℕ}
    (h : ∀ r < ws, ((xs r).drop start).take length =
      ((ys r).drop start').take length) :
    summed ws xs start length = summed ws ys start' length := by
  refine List.map_congr_left fun x hx => ?_
  rw [List.mem_range] at hx
  congr 1
  refine List.map_congr_left fun r hr => ?_
  have hget := congrArg (fun zs => zs.getD x 0) (h r (List.mem_range.mp hr))
  simpa [List.getD_eq_getElem?_getD, List.getElem?_take, hx] using hget

end Sums

/-! ## The outputs -/

section Outputs

variable {α : Type} {ws : ℕ}

/-- Sizes decide the layout. -/
theorem chunkNumel_congr {tensors tensors' : List (Gradient α)}
    (h : tensors.map Gradient.numel = tensors'.map Gradient.numel) :
    chunkNumel ws tensors = chunkNumel ws tensors' := by
  have hmap : ∀ ts : List (Gradient α), chunkNumel ws ts =
      ((ts.map Gradient.numel).map fun n => ceilTrueDiv n ws).sum := by
    intro ts
    rw [List.map_map]
    rfl
  rw [hmap, hmap, h]

/-- Tensor `i` of the ranks after the division. -/
def divided (preDivide : α → α) (tensors : ℕ → List (Gradient α)) (i r : ℕ) :
    List α :=
  ((tensors r)[i]?.elim [] Gradient.flat).map preDivide

/-- The flat ReduceScatter returns the sum over the ranks of the input chunk of
this rank. -/
def ReducesFlat [AddMonoid α] (ws rank : ℕ) (reduceScatter : List α → List α)
    (inputs : ℕ → Except PyError (List α)) : Prop :=
  ∀ flat : ℕ → List α, (∀ r < ws, inputs r = .ok (flat r)) →
    reduceScatter (flat rank) =
      summed ws flat (rank * ((flat rank).length / ws))
        ((flat rank).length / ws)

theorem exists_of_sizes {tensors tensors' : List (Gradient α)}
    (h : tensors'.map Gradient.numel = tensors.map Gradient.numel) {i : ℕ}
    {t : Gradient α} (ht : tensors[i]? = some t) :
    ∃ t', tensors'[i]? = some t' ∧ t'.numel = t.numel := by
  have hget := congrArg (·[i]?) h
  simpa [ht] using hget

/-- The chunk of a tensor in the divided flat buffer of a rank. -/
theorem slice_divided (g : ℕ → ℕ → ℕ → α) (preDivide : α → α)
    {tensors : ℕ → List (Gradient α)} {rank r : ℕ} (hrank : rank < ws)
    (hsize : (tensors r).map Gradient.numel =
      (tensors rank).map Gradient.numel) {i : ℕ} {t : Gradient α}
    (ht : (tensors rank)[i]? = some t) :
    ((((List.range ws).flatMap (rankPart ws g (tensors r))).map
      preDivide).drop (rank * chunkNumel ws (tensors rank) +
        chunkNumel ws ((tensors rank).take i))).take
          (t.partition ws rank).length =
      ((divided preDivide tensors i r).drop (rank * t.chunkSz ws)).take
        (t.partition ws rank).length := by
  obtain ⟨t', ht', hnumel⟩ := exists_of_sizes hsize ht
  have hchunk : t'.chunkSz ws = t.chunkSz ws := by
    rw [Gradient.chunkSz, Gradient.chunkSz, hnumel]
  have hlen : (t'.partition ws rank).length = (t.partition ws rank).length := by
    rw [Gradient.length_partition, Gradient.length_partition, hchunk, hnumel]
  have htake : ((tensors r).take i).map Gradient.numel =
      ((tensors rank).take i).map Gradient.numel := by
    rw [List.map_take, List.map_take, hsize]
  have hslice := slice_flatMap_rankPart g (tensors r) hrank ht'
  rw [chunkNumel_congr hsize, chunkNumel_congr htake, hlen] at hslice
  rw [← List.map_drop, ← List.map_take, hslice, divided, ht', Option.elim_some,
    ← List.map_drop, ← List.map_take, ← hlen, ← hchunk, t'.take_partition]

/-- The outputs are the slices of the summed chunks of the ranks. -/
theorem reduceScatterCoalesced_eq [AddMonoid α] {rank : ℕ} (hrank : rank < ws)
    {tensors : ℕ → List (Gradient α)}
    (hsizes : ∀ r < ws, (tensors r).map Gradient.numel =
      (tensors rank).map Gradient.numel)
    (hne : tensors rank ≠ []) (g : ℕ → ℕ → ℕ → ℕ → α) (preDivide : α → α)
    {outputBuffer : Option ℕ}
    (hbuffer : ∀ n ∈ outputBuffer, chunkNumel ws (tensors rank) ≤ n)
    {reduceScatter : List α → List α}
    (hreduce : ReducesFlat ws rank reduceScatter fun r =>
      flatInput ws (g r) preDivide (tensors r)) :
    reduceScatterCoalesced ws rank outputBuffer reduceScatter (g rank)
        preDivide (tensors rank) =
      .ok ((outputSlices ws rank 0 (tensors rank)).map fun slice =>
        summed ws
          (fun r => ((List.range ws).flatMap
            (rankPart ws (g r) (tensors r))).map preDivide)
          (rank * chunkNumel ws (tensors rank) + slice.1) slice.2) := by
  have hws : 0 < ws := Nat.zero_lt_of_lt hrank
  have hne' : ∀ r < ws, tensors r ≠ [] := by
    intro r hr h
    have hmap := hsizes r hr
    rw [h, List.map_nil] at hmap
    exact hne (List.map_eq_nil_iff.mp hmap.symm)
  have hflat := hreduce
    (fun r => ((List.range ws).flatMap (rankPart ws (g r) (tensors r))).map
      preDivide)
    fun r hr => flatInput_eq hws (g r) preDivide (hne' r hr)
  have hchunk : (((List.range ws).flatMap
      (rankPart ws (g rank) (tensors rank))).map preDivide).length / ws =
      chunkNumel ws (tensors rank) := by
    rw [List.length_map, length_flatMap_rankPart, Nat.mul_div_cancel_left _ hws]
  have hfits : ¬ ∃ n ∈ outputBuffer, n < chunkNumel ws (tensors rank) := by
    rintro ⟨n, hn, hlt⟩
    exact absurd (hbuffer n hn) (Nat.not_le.mpr hlt)
  rw [hchunk] at hflat
  rw [reduceScatterCoalesced, flatInput_eq hws (g rank) preDivide hne, ok_bind]
  dsimp only
  rw [hchunk, if_neg hfits, hflat]
  refine mapM_ok _ fun slice hslice => ?_
  obtain ⟨i, hi⟩ := List.mem_iff_getElem?.mp hslice
  rw [outputSlices_getElem?, Option.map_eq_some_iff] at hi
  obtain ⟨t, ht, rfl⟩ := hi
  have hfit : 0 + chunkNumel ws ((tensors rank).take i) +
      (t.partition ws rank).length ≤ chunkNumel ws (tensors rank) := by
    have hle := chunkNumel_take_add_le ws ht
    have hlen := t.length_partition ws rank
    omega
  rw [narrow_of_le (by rw [length_summed]; exact hfit), slice_summed _ _ hfit]

/-- Every output has the rank's range of its tensor, summed over the ranks, and
nothing else; it is the range that `_partition_param` keeps on the rank. -/
theorem reduceScatterCoalesced_spec [AddMonoid α] {rank : ℕ}
    (hrank : rank < ws) (tensors : ℕ → List (Gradient α))
    (hsizes : ∀ r < ws, (tensors r).map Gradient.numel =
      (tensors rank).map Gradient.numel)
    (g : ℕ → ℕ → ℕ → ℕ → α) (preDivide : α → α) {outputBuffer : Option ℕ}
    (hbuffer : ∀ n ∈ outputBuffer, chunkNumel ws (tensors rank) ≤ n)
    {reduceScatter : List α → List α}
    (hreduce : ReducesFlat ws rank reduceScatter fun r =>
      flatInput ws (g r) preDivide (tensors r))
    {i : ℕ} {t : Gradient α} (ht : (tensors rank)[i]? = some t) :
    let c := (t.numel + (ws - 1)) / ws
    let count := min ((rank + 1) * c) t.numel - rank * c
    (∃ outputs, reduceScatterCoalesced ws rank outputBuffer reduceScatter
        (g rank) preDivide (tensors rank) = .ok outputs ∧
      outputs[i]? =
        some (summed ws (divided preDivide tensors i) (rank * c) count)) ∧
    ∀ {β : Type} (param : Parameter β) (partitioned : List β),
      param.dsNumel = t.numel → param.data.flat.length = param.dsNumel →
      partitioned.length = partitionSize ws param →
      ∃ rest, copyPartition ws rank param partitioned =
        .ok ((param.data.flat.drop (rank * c)).take count ++ rest) := by
  intro c count
  have hws : 0 < ws := Nat.zero_lt_of_lt hrank
  have hc : t.chunkSz ws = c := t.chunkSz_eq hws
  have hcount : (t.partition ws rank).length = count := by
    have hmul : (rank + 1) * c = rank * c + c := Nat.succ_mul rank c
    rw [t.length_partition, hc]
    change _ = min ((rank + 1) * c) t.numel - rank * c
    omega
  constructor
  · have hne : tensors rank ≠ [] := by
      intro h
      simp [h] at ht
    refine ⟨_, reduceScatterCoalesced_eq hrank hsizes hne g preDivide hbuffer
      hreduce, ?_⟩
    rw [List.getElem?_map, outputSlices_getElem?, ht, Option.map_some,
      Option.map_some, Nat.zero_add, ← hcount, ← hc]
    congr 1
    exact summed_congr fun r hr =>
      slice_divided (g r) preDivide hrank (hsizes r hr) ht
  · intro β param partitioned hnumel hdata hsize
    have hpc : partitionSize ws param = c := by
      rw [partitionSize_eq param hws, hnumel]
    obtain ⟨rest, hcopy, -⟩ := copyPartition_eq rank hdata hsize
    refine ⟨rest, ?_⟩
    have htake : (param.data.flat.drop (rank * c)).take count =
        chunk param.data.flat c rank := by
      have hlen : (chunk param.data.flat c rank).length = count := by
        rw [length_chunk, hdata, hnumel, ← hcount, t.length_partition, hc]
      rw [← hlen]
      simp [chunk]
    rw [hcopy, htake, hpc]

/-! ## Two tensors on two ranks -/

/-- Three elements and one element; the second rank has one and none of them. -/
def unevenTensors (r : ℕ) : List (Gradient ℕ) :=
  [⟨[2 + 4 * r, 4 + 4 * r, 6 + 4 * r], by simp⟩, ⟨[8 + 4 * r], by simp⟩]

def unevenInput (r : ℕ) : List ℕ :=
  ((List.range 2).flatMap
    (rankPart 2 (fun _ _ _ => 99) (unevenTensors r))).map (· / 2)

theorem reduceScatterCoalesced_spec_uneven :
    ∃ outputs, reduceScatterCoalesced 2 1 none
        (fun _ => summed 2 unevenInput (1 * chunkNumel 2 (unevenTensors 1))
          (chunkNumel 2 (unevenTensors 1)))
        (fun _ _ _ => 99) (· / 2) (unevenTensors 1) = .ok outputs ∧
      outputs[0]? = some [8] := by
  have hreduce : ReducesFlat 2 1
      (fun _ => summed 2 unevenInput (1 * chunkNumel 2 (unevenTensors 1))
        (chunkNumel 2 (unevenTensors 1)))
      fun r => flatInput 2 (fun _ _ _ => 99) (· / 2) (unevenTensors r) := by
    intro flat hflat
    have heq : ∀ r < 2, flat r = unevenInput r := by
      intro r hr
      have hinput : flatInput 2 (fun _ _ _ => 99) (· / 2) (unevenTensors r) =
          .ok (unevenInput r) :=
        flatInput_eq Nat.zero_lt_two _ _ (List.cons_ne_nil _ _)
      exact (Except.ok.inj (hinput.symm.trans (hflat r hr))).symm
    have hlen : (flat 1).length / 2 = chunkNumel 2 (unevenTensors 1) := by
      rw [heq 1 Nat.one_lt_two, unevenInput, List.length_map,
        length_flatMap_rankPart, Nat.mul_div_cancel_left _ Nat.zero_lt_two]
    rw [hlen]
    exact summed_congr fun r hr => by rw [heq r hr]
  exact (reduceScatterCoalesced_spec Nat.one_lt_two unevenTensors
    (fun _ _ => rfl) (fun _ _ _ _ => 99) (· / 2)
    (fun _ hn => by cases hn) hreduce (i := 0) rfl).1

end Outputs

end SmartNic.Training
