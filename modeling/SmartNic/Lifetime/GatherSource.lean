import Mathlib
import SmartNic.Library.Machine
import SmartNic.Library.Memory
import SmartNic.Partition.RoundTrip

/-!
# The packed source of a coalesced AllGather

The packed branch of `all_gather_coalesced` fills a pinned buffer and hands its
address to the DPU, which reads it until the AllGather completes.  Only the local
`input_flat_cpu` of the call refers to the buffer: neither the work object nor
the returned handle does.
-/

namespace SmartNic.Lifetime

open Machine Memory SmartNic.Partition

variable {α : Type}

/-! ## Calls and AllGathers -/

/-- A packed AllGather that has been enqueued: the addresses that the DPU got,
and the shards that were packed. -/
structure PackedGather (α : Type) where
  source : Block
  shards : List α
  completed : Bool
deriving DecidableEq, Repr

/-- Where a call of `all_gather_coalesced` is. -/
inductive GatherCall (α : Type) where
  /-- No call is running. -/
  | idle
  /-- `input_flat_cpu` is allocated for the sorted parameters. -/
  | allocated (inputFlatCpu : Block) (params : List (Parameter α))
  /-- The shards are packed. -/
  | packed (inputFlatCpu : Block) (params : List (Parameter α))
  /-- The AllGather of this index is enqueued. -/
  | enqueued (inputFlatCpu : Block) (gather : ℕ)

/-- The pinned block that a tensor refers to. -/
def GatherCall.referenced : GatherCall α → Option Block
  | idle => none
  | allocated block _ => some block
  | packed block _ => some block
  | enqueued block _ => some block

structure SourceState (α : Type) where
  mem : ℕ → α
  gathers : List (PackedGather α)
  call : GatherCall α

inductive SourceAction (α : Type) where
  /-- `all_gather_coalesced` is called; `base` is where a pinned buffer of it
  would be. -/
  | request (params : List (Parameter α)) (base : ℕ)
  /-- The loop that fills `input_flat_cpu`. -/
  | pack
  /-- `_dist_allgather_fn`. -/
  | enqueue
  /-- `_dist_allgather_fn` raises. -/
  | enqueueFails
  /-- The call returns the handle. -/
  | ret
  /-- The DPU completes an AllGather. -/
  | complete (gather : ℕ)
  /-- Other code writes memory that is its own. -/
  | write (base : ℕ) (values : List α)

namespace SourceState

def init (mem : ℕ → α) : SourceState α where
  mem := mem
  gathers := []
  call := .idle

/-- The call up to the allocation.  A parameter that is available or in flight
raises; a single one is gathered from its own shard. -/
def request (s : SourceState α) (params : List (Parameter α)) (base : ℕ) :
    SourceState α :=
  match params.mapM startGather with
  | .error _ => s
  | .ok started =>
      match sortById started with
      | [] => s
      | [_] => s
      | sorted =>
          match totalShardSize sorted with
          | .error _ => s
          | .ok partitionSz => { s with call := .allocated ⟨base, partitionSz⟩ sorted }

/-- Fill the buffer. -/
def pack (s : SourceState α) (block : Block) (params : List (Parameter α)) :
    SourceState α :=
  match packShards (load s.mem block) 0 params with
  | .error _ => { s with call := .idle }
  | .ok values =>
      { s with mem := store s.mem block.base values, call := .packed block params }

def enqueue (s : SourceState α) (block : Block) (params : List (Parameter α)) :
    SourceState α :=
  { s with
    gathers := s.gathers ++ [⟨block, params.flatMap Parameter.shardD, false⟩]
    call := .enqueued block s.gathers.length }

def complete (s : SourceState α) (gather : ℕ) : SourceState α :=
  { s with gathers := s.gathers.modify gather fun g => { g with completed := true } }

/-- Memory that no tensor of the call refers to may be written at any time. -/
def step (s : SourceState α) : SourceAction α → Option (SourceState α)
  | .request params base =>
      match s.call with
      | .idle => some (s.request params base)
      | _ => none
  | .pack =>
      match s.call with
      | .allocated block params => some (s.pack block params)
      | _ => none
  | .enqueue =>
      match s.call with
      | .packed block params => some (s.enqueue block params)
      | _ => none
  | .enqueueFails =>
      match s.call with
      | .packed _ _ => some { s with call := .idle }
      | _ => none
  | .ret =>
      match s.call with
      | .enqueued _ _ => some { s with call := .idle }
      | _ => none
  | .complete gather => some (s.complete gather)
  | .write base values =>
      if ∀ block ∈ s.call.referenced, Block.Apart ⟨base, values.length⟩ block
      then some { s with mem := store s.mem base values }
      else none

/-- While an AllGather has not completed, its source holds the shards packed at
request time and a tensor refers to it. -/
def SourcesKept (s : SourceState α) : Prop :=
  ∀ g ∈ s.gathers, g.completed = false →
    load s.mem g.source = g.shards ∧ s.call.referenced = some g.source

/-- A call returns when its own AllGather has completed. -/
def ReturnsCompleted (s : SourceState α) (a : SourceAction α) : Prop :=
  match s.call, a with
  | .enqueued _ gather, .ret => ∀ g ∈ s.gathers[gather]?, g.completed = true
  | _, _ => True

/-! ## Packing -/

theorem totalShardSize_cons {param : Parameter α} {params : List (Parameter α)} {n : ℕ}
    (hsize : totalShardSize (param :: params) = .ok n) :
    ∃ m, param.shard = .ok param.shardD ∧ totalShardSize params = .ok m ∧
      n = param.shardD.length + m := by
  unfold totalShardSize Parameter.shard at hsize
  cases htensor : param.dsTensor with
  | none =>
      rw [htensor] at hsize
      cases hsize
  | some shard =>
      rw [htensor] at hsize
      simp only [ok_bind] at hsize
      cases hrest : totalShardSize params with
      | error e =>
          rw [hrest] at hsize
          cases hsize
      | ok m =>
          rw [hrest] at hsize
          cases hsize
          refine ⟨m, ?_, rfl, ?_⟩
          · simp only [Parameter.shard, Parameter.shardD, htensor, Option.getD_some]
          · rw [Parameter.shardD, htensor, Option.getD_some]

/-- The loop fills the buffer behind `pre` with the shards. -/
theorem packShards_eq {params : List (Parameter α)} {n : ℕ}
    (hsize : totalShardSize params = .ok n) (pre rest : List α)
    (hrest : rest.length = n) :
    packShards (pre ++ rest) pre.length params =
      .ok (pre ++ params.flatMap Parameter.shardD) := by
  induction params generalizing n pre rest with
  | nil =>
      cases hsize
      rw [List.length_eq_zero_iff.mp hrest]
      rfl
  | cons param params ih =>
      obtain ⟨m, hshard, htail, rfl⟩ := totalShardSize_cons hsize
      have hcopy := copyInto_append pre (rest.take param.shardD.length)
        (rest.drop param.shardD.length) param.shardD
        (by rw [List.length_take]; omega)
      rw [List.append_assoc, List.take_append_drop, List.length_take,
        Nat.min_eq_left (by omega)] at hcopy
      have hpack := ih htail (pre ++ param.shardD) (rest.drop param.shardD.length)
        (by rw [List.length_drop]; omega)
      rw [List.length_append] at hpack
      rw [packShards, hshard, ok_bind, hcopy, ok_bind, hpack, List.flatMap_cons,
        List.append_assoc]

theorem length_shards {params : List (Parameter α)} {n : ℕ}
    (hsize : totalShardSize params = .ok n) :
    (params.flatMap Parameter.shardD).length = n := by
  induction params generalizing n with
  | nil =>
      cases hsize
      rfl
  | cons param params ih =>
      obtain ⟨m, -, htail, rfl⟩ := totalShardSize_cons hsize
      rw [List.flatMap_cons, List.length_append, ih htail]

/-! ## The invariant -/

/-- What the block of a call holds. -/
def CallOk (mem : ℕ → α) : GatherCall α → Prop
  | .idle => True
  | .allocated block params => totalShardSize params = .ok block.size
  | .packed block params => load mem block = params.flatMap Parameter.shardD
  | .enqueued _ _ => True

structure Inv (s : SourceState α) : Prop where
  call : CallOk s.mem s.call
  /-- Only the AllGather of the current call can be incomplete. -/
  incomplete : ∀ (k : ℕ) (g : PackedGather α), s.gathers[k]? = some g →
    g.completed = false →
      s.call = .enqueued g.source k ∧ load s.mem g.source = g.shards

theorem inv_init (mem : ℕ → α) : (init mem).Inv where
  call := trivial
  incomplete k g hg _ := by cases hg

theorem Inv.sourcesKept {s : SourceState α} (hinv : s.Inv) : s.SourcesKept := by
  intro g hg hincomplete
  obtain ⟨k, hk⟩ := List.getElem?_of_mem hg
  obtain ⟨hcall, hload⟩ := hinv.incomplete k g hk hincomplete
  refine ⟨hload, ?_⟩
  rw [hcall]
  rfl

variable {s s' : SourceState α}

theorem inv_of_completed (hcall : CallOk s.mem s.call)
    (hdone : ∀ (k : ℕ) (g : PackedGather α), s.gathers[k]? = some g →
      g.completed = true) : s.Inv where
  call := hcall
  incomplete k g hg hincomplete := by
    rw [hdone k g hg] at hincomplete
    cases hincomplete

/-- While no AllGather is enqueued by the call, all have completed. -/
theorem Inv.completed (hinv : s.Inv) (hcall : ∀ block k, s.call ≠ .enqueued block k)
    (k : ℕ) (g : PackedGather α) (hg : s.gathers[k]? = some g) : g.completed = true := by
  cases hincomplete : g.completed with
  | true => rfl
  | false => exact absurd (hinv.incomplete k g hg hincomplete).1 (hcall _ _)

theorem Inv.request (hinv : s.Inv) (hidle : s.call = .idle)
    (params : List (Parameter α)) (base : ℕ) : (s.request params base).Inv := by
  have hdone := hinv.completed (by rw [hidle]; rintro _ _ ⟨⟩)
  unfold SourceState.request
  split
  · exact hinv
  · split
    · exact hinv
    · exact hinv
    · split
      · exact hinv
      · rename_i hsize
        exact inv_of_completed hsize hdone

theorem Inv.pack (hinv : s.Inv) {block : Block} {params : List (Parameter α)}
    (hcall : s.call = .allocated block params) : (s.pack block params).Inv := by
  have hdone := hinv.completed (by rw [hcall]; rintro _ _ ⟨⟩)
  have hok := hinv.call
  rw [hcall] at hok
  have hpack := packShards_eq hok [] (load s.mem block) length_load
  unfold SourceState.pack
  rw [List.nil_append, List.length_nil] at hpack
  rw [hpack]
  exact inv_of_completed (load_store (length_shards hok).symm) hdone

theorem Inv.enqueue (hinv : s.Inv) {block : Block} {params : List (Parameter α)}
    (hcall : s.call = .packed block params) : (s.enqueue block params).Inv := by
  have hdone := hinv.completed (by rw [hcall]; rintro _ _ ⟨⟩)
  have hok := hinv.call
  rw [hcall] at hok
  refine ⟨trivial, ?_⟩
  intro k g hg hincomplete
  change (s.gathers ++ [_])[k]? = some g at hg
  rcases lt_trichotomy k s.gathers.length with hlt | heq | hgt
  · rw [List.getElem?_append_left hlt] at hg
    rw [hdone k g hg] at hincomplete
    cases hincomplete
  · subst heq
    rw [List.getElem?_concat_length] at hg
    cases hg
    exact ⟨rfl, hok⟩
  · rw [List.getElem?_eq_none (by rw [List.length_append]; exact hgt)] at hg
    cases hg

theorem Inv.complete (hinv : s.Inv) (gather : ℕ) : (s.complete gather).Inv := by
  refine ⟨hinv.call, ?_⟩
  intro k g hg hincomplete
  change (s.gathers.modify gather _)[k]? = some g at hg
  rw [List.getElem?_modify] at hg
  split at hg
  · obtain ⟨g', -, rfl⟩ := Option.map_eq_some_iff.mp hg
    cases hincomplete
  · rw [Option.map_eq_map, Option.map_id'] at hg
    exact hinv.incomplete k g hg hincomplete

theorem CallOk.store {call : GatherCall α} {mem : ℕ → α} (hok : CallOk mem call)
    {base : ℕ} {values : List α}
    (hapart : ∀ block ∈ call.referenced, Block.Apart ⟨base, values.length⟩ block) :
    CallOk (store mem base values) call := by
  cases call with
  | idle => trivial
  | allocated block params => exact hok
  | packed block params => exact (load_store_of_apart (hapart block rfl)).trans hok
  | enqueued block k => trivial

theorem Inv.write (hinv : s.Inv) {base : ℕ} {values : List α}
    (hapart : ∀ block ∈ s.call.referenced, Block.Apart ⟨base, values.length⟩ block) :
    Inv { s with mem := store s.mem base values } := by
  refine ⟨hinv.call.store hapart, ?_⟩
  intro k g hg hincomplete
  obtain ⟨hcall, hload⟩ := hinv.incomplete k g hg hincomplete
  refine ⟨hcall, ?_⟩
  rw [hcall] at hapart
  exact (load_store_of_apart (hapart g.source rfl)).trans hload

theorem Inv.ret (hinv : s.Inv) {block : Block} {gather : ℕ}
    (hcall : s.call = .enqueued block gather)
    (hdone : ∀ g ∈ s.gathers[gather]?, g.completed = true) :
    Inv { s with call := .idle } := by
  refine ⟨trivial, ?_⟩
  intro k g hg hincomplete
  have hown := (hinv.incomplete k g hg hincomplete).1
  rw [hcall] at hown
  cases hown
  rw [hdone g hg] at hincomplete
  cases hincomplete

theorem Inv.step {a : SourceAction α} (hret : s.ReturnsCompleted a)
    (hstep : s.step a = some s') (hinv : s.Inv) : s'.Inv := by
  cases a with
  | request params base =>
      unfold SourceState.step at hstep
      cases hcall : s.call with
      | idle =>
          simp only [hcall] at hstep
          cases hstep
          exact hinv.request hcall params base
      | allocated | packed | enqueued =>
          simp only [hcall] at hstep
          cases hstep
  | pack =>
      unfold SourceState.step at hstep
      cases hcall : s.call with
      | allocated block params =>
          simp only [hcall] at hstep
          cases hstep
          exact hinv.pack hcall
      | idle | packed | enqueued =>
          simp only [hcall] at hstep
          cases hstep
  | enqueue =>
      unfold SourceState.step at hstep
      cases hcall : s.call with
      | packed block params =>
          simp only [hcall] at hstep
          cases hstep
          exact hinv.enqueue hcall
      | idle | allocated | enqueued =>
          simp only [hcall] at hstep
          cases hstep
  | enqueueFails =>
      unfold SourceState.step at hstep
      cases hcall : s.call with
      | packed block params =>
          simp only [hcall] at hstep
          cases hstep
          have hdone := hinv.completed (by rw [hcall]; rintro _ _ ⟨⟩)
          exact inv_of_completed trivial hdone
      | idle | allocated | enqueued =>
          simp only [hcall] at hstep
          cases hstep
  | ret =>
      unfold SourceState.step at hstep
      unfold ReturnsCompleted at hret
      cases hcall : s.call with
      | enqueued block gather =>
          simp only [hcall] at hstep hret
          cases hstep
          exact hinv.ret hcall hret
      | idle | allocated | packed =>
          simp only [hcall] at hstep
          cases hstep
  | complete gather =>
      cases hstep
      exact hinv.complete gather
  | write base values =>
      unfold SourceState.step at hstep
      dsimp only at hstep
      split at hstep
      · rename_i hapart
        cases hstep
        exact hinv.write hapart
      · cases hstep

/-- A call that returns before its AllGather completes leaves a source that
nothing refers to. -/
theorem returnsCompleted_of_kept {a : SourceAction α}
    (hkept : ∀ s', s.step a = some s' → s'.SourcesKept) : s.ReturnsCompleted a := by
  unfold ReturnsCompleted
  split
  · rename_i block gather hcall
    intro g hg
    by_contra hincomplete
    have hret : s.step .ret = some { s with call := .idle } := by
      simp only [SourceState.step, hcall]
    have hreferenced :=
      (hkept _ hret g (List.mem_of_getElem? hg) (Bool.eq_false_iff.mpr hincomplete)).2
    cases hreferenced
  · trivial

/-- The bytes that the DPU reads for coalesced AllGathers stay the packed shards
if and only if each AllGather completes before the call that requested it
returns. -/
theorem sourcesKept_iff (mem : ℕ → α) (acts : List (SourceAction α)) :
    AllStates step SourcesKept (init mem) acts ↔
      AllSteps step ReturnsCompleted (init mem) acts := by
  apply allStates_iff_allSteps (I := Inv)
  · intro s a s' hret hstep hinv
    exact hinv.step hret hstep
  · intro s hinv
    exact hinv.sourcesKept
  · intro s a _ hkept
    exact returnsCompleted_of_kept hkept
  · exact inv_init mem

/-- A parameter of two elements, of which this rank has the given one. -/
def ofShard (dsId shard : ℕ) : Parameter ℕ where
  dsId := dsId
  dsShape := ⟨[2], Nat.zero_lt_two, by norm_num⟩
  dsStatus := .notAvailable
  dsTensor := some [shard]
  dsActiveSubModules := []
  data := ⟨[1], [0], rfl⟩

theorem request_ofShard (s : SourceState ℕ) {i j : ℕ} (hij : i ≤ j) (x y base : ℕ) :
    s.request [ofShard i x, ofShard j y] base =
      { s with
        call := .allocated ⟨base, 2⟩
          [{ ofShard i x with dsStatus := .inflight },
            { ofShard j y with dsStatus := .inflight }] } := by
  have hstart : [ofShard i x, ofShard j y].mapM startGather =
      .ok [{ ofShard i x with dsStatus := .inflight },
        { ofShard j y with dsStatus := .inflight }] := rfl
  have hsorted : sortById [{ ofShard i x with dsStatus := .inflight },
      { ofShard j y with dsStatus := .inflight }] =
        [{ ofShard i x with dsStatus := .inflight },
          { ofShard j y with dsStatus := .inflight }] := by
    apply List.mergeSort_of_pairwise
    simp [ofShard, hij]
  unfold request
  rw [hstart]
  dsimp only
  rw [hsorted]
  rfl

/-- One call of two parameters, up to the return of the handle. -/
def firstCall : List (SourceAction ℕ) :=
  [.request [ofShard 0 10, ofShard 1 11] 64, .pack, .enqueue, .ret]

/-- A second call that gets the block of the first. -/
def secondCall : List (SourceAction ℕ) :=
  [.request [ofShard 2 12, ofShard 3 13] 64, .pack]

/-- The DPU has not completed the first AllGather when the second call packs. -/
theorem not_sourcesKept_blockReused :
    ¬ AllStates step SourcesKept (init fun _ => 0) (firstCall ++ secondCall) := by
  intro h
  have hfirst : run step (init fun _ => 0) firstCall =
      some ⟨store (fun _ => 0) 64 [10, 11], [⟨⟨64, 2⟩, [10, 11], false⟩], .idle⟩ := by
    rw [firstCall, run, step]
    dsimp only [init]
    rw [request_ofShard _ (Nat.zero_le 1)]
    rfl
  have hsecond : ∃ call, run step
      ⟨store (fun _ => 0) 64 [10, 11], [⟨⟨64, 2⟩, [10, 11], false⟩], .idle⟩ secondCall =
        some ⟨store (store (fun _ => 0) 64 [10, 11]) 64 [12, 13],
          [⟨⟨64, 2⟩, [10, 11], false⟩], call⟩ := by
    rw [secondCall, run, step]
    dsimp only
    rw [request_ofShard _ (Nat.le_succ 2)]
    exact ⟨_, rfl⟩
  obtain ⟨call, hsecond⟩ := hsecond
  have hrun : run step (init fun _ => 0) (firstCall ++ secondCall) =
      some ⟨store (store (fun _ => 0) 64 [10, 11]) 64 [12, 13],
        [⟨⟨64, 2⟩, [10, 11], false⟩], call⟩ := by
    rw [run_append, hfirst, Option.bind_some, hsecond]
  have hkept := h.last hrun _ (List.mem_singleton_self _) rfl
  have hbytes : load (store (store (fun _ => 0) 64 [10, 11]) 64 [12, 13]) ⟨64, 2⟩ ≠
      [10, 11] := by
    decide
  exact hbytes hkept.1

end SourceState

end SmartNic.Lifetime
