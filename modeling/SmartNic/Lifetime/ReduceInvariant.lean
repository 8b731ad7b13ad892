import Mathlib
import SmartNic.Lifetime.ReduceInput

/-!
# What the input of a ReduceScatter depends on

What memory holds once all pending kernels are executed does not depend on the
order in which the two streams get there.  The invariant says what it holds then,
and a reduction that is enqueued on an idle reduce stream reads it now.
-/

namespace SmartNic.Lifetime

open Machine Memory TrueDivision

variable {α : Type}

/-! ## What the DPU has to read -/

section

variable {cfg : ReduceConfig α} {b : Block}

theorem mem_of_aliasedGrad {grads : List (Grad α)} {grad : Grad α}
    (haliased : aliasedGrad cfg grads = some grad) : grads = [grad] := by
  unfold aliasedGrad at haliased
  split at haliased
  · split at haliased
    · obtain rfl := Option.some.inj haliased
      rfl
    · cases haliased
  · cases haliased

theorem matches_map (f : α → α) (values : List α) :
    Matches (values.map f) (values.map fun x => some (f x)) := by
  unfold Matches
  rw [List.forall₂_map_left_iff, List.forall₂_map_right_iff]
  apply List.forall₂_same.mpr
  intro x _ v hv
  exact Option.some.inj hv

theorem Matches.append {values values' : List α} {expected expected' : List (Option α)}
    (h : Matches values expected) (h' : Matches values' expected') :
    Matches (values ++ values') (expected ++ expected') :=
  List.rel_append h h'

theorem Matches.flatMap {β : Type} {l : List β} {f : β → List α}
    {g : β → List (Option α)} (h : ∀ x ∈ l, Matches (f x) (g x)) :
    Matches (l.flatMap f) (l.flatMap g) := by
  induction l with
  | nil => exact List.Forall₂.nil
  | cons x l ih =>
      rw [List.flatMap_cons, List.flatMap_cons]
      apply (h x List.mem_cons_self).append
      exact ih fun y hy => h y (List.mem_cons_of_mem _ hy)

/-- Nothing is expected of padding. -/
theorem matches_padding {values : List α} {n : ℕ} (hlength : values.length = n) :
    Matches values (List.replicate n none) := by
  subst hlength
  induction values with
  | nil => exact List.Forall₂.nil
  | cons x values ih =>
      apply List.Forall₂.cons _ ih
      intro v hv
      cases hv

/-- The chunk that a rank gets of a gradient. -/
theorem load_chunk {mem : ℕ → α} {block : Block} {rank size : ℕ} :
    load mem ⟨block.base + min (rank * size) block.size,
        min size (block.size - rank * size)⟩ =
      ((load mem block).drop (rank * size)).take size := by
  have hfits : min (rank * size) block.size + min size (block.size - rank * size) ≤
      block.size := by omega
  rw [load_part hfits]
  rcases le_total (rank * size) block.size with hle | hge
  · rw [min_eq_left hle, List.take_eq_take_iff, List.length_drop, length_load]
    omega
  · have hnil : (load mem block).drop (rank * size) = [] := by
      apply List.drop_eq_nil_of_le
      rw [length_load]
      exact hge
    have hnil' : (load mem block).drop block.size = [] := by
      apply List.drop_eq_nil_of_le
      exact length_load.le
    rw [min_eq_right hge, hnil, hnil', List.take_nil, List.take_nil]

theorem matches_piecesOf {mem : ℕ → α} {junk : ℕ → ℕ → ℕ → α} {rank : ℕ} {grad : Grad α}
    (hload : load mem grad.block = grad.values) :
    Matches (((piecesOf cfg junk rank grad).flatMap (Piece.value mem)).map cfg.preDivide)
      (expectedOf cfg rank grad) := by
  have hsize : grad.values.length = grad.block.size := by rw [← hload, length_load]
  unfold piecesOf expectedOf
  dsimp only
  rw [hsize, ← hload, ← load_chunk, length_load, List.flatMap_cons, List.map_append]
  apply (matches_map cfg.preDivide _).append
  apply matches_padding
  split
  · rw [List.flatMap_singleton, Piece.value, List.length_map, List.length_map,
      List.length_range]
  · rename_i hnone
    rw [List.flatMap_nil]
    exact (Nat.eq_zero_of_not_pos hnone).symm

theorem matches_partitionsWithPadding {mem : ℕ → α} {junk : ℕ → ℕ → ℕ → α}
    {grads : List (Grad α)} (hload : ∀ g ∈ grads, load mem g.block = g.values) :
    Matches (((partitionsWithPadding cfg junk grads).flatMap (Piece.value mem)).map
        cfg.preDivide)
      ((List.range cfg.worldSize).flatMap fun rank => grads.flatMap (expectedOf cfg rank)) := by
  unfold partitionsWithPadding
  rw [List.flatMap_assoc, List.map_flatMap]
  apply Matches.flatMap
  intro rank _
  rw [List.flatMap_assoc, List.map_flatMap]
  apply Matches.flatMap
  intro g hg
  exact matches_piecesOf (hload g hg)

/-- `torch.cat` reads the gradients of the bucket. -/
theorem within_of_mem_reads {junk : ℕ → ℕ → ℕ → α} {grads : List (Grad α)} {base : ℕ}
    (hb : b ∈ (catKernel (partitionsWithPadding cfg junk grads) base).reads) :
    ∃ g ∈ grads, b.Within g.block := by
  obtain ⟨piece, hpiece, hb⟩ := List.mem_flatMap.mp hb
  obtain ⟨rank, -, hpiece⟩ := List.mem_flatMap.mp hpiece
  obtain ⟨g, hg, hpiece⟩ := List.mem_flatMap.mp hpiece
  refine ⟨g, hg, ?_⟩
  rcases List.mem_cons.mp hpiece with rfl | hpadding
  · rw [List.mem_singleton.mp hb]
    constructor
    · exact Nat.le_add_right _ _
    · dsimp only
      omega
  · split at hpadding
    · rw [List.mem_singleton.mp hpadding] at hb
      cases hb
    · cases hpadding

end

namespace ReduceState

variable {cfg : ReduceConfig α} {s s' : ReduceState α}

/-! ## Settled memory -/

/-- Memory once all pending kernels are executed. -/
def settled (s : ReduceState α) : ℕ → α :=
  Kernel.execAll (s.reduceStream.pending.map Queued.kernel)
    (Kernel.execAll s.defaultStream.pending s.mem)

theorem settled_queueReduce (kernel : Kernel α) :
    (s.queueReduce kernel).settled = kernel.exec s.settled := by
  unfold settled queueReduce Stream.push
  dsimp only
  rw [List.map_append, List.map_singleton, Kernel.execAll_concat]

/-- A kernel of the default stream that pending kernels of the reduce stream
avoid. -/
theorem settled_queueDefault {kernel : Kernel α} (hreads : kernel.reads = [])
    (havoids : cfg.overlapComm = true → ∀ op ∈ s.reduceStream.pending,
      op.kernel.Avoids kernel.target) :
    (s.queueDefault cfg kernel).settled = kernel.exec s.settled := by
  unfold queueDefault
  split
  · rename_i hoverlap
    unfold settled Stream.push
    dsimp only
    rw [Kernel.execAll_concat, Kernel.execAll_exec_comm hreads]
    intro k hk
    obtain ⟨op, hop, rfl⟩ := List.mem_map.mp hk
    exact havoids hoverlap op hop
  · exact settled_queueReduce kernel

theorem settled_executeDefault {kernel : Kernel α} {stream : Stream (Kernel α)}
    (hexecute : s.defaultStream.execute (fun _ => true) = some (kernel, stream)) :
    settled { s with mem := kernel.exec s.mem, defaultStream := stream } = s.settled := by
  obtain ⟨-, -, hpending, -⟩ := Stream.execute_eq_some hexecute
  unfold settled
  dsimp only
  rw [hpending]
  rfl

/-- A kernel of the reduce stream that avoids what is pending on the default
stream. -/
theorem settled_executeReduce {op : Queued α} {stream : Stream (Queued α)}
    {ready : Queued α → Bool} (hexecute : s.reduceStream.execute ready = some (op, stream))
    (hreads : ∀ w ∈ s.defaultStream.pending, w.reads = [])
    (havoids : ∀ w ∈ s.defaultStream.pending, op.kernel.Avoids w.target) :
    settled { s with mem := op.kernel.exec s.mem, reduceStream := stream } = s.settled := by
  obtain ⟨-, -, hpending, -⟩ := Stream.execute_eq_some hexecute
  unfold settled
  dsimp only
  rw [hpending, List.map_cons, ← Kernel.exec_execAll_comm hreads havoids]
  rfl

/-! ## The invariant -/

/-- The values of the gradients in the bucket are not divided yet. -/
def filling : Host α → Prop
  | .built _ _ _ => False
  | .enqueued _ _ _ _ => False
  | _ => True

/-- The host is not in the part of `__reduce_and_partition_ipg_grads` that follows
the wait. -/
def calm : Host α → Prop
  | .avgScatter _ => False
  | .built _ _ _ => False
  | .enqueued _ _ _ _ => False
  | _ => True

/-- The flat buffer and the storages of gradients. -/
def storages (cfg : ReduceConfig α) (grads : List (Grad α)) : List Block :=
  cfg.flatBuffer :: ownBlocks grads

/-- The memory of the reduce stream's operation `n` is in use: all operations for
earlier buckets are executed. -/
def Located (cfg : ReduceConfig α) (s : ReduceState α) (n : ℕ) (b : Block) : Prop :=
  (∃ t ∈ storages cfg s.bucket ++ s.reducePool, b.Within t) ∨
    ∃ r ∈ s.recorded, n < r.2 ∧ b.Within r.1

/-- Reduction `k` is the one that can be incomplete, and its source is kept. -/
def Keeps (cfg : ReduceConfig α) (s : ReduceState α) (k : ℕ) (b : Block) : Prop :=
  match s.host with
  | .enqueued source aliased k' _ =>
      k' = k ∧ b = source ∧ (aliased = true → ∃ t ∈ storages cfg s.bucket, b.Within t)
  | .avgScatter _ => False
  | .built _ _ _ => False
  | _ => s.pendingRs = some k ∧ ∃ t ∈ storages cfg s.partitioning, b.Within t

/-- The kernels that produce a source are queued, with the division last. -/
structure Built (cfg : ReduceConfig α) (s : ReduceState α) (source : Block)
    (aliased : Bool) : Prop where
  settled : Matches (load s.settled source) (expected cfg s.bucket)
  kept : aliased = true → ∃ t ∈ storages cfg s.bucket, source.Within t
  next : ∀ g ∈ s.host.next, g.block.Apart source
  executed : s.reduceStream.pending = [] → s.waited ≤ s.defaultStream.executed
  last : ∀ op ∈ s.reduceStream.pending.getLast?, op.after = s.waited

/-- A reduction that has not completed reads what it has to. -/
structure InFlight (cfg : ReduceConfig α) (s : ReduceState α) (k : ℕ)
    (rs : Reduction α) : Prop where
  queued : rs.queued ≤ s.reduceStream.executed
  holds : Matches (load s.mem rs.source) rs.expected
  pending : ∀ w ∈ s.defaultStream.pending, w.target.Apart rs.source
  keeps : s.Keeps cfg k rs.source

/-- Where the gradients of the bucket are. -/
structure Places (cfg : ReduceConfig α) (s : ReduceState α) : Prop where
  inFlat : ∀ g ∈ s.bucket, g.own = false → g.block.Within cfg.flatBuffer ∧
    g.block.base + g.block.size ≤ cfg.flatBase + s.elementsInIpgBucket
  outside : ∀ g ∈ s.bucket, g.own = true → g.block.Apart cfg.flatBuffer
  next : ∀ g ∈ s.host.next, g.own = true ∧ g.block.Apart cfg.flatBuffer ∧
    ∀ h ∈ s.bucket, g.block.Apart h.block

/-- What the two streams may do in any order. -/
structure Ordered (cfg : ReduceConfig α) (s : ReduceState α) : Prop where
  located : cfg.overlapComm = true → ∀ n op, s.reduceStream.Holds n op →
    ∀ b ∈ op.kernel.target :: op.kernel.reads, s.Located cfg n b
  avoids : ∀ op ∈ s.reduceStream.pending, ∀ m w, s.defaultStream.Holds m w →
    op.after ≤ m → op.kernel.Avoids w.target
  fresh : ∀ m w, s.defaultStream.Holds m w → s.waited ≤ m →
    ∃ g ∈ s.host.next, w.target = g.block
  reads : ∀ w ∈ s.defaultStream.pending, w.reads = []
  oneStream : cfg.overlapComm = false → s.defaultStream.pending = []

structure Inv (cfg : ReduceConfig α) (s : ReduceState α) : Prop where
  places : s.Places cfg
  ordered : s.Ordered cfg
  values : filling s.host → ∀ g ∈ s.bucket, load s.settled g.block = g.values
  nextValues : ∀ g ∈ s.host.next, load s.settled g.block = g.values
  inFlight : ∀ k rs, s.reductions[k]? = some rs → rs.completed = false → s.InFlight cfg k rs
  built : ∀ source aliased next, s.host = .built source aliased next →
    s.Built cfg source aliased
  quiet : ∀ source aliased k next, s.host = .enqueued source aliased k next →
    s.reduceStream.pending = []

theorem inv_init (cfg : ReduceConfig α) (mem : ℕ → α) : (init mem).Inv cfg where
  places :=
    { inFlat := fun g hg => by cases hg
      outside := fun g hg => by cases hg
      next := fun g hg => by cases hg }
  ordered :=
    { located := fun _ n op hop => by cases hop.2
      avoids := fun op hop => by cases hop
      fresh := fun m w hw => by cases hw.2
      reads := fun w hw => by cases hw
      oneStream := fun _ => rfl }
  values _ g hg := by cases hg
  nextValues g hg := by cases hg
  inFlight k rs hrs := by cases hrs
  built source aliased next h := by cases h
  quiet source aliased k next h := by cases h

theorem mem_ownBlocks {grads : List (Grad α)} {t : Block} :
    t ∈ ownBlocks grads ↔ ∃ g ∈ grads, g.own = true ∧ g.block = t := by
  simp only [ownBlocks, List.mem_map, List.mem_filter, and_assoc]

theorem mem_storages {grads : List (Grad α)} {t : Block} :
    t ∈ storages cfg grads ↔
      t = cfg.flatBuffer ∨ ∃ g ∈ grads, g.own = true ∧ g.block = t := by
  rw [storages, List.mem_cons, mem_ownBlocks]

theorem storages_mono {grads grads' : List (Grad α)} {t : Block}
    (hgrads : ∀ g ∈ grads, g ∈ grads') (ht : t ∈ storages cfg grads) :
    t ∈ storages cfg grads' := by
  rw [mem_storages] at ht ⊢
  rcases ht with hflat | ⟨g, hg, hown⟩
  · exact .inl hflat
  · exact .inr ⟨g, hgrads g hg, hown⟩

theorem mem_tensors_of_storages {t : Block}
    (ht : t ∈ storages cfg (s.bucket ++ s.partitioning ++ s.kept)) : t ∈ s.tensors cfg := by
  rcases List.mem_cons.mp ht with rfl | hown
  · exact List.mem_cons_self
  · apply List.mem_cons_of_mem
    apply List.mem_append_left
    exact List.mem_append_left _ hown

theorem storages_bucket {t : Block} (ht : t ∈ storages cfg s.bucket) : t ∈ s.tensors cfg := by
  apply mem_tensors_of_storages
  apply storages_mono _ ht
  intro g hg
  exact List.mem_append_left _ (List.mem_append_left _ hg)

theorem storages_partitioning {t : Block} (ht : t ∈ storages cfg s.partitioning) :
    t ∈ s.tensors cfg := by
  apply mem_tensors_of_storages
  apply storages_mono _ ht
  intro g hg
  exact List.mem_append_left _ (List.mem_append_right _ hg)

theorem Keeps.tensors {k : ℕ} {b : Block} (hkeeps : s.Keeps cfg k b) :
    ∃ t ∈ s.tensors cfg, b.Within t := by
  unfold Keeps at hkeeps
  cases hhost : s.host with
  | enqueued source aliased k' next =>
      simp only [hhost] at hkeeps
      obtain ⟨-, rfl, hkept⟩ := hkeeps
      cases aliased with
      | true =>
          obtain ⟨t, ht, hwithin⟩ := hkept rfl
          exact ⟨t, storages_bucket ht, hwithin⟩
      | false =>
          refine ⟨b, ?_, Block.Within.refl b⟩
          unfold ReduceState.tensors
          rw [hhost]
          apply List.mem_cons_of_mem
          apply List.mem_append_right
          exact List.mem_singleton_self b
  | avgScatter | built =>
      simp only [hhost] at hkeeps
  | idle | hook | drain | add | synchronize =>
      simp only [hhost] at hkeeps
      obtain ⟨-, t, ht, hwithin⟩ := hkeeps
      exact ⟨t, storages_partitioning ht, hwithin⟩

theorem Inv.inputFinal (hinv : s.Inv cfg) : s.InputFinal cfg := by
  intro rs hrs hincomplete
  obtain ⟨k, hk⟩ := List.getElem?_of_mem hrs
  have hflight := hinv.inFlight k rs hk hincomplete
  exact ⟨hflight.queued, hflight.holds, hflight.keeps.tensors⟩

end ReduceState

end SmartNic.Lifetime
