import SmartNic.Collective.CommandStream

/-!
# Rounds of a command stream

No rank starts a command before all ranks have finished the one before it, so at
any time at most one AllGather is under way: what the ranks do for it is a run
of `collective_all_gather` on the memory of that time.
-/

namespace SmartNic.Collective

open SmartNic.Fabric

/-! ## The bytes that a rank uses -/

namespace AllGather

variable {V D : Type} {ly : Layout} {m : Mode} {rank : ℕ}

/-- The source chunk, and the whole of the destination and of the working
buffer. -/
def used (ly : Layout) : Set Addr :=
  {a | a.1 = .src ∧ a.2 < ly.chunkSize ∨
    (a.1 = .dst ∨ a.1 = .send) ∧ a.2 < ly.worldSize * ly.chunkSize}

/-- The transfer stays inside the bytes used and does not write to the source. -/
structure InUsed (ly : Layout) (t : Task RdmaCtx Pending Addr) : Prop where
  within : t.Within (used ly)
  dst_ne : ∀ l ∈ t.dst, l.1 ≠ .src

theorem cells_subset {a : Addr} {length : ℕ} {U : Set Addr}
    (h : ∀ x < length, (a.1, a.2 + x) ∈ U) : ∀ l ∈ cells a length, l ∈ U := by
  intro l hl
  obtain ⟨x, hx, rfl⟩ := mem_cells.mp hl
  exact h x hx

theorem fst_of_mem_cells {a l : Addr} {length : ℕ} (hl : l ∈ cells a length) :
    l.1 = a.1 := by
  obtain ⟨x, -, rfl⟩ := mem_cells.mp hl
  rfl

/-- A piece of a chunk of the destination or of the working buffer. -/
theorem piece_subset {b : Buffer} (hb : b = .dst ∨ b = .send) {i p : ℕ}
    (hi : i < ly.worldSize) (hp : p < ly.numPieces) :
    ∀ l ∈ cells (b, i * ly.chunkSize + ly.pieceOffset p) (ly.pieceLength p),
      l ∈ used ly := by
  refine cells_subset fun x hx => .inr ⟨hb, ?_⟩
  have hin := ly.pieceOffset_add_lt hp hx
  have hle : (i + 1) * ly.chunkSize ≤ ly.worldSize * ly.chunkSize :=
    Nat.mul_le_mul_right _ hi
  rw [Nat.succ_mul] at hle
  dsimp only
  omega

/-- A piece of the source chunk. -/
theorem source_subset {p : ℕ} (hp : p < ly.numPieces) :
    ∀ l ∈ cells (.src, ly.pieceOffset p) (ly.pieceLength p), l ∈ used ly :=
  cells_subset fun _ hx => .inl ⟨rfl, ly.pieceOffset_add_lt hp hx⟩

theorem ringBuffer_eq (m : Mode) : m.ringBuffer = .dst ∨ m.ringBuffer = .send := by
  unfold Mode.ringBuffer
  split
  · exact .inl rfl
  · exact .inr rfl

section Tasks

variable {p : ℕ} (hp : p < ly.numPieces)

include hp

theorem used_recvTask (hws : 0 < ly.worldSize) (step : ℕ) :
    InUsed ly (recvTask ly m rank step p) where
  within := ⟨nofun, piece_subset (ringBuffer_eq m) (Nat.mod_lt _ hws) hp⟩
  dst_ne l hl := by
    rw [fst_of_mem_cells hl]
    exact ringBuffer_ne m

theorem used_readTask (hrank : rank < ly.worldSize) :
    InUsed ly (readTask ly m rank p) where
  within := by
    constructor
    · rw [readTask, initReadTask, copyTask_src]
      exact source_subset hp
    · rw [readTask, initReadTask, copyTask_dst]
      exact piece_subset (.inr rfl) hrank hp
  dst_ne l hl := by
    rw [readTask, initReadTask, copyTask_dst] at hl
    simp [fst_of_mem_cells hl]

/-- A copy from the working buffer to the destination. -/
theorem used_copyOut {i : ℕ} (hi : i < ly.worldSize) (ctx : RdmaCtx)
    (pending : Pending) :
    InUsed ly (initWriteTask (.send, i * ly.chunkSize + ly.pieceOffset p)
      (.dst, i * ly.chunkSize + ly.pieceOffset p) (ly.pieceLength p) ctx pending) where
  within := by
    constructor
    · rw [initWriteTask, copyTask_src]
      exact piece_subset (.inr rfl) hi hp
    · rw [initWriteTask, copyTask_dst]
      exact piece_subset (.inl rfl) hi hp
  dst_ne l hl := by
    rw [initWriteTask, copyTask_dst] at hl
    simp [fst_of_mem_cells hl]

theorem used_sendTask (hws : 0 < ly.worldSize) (step : ℕ) :
    InUsed ly (sendTask ly m rank step p) where
  within := by
    refine ⟨?_, nofun⟩
    rw [sendTask, initRingSendTask_src]
    unfold sendSource
    split
    · rw [Nat.zero_add]
      exact source_subset hp
    · exact piece_subset (ringBuffer_eq m) (Nat.mod_lt _ hws) hp
  dst_ne := nofun

end Tasks

theorem used_of_mem (hrank : rank < ly.worldSize)
    {t : Task RdmaCtx Pending Addr}
    (ht : .submit t ∈ allGatherIn V D ly m rank) : InUsed ly t := by
  have hws : 0 < ly.worldSize := Nat.zero_lt_of_lt hrank
  have hpieces : ∀ {task : ℕ → Task RdmaCtx Pending Addr},
      (∀ p < ly.numPieces, InUsed ly (task p)) →
        t ∈ (List.range ly.numPieces).map task → InUsed ly t := by
    intro task htask ht
    obtain ⟨p, hp, rfl⟩ := List.mem_map.mp ht
    exact htask p (List.mem_range.mp hp)
  rw [← mem_tasks, tasks_allGatherIn, List.mem_append, List.mem_append,
    List.mem_flatMap, List.mem_flatMap] at ht
  rcases ht with (⟨step, -, ht⟩ | ht) | ⟨step, -, ht⟩
  · exact hpieces (fun p hp => used_recvTask hp hws step) ht
  · unfold copyTasks at ht
    split at ht
    · cases ht
    · rcases List.mem_append.mp ht with ht | ht
      · exact hpieces (fun p hp => used_readTask hp hrank) ht
      · exact hpieces (fun p hp => used_copyOut hp hrank _ _) ht
  · rcases List.mem_append.mp ht with ht | ht
    · exact hpieces (fun p hp => used_sendTask hp hws step) ht
    · unfold putTasks at ht
      split at ht
      · cases ht
      · exact hpieces (fun p hp => used_copyOut hp (Nat.mod_lt _ hws) _ _) ht

theorem within_allGatherIn (hrank : rank < ly.worldSize) :
    Within (used ly) (allGatherIn V D ly m rank) :=
  ⟨fun _ ht => (used_of_mem hrank ht).within, call_notMem_allGatherIn⟩

/-- Nothing is written to the source or beyond the destination. -/
theorem avoids_of_notDst (hrank : rank < ly.worldSize) {a : Addr}
    (ha : ¬ (a.1 ≠ .src ∧ a ∈ used ly)) : Avoids a (allGatherIn V D ly m rank) :=
  ⟨fun _ ht hmem => ha ⟨(used_of_mem hrank ht).dst_ne _ hmem,
    (used_of_mem hrank ht).within.dst _ hmem⟩, call_notMem_allGatherIn⟩

end AllGather

/-! ## Commands -/

namespace Gather

variable {ws : ℕ} {V : Type} (g : Gather ws)

/-- The host bytes that the command writes on a rank. -/
def destination (r : Fin ws) : Set ℕ :=
  {a | (g.cmd r).remoteDstBufferAddress ≤ a ∧
    a < (g.cmd r).remoteDstBufferAddress + ws * (g.len / ws)}

/-- The bytes that a rank uses. -/
def used (cfg : PieceConfig) : Set Addr :=
  AllGather.used (allGatherLayout cfg ws g.len)

theorem program_eq (cfg : PieceConfig) (r : Fin ws) :
    g.program V cfg r = (collectiveAllGather V Unit cfg (g.cmd r).args r ws g.len).map
      (.relocate (g.cmd r).place) := by
  rw [program, g.len_eq r]

theorem call_notMem_program (cfg : PieceConfig) (r : Fin ws)
    (f : Unit → (Cell → V) → Option (Unit × (Cell → V))) :
    .call f ∉ g.program V cfg r :=
  call_notMem_relocate AllGather.call_notMem_allGatherIn f

theorem settles_program (cfg : PieceConfig) (r : Fin ws) :
    Settles (fun _ => 0) ∅ (g.program V cfg r) ∅ :=
  AllGather.settles_allGatherIn.relocate _

/-- The bytes used have a place of their own. -/
theorem place_injOn (cfg : PieceConfig) (r : Fin ws) :
    Set.InjOn (g.cmd r).place (g.used cfg) := by
  have hdst : ∀ {x y : ℕ}, x < g.len / ws → y < ws * (g.len / ws) →
      Cell.host ((g.cmd r).remoteSrcBufferAddress + x) ≠
        Cell.host ((g.cmd r).remoteDstBufferAddress + y) :=
    fun hx hy heq => g.apart r _ hx _ hy (Cell.host.inj heq)
  rintro ⟨b, x⟩ hx ⟨b', y⟩ hy heq
  rcases hx with ⟨rfl, hx⟩ | ⟨rfl | rfl, hx⟩ <;>
    rcases hy with ⟨rfl, hy⟩ | ⟨rfl | rfl, hy⟩
  · rw [Nat.add_left_cancel (Cell.host.inj heq)]
  · exact absurd heq (hdst hx hy)
  · cases heq
  · exact absurd heq.symm (hdst hy hx)
  · rw [Nat.add_left_cancel (Cell.host.inj heq)]
  · cases heq
  · cases heq
  · cases heq
  · rw [Nat.add_left_cancel (Cell.dpu.inj heq)]

/-- Host bytes outside the destination are not written. -/
theorem avoids_program (cfg : PieceConfig) (r : Fin ws) {a : ℕ}
    (ha : a ∉ g.destination r) : Avoids (.host a) (g.program V cfg r) := by
  rw [program_eq]
  refine Avoids.relocate AllGather.call_notMem_allGatherIn fun x hx =>
    AllGather.avoids_of_notDst r.isLt ?_
  obtain ⟨b, y⟩ := x
  rintro ⟨hsrc, ⟨rfl, -⟩ | ⟨rfl | rfl, hy⟩⟩
  · exact hsrc rfl
  · obtain rfl := Cell.host.inj hx
    exact ha ⟨Nat.le_add_right _ _, Nat.add_lt_add_left hy _⟩
  · cases hx

/-- A byte of the destination comes from the source of its chunk. -/
theorem apply_destination (host : Fin ws → ℕ → V) (r j : Fin ws) {x : ℕ}
    (hx : x < g.len / ws) :
    g.apply host r ((g.cmd r).remoteDstBufferAddress + (j * (g.len / ws) + x)) =
      host j ((g.cmd j).remoteSrcBufferAddress + x) := by
  have hlt : j * (g.len / ws) + x < ws * (g.len / ws) := by
    have hle : (j.val + 1) * (g.len / ws) ≤ ws * (g.len / ws) :=
      Nat.mul_le_mul_right _ j.isLt
    rw [Nat.succ_mul] at hle
    omega
  have hpos : 0 < g.len / ws := Nat.zero_lt_of_lt hx
  have hdiv : (j * (g.len / ws) + x) / (g.len / ws) = j := by
    rw [Nat.mul_comm, Nat.mul_add_div hpos, Nat.div_eq_of_lt hx, Nat.add_zero]
  have hmod : (j * (g.len / ws) + x) % (g.len / ws) = x := by
    rw [Nat.mul_comm, Nat.mul_add_mod, Nat.mod_eq_of_lt hx]
  rw [apply, dif_pos ⟨Nat.le_add_right _ _, Nat.add_lt_add_left hlt _⟩]
  simp only [Nat.add_sub_cancel_left, hdiv, hmod, Fin.eta]

theorem apply_outside (host : Fin ws → ℕ → V) {r : Fin ws} {a : ℕ}
    (ha : a ∉ g.destination r) : g.apply host r a = host r a :=
  dif_neg ha

/-- Every byte of the destination lies in a chunk. -/
theorem exists_chunk {r : Fin ws} {a : ℕ} (ha : a ∈ g.destination r) :
    ∃ j : Fin ws, ∃ x < g.len / ws,
      a = (g.cmd r).remoteDstBufferAddress + (j * (g.len / ws) + x) := by
  obtain ⟨hle, hlt⟩ := ha
  have hoff : a - (g.cmd r).remoteDstBufferAddress < g.len / ws * ws := by
    rw [Nat.mul_comm]
    omega
  have hpos : 0 < g.len / ws := by
    by_contra hzero
    rw [Nat.eq_zero_of_not_pos hzero] at hoff
    omega
  refine ⟨⟨_, Nat.div_lt_of_lt_mul hoff⟩,
    (a - (g.cmd r).remoteDstBufferAddress) % (g.len / ws), Nat.mod_lt _ hpos, ?_⟩
  rw [Nat.div_add_mod']
  omega

end Gather

/-! ## Rounds -/

namespace Stream

variable {ws : ℕ} {V : Type} (cfg : PieceConfig) (cmds : ℕ → Gather ws)
  (host : Fin ws → ℕ → V)

/-- The rank has not started command `k`. -/
def Held (s : Stream ws V) (k : ℕ) (r : Fin ws) : Prop :=
  (s.barrier r).exits.length = k

/-- All ranks have finished `k` commands: those that have started the next one
are at `ranks` in its AllGather, which began on `mem`, and the host memories of
the others are as after `k` commands. -/
structure Round [NeZero ws] (s : Stream ws V) (k : ℕ) (mem : Fin ws → Addr → V)
    (ranks : AllGather.Ranks ws V) : Prop where
  exits_eq : ∀ r, s.Held k r ∨ (s.barrier r).exits.length = k + 1
  le_finished : ∀ r, k ≤ s.finished r
  returned : ∀ r, s.finished r = (s.barrier r).exits.length → (s.node r).prog = []
  reached : ∃ acts, (∀ a ∈ acts, a.failsAt = none) ∧
    run (AllGather.ringSystem ws V) (AllGather.start cfg (fun r => ((cmds k).cmd r).args)
      (cmds k).len mem) acts = some ranks
  shadows : Shadows (fun r => ((cmds k).cmd r).place) (fun _ => (cmds k).used cfg)
    (s.Held k) ranks s.node
  source : ∀ r x, mem r (.src, x) = Gather.applyFirst cmds host k r
    (((cmds k).cmd r).remoteSrcBufferAddress + x)
  held_eq : ∀ r, s.Held k r → ranks r = Node.start (collectiveAllGather V Unit cfg
    ((cmds k).cmd r).args r ws (cmds k).len) (mem r) ()
  held_mem : ∀ r, s.Held k r → ∀ a, mem r a = (s.node r).mem (((cmds k).cmd r).place a)
  held_host : ∀ r, s.Held k r → ∀ a, (s.node r).mem (.host a) =
    Gather.applyFirst cmds host k r a
  outside : ∀ r, ∀ a ∉ (cmds k).destination r, Spares (.host a) (s.node r) ∧
    (s.node r).mem (.host a) = Gather.applyFirst cmds host k r a

variable {cfg cmds host} [NeZero ws] {s : Stream ws V} {k : ℕ}
  {mem : Fin ws → Addr → V} {ranks : AllGather.Ranks ws V}

/-- Only the returns from the barrier, the commands finished and the nodes
matter. -/
theorem Round.congr (h : Round cfg cmds host s k mem ranks) {s' : Stream ws V}
    (hexits : ∀ r, (s'.barrier r).exits.length = (s.barrier r).exits.length)
    (hnode : s'.node = s.node) (hle : ∀ r, s.finished r ≤ s'.finished r)
    (hreturned : ∀ r, s'.finished r = (s'.barrier r).exits.length →
      (s'.node r).prog = []) : Round cfg cmds host s' k mem ranks := by
  have hheld : s'.Held k = s.Held k := by
    funext r
    unfold Held
    rw [hexits]
  refine
    { exits_eq := fun r => ?_
      le_finished := fun r => (h.le_finished r).trans (hle r)
      returned := hreturned
      reached := h.reached
      shadows := ?_
      source := h.source
      held_eq := ?_
      held_mem := ?_
      held_host := ?_
      outside := ?_ }
  · rw [hheld, hexits]
    exact h.exits_eq r
  · rw [hheld, hnode]
    exact h.shadows
  · rw [hheld]
    exact h.held_eq
  · rw [hheld, hnode]
    exact h.held_mem
  · rw [hheld, hnode]
    exact h.held_host
  · rw [hnode]
    exact h.outside

/-- A step of the AllGather that is under way. -/
theorem Round.fabric (h : Round cfg cmds host s k mem ranks)
    {a : Action (Fin ws) RdmaCtx Empty} (ha : a.failsAt = none)
    {node : Fin ws → Node RdmaCtx Pending Cell V Unit}
    (hstep : Fabric.step (cellSystem ws V) s.node a = some node) :
    ∃ ranks', Round cfg cmds host { s with node := node } k mem ranks' := by
  have hfree := h.shadows.not_held hstep
  have hnext : (cellSystem ws V).next = (AllGather.ringSystem ws V).next := rfl
  obtain ⟨ranks', hranks, hshadows⟩ :=
    h.shadows.step hnext (fun r => (cmds k).place_injOn cfg r) hstep
  have hnode : ∀ r, s.Held k r → node r = s.node r := fun r hr =>
    step_untouched hstep fun htouch => hfree r htouch hr
  obtain ⟨acts, hacts, hrun⟩ := h.reached
  refine ⟨ranks',
    { exits_eq := h.exits_eq
      le_finished := h.le_finished
      returned := fun r hr => step_returned hstep (h.returned r hr)
      reached := ⟨acts ++ [a], fun b hb => ?_, ?_⟩
      shadows := hshadows
      source := h.source
      held_eq := fun r hr => ?_
      held_mem := fun r hr x => ?_
      held_host := fun r hr x => ?_
      outside := fun r x hx => ?_ }⟩
  · rcases List.mem_append.mp hb with hb | hb
    · exact hacts b hb
    · rw [List.mem_singleton.mp hb]
      exact ha
  · rw [run_append hrun, run, hranks]
    rfl
  · rw [step_untouched hranks fun htouch => hfree r htouch hr]
    exact h.held_eq r hr
  · have heq := h.held_mem r hr x
    rw [← hnode r hr] at heq
    exact heq
  · have heq := h.held_host r hr x
    rw [← hnode r hr] at heq
    exact heq
  · obtain ⟨hspares, hmem⟩ := h.outside r x hx
    have hkeeps := hspares.step (fun a => a.elim) hstep
    exact ⟨hkeeps.spares, hkeeps.mem_eq.trans hmem⟩

/-- What a rank that has finished the command has in its memory. -/
theorem Round.gathered (h : Round cfg cmds host s k mem ranks) {r : Fin ws}
    (hr : ¬ s.Held k r) (hprog : (s.node r).prog = []) (a : ℕ) :
    (s.node r).mem (.host a) = Gather.applyFirst cmds host (k + 1) r a := by
  rw [Gather.applyFirst]
  by_cases ha : a ∈ (cmds k).destination r
  · obtain ⟨j, x, hx, rfl⟩ := (cmds k).exists_chunk ha
    obtain ⟨acts, hacts, hrun⟩ := h.reached
    have hmirrors := h.shadows.mirrors r hr
    have hranks : (ranks r).prog = [] := by
      have heq := hmirrors.prog_eq
      rw [hprog] at heq
      exact List.map_eq_nil_iff.mp heq.symm
    have hlt : j * ((cmds k).len / ws) + x < ws * ((cmds k).len / ws) := by
      have hle : (j.val + 1) * ((cmds k).len / ws) ≤ ws * ((cmds k).len / ws) :=
        Nat.mul_le_mul_right _ j.isLt
      rw [Nat.succ_mul] at hle
      omega
    calc (s.node r).mem (.host (((cmds k).cmd r).remoteDstBufferAddress +
          (j * ((cmds k).len / ws) + x)))
        = (ranks r).mem (.dst, j * ((cmds k).len / ws) + x) :=
          hmirrors.mem_eq (.dst, _) (.inr ⟨.inl rfl, hlt⟩)
      _ = mem j (.src, x) :=
          AllGather.returned_gathers cfg _ _ mem (cmds k).ring hacts hrun hranks j hx
      _ = _ := h.source j x
      _ = _ := ((cmds k).apply_destination _ r j hx).symm
  · rw [(h.outside r a ha).2, (cmds k).apply_outside _ ha]

/-- Nothing has happened yet in the round. -/
theorem Round.start (hexits : ∀ r, s.Held k r) (hfinished : ∀ r, s.finished r = k)
    (hparked : ∀ r, (s.node r).Parked)
    (hhost : ∀ r a, (s.node r).mem (.host a) = Gather.applyFirst cmds host k r a) :
    Round cfg cmds host s k
      (fun r a => (s.node r).mem (((cmds k).cmd r).place a))
      (AllGather.start cfg (fun r => ((cmds k).cmd r).args) (cmds k).len
        fun r a => (s.node r).mem (((cmds k).cmd r).place a)) where
  exits_eq r := .inl (hexits r)
  le_finished r := (hfinished r).ge
  returned r _ := (hparked r).prog_eq
  reached := ⟨[], nofun, rfl⟩
  shadows := ⟨fun r _ => hparked r, fun r hr => absurd (hexits r) hr⟩
  source r x := hhost r _
  held_eq _ _ := rfl
  held_mem _ _ _ := rfl
  held_host r _ a := hhost r a
  outside r a _ := by
    refine ⟨⟨fun t ht => ?_, fun f hf => ?_, fun t ht => ?_⟩, hhost r a⟩
    · rw [(hparked r).prog_eq] at ht
      cases ht
    · rw [(hparked r).prog_eq] at hf
      cases hf
    · rw [(hparked r).pending_eq] at ht
      cases ht

/-- All ranks have finished the command: the next round begins. -/
theorem Round.advance (h : Round cfg cmds host s k mem ranks)
    (hle : ∀ r, s.finished r ≤ (s.barrier r).exits.length)
    (hfinished : ∀ r, k + 1 ≤ s.finished r) :
    ∃ mem' ranks', Round cfg cmds host s (k + 1) mem' ranks' := by
  have hexits : ∀ r, (s.barrier r).exits.length = k + 1 := by
    intro r
    have hr := hle r
    have hr' := hfinished r
    rcases h.exits_eq r with heq | heq
    · rw [Held] at heq
      omega
    · exact heq
  have hfree : ∀ r, ¬ s.Held k r := by
    intro r hr
    rw [Held, hexits r] at hr
    omega
  have hprog : ∀ r, (s.node r).prog = [] := fun r =>
    h.returned r (le_antisymm (hle r) ((hexits r).trans_le (hfinished r)))
  obtain ⟨acts, hacts, hrun⟩ := h.reached
  refine ⟨_, _, Round.start hexits (fun r => ?_) (fun r => ?_) fun r a =>
    h.gathered (hfree r) (hprog r) a⟩
  · exact le_antisymm ((hle r).trans (hexits r).le) (hfinished r)
  · have hmirrors := h.shadows.mirrors r (hfree r)
    have hranks : (ranks r).prog = [] := by
      have heq := hmirrors.prog_eq
      rw [hprog r] at heq
      exact List.map_eq_nil_iff.mp heq.symm
    have hparked : (ranks r).Parked :=
      (accounted_run (fun r => .start AllGather.settles_allGatherIn (mem r) ()) hrun
        r).parked hranks
    refine ⟨hprog r, ?_, ?_⟩
    · rw [hmirrors.pending_eq, hparked.pending_eq]
      rfl
    · rw [hmirrors.done_eq, hparked.done_eq]

/-- A rank returns from the barrier and starts the command. -/
theorem Round.leave (h : Round cfg cmds host s k mem ranks) {r : Fin ws}
    (hr : s.Held k r) (hfinished : s.finished r = k) {s' : Stream ws V}
    (hexits : (s'.barrier r).exits.length = k + 1)
    (hothers : ∀ q ≠ r, (s'.barrier q).exits.length = (s.barrier q).exits.length)
    (hnode : s'.node = set s.node r ((s.node r).load ((cmds k).program V cfg r)))
    (hsame : s'.finished = s.finished) : Round cfg cmds host s' k mem ranks := by
  have hheld : ∀ {q}, q ≠ r → (s'.Held k q ↔ s.Held k q) := by
    intro q hq
    rw [Held, Held, hothers q hq]
  have hne : ∀ {q}, s'.Held k q → q ≠ r := by
    rintro q hq rfl
    rw [Held, hexits] at hq
    omega
  have hother : ∀ {q}, q ≠ r → s'.node q = s.node q := by
    intro q hq
    rw [hnode, set_of_ne hq]
  have hself : s'.node r = (s.node r).load ((cmds k).program V cfg r) := by
    rw [hnode, set_same]
  have hparked := h.shadows.parked r hr
  refine
    { exits_eq := fun q => ?_
      le_finished := fun q => hsame ▸ h.le_finished q
      returned := fun q hq => ?_
      reached := h.reached
      shadows := ⟨fun q hq => ?_, fun q hq => ?_⟩
      source := h.source
      held_eq := fun q hq => h.held_eq q ((hheld (hne hq)).mp hq)
      held_mem := fun q hq a => ?_
      held_host := fun q hq a => ?_
      outside := fun q a ha => ?_ }
  · by_cases hq : q = r
    · subst hq
      exact .inr hexits
    · rw [hheld hq, hothers q hq]
      exact h.exits_eq q
  · by_cases hqr : q = r
    · subst hqr
      rw [hsame, hfinished, hexits] at hq
      omega
    · rw [hsame, hothers q hqr] at hq
      rw [hother hqr]
      exact h.returned q hq
  · rw [hother (hne hq)]
    exact h.shadows.parked q ((hheld (hne hq)).mp hq)
  · by_cases hqr : q = r
    · subst hqr
      rw [hself, h.held_eq q hr, (cmds k).program_eq]
      exact hparked.load (AllGather.within_allGatherIn q.isLt)
        fun l _ => (h.held_mem q hr l).symm
    · rw [hother hqr]
      exact h.shadows.mirrors q fun hq' => hq ((hheld hqr).mpr hq')
  · rw [hother (hne hq)]
    exact h.held_mem q ((hheld (hne hq)).mp hq) a
  · rw [hother (hne hq)]
    exact h.held_host q ((hheld (hne hq)).mp hq) a
  · obtain ⟨hspares, hmem⟩ := h.outside q a ha
    by_cases hqr : q = r
    · subst hqr
      obtain ⟨hsubmit, hcall⟩ := (cmds k).avoids_program (V := V) cfg q ha
      rw [hself]
      exact ⟨⟨hsubmit, hcall, hspares.pending⟩, hmem⟩
    · rw [hother hqr]
      exact ⟨hspares, hmem⟩

end Stream

end SmartNic.Collective
