import SmartNic.Collective.AllGather
import SmartNic.Library.Fabric.Soundness

/-!
# What a rank knows during an AllGather

The derivation of the AllGather program.  The bytes that a location is to hold
never change: a working or destination buffer holds the gathered bytes.  After
`s` ring steps a rank has its own chunk and the `s` chunks before it.
-/

namespace SmartNic.Collective

open SmartNic.Fabric

namespace AllGather

variable {V : Type}

/-! ## Values and footprints -/

/-- Byte `o` of the gathered buffer; `src j` is the source of rank `j`. -/
def gathered (ly : Layout) (src : ℕ → ℕ → V) (o : ℕ) : V :=
  src (o / ly.chunkSize) (o % ly.chunkSize)

/-- The bytes that a location of a rank is to hold. -/
def expected (ly : Layout) (src : ℕ → ℕ → V) (rank : ℕ) (l : Addr) : V :=
  if l.1 = .src then src rank l.2 else gathered ly src l.2

/-- The chunk at an address. -/
def chunkAt (ly : Layout) (a : Addr) : Set Addr :=
  {l | ∃ x < ly.chunkSize, l = (a.1, a.2 + x)}

/-- The chunks that the transfers on a counter read and write. -/
def footprint (ly : Layout) (m : Mode) (rank : ℕ) : Footprint Pending Addr where
  reads
    | .recv _ => ∅
    | .read => chunkAt ly (.src, 0)
    | .write => chunkAt ly (.send, rank * ly.chunkSize)
    | .send step => chunkAt ly (sendSource ly m rank step)
    | .put step => chunkAt ly (.send, ly.receiveOffset rank step)
  writes
    | .recv step => chunkAt ly (m.ringBuffer, ly.receiveOffset rank step)
    | .read => chunkAt ly (.send, rank * ly.chunkSize)
    | .write => chunkAt ly (.dst, rank * ly.chunkSize)
    | .send _ => ∅
    | .put step => chunkAt ly (.dst, ly.receiveOffset rank step)

/-- The ranks on their ring; the collective has no local device. -/
def ringSystem (ws : ℕ) (V : Type) : System (Fin ws) Addr V Unit Empty where
  next := nextRank
  deviceStep a _ _ := nomatch a

/-! ## Chunk indices -/

section Indices

variable {ly : Layout} {rank step : ℕ}

theorem gathered_chunk (src : ℕ → ℕ → V) (i : ℕ) {x : ℕ}
    (hx : x < ly.chunkSize) :
    gathered ly src (i * ly.chunkSize + x) = src i x := by
  have hpos : 0 < ly.chunkSize := Nat.zero_lt_of_lt hx
  have hdiv : (i * ly.chunkSize + x) / ly.chunkSize = i := by
    rw [Nat.mul_comm, Nat.mul_add_div hpos, Nat.div_eq_of_lt hx, Nat.add_zero]
  have hmod : (i * ly.chunkSize + x) % ly.chunkSize = x := by
    rw [Nat.mul_comm, Nat.mul_add_mod, Nat.mod_eq_of_lt hx]
  rw [gathered, hdiv, hmod]

/-- The first chunk that is sent is the own one. -/
theorem sendIndex_zero (hrank : rank < ly.worldSize) :
    ly.sendIndex rank 0 = rank := by
  rw [Layout.sendIndex, Nat.sub_zero, Nat.add_mod_right, Nat.mod_eq_of_lt hrank]

/-- What is sent in a step was received in the step before. -/
theorem sendIndex_succ (hstep : step < ly.worldSize) :
    ly.sendIndex rank (step + 1) = ly.receiveIndex rank step := by
  have hsum : rank + ly.worldSize * 2 - 1 - step =
      rank + ly.worldSize - (step + 1) + ly.worldSize := by
    omega
  rw [Layout.sendIndex, Layout.receiveIndex, hsum, Nat.add_mod_right]

/-- The next rank receives what a rank sends. -/
theorem receiveIndex_next {r : Fin ly.worldSize} (hstep : step < ly.worldSize) :
    ly.receiveIndex (nextRank r) step = ly.sendIndex r step := by
  have hr := r.isLt
  rw [Layout.receiveIndex, Layout.sendIndex, nextRank]
  dsimp only
  rcases Nat.lt_or_ge (r.val + 1) ly.worldSize with hlt | hge
  · have hsum : r.val + 1 + ly.worldSize * 2 - 1 - step =
        r.val + ly.worldSize - step + ly.worldSize := by
      omega
    rw [Nat.mod_eq_of_lt hlt, hsum, Nat.add_mod_right]
  · have hlast : r.val + 1 = ly.worldSize := by omega
    have hsum : 0 + ly.worldSize * 2 - 1 - step =
        r.val + ly.worldSize - step := by
      omega
    rw [hlast, Nat.mod_self, hsum]

/-- Every chunk but the own one is received in one of the first steps; the own
one would be received in the last step of a full GPU-direct rank. -/
theorem exists_receiveIndex (hrank : rank < ly.worldSize) {j : ℕ}
    (hj : j < ly.worldSize) :
    ∃ step < ly.worldSize, ly.receiveIndex rank step = j ∧
      (j ≠ rank → step < ly.worldSize - 1) := by
  rcases Nat.lt_or_ge j rank with hlt | hge
  · refine ⟨rank - 1 - j, by omega, ?_, fun _ => by omega⟩
    have hsum : rank + ly.worldSize * 2 - 1 - (rank - 1 - j) =
        j + ly.worldSize * 2 := by
      omega
    rw [Layout.receiveIndex, hsum, Nat.add_mul_mod_self_left,
      Nat.mod_eq_of_lt hj]
  · refine ⟨rank + ly.worldSize - 1 - j, by omega, ?_, fun _ => by omega⟩
    have hsum : rank + ly.worldSize * 2 - 1 - (rank + ly.worldSize - 1 - j) =
        j + ly.worldSize := by
      omega
    rw [Layout.receiveIndex, hsum, Nat.add_mod_right, Nat.mod_eq_of_lt hj]

end Indices

/-! ## Pieces -/

section Pieces

variable {ly : Layout} {m : Mode} {rank : ℕ}

theorem mem_chunkAt_piece {p x : ℕ} (a : Addr) (hp : p < ly.numPieces)
    (hx : x < ly.pieceLength p) :
    (a.1, a.2 + ly.pieceOffset p + x) ∈ chunkAt ly a :=
  ⟨_, Layout.pieceOffset_add_lt hp hx, by rw [Nat.add_assoc]⟩

/-- The pieces of a chunk cover it. -/
theorem exists_piece_of_mem (hn : 1 ≤ ly.numPieces) {a l : Addr}
    (hl : l ∈ chunkAt ly a) :
    ∃ p < ly.numPieces,
      l ∈ cells (a.1, a.2 + ly.pieceOffset p) (ly.pieceLength p) := by
  obtain ⟨x, hx, rfl⟩ := hl
  obtain ⟨p, hp, y, hy, rfl⟩ := Layout.exists_piece hn hx
  refine ⟨p, hp, mem_cells.mpr ⟨y, hy, ?_⟩⟩
  rw [Nat.add_assoc]

variable (src : ℕ → ℕ → V)

/-- A working or destination buffer holds the chunks of all ranks. -/
theorem expected_chunk (rank : ℕ) {b : Buffer} (hb : b ≠ .src) (i : ℕ) {x : ℕ}
    (hx : x < ly.chunkSize) :
    expected ly src rank (b, i * ly.chunkSize + x) = src i x := by
  rw [expected, if_neg hb, gathered_chunk src i hx]

theorem ringBuffer_ne (m : Mode) : m.ringBuffer ≠ .src := by
  rw [Mode.ringBuffer]
  split <;> decide

/-- The bytes sent in a step are the chunk with the index of the step. -/
theorem expected_sendSource (hrank : rank < ly.worldSize) (step : ℕ) {x : ℕ}
    (hx : x < ly.chunkSize) :
    expected ly src rank
      ((sendSource ly m rank step).1, (sendSource ly m rank step).2 + x) =
        src (ly.sendIndex rank step) x := by
  unfold sendSource
  split
  next h =>
    obtain ⟨-, rfl⟩ := h
    rw [sendIndex_zero hrank, expected, if_pos rfl, Nat.zero_add]
  · exact expected_chunk src rank (ringBuffer_ne m) _ hx

end Pieces

/-! ## Knowledge -/

section Knowledge

variable (ly : Layout) (m : Mode) (src : ℕ → ℕ → V) (rank : ℕ)

/-- The receives of the steps from `first` up to `last`. -/
def recvsFrom (first last : ℕ) : Set Pending :=
  {c | ∃ step, first ≤ step ∧ step < last ∧ c = .recv step}

theorem reads_recvsFrom {c : Pending} {first last : ℕ} {known : Set Addr}
    (hc : c ∈ recvsFrom first last) :
    (footprint ly m rank).reads c ⊆ known := by
  obtain ⟨step, -, -, rfl⟩ := hc
  exact Set.empty_subset _

/-- What is known while the transfers on the counters of `live` are on their
way. -/
def during (known : Set Addr) (sub live : Set Pending)
    (hreads : ∀ c ∈ live, (footprint ly m rank).reads c ⊆ known) :
    Knowledge (ringSystem ly.worldSize V) (footprint ly m rank) :=
  .passive (expected ly src rank) known sub live (fun _ => True) hreads
    fun a => nomatch a

/-- What is known between two phases, while some receives are posted. -/
def awaiting (known : Set Addr) (first last : ℕ) :
    Knowledge (ringSystem ly.worldSize V) (footprint ly m rank) :=
  during ly m src rank known (recvsFrom 0 last) (recvsFrom first last)
    fun _ hc => reads_recvsFrom ly m rank hc

theorem awaiting_implies {known known' : Set Addr} (first last : ℕ)
    (hknown : known' ⊆ known) :
    (awaiting ly m src rank known first last).Implies
      (awaiting ly m src rank known' first last) :=
  Knowledge.passive_implies _ (fun a => nomatch a) hknown subset_rfl subset_rfl

/-- The chunk of a rank in the working buffer and in the destination. -/
def ownChunk : Set Addr :=
  chunkAt ly (.send, rank * ly.chunkSize) ∪
    chunkAt ly (.dst, rank * ly.chunkSize)

/-- The chunk received in a step, where the ring received it and in the
destination. -/
def receivedChunk (step : ℕ) : Set Addr :=
  chunkAt ly (m.ringBuffer, ly.receiveOffset rank step) ∪
    chunkAt ly (.dst, ly.receiveOffset rank step)

/-- What a rank has after the initial phase and `steps` ring steps. -/
def gatheredAt (steps : ℕ) : Set Addr :=
  chunkAt ly (.src, 0) ∪ {l | ¬ m.fullGpuDirect ∧ l ∈ ownChunk ly rank} ∪
    {l | ∃ step < steps, l ∈ receivedChunk ly m rank step}

end Knowledge

section Phases

variable {ly : Layout} {m : Mode} {src : ℕ → ℕ → V} {rank : ℕ}

theorem recvsFrom_succ_subset (n : ℕ) :
    recvsFrom 0 (n + 1) ⊆ insert (.recv n) (recvsFrom 0 n) := by
  rintro c ⟨step, h0, hlt, rfl⟩
  rcases Nat.lt_succ_iff_lt_or_eq.mp hlt with hlt | rfl
  · exact .inr ⟨step, h0, hlt, rfl⟩
  · exact .inl rfl

theorem insert_recvsFrom_subset (n : ℕ) :
    insert (.recv n) (recvsFrom 0 n) ⊆ recvsFrom 0 (n + 1) := by
  rintro c (rfl | ⟨step, h0, hlt, rfl⟩)
  · exact ⟨n, Nat.zero_le n, Nat.lt_succ_self n, rfl⟩
  · exact ⟨step, h0, Nat.lt_succ_of_lt hlt, rfl⟩

variable {known known' : Set Addr} {sub sub' live live' : Set Pending}
  {hreads : ∀ c ∈ live, (footprint ly m rank).reads c ⊆ known}
  (hreads' : ∀ c ∈ live', (footprint ly m rank).reads c ⊆ known')

/-- The pieces of a transfer of a whole chunk. -/
theorem run_pieceBatch {c : Pending}
    {task : ℕ → Task RdmaCtx Pending Addr} (hfresh : c ∉ live)
    (hknown : (footprint ly m rank).reads c ⊆ known)
    (htask : ∀ p < ly.numPieces, (task p).counter = c ∧
      ∀ K : Knowledge (ringSystem ly.worldSize V) (footprint ly m rank),
        K.exp = expected ly src rank → K.Admits (task p))
    (hcover : ∀ l ∈ (footprint ly m rank).writes c,
      ∃ p < ly.numPieces, l ∈ (task p).dst)
    (hknown' : known' ⊆ known) (hsub : sub' ⊆ insert c sub)
    (hlive : insert c live ⊆ live') :
    Run (during ly m src rank known sub live hreads)
      (pieceBatch V Unit ly c task)
      (during ly m src rank known' sub' live' hreads')
      (sends (expected ly src rank) ((List.range ly.numPieces).map task))
      (recvs (expected ly src rank) ((List.range ly.numPieces).map task)) := by
  refine Run.passive_batch hreads' c _ hfresh hknown ?_ ?_ hknown' hsub hlive
  · intro t ht
    obtain ⟨p, hp, rfl⟩ := List.mem_map.mp ht
    obtain ⟨hcounter, hadmits⟩ := htask p (List.mem_range.mp hp)
    exact ⟨hcounter, hadmits _ rfl⟩
  · intro l hl
    obtain ⟨p, hp, hin⟩ := hcover l hl
    exact ⟨task p, List.mem_map_of_mem (List.mem_range.mpr hp), hin⟩

theorem run_wait (cs : List Pending)
    (hknown : ∀ l ∈ known', l ∈ known ∨
      ∃ c ∈ cs, c ∈ sub ∧ l ∈ (footprint ly m rank).writes c)
    (hsub : sub' ⊆ sub) (hlive : ∀ c ∈ live, c ∈ cs ∨ c ∈ live') :
    Run (during ly m src rank known sub live hreads)
      [.wait cs (Q := RdmaCtx)]
      (during ly m src rank known' sub' live' hreads')
      (fun _ => []) (fun _ => []) :=
  Run.passive_wait hreads' cs hknown hsub hlive

/-! ## The tasks of the phases -/

theorem run_recvStep (hn : 1 ≤ ly.numPieces) {known : Set Addr} (step : ℕ) :
    Run (awaiting ly m src rank known 0 step)
      (pieceBatch V Unit ly (.recv step) (recvTask ly m rank step))
      (awaiting ly m src rank known 0 (step + 1))
      (fun _ => [])
      (recvs (expected ly src rank)
        ((List.range ly.numPieces).map (recvTask ly m rank step))) := by
  have hsends : sends (expected ly src rank)
      ((List.range ly.numPieces).map (recvTask ly m rank step)) =
      fun _ => [] := by
    funext q
    simp [sends, recvTask]
  rw [← hsends]
  refine run_pieceBatch _ ?_ (Set.empty_subset _) (fun p hp => ⟨rfl, ?_⟩) ?_
    subset_rfl (recvsFrom_succ_subset step) (insert_recvsFrom_subset step)
  · rintro ⟨step', -, hlt, heq⟩
    cases heq
    exact Nat.lt_irrefl _ hlt
  · exact fun K _ => admits_initRingRecvTask fun x hx =>
      mem_chunkAt_piece _ hp hx
  · exact fun l hl => exists_piece_of_mem hn hl

theorem flatMap_nothing {β γ : Type} (n : ℕ) :
    (fun _ : β => (List.range n).flatMap fun _ => ([] : List γ)) =
      fun _ => [] :=
  funext fun _ => List.flatMap_eq_nil_iff.mpr fun _ _ => rfl

theorem run_recvPhase (hn : 1 ≤ ly.numPieces) {known : Set Addr} :
    Run (awaiting ly m src rank known 0 0) (recvPhase V Unit ly m rank)
      (awaiting ly m src rank known 0 (totalSteps ly m))
      (fun _ => [])
      (fun q => (List.range (totalSteps ly m)).flatMap fun step =>
        recvs (expected ly src rank)
          ((List.range ly.numPieces).map (recvTask ly m rank step)) q) := by
  have hloop := Run.range
    (K := fun step => awaiting ly m src rank known 0 step)
    (totalSteps ly m) fun step _ => run_recvStep hn step
  rw [flatMap_nothing] at hloop
  exact hloop

/-- Copy chunk `i` piece by piece and wait. -/
theorem run_copyPhase (hn : 1 ≤ ly.numPieces) (c : Pending)
    (task : ℕ → Task RdmaCtx Pending Addr) (a b : Addr) (i first last : ℕ)
    {known : Set Addr}
    (hreads : (footprint ly m rank).reads c = chunkAt ly a)
    (hwrites : (footprint ly m rank).writes c = chunkAt ly b)
    (htask : ∀ p, ∃ ctx, task p = copyTask (a.1, a.2 + ly.pieceOffset p)
      (b.1, b.2 + ly.pieceOffset p) (ly.pieceLength p) ctx c)
    (ha : ∀ x < ly.chunkSize, expected ly src rank (a.1, a.2 + x) = src i x)
    (hb : ∀ x < ly.chunkSize, expected ly src rank (b.1, b.2 + x) = src i x)
    (hc : ∀ step, c ≠ .recv step) (hknown : chunkAt ly a ⊆ known) :
    Run (awaiting ly m src rank known first last)
      (pieceBatch V Unit ly c task ++ [.wait [c]])
      (awaiting ly m src rank (known ∪ chunkAt ly b) first last)
      (fun _ => []) (fun _ => []) := by
  have hfresh : ∀ first last, c ∉ recvsFrom first last := by
    rintro _ _ ⟨step, -, -, heq⟩
    exact hc step heq
  have hknown' : ∀ c' ∈ insert c (recvsFrom first last),
      (footprint ly m rank).reads c' ⊆ known := by
    rintro c' (rfl | ⟨step, -, -, rfl⟩)
    · rw [hreads]
      exact hknown
    · exact Set.empty_subset _
  have hnone : sends (expected ly src rank)
      ((List.range ly.numPieces).map task) = (fun _ => []) ∧
      recvs (expected ly src rank)
        ((List.range ly.numPieces).map task) = fun _ => [] := by
    refine ⟨funext fun q => ?_, funext fun q => ?_⟩
    all_goals
      refine List.filterMap_eq_nil_iff.mpr fun t ht => ?_
      obtain ⟨p, -, rfl⟩ := List.mem_map.mp ht
      obtain ⟨ctx, htp⟩ := htask p
      rw [htp]
      rfl
  have hadmits : ∀ p < ly.numPieces, (task p).counter = c ∧
      ∀ K : Knowledge (ringSystem ly.worldSize V) (footprint ly m rank),
        K.exp = expected ly src rank → K.Admits (task p) := by
    intro p hp
    obtain ⟨ctx, htp⟩ := htask p
    rw [htp]
    refine ⟨rfl, fun K hK => admits_copyTask (fun x hx => ?_) (fun x hx => ?_)
      (fun x hx => ?_)⟩
    · rw [hreads]
      exact mem_chunkAt_piece a hp hx
    · rw [hwrites]
      exact mem_chunkAt_piece b hp hx
    · have hlt := Layout.pieceOffset_add_lt hp hx
      rw [hK, Nat.add_assoc, Nat.add_assoc, ha _ hlt, hb _ hlt]
  have hcover : ∀ l ∈ (footprint ly m rank).writes c,
      ∃ p < ly.numPieces, l ∈ (task p).dst := by
    intro l hl
    rw [hwrites] at hl
    obtain ⟨p, hp, hin⟩ := exists_piece_of_mem hn hl
    obtain ⟨ctx, htp⟩ := htask p
    refine ⟨p, hp, ?_⟩
    rw [htp, copyTask_dst]
    exact hin
  have hbatch : Run (awaiting ly m src rank known first last)
      (pieceBatch V Unit ly c task)
      (during ly m src rank known (insert c (recvsFrom 0 last))
        (insert c (recvsFrom first last)) hknown')
      _ _ :=
    run_pieceBatch hknown' (hfresh first last) (hreads ▸ hknown) hadmits hcover
      subset_rfl subset_rfl subset_rfl
  rw [hnone.1, hnone.2] at hbatch
  refine hbatch.append (run_wait _ [c] ?_ (Set.subset_insert _ _) ?_)
  · rintro l (hl | hl)
    · exact .inl hl
    · exact .inr ⟨c, by simp, .inl rfl, hwrites ▸ hl⟩
  · rintro c' (rfl | hc')
    · exact .inl (by simp)
    · exact .inr hc'

/-- The own chunk reaches the working buffer and the destination. -/
theorem run_initialPhase (hn : 1 ≤ ly.numPieces) {first last : ℕ} :
    Run (awaiting ly m src rank (chunkAt ly (.src, 0)) first last)
      (initialPhase V Unit ly m rank)
      (awaiting ly m src rank (gatheredAt ly m rank 0) first last)
      (fun _ => []) (fun _ => []) := by
  have hdst : ∀ x < ly.chunkSize, ∀ b : Buffer, b ≠ .src →
      expected ly src rank (b, rank * ly.chunkSize + x) = src rank x :=
    fun x hx b hb => expected_chunk src rank hb _ hx
  have hread := run_copyPhase (V := V) (m := m) hn .read (readTask ly m rank)
    (.src, 0) (.send, rank * ly.chunkSize) rank first last rfl rfl
    (fun p => ⟨m.rmaCtx p, by simp [readTask, initReadTask]⟩)
    (fun x _ => by simp [expected]) (fun x hx => hdst x hx .send (by decide))
    (fun step h => by cases h) subset_rfl
  have hwrite := run_copyPhase (V := V) (m := m) hn .write
    (writeTask ly m rank) (.send, rank * ly.chunkSize)
    (.dst, rank * ly.chunkSize) rank first last rfl rfl
    (fun p => ⟨m.rmaCtx p, rfl⟩) (fun x hx => hdst x hx .send (by decide))
    (fun x hx => hdst x hx .dst (by decide)) (fun step h => by cases h)
    (Set.subset_union_right (s := chunkAt ly (.src, 0)))
  have hend : (awaiting ly m src rank (chunkAt ly (.src, 0) ∪
        chunkAt ly (.send, rank * ly.chunkSize) ∪
        chunkAt ly (.dst, rank * ly.chunkSize)) first last).Implies
      (awaiting ly m src rank (gatheredAt ly m rank 0) first last) := by
    refine awaiting_implies ly m src rank _ _ ?_
    rintro l ((hl | ⟨-, hl | hl⟩) | ⟨step, hlt, -⟩)
    · exact .inl (.inl hl)
    · exact .inl (.inr hl)
    · exact .inr hl
    · cases hlt
  rw [initialPhase, List.append_assoc]
  exact (hread.append hwrite).weaken hend

theorem gatheredAt_succ (step : ℕ) :
    gatheredAt ly m rank (step + 1) =
      gatheredAt ly m rank step ∪ receivedChunk ly m rank step := by
  ext l
  constructor
  · rintro (hl | ⟨step', hlt, hl⟩)
    · exact .inl (.inl hl)
    · rcases Nat.lt_succ_iff_lt_or_eq.mp hlt with hlt | rfl
      · exact .inl (.inr ⟨step', hlt, hl⟩)
      · exact .inr hl
  · rintro ((hl | ⟨step', hlt, hl⟩) | hl)
    · exact .inl hl
    · exact .inr ⟨step', Nat.lt_succ_of_lt hlt, hl⟩
    · exact .inr ⟨step, Nat.lt_succ_self step, hl⟩

/-- The chunk to send in a step is there. -/
theorem sendSource_subset (hrank : rank < ly.worldSize) {step : ℕ}
    (hstep : step < ly.worldSize) :
    chunkAt ly (sendSource ly m rank step) ⊆ gatheredAt ly m rank step := by
  cases step with
  | zero =>
      by_cases hfull : m.fullGpuDirect
      · rw [sendSource, if_pos ⟨hfull, rfl⟩]
        exact fun l hl => .inl (.inl hl)
      · rw [sendSource, if_neg fun h => hfull h.1, Layout.sendOffset,
          sendIndex_zero hrank, Mode.ringBuffer]
        intro l hl
        split at hl
        · exact .inl (.inr ⟨hfull, .inr hl⟩)
        · exact .inl (.inr ⟨hfull, .inl hl⟩)
  | succ step =>
      have hlt : step < ly.worldSize := Nat.lt_of_succ_lt hstep
      rw [sendSource, if_neg fun h => Nat.succ_ne_zero _ h.2,
        Layout.sendOffset, sendIndex_succ hlt]
      exact fun l hl => .inr ⟨step, Nat.lt_succ_self step, .inl hl⟩

/-- The sending task of a step. -/
theorem run_sendBatch (src : ℕ → ℕ → V) {step : ℕ}
    (hreads : ∀ c ∈ insert (.send step) (recvsFrom step (totalSteps ly m)),
      (footprint ly m rank).reads c ⊆ gatheredAt ly m rank step)
    (hsource : chunkAt ly (sendSource ly m rank step) ⊆ gatheredAt ly m rank step) :
    Run (awaiting ly m src rank (gatheredAt ly m rank step) step
        (totalSteps ly m))
      (pieceBatch V Unit ly (.send step) (sendTask ly m rank step))
      (during ly m src rank (gatheredAt ly m rank step)
        (recvsFrom 0 (totalSteps ly m))
        (insert (.send step) (recvsFrom step (totalSteps ly m))) hreads)
      (sends (expected ly src rank)
        ((List.range ly.numPieces).map (sendTask ly m rank step)))
      (fun _ => []) := by
  have hnone : recvs (expected ly src rank)
      ((List.range ly.numPieces).map (sendTask ly m rank step)) =
        fun _ => [] := by
    refine funext fun q => List.filterMap_eq_nil_iff.mpr fun t ht => ?_
    obtain ⟨p, -, rfl⟩ := List.mem_map.mp ht
    rfl
  rw [← hnone]
  refine run_pieceBatch hreads ?_ hsource (fun p hp => ⟨rfl, ?_⟩) ?_
    subset_rfl (Set.subset_insert _ _) subset_rfl
  · rintro ⟨_, -, -, heq⟩
    cases heq
  · exact fun K _ => admits_initRingSendTask fun x hx =>
      mem_chunkAt_piece _ hp hx
  · exact fun l hl => hl.elim

/-- The wait for the transfers of a step. -/
theorem run_ringWait (src : ℕ → ℕ → V) {step : ℕ} (hstep : step < totalSteps ly m)
    (hreads : ∀ c ∈ insert (.send step) (recvsFrom step (totalSteps ly m)),
      (footprint ly m rank).reads c ⊆ gatheredAt ly m rank step) :
    Run (during ly m src rank (gatheredAt ly m rank step)
        (recvsFrom 0 (totalSteps ly m))
        (insert (.send step) (recvsFrom step (totalSteps ly m))) hreads)
      [.wait [.recv step, .send step] (Q := RdmaCtx)]
      (awaiting ly m src rank (gatheredAt ly m rank step ∪
          chunkAt ly (m.ringBuffer, ly.receiveOffset rank step)) (step + 1)
        (totalSteps ly m)) (fun _ => []) (fun _ => []) := by
  refine run_wait _ _ ?_ subset_rfl ?_
  · rintro l (hl | hl)
    · exact .inl hl
    · exact .inr ⟨.recv step, by simp,
        ⟨step, Nat.zero_le step, hstep, rfl⟩, hl⟩
  · rintro c (rfl | ⟨step', hle, hlt', rfl⟩)
    · exact .inl (by simp)
    · rcases Nat.eq_or_lt_of_le hle with rfl | hle
      · exact .inl (by simp)
      · exact .inr ⟨step', hle, hlt', rfl⟩

/-- A step of the ring. -/
theorem run_ringStep (hn : 1 ≤ ly.numPieces) (hrank : rank < ly.worldSize)
    {step : ℕ} (hstep : step < totalSteps ly m) :
    Run (awaiting ly m src rank (gatheredAt ly m rank step) step
        (totalSteps ly m))
      (ringStep V Unit ly m rank step)
      (awaiting ly m src rank (gatheredAt ly m rank (step + 1)) (step + 1)
        (totalSteps ly m))
      (sends (expected ly src rank)
        ((List.range ly.numPieces).map (sendTask ly m rank step)))
      (fun _ => []) := by
  have hlt : step < ly.worldSize := by
    unfold totalSteps at hstep
    split at hstep <;> omega
  have hsource := sendSource_subset (m := m) hrank hlt
  have hreads : ∀ c ∈ insert (.send step)
      (recvsFrom step (totalSteps ly m)), (footprint ly m rank).reads c ⊆
        gatheredAt ly m rank step := by
    rintro c (rfl | hc)
    · exact hsource
    · exact reads_recvsFrom ly m rank hc
  have hsend := run_sendBatch src hreads hsource
  have hwait := run_ringWait src hstep hreads
  have hstart := hsend.append hwait
  simp only [List.append_nil] at hstart
  rw [ringStep]
  by_cases hdirect : m.gpuDirect
  · have hend : (awaiting ly m src rank (gatheredAt ly m rank step ∪
          chunkAt ly (m.ringBuffer, ly.receiveOffset rank step)) (step + 1)
          (totalSteps ly m)).Implies
        (awaiting ly m src rank (gatheredAt ly m rank (step + 1)) (step + 1)
          (totalSteps ly m)) := by
      refine awaiting_implies ly m src rank _ _ ?_
      rw [gatheredAt_succ]
      refine Set.union_subset_union_right _ (Set.union_subset subset_rfl ?_)
      rw [Mode.ringBuffer, if_pos hdirect]
    rw [if_pos hdirect, List.append_nil]
    exact hstart.weaken hend
  · have hbuffer : m.ringBuffer = .send := if_neg hdirect
    have hreceived : ∀ x < ly.chunkSize, ∀ b : Buffer, b ≠ .src →
        expected ly src rank (b, ly.receiveOffset rank step + x) =
          src (ly.receiveIndex rank step) x :=
      fun x hx b hb => expected_chunk src rank hb _ hx
    have hput := run_copyPhase (V := V) (m := m) hn (.put step)
      (putTask ly m rank step) (.send, ly.receiveOffset rank step)
      (.dst, ly.receiveOffset rank step) (ly.receiveIndex rank step)
      (step + 1) (totalSteps ly m) rfl rfl (fun p => ⟨m.rmaCtx p, rfl⟩)
      (fun x hx => hreceived x hx .send (by decide))
      (fun x hx => hreceived x hx .dst (by decide)) (fun step h => by cases h)
      (Set.subset_union_right (s := gatheredAt ly m rank step))
    rw [← hbuffer] at hput
    have hend : (awaiting ly m src rank (gatheredAt ly m rank step ∪
          chunkAt ly (m.ringBuffer, ly.receiveOffset rank step) ∪
          chunkAt ly (.dst, ly.receiveOffset rank step)) (step + 1)
          (totalSteps ly m)).Implies
        (awaiting ly m src rank (gatheredAt ly m rank (step + 1)) (step + 1)
          (totalSteps ly m)) := by
      refine awaiting_implies ly m src rank _ _ ?_
      rw [gatheredAt_succ, Set.union_assoc]
      exact subset_rfl
    have hrun := (hstart.append hput).weaken hend
    simp only [List.append_nil] at hrun
    rw [if_neg hdirect]
    exact hrun

/-! ## The whole program -/

/-- What a rank sends on a context. -/
def outgoing (ly : Layout) (m : Mode) (src : ℕ → ℕ → V) (rank : ℕ)
    (q : RdmaCtx) : List (List V) :=
  (List.range (totalSteps ly m)).flatMap fun step =>
    sends (expected ly src rank)
      ((List.range ly.numPieces).map (sendTask ly m rank step)) q

/-- What a rank expects to receive on a context. -/
def incoming (ly : Layout) (m : Mode) (src : ℕ → ℕ → V) (rank : ℕ)
    (q : RdmaCtx) : List (List V) :=
  (List.range (totalSteps ly m)).flatMap fun step =>
    recvs (expected ly src rank)
      ((List.range ly.numPieces).map (recvTask ly m rank step)) q

theorem run_allGatherIn (hn : 1 ≤ ly.numPieces) (hrank : rank < ly.worldSize) :
    Run (awaiting ly m src rank (chunkAt ly (.src, 0)) 0 0)
      (allGatherIn V Unit ly m rank)
      (awaiting ly m src rank (gatheredAt ly m rank (totalSteps ly m))
        (totalSteps ly m) (totalSteps ly m))
      (outgoing ly m src rank) (incoming ly m src rank) := by
  have hrecv : Run (awaiting ly m src rank (chunkAt ly (.src, 0)) 0 0)
      (recvPhase V Unit ly m rank) _ _ _ :=
    run_recvPhase hn
  have hinitial : Run
      (awaiting ly m src rank (chunkAt ly (.src, 0)) 0 (totalSteps ly m))
      (if m.fullGpuDirect then [] else initialPhase V Unit ly m rank)
      (awaiting ly m src rank (gatheredAt ly m rank 0) 0 (totalSteps ly m))
      (fun _ => []) (fun _ => []) := by
    split
    next hfull =>
      refine .conseq (awaiting_implies ly m src rank _ _ ?_) (.nil _)
      rintro l ((hl | ⟨hnot, -⟩) | ⟨step, hlt, -⟩)
      · exact hl
      · exact absurd hfull hnot
      · cases hlt
    · exact run_initialPhase hn
  have hring := Run.range
    (K := fun step => awaiting ly m src rank (gatheredAt ly m rank step) step
      (totalSteps ly m))
    (totalSteps ly m) fun step hstep => run_ringStep hn hrank hstep
  rw [flatMap_nothing] at hring
  have hrun := (hrecv.append hinitial).append hring
  simp only [List.nil_append, List.append_nil] at hrun
  exact hrun

/-- The payload of a piece. -/
theorem map_expected_cells (a : Addr) {i p : ℕ} (hp : p < ly.numPieces)
    (ha : ∀ x < ly.chunkSize, expected ly src rank (a.1, a.2 + x) = src i x) :
    (cells (a.1, a.2 + ly.pieceOffset p) (ly.pieceLength p)).map
        (expected ly src rank) =
      (List.range (ly.pieceLength p)).map fun x =>
        src i (ly.pieceOffset p + x) := by
  rw [cells, List.map_map]
  refine List.map_congr_left fun x hx => ?_
  have hlt := Layout.pieceOffset_add_lt hp (List.mem_range.mp hx)
  rw [Function.comp_apply, Nat.add_assoc, ha _ hlt]

/-- The next rank expects what a rank sends. -/
theorem outgoing_eq_incoming (r : Fin ly.worldSize) (q : RdmaCtx) :
    outgoing ly m src r q = incoming ly m src (nextRank r) q := by
  refine List.flatMap_congr fun step hstep => ?_
  have hlt : step < ly.worldSize := by
    have htotal := List.mem_range.mp hstep
    unfold totalSteps at htotal
    split at htotal <;> omega
  rw [sends, recvs, List.filterMap_map, List.filterMap_map]
  refine List.filterMap_congr fun p hp => ?_
  have hp' := List.mem_range.mp hp
  have hsend := map_expected_cells (sendSource ly m r step) hp'
    (fun x hx => expected_sendSource src r.isLt step hx)
  have hrecv := map_expected_cells
    (m.ringBuffer, ly.receiveOffset (nextRank r) step) hp'
    (fun x hx => expected_chunk src (nextRank r) (ringBuffer_ne m) _ hx)
  simp only [Function.comp_apply, sendTask, recvTask, initRingSendTask_sendOn,
    initRingRecvTask_recvOn]
  split
  · rw [Option.map_some, Option.map_some, hsend, hrecv, receiveIndex_next hlt]
  · rfl

/-- At the end every chunk is in the destination. -/
theorem dst_known (hrank : rank < ly.worldSize) {j : ℕ} (hj : j < ly.worldSize)
    {x : ℕ} (hx : x < ly.chunkSize) :
    (Buffer.dst, j * ly.chunkSize + x) ∈
      gatheredAt ly m rank (totalSteps ly m) := by
  obtain ⟨step, hstep, hindex, hne⟩ := exists_receiveIndex hrank hj
  by_cases hin : step < totalSteps ly m
  · refine .inr ⟨step, hin, .inr ⟨x, hx, ?_⟩⟩
    rw [Layout.receiveOffset, hindex]
  · have hfull : ¬ m.fullGpuDirect := by
      intro hfull
      rw [totalSteps, if_pos hfull] at hin
      exact hin hstep
    have hown : j = rank := by
      by_contra hj'
      rw [totalSteps, if_neg hfull] at hin
      exact hin (hne hj')
    subst hown
    exact .inl (.inr ⟨hfull, .inr ⟨x, hx, rfl⟩⟩)

/-- The working buffer has the own chunk unless the GPU buffers are used at
both ends. -/
theorem own_known (hfull : ¬ m.fullGpuDirect) {x : ℕ} (hx : x < ly.chunkSize) :
    (Buffer.send, rank * ly.chunkSize + x) ∈
      gatheredAt ly m rank (totalSteps ly m) :=
  .inl (.inr ⟨hfull, .inl ⟨x, hx, rfl⟩⟩)

/-- It has all chunks when the ring receives there. -/
theorem send_known (hdirect : ¬ m.gpuDirect) (hrank : rank < ly.worldSize)
    {j : ℕ} (hj : j < ly.worldSize) {x : ℕ} (hx : x < ly.chunkSize) :
    (Buffer.send, j * ly.chunkSize + x) ∈
      gatheredAt ly m rank (totalSteps ly m) := by
  have hfull : ¬ m.fullGpuDirect := fun h => hdirect (m.full_direct h)
  by_cases hown : j = rank
  · subst hown
    exact own_known hfull hx
  · obtain ⟨step, -, hindex, hne⟩ := exists_receiveIndex hrank hj
    have hin : step < totalSteps ly m := by
      rw [totalSteps, if_neg hfull]
      exact hne hown
    refine .inr ⟨step, hin, .inl ⟨x, hx, ?_⟩⟩
    rw [Layout.receiveOffset, hindex, Mode.ringBuffer, if_neg hdirect]

end Phases

end AllGather

end SmartNic.Collective
