import SmartNic.Collective.ReduceScatter
import SmartNic.Collective.RsPoolInvariant
import SmartNic.Library.Fabric.Soundness

/-!
# What a rank knows during a ReduceScatter

The derivation of the ReduceScatter program.  Chunk `i` starts at rank `i + 1`
and collects one summand at every further rank until it is complete at rank
`i`.  After `s` steps a rank holds the chunk that has `s` additions behind it.
-/

namespace SmartNic.Collective

open SmartNic.Fabric

namespace ReduceScatter

variable {V : Type}

/-! ## Chunks -/

/-- The chunk that has `d` additions behind it when it is at `rank`. -/
def chunkOf (ws rank d : ℕ) : ℕ := (rank + ws - 1 - d) % ws

/-- The number of additions behind chunk `i` when it is at `rank`. -/
def depth (ws rank i : ℕ) : ℕ := (rank + 2 * ws - 1 - i) % ws

section Indices

variable {ws rank d : ℕ}

theorem chunkOf_lt (hws : 0 < ws) : chunkOf ws rank d < ws := Nat.mod_lt _ hws

theorem chunkOf_eq (hrank : rank < ws) (hd : d < ws) :
    chunkOf ws rank d + d + 1 = rank ∨ chunkOf ws rank d + d + 1 = rank + ws := by
  unfold chunkOf
  rcases Nat.lt_or_ge d rank with hlt | hge
  · have hsum : rank + ws - 1 - d = rank - 1 - d + ws := by omega
    rw [hsum, Nat.add_mod_right, Nat.mod_eq_of_lt (by omega)]
    omega
  · rw [Nat.mod_eq_of_lt (by omega)]
    omega

theorem depth_chunkOf (hrank : rank < ws) (hd : d < ws) :
    depth ws rank (chunkOf ws rank d) = d := by
  have hlt : chunkOf ws rank d < ws := chunkOf_lt (Nat.zero_lt_of_lt hrank)
  unfold depth
  rcases chunkOf_eq hrank hd with h | h
  · have hsum : rank + 2 * ws - 1 - chunkOf ws rank d = d + ws * 2 := by omega
    rw [hsum, Nat.add_mul_mod_self_left, Nat.mod_eq_of_lt hd]
  · have hsum : rank + 2 * ws - 1 - chunkOf ws rank d = d + ws := by omega
    rw [hsum, Nat.add_mod_right, Nat.mod_eq_of_lt hd]

/-- The last chunk is the own one. -/
theorem chunkOf_last (hrank : rank < ws) : chunkOf ws rank (ws - 1) = rank := by
  have hsum : rank + ws - 1 - (ws - 1) = rank := by omega
  rw [chunkOf, hsum, Nat.mod_eq_of_lt hrank]

/-- A chunk is at the next rank with one more addition. -/
theorem chunkOf_next (r : Fin ws) (hd : d + 1 < ws) :
    chunkOf ws (nextRank r) (d + 1) = chunkOf ws r d := by
  have hr := r.isLt
  rw [chunkOf, chunkOf, nextRank]
  dsimp only
  rcases Nat.lt_or_ge (r.val + 1) ws with hlt | hge
  · have hsum : r.val + 1 + ws - 1 - (d + 1) = r.val + ws - 1 - d := by omega
    rw [Nat.mod_eq_of_lt hlt, hsum]
  · have hlast : r.val + 1 = ws := by omega
    have hsum : r.val + ws - 1 - d = 0 + ws - 1 - (d + 1) + ws := by omega
    rw [hlast, Nat.mod_self, hsum, Nat.add_mod_right]

variable {elements step : ℕ}

theorem receiveIndex_eq (hstep : step + 1 < ws) :
    (elementLayout ws elements).receiveIndex rank step =
      chunkOf ws rank (step + 1) := by
  have hsum : rank + 2 * ws - 2 - step = rank + ws - 1 - (step + 1) + ws := by
    omega
  rw [RsLayout.receiveIndex, elementLayout, chunkOf]
  dsimp only
  rw [hsum, Nat.add_mod_right]

theorem readIndex_eq (hstep : step + 1 < ws) :
    (elementLayout ws elements).readIndex rank step =
      chunkOf ws rank (step + 1) := by
  have hsum : rank + 2 * ws - step - 2 = rank + ws - 1 - (step + 1) + ws := by
    omega
  rw [RsLayout.readIndex, elementLayout, chunkOf]
  dsimp only
  rw [hsum, Nat.add_mod_right]

end Indices

/-! ## Values -/

/-- Element `o` of chunk `i` after `d` additions, which started at rank
`i + 1`; `src j` is the source of rank `j`. -/
def partialSum (add : V → V → V) (ws : ℕ) (src : ℕ → ℕ → V) (i o : ℕ) : ℕ → V
  | 0 => src ((i + 1) % ws) o
  | d + 1 => add (src ((i + 1 + (d + 1)) % ws) o) (partialSum add ws src i o d)

/-- The sizes and the sources of a ReduceScatter, as seen by one rank. -/
structure View (V : Type) where
  add : V → V → V
  worldSize : ℕ
  elements : ℕ
  src : ℕ → ℕ → V
  rank : ℕ
  rank_lt : rank < worldSize

namespace View

variable (v : View V)

abbrev layout : RsLayout := elementLayout v.worldSize v.elements

/-- The chunk of element `o`. -/
def chunkIndex (o : ℕ) : ℕ := o / v.elements

/-- The values that the locations are to hold after `steps` ring steps. -/
def expected (steps : ℕ) (l : Addr) : V :=
  match l.1 with
  | .src => v.src v.rank l.2
  | .send =>
      if depth v.worldSize v.rank (v.chunkIndex l.2) ≤ steps
      then partialSum v.add v.worldSize v.src (v.chunkIndex l.2) l.2
        (depth v.worldSize v.rank (v.chunkIndex l.2))
      else v.src v.rank l.2
  | .recv => partialSum v.add v.worldSize v.src (v.chunkIndex l.2) l.2
      (depth v.worldSize v.rank (v.chunkIndex l.2) - 1)
  | .dst => partialSum v.add v.worldSize v.src v.rank
      (v.rank * v.elements + l.2) (v.worldSize - 1)

/-- The chunk at an address. -/
def chunkAt (a : Addr) : Set Addr := {l | l ∈ cells a v.elements}

/-- The chunk with `d` additions behind it, in one of the buffers. -/
def chunkIn (b : Buffer) (d : ℕ) : Set Addr :=
  v.chunkAt (b, chunkOf v.worldSize v.rank d * v.elements)

/-- The chunks that the transfers on a counter read and write. -/
def footprint : Footprint RsPending Addr where
  reads
    | .recv _ => ∅
    | .firstRead => v.chunkIn .src 0
    | .send step => v.chunkIn .send step
    | .read step => v.chunkIn .src (step + 1)
    | .put => v.chunkAt (.send, v.rank * v.elements)
  writes
    | .recv step => v.chunkIn .recv (step + 1)
    | .firstRead => v.chunkIn .send 0
    | .send _ => ∅
    | .read step => v.chunkIn .send (step + 1)
    | .put => v.chunkAt (.dst, 0)

end View

/-- The ranks on their ring, each with a thread pool of `n` workers. -/
def poolSystem (ws n : ℕ) (add : V → V → V) :
    System (Fin ws) Addr V (RsPool n) (Fin n) where
  next := nextRank
  deviceStep tid pool m := pool.step add tid m

section Values

variable {v : View V} {d x : ℕ}

theorem chunkIndex_eq {i : ℕ} (hx : x < v.elements) :
    v.chunkIndex (i * v.elements + x) = i := by
  have hpos : 0 < v.elements := Nat.zero_lt_of_lt hx
  rw [View.chunkIndex, Nat.mul_comm, Nat.mul_add_div hpos, Nat.div_eq_of_lt hx,
    Nat.add_zero]

/-- The sum after an addition at this rank. -/
theorem partialSum_succ (hd : d + 1 < v.worldSize) (o : ℕ) :
    partialSum v.add v.worldSize v.src (chunkOf v.worldSize v.rank (d + 1)) o
        (d + 1) =
      v.add (v.src v.rank o) (partialSum v.add v.worldSize v.src
        (chunkOf v.worldSize v.rank (d + 1)) o d) := by
  have hindex : (chunkOf v.worldSize v.rank (d + 1) + 1 + (d + 1)) %
      v.worldSize = v.rank := by
    rcases chunkOf_eq v.rank_lt hd with h | h
    · rw [Nat.add_right_comm, h, Nat.mod_eq_of_lt v.rank_lt]
    · rw [Nat.add_right_comm, h, Nat.add_mod_right, Nat.mod_eq_of_lt v.rank_lt]
  rw [partialSum, hindex]

/-- The first summand is the own one. -/
theorem partialSum_zero (o : ℕ) :
    partialSum v.add v.worldSize v.src (chunkOf v.worldSize v.rank 0) o 0 =
      v.src v.rank o := by
  have hindex : (chunkOf v.worldSize v.rank 0 + 1) % v.worldSize = v.rank := by
    rcases chunkOf_eq v.rank_lt (Nat.zero_lt_of_lt v.rank_lt) with h | h
    · rw [Nat.add_zero] at h
      rw [h, Nat.mod_eq_of_lt v.rank_lt]
    · rw [Nat.add_zero] at h
      rw [h, Nat.add_mod_right, Nat.mod_eq_of_lt v.rank_lt]
  rw [partialSum, hindex]

/-- A chunk of the working buffer, before and after its addition. -/
theorem expected_send (steps : ℕ) (hd : d < v.worldSize) (hx : x < v.elements) :
    v.expected steps (.send, chunkOf v.worldSize v.rank d * v.elements + x) =
      if d ≤ steps then partialSum v.add v.worldSize v.src
        (chunkOf v.worldSize v.rank d)
        (chunkOf v.worldSize v.rank d * v.elements + x) d
      else v.src v.rank (chunkOf v.worldSize v.rank d * v.elements + x) := by
  simp only [View.expected, chunkIndex_eq hx, depth_chunkOf v.rank_lt hd]

theorem expected_recv (steps : ℕ) (hd : d + 1 < v.worldSize)
    (hx : x < v.elements) :
    v.expected steps
        (.recv, chunkOf v.worldSize v.rank (d + 1) * v.elements + x) =
      partialSum v.add v.worldSize v.src (chunkOf v.worldSize v.rank (d + 1))
        (chunkOf v.worldSize v.rank (d + 1) * v.elements + x) d := by
  simp only [View.expected, chunkIndex_eq hx, depth_chunkOf v.rank_lt hd,
    Nat.add_sub_cancel]

/-- Only the chunk of a step changes, and only in the working buffer. -/
theorem expected_of_ne (steps steps' : ℕ) {l : Addr} (hl : l.1 ≠ .send) :
    v.expected steps l = v.expected steps' l := by
  unfold View.expected
  split
  · rfl
  next h => exact absurd h hl
  · rfl
  · rfl

end Values

/-! ## Knowledge -/

section Knowledge

variable (n : ℕ) (v : View V) (steps : ℕ)

/-- The counters of the receives of the steps from `first` up to `last`. -/
def recvsFrom (first last : ℕ) : Set RsPending :=
  {c | ∃ step, first ≤ step ∧ step < last ∧ c = .recv step}

/-- What is known while the transfers on the counters of `live` are on their
way and the pool is quiet. -/
def during (known : Set Addr) (sub live : Set RsPending)
    (hreads : ∀ c ∈ live, v.footprint.reads c ⊆ known) :
    Knowledge (poolSystem v.worldSize n v.add) v.footprint :=
  .passive (v.expected steps) known sub live RsPool.Quiet hreads
    fun _ _ _ _ _ h hstep => h.step hstep

theorem reads_recvsFrom {c : RsPending} {first last : ℕ} {known : Set Addr}
    (hc : c ∈ recvsFrom first last) : v.footprint.reads c ⊆ known := by
  obtain ⟨step, -, -, rfl⟩ := hc
  exact Set.empty_subset _

/-- What is known between two phases, while some receives are posted. -/
def awaiting (known : Set Addr) (first last : ℕ) :
    Knowledge (poolSystem v.worldSize n v.add) v.footprint :=
  during n v steps known (recvsFrom 0 last) (recvsFrom first last)
    fun _ hc => reads_recvsFrom v hc

/-- The source of the rank. -/
def sourceCells : Set Addr := {l | l.1 = .src}

/-- What a rank has after some ring steps: its source and the chunk that it is
to send next. -/
def knownAt : Set Addr := sourceCells ∪ v.chunkIn .send steps

theorem chunkIn_src_subset (d : ℕ) (known : Set Addr) :
    v.chunkIn .src d ⊆ sourceCells ∪ known := by
  intro l hl
  obtain ⟨x, -, rfl⟩ := mem_cells.mp hl
  exact .inl rfl

end Knowledge

section Phases

variable {n : ℕ} {v : View V} {steps : ℕ}

theorem recvsFrom_succ_subset (k : ℕ) :
    recvsFrom 0 (k + 1) ⊆ insert (.recv k) (recvsFrom 0 k) := by
  rintro c ⟨step, h0, hlt, rfl⟩
  rcases Nat.lt_succ_iff_lt_or_eq.mp hlt with hlt | rfl
  · exact .inr ⟨step, h0, hlt, rfl⟩
  · exact .inl rfl

theorem insert_recvsFrom_subset (k : ℕ) :
    insert (.recv k) (recvsFrom 0 k) ⊆ recvsFrom 0 (k + 1) := by
  rintro c (rfl | ⟨step, h0, hlt, rfl⟩)
  · exact ⟨k, Nat.zero_le k, Nat.lt_succ_self k, rfl⟩
  · exact ⟨step, h0, Nat.lt_succ_of_lt hlt, rfl⟩

variable {known known' : Set Addr} {sub sub' live live' : Set RsPending}
  {hreads : ∀ c ∈ live, v.footprint.reads c ⊆ known}
  (hreads' : ∀ c ∈ live', v.footprint.reads c ⊆ known')

/-- One transfer on a counter of its own. -/
theorem run_task (t : Task RdmaCtx RsPending Addr) (hfresh : t.counter ∉ live)
    (hknown : v.footprint.reads t.counter ⊆ known)
    (hadmits : ∀ K : Knowledge (poolSystem v.worldSize n v.add) v.footprint,
      K.exp = v.expected steps → K.Admits t)
    (hcover : ∀ l ∈ v.footprint.writes t.counter, l ∈ t.dst)
    (hknown' : known' ⊆ known) (hsub : sub' ⊆ insert t.counter sub)
    (hlive : insert t.counter live ⊆ live') :
    Run (during n v steps known sub live hreads) (batch t.counter [t])
      (during n v steps known' sub' live' hreads')
      (sends (v.expected steps) [t]) (recvs (v.expected steps) [t]) := by
  refine Run.passive_batch hreads' t.counter [t] hfresh hknown ?_ ?_ hknown' hsub
    hlive
  · intro t' ht'
    rw [List.mem_singleton.mp ht']
    exact ⟨rfl, hadmits _ rfl⟩
  · exact fun l hl => ⟨t, by simp, hcover l hl⟩

theorem run_wait (cs : List RsPending)
    (hknown : ∀ l ∈ known', l ∈ known ∨
      ∃ c ∈ cs, c ∈ sub ∧ l ∈ v.footprint.writes c)
    (hsub : sub' ⊆ sub) (hlive : ∀ c ∈ live, c ∈ cs ∨ c ∈ live') :
    Run (during n v steps known sub live hreads)
      [.wait cs (Q := RdmaCtx)]
      (during n v steps known' sub' live' hreads')
      (fun _ => []) (fun _ => []) :=
  Run.passive_wait hreads' cs hknown hsub hlive

theorem run_recvStep {known : Set Addr} {step : ℕ}
    (hstep : step + 1 < v.worldSize) :
    Run (awaiting n v 0 known 0 step)
      (batch (.recv step) [rsRecvTask v.layout v.rank step])
      (awaiting n v 0 known 0 (step + 1))
      (fun _ => [])
      (recvs (v.expected 0) [rsRecvTask v.layout v.rank step]) := by
  have hdst : (rsRecvTask v.layout v.rank step).dst =
      cells (.recv, chunkOf v.worldSize v.rank (step + 1) * v.elements)
        v.elements := by
    rw [rsRecvTask, initRingRecvTask_dst, receiveIndex_eq hstep]
    rfl
  refine run_task _ (rsRecvTask v.layout v.rank step) ?_ (Set.empty_subset _)
    (fun K _ => admits_initRingRecvTask fun x hx => ?_) (fun l hl => ?_)
    subset_rfl (recvsFrom_succ_subset step) (insert_recvsFrom_subset step)
  · rintro ⟨step', -, hlt, heq⟩
    cases heq
    exact Nat.lt_irrefl _ hlt
  · rw [receiveIndex_eq hstep]
    exact mem_cells.mpr ⟨x, hx, rfl⟩
  · rw [hdst]
    exact hl

/-- A copy of a chunk followed by a wait. -/
theorem run_copy {a b : Addr} {c : RsPending} {first last : ℕ}
    (hreads : v.footprint.reads c = v.chunkAt a)
    (hwrites : v.footprint.writes c = v.chunkAt b)
    (hexp : ∀ x < v.elements,
      v.expected steps (a.1, a.2 + x) = v.expected steps (b.1, b.2 + x))
    (hc : ∀ step, c ≠ .recv step) (hknown : v.chunkAt a ⊆ known) :
    Run (awaiting n v steps known first last)
      (batch c [copyTask a b v.elements .rma c] ++ [.wait [c]])
      (awaiting n v steps (known ∪ v.chunkAt b) first last)
      (fun _ => []) (fun _ => []) := by
  have hfresh : ∀ first last, c ∉ recvsFrom first last := by
    rintro _ _ ⟨step, -, -, heq⟩
    exact hc step heq
  have hlive : ∀ c' ∈ insert c (recvsFrom first last),
      v.footprint.reads c' ⊆ known := by
    rintro c' (rfl | hc')
    · rw [hreads]
      exact hknown
    · exact reads_recvsFrom v hc'
  have hadmits : ∀ K : Knowledge (poolSystem v.worldSize n v.add) v.footprint,
      K.exp = v.expected steps →
        K.Admits (copyTask a b v.elements .rma c) := by
    intro K hK
    refine admits_copyTask (fun x hx => ?_) (fun x hx => ?_) fun x hx => ?_
    · rw [hreads]
      exact mem_cells.mpr ⟨x, hx, rfl⟩
    · rw [hwrites]
      exact mem_cells.mpr ⟨x, hx, rfl⟩
    · rw [hK]
      exact hexp x hx
  have hbatch : Run (awaiting n v steps known first last)
      (batch c [copyTask a b v.elements .rma c])
      (during n v steps known (insert c (recvsFrom 0 last))
        (insert c (recvsFrom first last)) hlive)
      (fun _ => []) (fun _ => []) := by
    refine run_task hlive (copyTask a b v.elements .rma c) (hfresh _ _)
      (hreads ▸ hknown) hadmits (fun l hl => ?_) subset_rfl subset_rfl subset_rfl
    have hl' : l ∈ v.chunkAt b := hwrites ▸ hl
    rw [copyTask_dst]
    exact hl'
  refine hbatch.append (run_wait _ [c] ?_ (Set.subset_insert _ _) ?_)
  · rintro l (hl | hl)
    · exact .inl hl
    · exact .inr ⟨c, by simp, .inl rfl, hwrites ▸ hl⟩
  · rintro c' (rfl | hc')
    · exact .inl (by simp)
    · exact .inr hc'

theorem awaiting_implies (first last : ℕ) (hknown : known' ⊆ known) :
    (awaiting n v steps known first last).Implies
      (awaiting n v steps known' first last) :=
  Knowledge.passive_implies _ (fun _ _ _ _ _ h hstep => h.step hstep) hknown
    subset_rfl subset_rfl

theorem run_send {step : ℕ}
    (hreads : ∀ c ∈ insert (.send step) (recvsFrom step (v.worldSize - 1)),
      v.footprint.reads c ⊆ knownAt v step) :
    Run (awaiting n v step (knownAt v step) step (v.worldSize - 1))
      (batch (.send step) [rsSendTask v.layout v.rank step])
      (during n v step (knownAt v step) (recvsFrom 0 (v.worldSize - 1))
        (insert (.send step) (recvsFrom step (v.worldSize - 1))) hreads)
      (sends (v.expected step) [rsSendTask v.layout v.rank step])
      (fun _ => []) := by
  refine run_task hreads (rsSendTask v.layout v.rank step) ?_
    Set.subset_union_right
    (fun K _ => admits_initRingSendTask fun x hx => mem_cells.mpr ⟨x, hx, rfl⟩)
    (fun l hl => hl.elim) subset_rfl (Set.subset_insert _ _) subset_rfl
  rintro ⟨_, -, -, heq⟩
  cases heq

/-- The source chunk is read while the other one is sent. -/
theorem run_read {step : ℕ} (hstep : step + 1 < v.worldSize)
    {hsend : ∀ c ∈ insert (.send step) (recvsFrom step (v.worldSize - 1)),
      v.footprint.reads c ⊆ knownAt v step}
    (hreads : ∀ c ∈ insert (.read step)
        (insert (.send step) (recvsFrom step (v.worldSize - 1))),
      v.footprint.reads c ⊆ knownAt v step) :
    Run (during n v step (knownAt v step) (recvsFrom 0 (v.worldSize - 1))
        (insert (.send step) (recvsFrom step (v.worldSize - 1))) hsend)
      (batch (.read step) [rsReadTask v.layout
          (v.layout.readIndex v.rank step) (.read step)])
      (during n v step (knownAt v step)
        (insert (.read step) (recvsFrom 0 (v.worldSize - 1)))
        (insert (.read step)
          (insert (.send step) (recvsFrom step (v.worldSize - 1)))) hreads)
      (fun _ => []) (fun _ => []) := by
  have htask : rsReadTask v.layout (v.layout.readIndex v.rank step)
      (.read step) =
      copyTask (.src, chunkOf v.worldSize v.rank (step + 1) * v.elements)
        (.send, chunkOf v.worldSize v.rank (step + 1) * v.elements) v.elements
        .rma (.read step) := by
    rw [rsReadTask, readIndex_eq hstep]
    rfl
  rw [htask]
  refine run_task hreads (copyTask _ _ _ _ _) ?_ (chunkIn_src_subset v _ _)
    (fun K hK => admits_copyTask (fun x hx => mem_cells.mpr ⟨x, hx, rfl⟩)
      (fun x hx => mem_cells.mpr ⟨x, hx, rfl⟩) fun x hx => ?_)
    (fun l hl => ?_) subset_rfl subset_rfl subset_rfl
  · rintro (heq | ⟨_, -, -, heq⟩) <;> cases heq
  · rw [hK, expected_send step hstep hx, if_neg (by omega)]
    rfl
  · rw [copyTask_dst]
    exact hl

/-- The wait for the transfers of a ring step. -/
theorem run_ringWait {step : ℕ} (hstep : step + 1 < v.worldSize)
    (hreads : ∀ c ∈ insert (.read step)
        (insert (.send step) (recvsFrom step (v.worldSize - 1))),
      v.footprint.reads c ⊆ knownAt v step) :
    Run (during n v step (knownAt v step)
        (insert (.read step) (recvsFrom 0 (v.worldSize - 1)))
        (insert (.read step)
          (insert (.send step) (recvsFrom step (v.worldSize - 1)))) hreads)
      [.wait [.recv step, .send step, .read step] (Q := RdmaCtx)]
      (awaiting n v step (sourceCells ∪ v.chunkIn .recv (step + 1) ∪
        v.chunkIn .send (step + 1)) (step + 1) (v.worldSize - 1))
      (fun _ => []) (fun _ => []) := by
  refine run_wait _ _ ?_ (Set.subset_insert _ _) ?_
  · rintro l ((hl | hl) | hl)
    · exact .inl (.inl hl)
    · exact .inr ⟨.recv step, by simp,
        .inr ⟨step, Nat.zero_le step, by omega, rfl⟩, hl⟩
    · exact .inr ⟨.read step, by simp, .inl rfl, hl⟩
  · rintro c (rfl | rfl | ⟨step', hle, hlt, rfl⟩)
    · exact .inl (by simp)
    · exact .inl (by simp)
    · rcases Nat.eq_or_lt_of_le hle with rfl | hle
      · exact .inl (by simp)
      · exact .inr ⟨step', hle, hlt, rfl⟩

/-- The transfers of a ring step. -/
theorem run_transfers {step : ℕ} (hstep : step + 1 < v.worldSize) :
    Run (awaiting n v step (knownAt v step) step (v.worldSize - 1))
      (batch (.send step) [rsSendTask v.layout v.rank step] ++
        batch (.read step) [rsReadTask v.layout
          (v.layout.readIndex v.rank step) (.read step)] ++
        [.wait [.recv step, .send step, .read step]])
      (awaiting n v step (sourceCells ∪ v.chunkIn .recv (step + 1) ∪
        v.chunkIn .send (step + 1)) (step + 1) (v.worldSize - 1))
      (sends (v.expected step) [rsSendTask v.layout v.rank step])
      (fun _ => []) := by
  have hsend : ∀ c ∈ insert (.send step) (recvsFrom step (v.worldSize - 1)),
      v.footprint.reads c ⊆ knownAt v step := by
    rintro c (rfl | hc)
    · exact Set.subset_union_right
    · exact reads_recvsFrom v hc
  have hread : ∀ c ∈ insert (.read step)
      (insert (.send step) (recvsFrom step (v.worldSize - 1))),
      v.footprint.reads c ⊆ knownAt v step := by
    rintro c (rfl | hc)
    · exact chunkIn_src_subset v _ _
    · exact hsend c hc
  have hrun := ((run_send hsend).append (run_read hstep hread)).append
    (run_ringWait (n := n) hstep hread)
  simp only [List.append_nil] at hrun
  exact hrun

end Phases

/-! ## Aggregation -/

section Aggregate

variable {n : ℕ} {v : View V} {step : ℕ}

/-- The task of a step. -/
def taskOf (v : View V) (step : ℕ) : RsTask where
  dst := .send
  src := .recv
  start := v.elements * chunkOf v.worldSize v.rank (step + 1)
  stop := v.elements * chunkOf v.worldSize v.rank (step + 1) + v.elements
  strideId := step

theorem mem_chunkIn_iff {b : Buffer} {l : Addr} :
    l ∈ v.chunkIn b (step + 1) ↔
      l.1 = b ∧ (taskOf v step).start ≤ l.2 ∧ l.2 < (taskOf v step).stop := by
  simp only [taskOf,
    Nat.mul_comm v.elements (chunkOf v.worldSize v.rank (step + 1))]
  constructor
  · intro hl
    obtain ⟨x, hx, rfl⟩ := mem_cells.mp hl
    refine ⟨rfl, ?_, ?_⟩ <;> dsimp only <;> omega
  · rintro ⟨rfl, hle, hlt⟩
    refine mem_cells.mpr
      ⟨l.2 - chunkOf v.worldSize v.rank (step + 1) * v.elements, by omega, ?_⟩
    exact Prod.ext rfl (by dsimp only; omega)

/-- The addition of a step brings the expected sum. -/
theorem expected_succ (hstep : step + 1 < v.worldSize) {i : ℕ}
    (hi : (taskOf v step).start ≤ i) (hi' : i < (taskOf v step).stop) :
    v.expected (step + 1) (.send, i) =
      v.add (v.src v.rank i) (v.expected step (.recv, i)) := by
  obtain ⟨x, hx, heq⟩ := mem_cells.mp
    (mem_chunkIn_iff.mpr ⟨rfl, hi, hi'⟩ :
      (Buffer.send, i) ∈ v.chunkIn .send (step + 1))
  obtain rfl := (Prod.mk.inj heq).2
  rw [expected_send (step + 1) hstep hx, if_pos le_rfl, partialSum_succ hstep,
    expected_recv step hstep hx]

/-- What is expected of the working buffer before the addition. -/
theorem expected_before (hstep : step + 1 < v.worldSize) {i : ℕ}
    (hi : (taskOf v step).start ≤ i) (hi' : i < (taskOf v step).stop) :
    v.expected step (.send, i) = v.src v.rank i := by
  obtain ⟨x, hx, heq⟩ := mem_cells.mp
    (mem_chunkIn_iff.mpr ⟨rfl, hi, hi'⟩ :
      (Buffer.send, i) ∈ v.chunkIn .send (step + 1))
  obtain rfl := (Prod.mk.inj heq).2
  rw [expected_send step hstep hx, if_neg (by omega)]

/-- What is known while the pool works on the chunk of a step. -/
def serving (n : ℕ) (v : View V) (step : ℕ) :
    Knowledge (poolSystem v.worldSize n v.add) v.footprint where
  exp := v.expected (step + 1)
  known := sourceCells ∪ v.chunkIn .recv (step + 1)
  posted := {x | x.1 ∈ recvsFrom 0 (v.worldSize - 1) ∧
    x.2 ∈ v.footprint.writes x.1}
  credit := fun _ => 0
  live := recvsFrom (step + 1) (v.worldSize - 1)
  own := v.chunkIn .send (step + 1)
  inv pool m := pool.Serving v.add (taskOf v step) (v.src v.rank)
    (fun i => v.expected step (.recv, i)) m
  reads_known _ hc := reads_recvsFrom v hc
  writes_own := by
    rintro c ⟨step', -, -, rfl⟩ l hl hown
    obtain ⟨_, -, rfl⟩ := mem_cells.mp hl
    obtain ⟨_, -, heq⟩ := mem_cells.mp hown
    cases (Prod.mk.inj heq).1
  known_own := by
    rintro l (hl | hl) hown
    · obtain ⟨_, -, rfl⟩ := mem_cells.mp hown
      cases hl
    · obtain ⟨_, -, rfl⟩ := mem_cells.mp hl
      obtain ⟨_, -, heq⟩ := mem_cells.mp hown
      cases (Prod.mk.inj heq).1
  posted_own := by
    rintro ⟨c, l⟩ ⟨⟨step', -, -, rfl⟩, hl⟩ hown
    obtain ⟨_, -, rfl⟩ := mem_cells.mp hl
    obtain ⟨_, -, heq⟩ := mem_cells.mp hown
    cases (Prod.mk.inj heq).1
  inv_stable := by
    intro pool m m' hsame h
    exact h.congr fun i hi hi' => hsame _ (.inl (mem_chunkIn_iff.mpr ⟨rfl, hi, hi'⟩))
  inv_step := by
    intro tid pool m pool' m' h hknown hstep
    have hsrc : ∀ i, (taskOf v step).start ≤ i → i < (taskOf v step).stop →
        m (.recv, i) = v.expected step (.recv, i) := by
      intro i hi hi'
      rw [hknown _ (.inr (mem_chunkIn_iff.mpr ⟨rfl, hi, hi'⟩))]
      exact expected_of_ne _ _ (by simp)
    refine ⟨h.step (fun i hi hi' a => congrArg (v.add a) (hsrc i hi hi')) hstep,
      fun l hl => h.step_frame hstep ?_⟩
    rintro i hi hi' rfl
    exact hl (mem_chunkIn_iff.mpr ⟨rfl, hi, hi'⟩)

/-- What is known before the aggregation of a step. -/
abbrev beforeAdd (n : ℕ) (v : View V) (step : ℕ) :
    Knowledge (poolSystem v.worldSize n v.add) v.footprint :=
  awaiting n v step (sourceCells ∪ v.chunkIn .recv (step + 1) ∪
    v.chunkIn .send (step + 1)) (step + 1) (v.worldSize - 1)

/-- What is known after the aggregation of a step. -/
abbrev afterAdd (n : ℕ) (v : View V) (step : ℕ) :
    Knowledge (poolSystem v.worldSize n v.add) v.footprint :=
  awaiting n v (step + 1) (knownAt v (step + 1)) (step + 1) (v.worldSize - 1)

/-- The locations that the posted receives write are not in the working
buffer. -/
theorem fst_of_recv {c : RsPending} {first last : ℕ} {l : Addr}
    (hc : c ∈ recvsFrom first last) (hl : l ∈ v.footprint.writes c) :
    l.1 = .recv := by
  obtain ⟨step', -, -, rfl⟩ := hc
  obtain ⟨_, -, rfl⟩ := mem_cells.mp hl
  rfl

/-- The aggregation in place. -/
theorem calls_inline (hstep : step + 1 < v.worldSize) :
    (beforeAdd n v step).Calls (afterAdd n v step) fun pool m =>
      some (pool, rsAddRangeNeon v.add .send .recv (taskOf v step).start
        (taskOf v step).stop m) where
  credit_eq := rfl
  live_sub := subset_rfl
  posted_sub := subset_rfl
  reads_exp := by
    rintro c ⟨_, -, -, rfl⟩ l hl
    exact hl.elim
  writes_exp c hc l hl := expected_of_ne _ _ (by rw [fst_of_recv hc hl]; decide)
  posted_exp x hx := expected_of_ne _ _ (by rw [fst_of_recv hx.1 hx.2]; decide)
  spec := by
    intro pool m pool' m' hquiet hknown hcall
    obtain ⟨rfl, rfl⟩ := Prod.mk.inj (Option.some.inj hcall)
    refine ⟨hquiet, fun l hl => ?_, fun x hx => ?_⟩
    · rw [rsAddRangeNeon_eq v.add (by decide)]
      rcases hl with hl | hl
      · have hsrc : l.1 = .src := hl
        have hne : ¬(l.1 = .send ∧ (taskOf v step).start ≤ l.2 ∧
            l.2 < (taskOf v step).stop) := by
          rintro ⟨h, -⟩
          rw [hsrc] at h
          cases h
        rw [if_neg hne, hknown l (.inl (.inl hl))]
        exact expected_of_ne _ _ (by rw [hsrc]; decide)
      · obtain ⟨hsend, hge, hlt⟩ := mem_chunkIn_iff.mp hl
        obtain ⟨b, i⟩ := l
        obtain rfl : b = .send := hsend
        have hrecv : (Buffer.recv, i) ∈ v.chunkIn .recv (step + 1) :=
          mem_chunkIn_iff.mpr ⟨rfl, hge, hlt⟩
        calc (if Buffer.send = .send ∧ (taskOf v step).start ≤ i ∧
                i < (taskOf v step).stop
              then v.add (m (.send, i)) (m (.recv, i)) else m (.send, i))
            = v.add (m (.send, i)) (m (.recv, i)) := if_pos ⟨rfl, hge, hlt⟩
          _ = v.add (v.src v.rank i) (v.expected step (.recv, i)) := by
              rw [hknown _ (.inr hl), hknown _ (.inl (.inr hrecv))]
              exact congrArg (v.add · _) (expected_before hstep hge hlt)
          _ = v.expected (step + 1) (.send, i) :=
              (expected_succ hstep hge hlt).symm
    · rw [rsAddRangeNeon_eq v.add (by decide), if_neg]
      rintro ⟨h, -⟩
      rw [fst_of_recv hx.1 hx.2] at h
      cases h

/-- The submission of the chunk to the pool. -/
theorem calls_submit (hstep : step + 1 < v.worldSize)
    (helements : 0 < v.elements) :
    (beforeAdd n v step).Calls (serving n v step) fun pool m =>
      (submitRsTask .send .recv (taskOf v step).start (taskOf v step).stop step
        pool).map fun pool => (pool, m) where
  credit_eq := rfl
  live_sub := subset_rfl
  posted_sub := subset_rfl
  reads_exp := by
    rintro c ⟨_, -, -, rfl⟩ l hl
    exact hl.elim
  writes_exp c hc l hl := expected_of_ne _ _ (by rw [fst_of_recv hc hl]; decide)
  posted_exp x hx := expected_of_ne _ _ (by rw [fst_of_recv hx.1 hx.2]; decide)
  spec := by
    intro pool m pool' m' hquiet hknown hcall
    obtain ⟨pool₁, hsubmit, heq⟩ := Option.map_eq_some_iff.mp hcall
    obtain ⟨rfl, rfl⟩ := Prod.mk.inj heq
    have hquiet' : pool.Quiet := hquiet
    have hrange : (taskOf v step).start < (taskOf v step).stop :=
      Nat.lt_add_of_pos_right helements
    have hmem : ∀ i, (taskOf v step).start ≤ i → i < (taskOf v step).stop →
        m ((taskOf v step).dst, i) = v.src v.rank i := by
      intro i hi hi'
      exact (hknown _ (.inr (mem_chunkIn_iff.mpr ⟨rfl, hi, hi'⟩))).trans
        (expected_before hstep hi hi')
    refine ⟨hquiet'.submit hrange hmem hsubmit, fun l hl => ?_, fun _ _ => rfl⟩
    rw [hknown l (.inl hl)]
    refine expected_of_ne _ _ ?_
    rcases hl with hl | hl
    · rw [show l.1 = .src from hl]
      decide
    · rw [(mem_chunkIn_iff.mp hl).1]
      decide

/-- The pop of the completion. -/
theorem calls_poll (hstep : step + 1 < v.worldSize) :
    (serving n v step).Calls (afterAdd n v step) fun pool m =>
      (pollWaitRsCompletion step pool).map fun pool => (pool, m) where
  credit_eq := rfl
  live_sub := subset_rfl
  posted_sub := subset_rfl
  reads_exp := fun _ _ _ _ => rfl
  writes_exp := fun _ _ _ _ => rfl
  posted_exp := fun _ _ => rfl
  spec := by
    intro pool m pool' m' hserving hknown hcall
    obtain ⟨pool₁, hpoll, heq⟩ := Option.map_eq_some_iff.mp hcall
    obtain ⟨rfl, rfl⟩ := Prod.mk.inj heq
    have hserving' : pool.Serving v.add (taskOf v step) (v.src v.rank)
        (fun i => v.expected step (.recv, i)) m := hserving
    obtain ⟨hquiet, hmem⟩ := hserving'.poll hpoll
    refine ⟨hquiet, fun l hl => ?_, fun _ _ => rfl⟩
    rcases hl with hl | hl
    · exact hknown l (.inl hl)
    · obtain ⟨hsend, hge, hlt⟩ := mem_chunkIn_iff.mp hl
      obtain ⟨b, i⟩ := l
      obtain rfl : b = .send := hsend
      exact (hmem i hge hlt).trans (expected_succ hstep hge hlt).symm

/-- The aggregation of a step, on either path. -/
theorem run_aggregate (hstep : step + 1 < v.worldSize) :
    Run (beforeAdd n v step) (rsAggregate v.add v.layout v.rank step)
      (afterAdd n v step) (fun _ => []) (fun _ => []) := by
  unfold rsAggregate
  split
  · exact .call _ (calls_inline hstep) (.nil _)
  next hlarge =>
    have helements : 0 < v.elements := Nat.zero_lt_of_lt (Nat.not_le.mp hlarge)
    exact .call _ (calls_submit hstep helements)
      (.call _ (calls_poll hstep) (.nil _))

/-- A step of the ring. -/
theorem run_rsStep (hstep : step + 1 < v.worldSize) :
    Run (awaiting n v step (knownAt v step) step (v.worldSize - 1))
      (rsStep v.add v.layout v.rank step) (afterAdd n v step)
      (sends (v.expected step) [rsSendTask v.layout v.rank step])
      (fun _ => []) := by
  have hrun := (run_transfers (n := n) hstep).append (run_aggregate hstep)
  simp only [List.append_nil] at hrun
  exact hrun

end Aggregate

/-! ## The whole program -/

section Program

variable {n : ℕ} {v : View V}

/-- What a rank sends on a context. -/
def outgoing (v : View V) (q : RdmaCtx) : List (List V) :=
  (List.range (v.worldSize - 1)).flatMap fun step =>
    sends (v.expected step) [rsSendTask v.layout v.rank step] q

/-- What a rank expects to receive on a context. -/
def incoming (v : View V) (q : RdmaCtx) : List (List V) :=
  (List.range (v.worldSize - 1)).flatMap fun step =>
    recvs (v.expected 0) [rsRecvTask v.layout v.rank step] q

theorem flatMap_nothing {β γ : Type} (k : ℕ) :
    (fun _ : β => (List.range k).flatMap fun _ => ([] : List γ)) =
      fun _ => [] :=
  funext fun _ => List.flatMap_eq_nil_iff.mpr fun _ _ => rfl

theorem firstRead_eq (v : View V) :
    rsReadTask v.layout (v.layout.firstReadIndex v.rank) .firstRead =
      copyTask (.src, chunkOf v.worldSize v.rank 0 * v.elements)
        (.send, chunkOf v.worldSize v.rank 0 * v.elements) v.elements .rma
        .firstRead := rfl

theorem run_reduceScatterIn :
    Run (awaiting n v 0 sourceCells 0 0)
      (reduceScatterIn v.add v.layout v.rank)
      (awaiting n v (v.worldSize - 1) (v.chunkAt (.dst, 0)) (v.worldSize - 1)
        (v.worldSize - 1))
      (outgoing v) (incoming v) := by
  have hpos : 0 < v.worldSize := Nat.zero_lt_of_lt v.rank_lt
  have hrecv := Run.range
    (K := fun step => awaiting n v 0 sourceCells 0 step)
    (v.worldSize - 1) fun step hstep => run_recvStep (by omega)
  have hfirst : Run (awaiting n v 0 sourceCells 0 (v.worldSize - 1))
      (batch .firstRead [rsReadTask v.layout
        (v.layout.firstReadIndex v.rank) .firstRead] ++ [.wait [.firstRead]])
      (awaiting n v 0 (knownAt v 0) 0 (v.worldSize - 1))
      (fun _ => []) (fun _ => []) := by
    rw [firstRead_eq]
    refine run_copy rfl rfl (fun x hx => ?_) (fun _ h => by cases h) ?_
    · rw [expected_send 0 hpos hx, if_pos le_rfl, partialSum_zero]
      rfl
    · intro l hl
      obtain ⟨x, -, rfl⟩ := mem_cells.mp hl
      rfl
  have hring := Run.range
    (K := fun step => awaiting n v step (knownAt v step) step (v.worldSize - 1))
    (v.worldSize - 1) fun step hstep => run_rsStep (by omega)
  have hput : Run (awaiting n v (v.worldSize - 1)
        (knownAt v (v.worldSize - 1)) (v.worldSize - 1) (v.worldSize - 1))
      (batch .put [rsPutTask v.layout v.rank] ++ [.wait [.put]])
      (awaiting n v (v.worldSize - 1)
        (knownAt v (v.worldSize - 1) ∪ v.chunkAt (.dst, 0)) (v.worldSize - 1)
        (v.worldSize - 1))
      (fun _ => []) (fun _ => []) := by
    have hlast := chunkOf_last v.rank_lt
    refine run_copy (a := (.send, v.rank * v.elements)) rfl rfl (fun x hx => ?_)
      (fun _ h => by cases h) ?_
    · have hsend := expected_send (v := v) (d := v.worldSize - 1)
        (v.worldSize - 1) (by omega) hx
      rw [if_pos le_rfl, hlast] at hsend
      rw [hsend, Nat.zero_add]
      rfl
    · rw [knownAt, View.chunkIn, hlast]
      exact Set.subset_union_right
  rw [flatMap_nothing] at hrecv hring
  have hrun := (((hrecv.append hfirst).append hring).append hput).weaken
    (awaiting_implies _ _ Set.subset_union_right)
  simp only [List.nil_append, List.append_nil] at hrun
  exact hrun

end Program

end ReduceScatter

end SmartNic.Collective
