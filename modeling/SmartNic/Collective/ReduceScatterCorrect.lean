import SmartNic.Collective.ReduceScatterRun
import SmartNic.Library.Pair

/-!
# ReduceScatter reduces

Whatever the interleaving of the ranks, of their transfers and of their pool
workers, a rank on which `collective_reduce_scatter` has returned holds the sum
of its chunk over all ranks, bracketed from the next rank round to itself.
-/

namespace SmartNic.Collective

open SmartNic.Fabric

attribute [local instance] neZero_two

namespace ReduceScatter

variable {V : Type}

/-- The state of the ranks on a ring. -/
abbrev Ranks (ws n : ℕ) (V : Type) :=
  Fin ws → Node RdmaCtx RsPending Addr V (RsPool n)

/-- All ranks enter `collective_reduce_scatter`. -/
def start {ws n : ℕ} (add : V → V → V) (bufferLen : ℕ)
    (mem : Fin ws → Addr → V) (pool : Fin ws → RsPool n) : Ranks ws n V :=
  fun r =>
    Node.start (collectiveReduceScatter add r ws bufferLen) (mem r) (pool r)

/-- The sources of the ranks, indexed by natural numbers. -/
def sources {ws : ℕ} (hws : 0 < ws) (mem : Fin ws → Addr → V) (j o : ℕ) : V :=
  mem ⟨j % ws, Nat.mod_lt j hws⟩ (.src, o)

/-- Element `e` of chunk `r` at the source of rank `j`. -/
def contribution {ws : ℕ} (mem : Fin ws → Addr → V) (elements : ℕ) (r : Fin ws)
    (e j : ℕ) : V :=
  mem ⟨j % ws, Nat.mod_lt j (Nat.zero_lt_of_lt r.isLt)⟩
    (.src, r * elements + e)

/-- `x_r + (x_(r-1) + (… + x_(r+1)))` for element `e` of chunk `r`. -/
def ringSum {ws : ℕ} (add : V → V → V) (mem : Fin ws → Addr → V)
    (elements : ℕ) (r : Fin ws) (e : ℕ) : V :=
  (List.range (ws - 1)).foldr
    (fun k acc => add (contribution mem elements r e (r + ws - k)) acc)
    (contribution mem elements r e (r + 1))

/-- The sum that arrives is bracketed in the order of the ring. -/
theorem partialSum_eq_foldr (add : V → V → V) (ws : ℕ) (src : ℕ → ℕ → V)
    (i o d : ℕ) :
    partialSum add ws src i o d =
      (List.range d).foldr
        (fun k acc => add (src ((i + 1 + d - k) % ws) o) acc)
        (src ((i + 1) % ws) o) := by
  induction d with
  | zero => rfl
  | succ d ih =>
      rw [partialSum, ih, List.range_succ_eq_map, List.foldr_cons,
        List.foldr_map, Nat.sub_zero]
      have hshift : ∀ k, i + 1 + (d + 1) - k.succ = i + 1 + d - k := by omega
      simp only [hshift]

section Views

variable {ws : ℕ} (add : V → V → V) (elements : ℕ) (src : ℕ → ℕ → V)

/-- The ReduceScatter as seen by a rank. -/
def viewOf (r : Fin ws) : View V where
  add := add
  worldSize := ws
  elements := elements
  src := src
  rank := r
  rank_lt := r.isLt

/-- The next rank expects what a rank sends. -/
theorem outgoing_eq_incoming (r : Fin ws) (q : RdmaCtx) :
    outgoing (viewOf add elements src r) q =
      incoming (viewOf add elements src (nextRank r)) q := by
  refine List.flatMap_congr fun step hstep => ?_
  have hlt : step + 1 < ws := by
    have hlt' : step < ws - 1 := List.mem_range.mp hstep
    omega
  have hpayload : (cells (.send, chunkOf ws r step * elements) elements).map
        ((viewOf add elements src r).expected step) =
      (cells (.recv, chunkOf ws (nextRank r) (step + 1) * elements) elements).map
        ((viewOf add elements src (nextRank r)).expected 0) := by
    rw [cells, cells, List.map_map, List.map_map]
    refine List.map_congr_left fun x hx => ?_
    have hx' := List.mem_range.mp hx
    have hsend := expected_send (v := viewOf add elements src r) step
      (d := step) (Nat.lt_of_succ_lt hlt) hx'
    have hrecv := expected_recv (v := viewOf add elements src (nextRank r)) 0
      (d := step) hlt hx'
    rw [if_pos le_rfl] at hsend
    refine hsend.trans (Eq.trans ?_ hrecv.symm)
    simp only [viewOf, chunkOf_next r hlt]
  have hindex : (elementLayout ws elements).receiveIndex (nextRank r) step =
      chunkOf ws (nextRank r) (step + 1) := receiveIndex_eq hlt
  by_cases hq : RdmaCtx.ring = q
  · have hsend : (rsSendTask (elementLayout ws elements) r step).sendOn q =
        some (cells (.send, chunkOf ws r step * elements) elements) :=
      if_pos hq
    have hrecv : (rsRecvTask (elementLayout ws elements) (nextRank r)
          step).recvOn q =
        some (cells (.recv, chunkOf ws (nextRank r) (step + 1) * elements)
          elements) := by
      rw [rsRecvTask, hindex]
      exact if_pos hq
    exact (sends_cons_of_some hsend []).trans
      (hpayload ▸ (recvs_cons_of_some hrecv []).symm)
  · have hsend : (rsSendTask (elementLayout ws elements) r step).sendOn q =
        none :=
      if_neg hq
    have hrecv : (rsRecvTask (elementLayout ws elements) (nextRank r)
          step).recvOn q = none :=
      if_neg hq
    exact (sends_cons_of_none hsend []).trans (recvs_cons_of_none hrecv []).symm

end Views

/-- What is known before the program holds at the start. -/
theorem initial {n : ℕ} {v : View V} {mem : Addr → V} {pool : RsPool n}
    (hmem : ∀ o, mem (.src, o) = v.src v.rank o) (hpool : pool.Quiet) :
    (awaiting n v 0 sourceCells 0 0).Initial mem pool where
  known := by
    rintro ⟨b, o⟩ hl
    obtain rfl : b = .src := hl
    exact hmem o
  posted := by
    ext ⟨c, l⟩
    constructor
    · rintro ⟨⟨step, -, hlt, -⟩, -⟩
      cases hlt
    · exact fun h => h.elim
  credit _ := rfl
  inv := hpool

theorem collectiveReduceScatter_reduces {ws n : ℕ} (add : V → V → V)
    {bufferLen : ℕ} (hlen : 2 * ws ∣ bufferLen) (mem : Fin ws → Addr → V)
    {pool : Fin ws → RsPool n} (hpool : ∀ r, (pool r).Quiet)
    {acts : List (Action (Fin ws) RdmaCtx (Fin n))}
    (hacts : ∀ a ∈ acts, a.failsAt = none) {s : Ranks ws n V}
    (hrun : run (poolSystem ws n add) (start add bufferLen mem pool) acts =
      some s)
    {r : Fin ws} (hreturned : (s r).prog = []) :
    (∀ e < bufferLen / ws / 2,
      (s r).mem (.dst, e) = ringSum add mem (bufferLen / ws / 2) r e) ∧
      (s r).dev.Quiet := by
  have hws : 0 < ws := Nat.zero_lt_of_lt r.isLt
  let elements := bufferLen / ws / 2
  let src := sources hws mem
  let view := fun r' : Fin ws => viewOf add elements src r'
  have hderive : ∀ r' : Fin ws, Run (awaiting n (view r') 0 sourceCells 0 0)
      (collectiveReduceScatter add r' ws bufferLen)
      (awaiting n (view r') (ws - 1) ((view r').chunkAt (.dst, 0)) (ws - 1)
        (ws - 1))
      (outgoing (view r')) (incoming (view r')) := by
    intro r'
    rw [collectiveReduceScatter, reduceScatterLayout_eq hlen]
    exact run_reduceScatterIn (v := view r')
  have hsource : ∀ r' : Fin ws, ∀ o, mem r' (.src, o) = src r' o := by
    intro r' o
    have hval : (⟨r'.val % ws, Nat.mod_lt _ hws⟩ : Fin ws) = r' :=
      Fin.ext (Nat.mod_eq_of_lt r'.isLt)
    rw [show src r' o = mem ⟨r'.val % ws, Nat.mod_lt _ hws⟩ (.src, o) from rfl,
      hval]
  have hstart : Invariant (poolSystem ws n add) _
      (start add bufferLen mem pool) :=
    Invariant.start hderive (fun r' => initial (hsource r') (hpool r'))
      (outgoing_eq_incoming add elements src)
  have hend := (hstart.run nextRank_injective hacts hrun).returned hreturned
  refine ⟨fun e he => ?_, hend.inv⟩
  have hknown : (.dst, e) ∈ (view r).chunkAt (.dst, 0) :=
    mem_cells.mpr ⟨e, he, by rw [Nat.zero_add]⟩
  calc (s r).mem (.dst, e)
      = (view r).expected (ws - 1) (.dst, e) := hend.known _ hknown
    _ = partialSum add ws src r (r * elements + e) (ws - 1) := rfl
    _ = ringSum add mem elements r e := by
        have hcontribution : ∀ j, src (j % ws) (r * elements + e) =
            contribution mem elements r e j := by
          intro j
          simp only [src, sources, contribution, Nat.mod_mod]
        have hsum : r.val + 1 + (ws - 1) = r + ws := by omega
        rw [partialSum_eq_foldr, hsum, ringSum]
        simp only [hcontribution]

/-- Two ranks reduce one element each. -/
def pairActions : List (Action (Fin 2) RdmaCtx (Fin 2)) :=
  let before (r : Fin 2) : List (Action (Fin 2) RdmaCtx (Fin 2)) :=
    List.replicate 4 (.exec r) ++ [.copy r 1, .complete r 0] ++
      List.replicate 5 (.exec r) ++ [.copy r 2, .complete r 0]
  let after (r : Fin 2) : List (Action (Fin 2) RdmaCtx (Fin 2)) :=
    List.replicate 2 (.complete r 0) ++ List.replicate 4 (.exec r) ++
      [.copy r 0, .complete r 0, .exec r]
  before 0 ++ before 1 ++ [.deliver 0 .ring, .deliver 1 .ring] ++ after 1 ++
    after 0

/-- The source of rank `r` is `10 * r + 1, 10 * r + 2`. -/
def pairMemory (r : Fin 2) (a : Addr) : ℕ :=
  if a.1 = .src then 10 * r + a.2 + 1 else 0

theorem collectiveReduceScatter_reduces_two :
    ∃ s, run (poolSystem 2 2 fun a b => 2 * a + b)
        (start (fun a b => 2 * a + b) 4 pairMemory
          fun _ => rsThreadPoolCreate 2) pairActions = some s ∧
      (s 1).mem (.dst, 0) = 2 * 12 + 2 := by
  have hreturned : (run (poolSystem 2 2 fun a b => 2 * a + b)
      (start (fun a b => 2 * a + b) 4 pairMemory
        fun _ => rsThreadPoolCreate 2) pairActions).map
        (fun s => (s 1).prog.isEmpty) = some true := by
    decide +kernel
  obtain ⟨s, hrun, hprog⟩ := Option.map_eq_some_iff.mp hreturned
  have hreduces := collectiveReduceScatter_reduces (fun a b => 2 * a + b)
    (show 2 * 2 ∣ 4 by decide) pairMemory (fun _ => RsPool.quiet_create 2) (by decide)
    hrun (List.isEmpty_iff.mp hprog)
  exact ⟨s, hrun, hreduces.1 0 (by decide)⟩

end ReduceScatter

end SmartNic.Collective
