import Mathlib.Logic.Nontrivial.Basic
import SmartNic.Library.Ranges

/-!
# Moving blocks inside one memory

A list of moves is carried out in order, each from a source block to a
destination block of the same memory.  A move onto itself does nothing and a
move whose blocks overlap otherwise is refused.  If the sources are apart and
the destinations are apart, every destination ends up with what its source held
at first exactly if no move is refused and none reads what an earlier one has
written.
-/

namespace SmartNic.Moves

open Ranges

/-- A move of `len` cells. -/
structure Move where
  src : ℕ
  dst : ℕ
  len : ℕ
deriving DecidableEq, Repr

namespace Move

variable {α : Type} (m : Move)

def source : Range := ⟨m.src, m.len⟩

def target : Range := ⟨m.dst, m.len⟩

/-- The memory after a move, or `none` if it is refused. -/
def run (mem : ℕ → α) : Option (ℕ → α) :=
  if m.src = m.dst ∨ m.len = 0 then some mem
  else if m.source.Apart m.target then
    some fun y =>
      if m.dst ≤ y ∧ y < m.dst + m.len then mem (m.src + (y - m.dst)) else mem y
  else none

/-- A move is not refused. -/
def Allowed : Prop := m.src = m.dst ∨ m.source.Apart m.target

instance : Decidable m.Allowed := inferInstanceAs (Decidable (_ ∨ _))

variable {m} {mem mem' : ℕ → α}

theorem run_target (h : m.run mem = some mem') {x : ℕ} (hx : x < m.len) :
    mem' (m.dst + x) = mem (m.src + x) := by
  unfold run at h
  split_ifs at h with hsame hapart
  · cases h
    rcases hsame with hsame | hlen
    · rw [hsame]
    · omega
  · cases h
    dsimp only
    rw [if_pos (by omega), Nat.add_sub_cancel_left]

theorem run_of_notMem (h : m.run mem = some mem') {y : ℕ}
    (hy : ∀ x < m.len, y ≠ m.dst + x) : mem' y = mem y := by
  unfold run at h
  split_ifs at h
  · cases h
    rfl
  · cases h
    refine if_neg fun hin => hy (y - m.dst) (by omega) (by omega)

theorem Allowed.exists_run (h : m.Allowed) (mem : ℕ → α) :
    ∃ mem', m.run mem = some mem' := by
  unfold run
  by_cases hsame : m.src = m.dst ∨ m.len = 0
  · exact ⟨mem, if_pos hsame⟩
  · rw [if_neg hsame, if_pos (h.resolve_left fun heq => hsame (.inl heq))]
    exact ⟨_, rfl⟩

/-- A memory that holds one value everywhere is left as it is. -/
theorem run_const {a : α} (h : m.run (fun _ => a) = some mem') :
    mem' = fun _ => a := by
  unfold run at h
  split_ifs at h
  · cases h
    rfl
  · cases h
    exact funext fun y => ite_self a

theorem allowed_of_run (h : m.run mem = some mem') : m.Allowed := by
  unfold run at h
  split_ifs at h with hsame hapart
  · rcases hsame with hsame | hlen
    · exact .inl hsame
    · exact .inr (.inl hlen)
  · exact .inr hapart

end Move

/-! ## Lists of moves -/

section List

variable {α : Type}

def runAll (moves : List Move) (mem : ℕ → α) : Option (ℕ → α) :=
  moves.foldlM (fun mem m => m.run mem) mem

theorem runAll_concat (moves : List Move) (m : Move) (mem : ℕ → α) :
    runAll (moves ++ [m]) mem = (runAll moves mem).bind m.run := by
  rw [runAll, List.foldlM_append]
  refine congrArg (Option.bind _) (funext fun mem' => ?_)
  simp

/-- Cells outside all targets keep their value. -/
theorem runAll_of_notMem {moves : List Move} {mem mem' : ℕ → α}
    (h : runAll moves mem = some mem') {y : ℕ}
    (hy : ∀ m ∈ moves, ∀ x < m.len, y ≠ m.dst + x) : mem' y = mem y := by
  induction moves generalizing mem with
  | nil =>
      obtain rfl := Option.some.inj h
      rfl
  | cons m moves ih =>
      obtain ⟨mem₁, hm, h⟩ := Option.bind_eq_some_iff.mp h
      rw [ih h fun m' hm' => hy m' (by simp [hm'])]
      exact Move.run_of_notMem hm (hy m (by simp))

theorem runAll_const {moves : List Move} {a : α} {mem' : ℕ → α}
    (h : runAll moves (fun _ => a) = some mem') : mem' = fun _ => a := by
  induction moves with
  | nil => exact (Option.some.inj h).symm
  | cons m moves ih =>
      obtain ⟨mem₁, hm, h⟩ := Option.bind_eq_some_iff.mp h
      rw [Move.run_const hm] at h
      exact ih h

/-- The moves are carried out and every target gets what its source held. -/
def Deliver (moves : List Move) (mem : ℕ → α) : Prop :=
  ∃ mem', runAll moves mem = some mem' ∧
    ∀ m ∈ moves, ∀ x < m.len, mem' (m.dst + x) = mem (m.src + x)

/-- The blocks at which nothing may collide: sources are apart from sources and
targets from targets. -/
structure Apart (moves : List Move) : Prop where
  source : moves.Pairwise fun m m' => m.source.Apart m'.source
  target : moves.Pairwise fun m m' => m.target.Apart m'.target

/-- No move is refused and none reads what an earlier one has written. -/
structure Clear (moves : List Move) : Prop where
  allowed : ∀ m ∈ moves, m.Allowed
  pairwise : moves.Pairwise fun m m' => m.target.Apart m'.source

/-- Moves of nothing are clear. -/
theorem clear_of_len {moves : List Move} (h : ∀ m ∈ moves, m.len = 0) :
    Clear moves := by
  constructor
  · intro m hm
    exact .inr (.inl (h m hm))
  · rw [List.pairwise_iff_getElem]
    intro i j hi hj _
    exact .inl (h _ (List.getElem_mem hi))

theorem pairwise_concat {R : Move → Move → Prop} {moves : List Move}
    {m : Move} :
    (moves ++ [m]).Pairwise R ↔ moves.Pairwise R ∧ ∀ m' ∈ moves, R m' m := by
  simp [List.pairwise_append]

/-- A later move leaves the target of an earlier one alone. -/
theorem run_target_of_apart {m m' : Move} {mem mem' : ℕ → α}
    (h : m.run mem = some mem') (hapart : m'.target.Apart m.target) {x : ℕ}
    (hx : x < m'.len) : mem' (m'.dst + x) = mem (m'.dst + x) :=
  Move.run_of_notMem h fun _ hy => hapart.ne hx hy

theorem Apart.deliver_of_clear {moves : List Move} (hapart : Apart moves)
    (hclear : Clear moves) (mem : ℕ → α) : Deliver moves mem := by
  induction moves using List.reverseRecOn with
  | nil => exact ⟨mem, rfl, by simp⟩
  | append_singleton moves m ih =>
      obtain ⟨hsource, -⟩ := pairwise_concat.mp hapart.source
      obtain ⟨htarget, htargets⟩ := pairwise_concat.mp hapart.target
      obtain ⟨hpairs, hreads⟩ := pairwise_concat.mp hclear.pairwise
      obtain ⟨mem₁, hrun, hmem₁⟩ := ih ⟨hsource, htarget⟩
        ⟨fun m' hm' => hclear.allowed m' (by simp [hm']), hpairs⟩
      obtain ⟨mem₂, hm⟩ := (hclear.allowed m (by simp)).exists_run mem₁
      refine ⟨mem₂, by rw [runAll_concat, hrun]; exact hm, ?_⟩
      intro m' hm' x hx
      rcases List.mem_append.mp hm' with hm' | hm'
      · rw [run_target_of_apart hm (htargets m' hm') hx]
        exact hmem₁ m' hm' x hx
      · obtain rfl := List.mem_singleton.mp hm'
        rw [Move.run_target hm hx]
        exact runAll_of_notMem hrun fun m'' hm'' y hy h =>
          (hreads m'' hm'').ne hy hx h.symm

theorem Apart.clear_of_deliver [Nontrivial α] {moves : List Move}
    (hapart : Apart moves) (h : ∀ mem : ℕ → α, Deliver moves mem) :
    Clear moves := by
  induction moves using List.reverseRecOn with
  | nil => exact ⟨by simp, .nil⟩
  | append_singleton moves m ih =>
      obtain ⟨hsource, hsources⟩ := pairwise_concat.mp hapart.source
      obtain ⟨htarget, htargets⟩ := pairwise_concat.mp hapart.target
      have hsplit : ∀ mem : ℕ → α, ∃ mem₁ mem₂, runAll moves mem = some mem₁ ∧
          m.run mem₁ = some mem₂ ∧
          (∀ m' ∈ moves, ∀ x < m'.len,
            mem₁ (m'.dst + x) = mem (m'.src + x)) ∧
          ∀ x < m.len, mem₂ (m.dst + x) = mem (m.src + x) := by
        intro mem
        obtain ⟨mem₂, hrun, hmem₂⟩ := h mem
        rw [runAll_concat] at hrun
        obtain ⟨mem₁, hrun, hm⟩ := Option.bind_eq_some_iff.mp hrun
        refine ⟨mem₁, mem₂, hrun, hm, fun m' hm' x hx => ?_, hmem₂ m (by simp)⟩
        rw [← run_target_of_apart hm (htargets m' hm') hx]
        exact hmem₂ m' (by simp [hm']) x hx
      have hclear : Clear moves := by
        refine ih ⟨hsource, htarget⟩ fun mem => ?_
        obtain ⟨mem₁, -, hrun, -, hmem₁, -⟩ := hsplit mem
        exact ⟨mem₁, hrun, hmem₁⟩
      obtain ⟨a, b, hab⟩ := exists_pair_ne α
      refine ⟨fun m' hm' => ?_, pairwise_concat.mpr ⟨hclear.pairwise, ?_⟩⟩
      · rcases List.mem_append.mp hm' with hm' | hm'
        · exact hclear.allowed m' hm'
        · obtain ⟨mem₁, mem₂, -, hm, -⟩ := hsplit fun _ => a
          rw [List.mem_singleton.mp hm']
          exact Move.allowed_of_run hm
      · intro m' hm'
        by_contra hnot
        obtain ⟨x, hx, y, hy, heq⟩ := Range.exists_of_not_apart hnot
        obtain ⟨mem₁, mem₂, -, hm, hmem₁, hmem₂⟩ :=
          hsplit fun z => if z = m'.src + x then a else b
        have hne : m.src + y ≠ m'.src + x := ((hsources m' hm').ne hx hy).symm
        have hwrong : mem₂ (m.dst + y) = a := by
          calc mem₂ (m.dst + y) = mem₁ (m.src + y) := Move.run_target hm hy
            _ = mem₁ (m'.dst + x) := congrArg mem₁ heq.symm
            _ = a := (hmem₁ m' hm' x hx).trans (if_pos rfl)
        have hright : mem₂ (m.dst + y) = b := (hmem₂ y hy).trans (if_neg hne)
        exact hab (hwrong.symm.trans hright)

end List

end SmartNic.Moves
