import Mathlib

/-!
# Objects with two references

Objects are numbered as they are created, and each has two references: one of
the system, which drops its references in the order of creation, and one of a
caller.  An object whose count reaches zero is dying until it is freed.
-/

namespace SmartNic.References

/-- The number of an object and its reference count. -/
structure Cell where
  number : ℕ
  refcnt : ℤ
deriving DecidableEq, Repr

/-- The numbers of the objects at some addresses. -/
def numbers (cells : ℕ → Option Cell) (addrs : List ℕ) : List ℕ :=
  addrs.filterMap fun a => (cells a).map Cell.number

/-- The objects at the addresses `pending` are referenced by the system, those at
`held` by a caller, and those at `dying` by nobody; `count` objects were created,
and the lists of numbers say whose references were given back and which objects
were freed. -/
structure Counted (cells : ℕ → Option Cell) (pending held dying : List ℕ)
    (count : ℕ) (released dropped freed : List ℕ) : Prop where
  nodup_pending : pending.Nodup
  nodup_held : held.Nodup
  nodup_dying : dying.Nodup
  apart : ∀ a ∈ dying, a ∉ pending ∧ a ∉ held
  live : ∀ a, (cells a).isSome ↔ a ∈ pending ∨ a ∈ held ∨ a ∈ dying
  refcnt : ∀ a c, cells a = some c →
    c.refcnt = (if a ∈ pending then 1 else 0) + (if a ∈ held then 1 else 0)
  injective : ∀ a b c d, cells a = some c → cells b = some d →
    c.number = d.number → a = b
  lt : ∀ a c, cells a = some c → c.number < count
  order : List.range count = dropped ++ numbers cells pending
  mem_released : ∀ i, i ∈ released ↔
    i < count ∧ ∀ a ∈ held, ∀ c, cells a = some c → c.number ≠ i
  mem_freed : ∀ i, i ∈ freed ↔ i < count ∧ ∀ a c, cells a = some c → c.number ≠ i
  nodup_freed : freed.Nodup

theorem counted_init : Counted (fun _ => none) [] [] [] 0 [] [] [] where
  nodup_pending := .nil
  nodup_held := .nil
  nodup_dying := .nil
  apart := by simp
  live := by simp
  refcnt := by simp
  injective := by simp
  lt := by simp
  order := rfl
  mem_released := by simp
  mem_freed := by simp
  nodup_freed := .nil

section Numbers

variable {cells : ℕ → Option Cell} {a : ℕ} {c : Cell} {addrs : List ℕ}

theorem numbers_append (cells : ℕ → Option Cell) (xs ys : List ℕ) :
    numbers cells (xs ++ ys) = numbers cells xs ++ numbers cells ys :=
  List.filterMap_append

theorem numbers_cons (hc : cells a = some c) :
    numbers cells (a :: addrs) = c.number :: numbers cells addrs := by
  simp [numbers, hc]

theorem numbers_singleton (hc : cells a = some c) :
    numbers cells [a] = [c.number] :=
  numbers_cons hc

/-- Numbers only depend on the objects at the addresses. -/
theorem numbers_congr {cells' : ℕ → Option Cell}
    (h : ∀ a ∈ addrs, (cells' a).map Cell.number = (cells a).map Cell.number) :
    numbers cells' addrs = numbers cells addrs :=
  List.filterMap_congr h

theorem mem_numbers {i : ℕ} :
    i ∈ numbers cells addrs ↔ ∃ a ∈ addrs, ∃ c, cells a = some c ∧ c.number = i := by
  simp [numbers, List.mem_filterMap, Option.map_eq_some_iff]

end Numbers

section Steps

variable {cells : ℕ → Option Cell} {pending held dying : List ℕ} {count : ℕ}
  {released dropped freed : List ℕ} {a : ℕ} {c : Cell}

/-- The order of the dying objects does not matter. -/
theorem Counted.perm (h : Counted cells pending held dying count released dropped freed)
    {dying' : List ℕ} (hperm : dying.Perm dying') :
    Counted cells pending held dying' count released dropped freed where
  nodup_pending := h.nodup_pending
  nodup_held := h.nodup_held
  nodup_dying := hperm.nodup_iff.mp h.nodup_dying
  apart := fun a ha => h.apart a (hperm.mem_iff.mpr ha)
  live := fun a => by
    rw [h.live a, hperm.mem_iff]
  refcnt := h.refcnt
  injective := h.injective
  lt := h.lt
  order := h.order
  mem_released := h.mem_released
  mem_freed := h.mem_freed
  nodup_freed := h.nodup_freed

/-- Every referenced object exists. -/
theorem Counted.exists_cell
    (h : Counted cells pending held dying count released dropped freed)
    (ha : a ∈ pending ∨ a ∈ held ∨ a ∈ dying) : ∃ c, cells a = some c :=
  Option.isSome_iff_exists.mp ((h.live a).mpr ha)

/-- A new object at an address that is not in use. -/
theorem Counted.create
    (h : Counted cells pending held dying count released dropped freed)
    (hfree : cells a = none) :
    Counted (Function.update cells a (some ⟨count, 2⟩)) (pending ++ [a])
      (held ++ [a]) dying (count + 1) released dropped freed := by
  have hnot : ¬ (a ∈ pending ∨ a ∈ held ∨ a ∈ dying) := by
    intro ha
    obtain ⟨c, hc⟩ := h.exists_cell ha
    cases hfree.symm.trans hc
  rw [not_or, not_or] at hnot
  obtain ⟨hpending, hheld, hdying⟩ := hnot
  have hne : ∀ b, (b ∈ pending ∨ b ∈ held ∨ b ∈ dying) → b ≠ a := by
    rintro b hb rfl
    rcases hb with hb | hb | hb
    · exact hpending hb
    · exact hheld hb
    · exact hdying hb
  have hcell : ∀ b c, Function.update cells a (some ⟨count, 2⟩) b = some c →
      (b = a ∧ c = ⟨count, 2⟩) ∨ (b ≠ a ∧ cells b = some c) := by
    intro b c hb
    by_cases hba : b = a
    · subst hba
      rw [Function.update_self] at hb
      exact .inl ⟨rfl, (Option.some.inj hb).symm⟩
    · rw [Function.update_of_ne hba] at hb
      exact .inr ⟨hba, hb⟩
  have hold : numbers (Function.update cells a (some ⟨count, 2⟩)) pending =
      numbers cells pending := by
    apply numbers_congr
    intro b hb
    rw [Function.update_of_ne (hne b (.inl hb))]
  have hnew : numbers (Function.update cells a (some ⟨count, 2⟩)) [a] = [count] :=
    numbers_singleton (Function.update_self _ _ _)
  constructor
  · exact h.nodup_pending.append (List.nodup_singleton a) (by simpa using hpending)
  · exact h.nodup_held.append (List.nodup_singleton a) (by simpa using hheld)
  · exact h.nodup_dying
  · intro b hb
    have hba := hne b (.inr (.inr hb))
    have hapart := h.apart b hb
    simp [hapart.1, hapart.2, hba]
  · intro b
    by_cases hba : b = a
    · subst hba
      simp
    · rw [Function.update_of_ne hba, h.live b]
      simp [hba]
  · intro b c hb
    rcases hcell b c hb with ⟨rfl, rfl⟩ | ⟨hba, hb⟩
    · simp
    · rw [h.refcnt b c hb]
      simp [hba]
  · intro b b' c d hb hb' heq
    rcases hcell b c hb with ⟨rfl, rfl⟩ | ⟨hba, hold'⟩
    · rcases hcell b' d hb' with ⟨rfl, rfl⟩ | ⟨hba', hb'⟩
      · rfl
      · exact absurd heq (h.lt b' d hb').ne'
    · rcases hcell b' d hb' with ⟨rfl, rfl⟩ | ⟨hba', hb'⟩
      · exact absurd heq (h.lt b c hold').ne
      · exact h.injective b b' c d hold' hb' heq
  · intro b c hb
    rcases hcell b c hb with ⟨rfl, rfl⟩ | ⟨hba, hb⟩
    · exact Nat.lt_succ_self count
    · exact (h.lt b c hb).trans (Nat.lt_succ_self count)
  · rw [List.range_succ, h.order, numbers_append, hold, hnew, List.append_assoc]
  · intro i
    rw [h.mem_released i]
    constructor
    · rintro ⟨hi, hnone⟩
      refine ⟨hi.trans (Nat.lt_succ_self count), ?_⟩
      intro b hb c hc
      rcases hcell b c hc with ⟨rfl, rfl⟩ | ⟨hba, hc⟩
      · exact hi.ne'
      · rcases List.mem_append.mp hb with hb | hb
        · exact hnone b hb c hc
        · exact absurd (List.mem_singleton.mp hb) hba
    · rintro ⟨hi, hnone⟩
      have hne_count : count ≠ i :=
        hnone a (List.mem_append_right _ (List.mem_singleton_self a)) _
          (Function.update_self _ _ _)
      refine ⟨by omega, ?_⟩
      intro b hb c hc
      refine hnone b (List.mem_append_left _ hb) c ?_
      rw [Function.update_of_ne (hne b (.inr (.inl hb)))]
      exact hc
  · intro i
    rw [h.mem_freed i]
    constructor
    · rintro ⟨hi, hnone⟩
      refine ⟨hi.trans (Nat.lt_succ_self count), ?_⟩
      intro b c hc
      rcases hcell b c hc with ⟨rfl, rfl⟩ | ⟨hba, hc⟩
      · exact hi.ne'
      · exact hnone b c hc
    · rintro ⟨hi, hnone⟩
      have hne_count : count ≠ i := hnone a _ (Function.update_self _ _ _)
      refine ⟨by omega, ?_⟩
      intro b c hc
      have hba : b ≠ a := by
        rintro rfl
        cases hfree.symm.trans hc
      refine hnone b c ?_
      rw [Function.update_of_ne hba]
      exact hc
  · exact h.nodup_freed

/-- The dying objects after the count of one has changed. -/
def dyingAfter (dying : List ℕ) (a : ℕ) (refcnt : ℤ) : List ℕ :=
  if refcnt = 0 then dying ++ [a] else dying

/-- A change of one object's count in which nothing else changes. -/
theorem update_cases {refcnt : ℤ} (hc : cells a = some c) {b : ℕ} {d : Cell}
    (hd : Function.update cells a (some ⟨c.number, refcnt⟩) b = some d) :
    ∃ d', cells b = some d' ∧ d'.number = d.number ∧
      (b = a ∧ d.refcnt = refcnt ∨ b ≠ a ∧ d' = d) := by
  by_cases hba : b = a
  · subst hba
    rw [Function.update_self] at hd
    obtain rfl := Option.some.inj hd
    exact ⟨c, hc, rfl, .inl ⟨rfl, rfl⟩⟩
  · rw [Function.update_of_ne hba] at hd
    exact ⟨d, hd, rfl, .inr ⟨hba, rfl⟩⟩

/-- The numbers of the objects at an address do not change with a count. -/
theorem forall_ne_update {refcnt : ℤ} (hc : cells a = some c) (b i : ℕ) :
    (∀ d, Function.update cells a (some ⟨c.number, refcnt⟩) b = some d →
      d.number ≠ i) ↔ ∀ d, cells b = some d → d.number ≠ i := by
  by_cases hba : b = a
  · subst hba
    rw [Function.update_self, hc]
    simp only [Option.some.injEq, forall_eq']
  · rw [Function.update_of_ne hba]

theorem numbers_update {refcnt : ℤ} (hc : cells a = some c) (addrs : List ℕ) :
    numbers (Function.update cells a (some ⟨c.number, refcnt⟩)) addrs =
      numbers cells addrs := by
  apply numbers_congr
  intro b _
  by_cases hba : b = a
  · subst hba
    rw [Function.update_self, hc]
    rfl
  · rw [Function.update_of_ne hba]

/-- A reference to an object is given back: either the system's to the oldest
object that it references, or a caller's. -/
theorem Counted.decrement
    (h : Counted cells pending held dying count released dropped freed)
    (hc : cells a = some c) {pending' held' : List ℕ} {released' dropped' : List ℕ}
    (hpending : pending'.Sublist pending) (hheld : held'.Sublist held)
    (hother : ∀ b, b ≠ a → (b ∈ pending' ↔ b ∈ pending) ∧ (b ∈ held' ↔ b ∈ held))
    (hsum : (if a ∈ pending' then (1 : ℤ) else 0) + (if a ∈ held' then 1 else 0) + 1 =
      (if a ∈ pending then 1 else 0) + (if a ∈ held then 1 else 0))
    (horder : List.range count = dropped' ++ numbers cells pending')
    (hreleased : ∀ i, i ∈ released' ↔
      i < count ∧ ∀ a ∈ held', ∀ c, cells a = some c → c.number ≠ i) :
    Counted (Function.update cells a (some ⟨c.number, c.refcnt - 1⟩)) pending' held'
      (dyingAfter dying a (c.refcnt - 1)) count released' dropped' freed := by
  have hrefcnt := h.refcnt a c hc
  have hlive : a ∈ pending ∨ a ∈ held := by
    by_contra hnot
    rw [not_or] at hnot
    rw [if_neg hnot.1, if_neg hnot.2] at hsum
    split_ifs at hsum <;> omega
  have hdying : a ∉ dying := by
    intro ha
    rcases hlive with hlive | hlive
    · exact (h.apart a ha).1 hlive
    · exact (h.apart a ha).2 hlive
  have hzero : c.refcnt - 1 = 0 ↔ a ∉ pending' ∧ a ∉ held' := by
    rw [hrefcnt, ← hsum]
    by_cases hp : a ∈ pending' <;> by_cases hh : a ∈ held' <;> simp [hp, hh]
  have hmem : ∀ b, b ∈ dyingAfter dying a (c.refcnt - 1) ↔
      b ∈ dying ∨ b = a ∧ a ∉ pending' ∧ a ∉ held' := by
    intro b
    unfold dyingAfter
    by_cases h0 : c.refcnt - 1 = 0
    · rw [if_pos h0, List.mem_append, List.mem_singleton]
      simp only [hzero.mp h0, not_false_eq_true, and_self, and_true]
    · rw [if_neg h0]
      have hnot := mt hzero.mpr h0
      simp only [hnot, and_false, or_false]
  constructor
  · exact h.nodup_pending.sublist hpending
  · exact h.nodup_held.sublist hheld
  · unfold dyingAfter
    split
    · exact h.nodup_dying.append (List.nodup_singleton a) (by simpa using hdying)
    · exact h.nodup_dying
  · intro b hb
    rcases (hmem b).mp hb with hb | ⟨rfl, hnot⟩
    · obtain ⟨hp, hh⟩ := h.apart b hb
      exact ⟨fun hb' => hp (hpending.subset hb'), fun hb' => hh (hheld.subset hb')⟩
    · exact hnot
  · intro b
    rw [hmem b]
    by_cases hba : b = a
    · subst hba
      simp only [Function.update_self, Option.isSome_some, true_iff]
      tauto
    · rw [Function.update_of_ne hba, h.live b, (hother b hba).1, (hother b hba).2]
      simp [hba]
  · intro b d hd
    obtain ⟨d', hd', -, ⟨rfl, heq⟩ | ⟨hba, rfl⟩⟩ := update_cases hc hd
    · rw [heq]
      omega
    · rw [h.refcnt b d' hd']
      simp only [(hother b hba).1, (hother b hba).2]
  · intro b b' d e hd he heq
    obtain ⟨d', hd', hnum, -⟩ := update_cases hc hd
    obtain ⟨e', he', hnum', -⟩ := update_cases hc he
    exact h.injective b b' d' e' hd' he' (hnum.trans (heq.trans hnum'.symm))
  · intro b d hd
    obtain ⟨d', hd', hnum, -⟩ := update_cases hc hd
    rw [← hnum]
    exact h.lt b d' hd'
  · rw [numbers_update hc]
    exact horder
  · intro i
    rw [hreleased i]
    refine and_congr_right fun _ => forall₂_congr fun b _ => ?_
    exact (forall_ne_update hc b i).symm
  · intro i
    rw [h.mem_freed i]
    refine and_congr_right fun _ => forall_congr' fun b => ?_
    exact (forall_ne_update hc b i).symm
  · exact h.nodup_freed

/-- The system drops its reference to the oldest object. -/
theorem Counted.drop
    (h : Counted cells (a :: pending) held dying count released dropped freed)
    (hc : cells a = some c) :
    Counted (Function.update cells a (some ⟨c.number, c.refcnt - 1⟩)) pending held
      (dyingAfter dying a (c.refcnt - 1)) count released (dropped ++ [c.number])
      freed := by
  have hnot : a ∉ pending := (List.nodup_cons.mp h.nodup_pending).1
  refine h.decrement hc (List.sublist_cons_self _ _) (List.Sublist.refl _) ?_ ?_ ?_
    h.mem_released
  · intro b hb
    exact ⟨by simp [hb], Iff.rfl⟩
  · rw [if_neg hnot, if_pos List.mem_cons_self]
    omega
  · rw [h.order, numbers_cons hc, List.append_assoc]
    rfl

/-- A caller drops its reference. -/
theorem Counted.release
    (h : Counted cells pending held dying count released dropped freed)
    (ha : a ∈ held) (hc : cells a = some c) :
    Counted (Function.update cells a (some ⟨c.number, c.refcnt - 1⟩)) pending
      (held.erase a) (dyingAfter dying a (c.refcnt - 1)) count
      (released ++ [c.number]) dropped freed := by
  have hnot : a ∉ held.erase a := h.nodup_held.not_mem_erase
  refine h.decrement hc (List.Sublist.refl _) List.erase_sublist ?_ ?_ h.order ?_
  · intro b hb
    exact ⟨Iff.rfl, List.mem_erase_of_ne hb⟩
  · rw [if_neg hnot, if_pos ha]
    omega
  · intro i
    rw [List.mem_append, List.mem_singleton, h.mem_released i]
    constructor
    · rintro (⟨hi, hnone⟩ | rfl)
      · refine ⟨hi, ?_⟩
        intro b hb
        exact hnone b (List.mem_of_mem_erase hb)
      · refine ⟨h.lt a c hc, ?_⟩
        intro b hb d hd heq
        obtain rfl := h.injective b a d c hd hc heq
        exact hnot hb
    · rintro ⟨hi, hnone⟩
      by_cases heq : i = c.number
      · exact .inr heq
      · left
        refine ⟨hi, ?_⟩
        intro b hb d hd
        by_cases hba : b = a
        · subst hba
          obtain rfl := Option.some.inj (hc.symm.trans hd)
          exact Ne.symm heq
        · exact hnone b ((List.mem_erase_of_ne hba).mpr hb) d hd

/-- A dying object is freed. -/
theorem Counted.free
    (h : Counted cells pending held dying count released dropped freed)
    (ha : a ∈ dying) (hc : cells a = some c) :
    Counted (Function.update cells a none) pending held (dying.erase a) count
      released dropped (freed ++ [c.number]) := by
  obtain ⟨hpending, hheld⟩ := h.apart a ha
  have hcell : ∀ b d, Function.update cells a none b = some d →
      b ≠ a ∧ cells b = some d := by
    intro b d hd
    by_cases hba : b = a
    · subst hba
      rw [Function.update_self] at hd
      cases hd
    · rw [Function.update_of_ne hba] at hd
      exact ⟨hba, hd⟩
  constructor
  · exact h.nodup_pending
  · exact h.nodup_held
  · exact h.nodup_dying.erase a
  · intro b hb
    exact h.apart b (List.mem_of_mem_erase hb)
  · intro b
    by_cases hba : b = a
    · subst hba
      simp [hpending, hheld, h.nodup_dying.not_mem_erase]
    · rw [Function.update_of_ne hba, h.live b, List.mem_erase_of_ne hba]
  · intro b d hd
    exact h.refcnt b d (hcell b d hd).2
  · intro b b' d e hd he
    exact h.injective b b' d e (hcell b d hd).2 (hcell b' e he).2
  · intro b d hd
    exact h.lt b d (hcell b d hd).2
  · rw [h.order]
    congr 1
    symm
    apply numbers_congr
    intro b hb
    rw [Function.update_of_ne]
    rintro rfl
    exact hpending hb
  · intro i
    rw [h.mem_released i]
    refine and_congr_right fun _ => forall₂_congr fun b hb => ?_
    have hba : b ≠ a := by
      rintro rfl
      exact hheld hb
    rw [Function.update_of_ne hba]
  · intro i
    rw [List.mem_append, List.mem_singleton, h.mem_freed i]
    constructor
    · rintro (⟨hi, hnone⟩ | rfl)
      · refine ⟨hi, ?_⟩
        intro b d hd
        exact hnone b d (hcell b d hd).2
      · refine ⟨h.lt a c hc, ?_⟩
        intro b d hd heq
        obtain ⟨hba, hd⟩ := hcell b d hd
        exact hba (h.injective b a d c hd hc heq)
    · rintro ⟨hi, hnone⟩
      by_cases heq : i = c.number
      · exact .inr heq
      · left
        refine ⟨hi, ?_⟩
        intro b d hd
        by_cases hba : b = a
        · subst hba
          obtain rfl := Option.some.inj (hc.symm.trans hd)
          exact Ne.symm heq
        · exact hnone b d (by rw [Function.update_of_ne hba]; exact hd)
  · refine h.nodup_freed.append (List.nodup_singleton _) ?_
    rw [List.disjoint_singleton]
    intro hmem
    exact ((h.mem_freed _).mp hmem).2 a c hc rfl

end Steps

section Results

variable {cells : ℕ → Option Cell} {pending held dying : List ℕ} {count : ℕ}
  {released dropped freed : List ℕ} {i : ℕ}

/-- Only objects of which both references were given back are freed. -/
theorem Counted.of_freed
    (h : Counted cells pending held dying count released dropped freed)
    (hi : i ∈ freed) : i ∈ released ∧ i ∈ dropped := by
  obtain ⟨hlt, hnone⟩ := (h.mem_freed i).mp hi
  constructor
  · exact (h.mem_released i).mpr ⟨hlt, fun a _ c hc => hnone a c hc⟩
  · have hmem := List.mem_range.mpr hlt
    rw [h.order, List.mem_append] at hmem
    rcases hmem with hmem | hmem
    · exact hmem
    · obtain ⟨a, -, c, hc, heq⟩ := mem_numbers.mp hmem
      exact absurd heq (hnone a c hc)

/-- An object of which both references were given back has been freed or is
about to be. -/
theorem Counted.freed_or_dying
    (h : Counted cells pending held dying count released dropped freed)
    (hreleased : i ∈ released) (hdropped : i ∈ dropped) :
    i ∈ freed ∨ ∃ a ∈ dying, ∃ c, cells a = some c ∧ c.number = i := by
  obtain ⟨hlt, hnone⟩ := (h.mem_released i).mp hreleased
  by_contra hnot
  rw [not_or] at hnot
  refine hnot.1 ((h.mem_freed i).mpr ⟨hlt, ?_⟩)
  rintro a c hc rfl
  rcases (h.live a).mp (Option.isSome_iff_exists.mpr ⟨c, hc⟩) with ha | ha | ha
  · have hnodup : (dropped ++ numbers cells pending).Nodup :=
      h.order ▸ List.nodup_range
    exact (List.nodup_append.mp hnodup).2.2 _ hdropped _
      (mem_numbers.mpr ⟨a, ha, c, hc, rfl⟩) rfl
  · exact hnone a ha c hc rfl
  · exact hnot.2 ⟨a, ha, c, hc, rfl⟩

end Results

end SmartNic.References
