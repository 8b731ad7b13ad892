import Mathlib

/-!
# Tables with open addressing

A key has a list of slots.  A search follows them to the first slot that is empty
or holds the key, and a key is put into such a slot.  Nothing is ever removed.
-/

namespace SmartNic.OpenAddressing

variable {ι K V : Type} [DecidableEq K]

/-- A slot is empty or holds a key with its value. -/
abbrev Table (ι K V : Type) := ι → Option (K × V)

section Search

variable (t : Table ι K V) (k : K)

/-- The value of a key along a list of slots. -/
def lookup : List ι → Option V
  | [] => none
  | i :: slots =>
      match t i with
      | none => none
      | some (k', v) => if k' = k then some v else lookup slots

/-- Put a key into the first empty slot, unless it is found before. -/
def insert [DecidableEq ι] (v : V) : List ι → Table ι K V
  | [] => t
  | i :: slots =>
      match t i with
      | none => Function.update t i (some (k, v))
      | some (k', _) => if k' = k then t else insert v slots

/-- An empty slot comes before the key and the end of the list. -/
def Free : List ι → Prop
  | [] => False
  | i :: slots =>
      match t i with
      | none => True
      | some (k', _) => k' ≠ k ∧ Free slots

end Search

/-- Every key that is in the table is found. -/
def Reachable (probes : K → List ι) (t : Table ι K V) : Prop :=
  ∀ i k v, t i = some (k, v) → lookup t k (probes k) = some v

section Rules

variable {t : Table ι K V} {k : K} {v : V} {slots : List ι} {probes : K → List ι}

theorem reachable_empty (probes : K → List ι) :
    Reachable probes (fun _ => none : Table ι K V) := by
  intro i k v h
  cases h

omit [DecidableEq K] in
/-- The empty slot at some place and other keys before it. -/
theorem free_iff_getElem :
    Free t k slots ↔
      ∃ n, ∃ h : n < slots.length, t slots[n] = none ∧
        ∀ m, ∀ hm : m < n, ∃ k' v, t (slots[m]) = some (k', v) ∧ k' ≠ k := by
  induction slots with
  | nil => simp [Free]
  | cons i slots ih =>
      rw [Free]
      cases hi : t i with
      | none =>
          refine ⟨fun _ => ⟨0, Nat.succ_pos _, hi, ?_⟩, fun _ => trivial⟩
          intro m hm
          exact absurd hm (Nat.not_lt_zero m)
      | some e =>
          obtain ⟨k', v⟩ := e
          dsimp only
          rw [ih]
          constructor
          · rintro ⟨hne, n, hn, hnone, hbefore⟩
            refine ⟨n + 1, Nat.succ_lt_succ hn, hnone, ?_⟩
            intro m hm
            cases m with
            | zero => exact ⟨k', v, hi, hne⟩
            | succ m => exact hbefore m (Nat.lt_of_succ_lt_succ hm)
          · rintro ⟨n, hn, hnone, hbefore⟩
            cases n with
            | zero =>
                rw [List.getElem_cons_zero, hi] at hnone
                cases hnone
            | succ n =>
                obtain ⟨k'', v', heq, hne⟩ := hbefore 0 (Nat.succ_pos n)
                rw [List.getElem_cons_zero, hi] at heq
                obtain ⟨rfl, rfl⟩ := Prod.mk.inj (Option.some.inj heq)
                refine ⟨hne, n, Nat.lt_of_succ_lt_succ hn, hnone, ?_⟩
                intro m hm
                exact hbefore (m + 1) (Nat.succ_lt_succ hm)

/-- What is found is in the table. -/
theorem exists_of_lookup (h : lookup t k slots = some v) :
    ∃ i, t i = some (k, v) := by
  induction slots with
  | nil => cases h
  | cons i slots ih =>
      rw [lookup] at h
      split at h
      · cases h
      next k' v' hi =>
        split at h
        next hk =>
          obtain rfl := Option.some.inj h
          rw [hk] at hi
          exact ⟨i, hi⟩
        next hk => exact ih h

theorem Free.lookup_eq (h : Free t k slots) : lookup t k slots = none := by
  induction slots with
  | nil => rfl
  | cons i slots ih =>
      rw [Free] at h
      rw [lookup]
      split
      · rfl
      next k' v' hi =>
        rw [hi] at h
        rw [if_neg h.1]
        exact ih h.2

variable [DecidableEq ι]

/-- Without a free slot nothing happens. -/
theorem insert_of_not_free (h : ¬ Free t k slots) (v : V) : insert t k v slots = t := by
  induction slots with
  | nil => rfl
  | cons i slots ih =>
      rw [Free] at h
      rw [insert]
      split
      next hi =>
        rw [hi] at h
        exact absurd trivial h
      next k' v' hi =>
        rw [hi] at h
        split
        · rfl
        next hk => exact ih fun hfree => h ⟨hk, hfree⟩

/-- With a free slot the key is put into an empty one and found there. -/
theorem Free.insert_eq (h : Free t k slots) (v : V) :
    ∃ i, t i = none ∧ insert t k v slots = Function.update t i (some (k, v)) ∧
      lookup (insert t k v slots) k slots = some v := by
  induction slots with
  | nil => exact h.elim
  | cons i slots ih =>
      rw [Free] at h
      rw [insert]
      cases hi : t i with
      | none =>
          refine ⟨i, hi, rfl, ?_⟩
          dsimp only
          rw [lookup, Function.update_self]
          exact if_pos rfl
      | some e =>
          obtain ⟨k', v'⟩ := e
          rw [hi] at h
          dsimp only at h ⊢
          rw [if_neg h.1]
          obtain ⟨j, hj, hupdate, hfound⟩ := ih h.2
          refine ⟨j, hj, hupdate, ?_⟩
          have hne : i ≠ j := by
            rintro rfl
            rw [hi] at hj
            cases hj
          have hsame : insert t k v slots i = some (k', v') := by
            rw [hupdate, Function.update_of_ne hne, hi]
          rw [lookup, hsame]
          dsimp only
          rw [if_neg h.1]
          exact hfound

/-- What was found is still found when an empty slot is filled. -/
theorem lookup_update {i : ι} (hi : t i = none) (e : K × V)
    (h : lookup t k slots = some v) :
    lookup (Function.update t i (some e)) k slots = some v := by
  induction slots with
  | nil => cases h
  | cons j slots ih =>
      rw [lookup] at h ⊢
      have hne : j ≠ i := by
        rintro rfl
        rw [hi] at h
        cases h
      rw [Function.update_of_ne hne]
      split at h
      · cases h
      next k' v' hj =>
        split at h
        next hk =>
          rw [if_pos hk]
          exact h
        next hk =>
          rw [if_neg hk]
          exact ih h

/-- After an insertion a key has the value that it had before, or the new one if
it is the key that was put into a free slot. -/
theorem Reachable.lookup_insert (hreachable : Reachable probes t) (k k' : K) (v : V) :
    (Free t k (probes k) ∧ k' = k →
      lookup (insert t k v (probes k)) k' (probes k') = some v) ∧
    (¬ (Free t k (probes k) ∧ k' = k) →
      lookup (insert t k v (probes k)) k' (probes k') = lookup t k' (probes k')) := by
  by_cases hfree : Free t k (probes k)
  · obtain ⟨i, hi, hupdate, hfound⟩ := hfree.insert_eq v
    constructor
    · rintro ⟨-, rfl⟩
      exact hfound
    · intro hnot
      have hne : k' ≠ k := fun hk => hnot ⟨hfree, hk⟩
      cases hbefore : lookup t k' (probes k') with
      | some w =>
          rw [hupdate]
          exact lookup_update hi (k, v) hbefore
      | none =>
          by_contra hsome
          obtain ⟨w, hw⟩ := Option.ne_none_iff_exists'.mp hsome
          obtain ⟨j, hj⟩ := exists_of_lookup hw
          rw [hupdate] at hj
          by_cases hji : j = i
          · rw [hji, Function.update_self] at hj
            exact hne (Prod.mk.inj (Option.some.inj hj)).1.symm
          · rw [Function.update_of_ne hji] at hj
            rw [hreachable j k' w hj] at hbefore
            cases hbefore
  · constructor
    · rintro ⟨h, -⟩
      exact absurd h hfree
    · intro _
      rw [insert_of_not_free hfree]

theorem Reachable.insert (hreachable : Reachable probes t) (k : K) (v : V) :
    Reachable probes (insert t k v (probes k)) := by
  intro j k' w hj
  by_cases hfree : Free t k (probes k)
  · obtain ⟨i, hi, hupdate, hfound⟩ := hfree.insert_eq v
    rw [hupdate] at hj
    by_cases hji : j = i
    · rw [hji, Function.update_self] at hj
      obtain ⟨rfl, rfl⟩ := Prod.mk.inj (Option.some.inj hj)
      exact hfound
    · rw [Function.update_of_ne hji] at hj
      rw [hupdate]
      exact lookup_update hi (k, v) (hreachable j k' w hj)
  · rw [insert_of_not_free hfree] at hj ⊢
    exact hreachable j k' w hj

end Rules

end SmartNic.OpenAddressing
