import Mathlib.Data.Nat.Notation
import Mathlib.Logic.Function.Basic

/-!
# Caches that own their resources

Banks of direct-mapped caches for resources that are created once and destroyed
when another entry takes their place.  In a sound store every cached resource is
alive and cached once, so that an insertion only endangers what its own bank
holds.
-/

namespace SmartNic.OwnedCache

/-- A resource with its identity. -/
structure Owned (R : Type) where
  id : ℕ
  value : R
deriving DecidableEq, Repr

structure Entry (K R : Type) where
  key : K
  resource : Owned R
deriving DecidableEq, Repr

/-- The banks `B` of caches with index `I`, which resources are alive, and the
identity of the next one. -/
structure Store (B I K R : Type) where
  slot : B → I → Option (Entry K R)
  live : ℕ → Bool
  next : ℕ

variable {B I K R : Type}

namespace Store

def empty : Store B I K R where
  slot := fun _ _ => none
  live := fun _ => false
  next := 0

/-- The resource in a bank with a key. -/
def find [DecidableEq K] (index : K → I) (s : Store B I K R) (b : B) (k : K) :
    Option (Owned R) :=
  match s.slot b (index k) with
  | some e => if e.key = k then some e.resource else none
  | none => none

/-- Puts a new resource into a bank, in place of what was there. -/
def insertNew [DecidableEq B] [DecidableEq I] (index : K → I)
    (s : Store B I K R) (b : B) (k : K) (value : R) : Store B I K R where
  slot := Function.update s.slot b
    (Function.update (s.slot b) (index k) (some ⟨k, s.next, value⟩))
  live :=
    match s.slot b (index k) with
    | some e => Function.update (Function.update s.live s.next true)
        e.resource.id false
    | none => Function.update s.live s.next true
  next := s.next + 1

/-- A bank holds a resource. -/
def Holds (s : Store B I K R) (b : B) (r : Owned R) : Prop :=
  ∃ i e, s.slot b i = some e ∧ e.resource = r

structure Sound (s : Store B I K R) : Prop where
  live : ∀ b i e, s.slot b i = some e → s.live e.resource.id = true
  old : ∀ b i e, s.slot b i = some e → e.resource.id < s.next
  once : ∀ b i e b' i' e', s.slot b i = some e → s.slot b' i' = some e' →
    e.resource.id = e'.resource.id → b = b' ∧ i = i'

variable {s : Store B I K R} {b b' : B} {k : K} {r : Owned R} {value : R}

theorem Sound.empty : (empty : Store B I K R).Sound where
  live _ _ _ h := by cases h
  old _ _ _ h := by cases h
  once _ _ _ _ _ _ h := by cases h

theorem Sound.holds_live (h : s.Sound) (hr : s.Holds b r) :
    s.live r.id = true := by
  obtain ⟨i, e, he, rfl⟩ := hr
  exact h.live b i e he

/-- A hit is an entry with the key. -/
theorem find_cases [DecidableEq K] {index : K → I}
    (h : s.find index b k = some r) :
    ∃ e, s.slot b (index k) = some e ∧ e.key = k ∧ e.resource = r := by
  unfold find at h
  split at h
  next e he =>
    split at h
    next hkey =>
      obtain rfl := Option.some.inj h
      exact ⟨e, he, hkey, rfl⟩
    · cases h
  · cases h

section Insert

variable [DecidableEq B] [DecidableEq I] {index : K → I}

theorem insertNew_slot_cases {i : I} {e : Entry K R}
    (he : (s.insertNew index b k value).slot b' i = some e) :
    (b' = b ∧ i = index k ∧ e = ⟨k, s.next, value⟩) ∨
      (s.slot b' i = some e ∧ (b' = b → i ≠ index k)) := by
  unfold insertNew at he
  dsimp only at he
  by_cases hb : b' = b
  · subst hb
    rw [Function.update_self] at he
    by_cases hi : i = index k
    · subst hi
      rw [Function.update_self] at he
      exact .inl ⟨rfl, rfl, (Option.some.inj he).symm⟩
    · rw [Function.update_of_ne hi] at he
      exact .inr ⟨he, fun _ => hi⟩
  · rw [Function.update_of_ne hb] at he
    exact .inr ⟨he, fun heq => absurd heq hb⟩

theorem insertNew_holds : (s.insertNew index b k value).Holds b
    ⟨s.next, value⟩ := by
  refine ⟨index k, ⟨k, s.next, value⟩, ?_, rfl⟩
  unfold insertNew
  dsimp only
  rw [Function.update_self, Function.update_self]

/-- The other banks keep what they hold. -/
theorem Holds.insertNew (hr : s.Holds b' r) (hne : b' ≠ b) :
    (s.insertNew index b k value).Holds b' r := by
  obtain ⟨i, e, he, hres⟩ := hr
  refine ⟨i, e, ?_, hres⟩
  unfold Store.insertNew
  dsimp only
  rw [Function.update_of_ne hne]
  exact he

/-- Only the resource that was replaced dies. -/
theorem insertNew_live {id : ℕ} (hlive : s.live id = true ∨ id = s.next)
    (hother : ∀ e, s.slot b (index k) = some e → e.resource.id ≠ id) :
    (s.insertNew index b k value).live id = true := by
  have hupdate : Function.update s.live s.next true id = true := by
    by_cases hid : id = s.next
    · subst hid
      exact Function.update_self _ _ _
    · rw [Function.update_of_ne hid]
      exact hlive.resolve_right hid
  unfold insertNew
  dsimp only
  cases he : s.slot b (index k) with
  | none => exact hupdate
  | some e =>
      exact (Function.update_of_ne (hother e he).symm _ _).trans hupdate

theorem Sound.insertNew (h : s.Sound) :
    (s.insertNew index b k value).Sound := by
  constructor
  · intro b' i e he
    rcases insertNew_slot_cases he with ⟨rfl, rfl, rfl⟩ | ⟨hold, hne⟩
    · refine insertNew_live (.inr rfl) ?_
      intro e he
      exact Nat.ne_of_lt (h.old _ _ e he)
    · refine insertNew_live (.inl (h.live b' i e hold)) ?_
      intro e' he' hid
      obtain ⟨rfl, rfl⟩ := h.once b (index k) e' b' i e he' hold hid
      exact hne rfl rfl
  · intro b' i e he
    rcases insertNew_slot_cases he with ⟨rfl, rfl, rfl⟩ | ⟨hold, -⟩
    · exact Nat.lt_succ_self _
    · exact Nat.lt_succ_of_lt (h.old b' i e hold)
  · intro b₁ i₁ e₁ b₂ i₂ e₂ h₁ h₂ hid
    rcases insertNew_slot_cases h₁ with ⟨rfl, rfl, rfl⟩ | ⟨hold₁, -⟩
    · rcases insertNew_slot_cases h₂ with ⟨rfl, rfl, rfl⟩ | ⟨hold₂, -⟩
      · exact ⟨rfl, rfl⟩
      · exact absurd hid (Nat.ne_of_gt (h.old b₂ i₂ e₂ hold₂))
    · rcases insertNew_slot_cases h₂ with ⟨rfl, rfl, rfl⟩ | ⟨hold₂, -⟩
      · exact absurd hid (Nat.ne_of_lt (h.old b₁ i₁ e₁ hold₁))
      · exact h.once b₁ i₁ e₁ b₂ i₂ e₂ hold₁ hold₂ hid

end Insert

end Store

end SmartNic.OwnedCache
