import Mathlib.Data.List.Perm.Basic
import Mathlib.Data.List.Nodup

/-!
# Loops over a list in any order

A loop body acts on a state or raises.  If what it does for one element neither
changes what it does for another nor whether it raises, the order of the list
does not matter.
-/

namespace SmartNic.AnyOrder

variable {σ α ε : Type}

/-- The body `f` raises an error with `E` where `ok` fails, and does `g` where it
holds, which changes it for no other element. -/
structure Commutes (f : σ → α → Except ε σ) (I : σ → Prop) (ok : σ → α → Prop)
    (g : σ → α → σ) (E : ε → Prop) : Prop where
  goes : ∀ s a, I s → ok s a → f s a = .ok (g s a)
  raises : ∀ s a, I s → ¬ ok s a → ∃ e, f s a = .error e ∧ E e
  keeps : ∀ s a, I s → ok s a → I (g s a)
  others : ∀ s a b, I s → ok s a → a ≠ b → (ok (g s a) b ↔ ok s b)
  swap : ∀ s a b, I s → ok s a → ok s b → a ≠ b → g (g s a) b = g (g s b) a

section

variable {f f' : σ → α → Except ε σ} {I : σ → Prop} {ok : σ → α → Prop}
  {g : σ → α → σ} {E : ε → Prop} {s : σ} {l l' : List α}

theorem Commutes.foldlM_ok (h : Commutes f I ok g E) (hs : I s) (hl : l.Nodup)
    (hok : ∀ a ∈ l, ok s a) :
    l.foldlM f s = .ok (l.foldl g s) ∧ I (l.foldl g s) := by
  induction l generalizing s with
  | nil => exact ⟨rfl, hs⟩
  | cons a l ih =>
      rw [List.nodup_cons] at hl
      have ha : ok s a := hok a List.mem_cons_self
      have hrest : ∀ b ∈ l, ok (g s a) b := by
        intro b hb
        have hne : a ≠ b := by
          rintro rfl
          exact hl.1 hb
        exact (h.others s a b hs ha hne).mpr (hok b (List.mem_cons_of_mem a hb))
      rw [List.foldlM_cons, h.goes s a hs ha]
      exact ih (h.keeps s a hs ha) hl.2 hrest

theorem Commutes.foldlM_error (h : Commutes f I ok g E) (hs : I s) (hl : l.Nodup)
    (hok : ∃ a ∈ l, ¬ ok s a) : ∃ e, l.foldlM f s = .error e ∧ E e := by
  induction l generalizing s with
  | nil =>
      obtain ⟨a, ha, -⟩ := hok
      cases ha
  | cons a l ih =>
      rw [List.nodup_cons] at hl
      rw [List.foldlM_cons]
      by_cases ha : ok s a
      · rw [h.goes s a hs ha]
        obtain ⟨b, hb, hnot⟩ := hok
        have hne : a ≠ b := by
          rintro rfl
          exact hnot ha
        have hmem : b ∈ l := (List.mem_cons.mp hb).resolve_left hne.symm
        refine ih (h.keeps s a hs ha) hl.2 ⟨b, hmem, ?_⟩
        intro hok
        exact hnot ((h.others s a b hs ha hne).mp hok)
      · obtain ⟨e, he, hE⟩ := h.raises s a hs ha
        exact ⟨e, by rw [he]; rfl, hE⟩

theorem Commutes.foldl_perm (h : Commutes f I ok g E) (hs : I s) (hl : l.Nodup)
    (hok : ∀ a ∈ l, ok s a) (hperm : l.Perm l') : l.foldl g s = l'.foldl g s := by
  induction hperm generalizing s with
  | nil => rfl
  | @cons a l l' hperm ih =>
      rw [List.nodup_cons] at hl
      have ha : ok s a := hok a List.mem_cons_self
      refine ih (h.keeps s a hs ha) hl.2 ?_
      intro b hb
      have hne : a ≠ b := by
        rintro rfl
        exact hl.1 hb
      exact (h.others s a b hs ha hne).mpr (hok b (List.mem_cons_of_mem a hb))
  | swap a b l =>
      have hne : b ≠ a := by
        rintro rfl
        simp at hl
      have hswap := h.swap s b a hs (hok b (by simp)) (hok a (by simp)) hne
      rw [List.foldl_cons, List.foldl_cons, List.foldl_cons, List.foldl_cons, hswap]
  | trans hperm _ ih ih' =>
      rw [ih hs hl hok]
      exact ih' hs (hperm.nodup_iff.mp hl) fun a ha => hok a (hperm.mem_iff.mpr ha)

/-- Both loops end in the same state, or both raise. -/
theorem Commutes.foldlM_perm (h : Commutes f I ok g E)
    (h' : Commutes f' I ok g E) (hs : I s) (hl : l.Nodup) (hperm : l.Perm l') :
    (∃ s', I s' ∧ l.foldlM f s = .ok s' ∧ l'.foldlM f' s = .ok s') ∨
      ∃ e e', l.foldlM f s = .error e ∧ l'.foldlM f' s = .error e' ∧ E e ∧ E e' := by
  have hl' : l'.Nodup := hperm.nodup_iff.mp hl
  by_cases hok : ∀ a ∈ l, ok s a
  · left
    have hok' : ∀ a ∈ l', ok s a := fun a ha => hok a (hperm.mem_iff.mpr ha)
    obtain ⟨hrun, hI⟩ := h.foldlM_ok hs hl hok
    obtain ⟨hrun', -⟩ := h'.foldlM_ok hs hl' hok'
    rw [← h.foldl_perm hs hl hok hperm] at hrun'
    exact ⟨_, hI, hrun, hrun'⟩
  · right
    push Not at hok
    obtain ⟨a, ha, hnot⟩ := hok
    obtain ⟨e, hrun, hE⟩ := h.foldlM_error hs hl ⟨a, ha, hnot⟩
    obtain ⟨e', hrun', hE'⟩ :=
      h'.foldlM_error hs hl' ⟨a, hperm.mem_iff.mp ha, hnot⟩
    exact ⟨e, e', hrun, hrun', hE, hE'⟩

end

end SmartNic.AnyOrder
