import Mathlib.Data.Multiset.AddSub
import Mathlib.Data.List.Basic

/-!
# Completion by counting

Jobs are numbered in the order in which they are issued, and whoever waits for a
job compares its number with a count of the jobs that were closed.  That is
sound if no job leaves uncounted and a job is only closed when all jobs issued
before it are done.
-/

namespace SmartNic

/-- The issued jobs in the order of their numbers, those that are not closed,
the number of those that are, and the jobs that are done. -/
structure Ledger (J : Type) where
  issued : List J
  unclosed : Multiset J
  count : ℕ
  done : List J

namespace Ledger

variable {J : Type}

/-- Every job is counted once, and the jobs fall into a first part that is done
and a second part that is not closed. -/
structure Sound (l : Ledger J) : Prop where
  nodup : l.issued.Nodup
  unclosed_nodup : l.unclosed.Nodup
  unclosed_issued : ∀ j ∈ l.unclosed, j ∈ l.issued
  counted : l.count + l.unclosed.card = l.issued.length
  split : ∃ first rest, l.issued = first ++ rest ∧
    (∀ j ∈ first, j ∈ l.done) ∧ ∀ j ∈ rest, j ∈ l.unclosed

variable {l : Ledger J} {j : J}

theorem Sound.empty : Sound (J := J) ⟨[], 0, 0, []⟩ where
  nodup := List.nodup_nil
  unclosed_nodup := Multiset.nodup_zero
  unclosed_issued := nofun
  counted := rfl
  split := ⟨[], [], rfl, nofun, nofun⟩

/-- A job that is not done is not closed. -/
theorem Sound.mem_unclosed (h : l.Sound) (hj : j ∈ l.issued)
    (hdone : j ∉ l.done) : j ∈ l.unclosed := by
  obtain ⟨first, rest, hissued, hfirst, hrest⟩ := h.split
  rw [hissued, List.mem_append] at hj
  rcases hj with hj | hj
  · exact absurd (hfirst j hj) hdone
  · exact hrest j hj

/-- The job whose number has been counted is done. -/
theorem Sound.done_of_lt (h : l.Sound) {k : ℕ} (hk : k < l.count)
    (hj : l.issued[k]? = some j) : j ∈ l.done := by
  obtain ⟨first, rest, hissued, hfirst, hrest⟩ := h.split
  have hnodup : ((rest : List J) : Multiset J).Nodup := by
    have hrest' : rest.Nodup := (List.nodup_append.mp (hissued ▸ h.nodup)).2.1
    exact Multiset.coe_nodup.mpr hrest'
  have hcard : rest.length ≤ l.unclosed.card :=
    Multiset.card_le_card ((Multiset.le_iff_subset hnodup).mpr hrest)
  have hcounted := h.counted
  rw [hissued, List.length_append] at hcounted
  have hlt : k < first.length := by omega
  rw [hissued, List.getElem?_append_left hlt] at hj
  exact hfirst j (List.mem_of_getElem? hj)

/-! ## Steps -/

/-- A new job gets the next number. -/
theorem Sound.issue (h : l.Sound) (hj : j ∉ l.issued) :
    Sound { l with issued := l.issued ++ [j], unclosed := j ::ₘ l.unclosed } where
  nodup := by
    rw [List.nodup_append]
    refine ⟨h.nodup, List.nodup_singleton j, ?_⟩
    rintro j' hj' _ hmem rfl
    rw [List.mem_singleton] at hmem
    exact hj (hmem ▸ hj')
  unclosed_nodup := Multiset.nodup_cons.mpr
    ⟨fun hmem => hj (h.unclosed_issued j hmem), h.unclosed_nodup⟩
  unclosed_issued j' hj' := by
    rcases Multiset.mem_cons.mp hj' with rfl | hj'
    · exact List.mem_append_right _ (List.mem_singleton_self _)
    · exact List.mem_append_left _ (h.unclosed_issued j' hj')
  counted := by
    have hcounted := h.counted
    simp only [Multiset.card_cons, List.length_append, List.length_singleton]
    omega
  split := by
    obtain ⟨first, rest, hissued, hfirst, hrest⟩ := h.split
    refine ⟨first, rest ++ [j], ?_, hfirst, fun j' hj' => ?_⟩
    · rw [hissued, List.append_assoc]
    · rcases List.mem_append.mp hj' with hj' | hj'
      · exact Multiset.mem_cons_of_mem (hrest j' hj')
      · rw [List.mem_singleton.mp hj']
        exact Multiset.mem_cons_self j _

/-- A job is done. -/
theorem Sound.finish (h : l.Sound) {done : List J}
    (hdone : ∀ j ∈ l.done, j ∈ done) : Sound { l with done := done } where
  nodup := h.nodup
  unclosed_nodup := h.unclosed_nodup
  unclosed_issued := h.unclosed_issued
  counted := h.counted
  split := by
    obtain ⟨first, rest, hissued, hfirst, hrest⟩ := h.split
    exact ⟨first, rest, hissued, fun j hj => hdone j (hfirst j hj), hrest⟩

/-- A job is closed after all jobs up to it are done. -/
theorem Sound.close (h : l.Sound) {unclosed : Multiset J}
    (hunclosed : l.unclosed = j ::ₘ unclosed)
    (hdone : ∀ pre post, l.issued = pre ++ j :: post →
      ∀ j' ∈ pre ++ [j], j' ∈ l.done) :
    Sound { l with unclosed := unclosed, count := l.count + 1 } where
  nodup := h.nodup
  unclosed_nodup := (Multiset.nodup_cons.mp (hunclosed ▸ h.unclosed_nodup)).2
  unclosed_issued j' hj' :=
    h.unclosed_issued j' (hunclosed ▸ Multiset.mem_cons_of_mem hj')
  counted := by
    have hcounted := h.counted
    rw [hunclosed, Multiset.card_cons] at hcounted
    dsimp only
    omega
  split := by
    obtain ⟨first, rest, hissued, hfirst, hrest⟩ := h.split
    have hkeep : ∀ j' ∈ rest, j' ≠ j → j' ∈ unclosed := by
      intro j' hj' hne
      have hmem := hrest j' hj'
      rw [hunclosed, Multiset.mem_cons] at hmem
      exact hmem.resolve_left hne
    have hnodup := h.nodup
    rw [hissued, List.nodup_append] at hnodup
    have hj : j ∈ first ++ rest :=
      hissued ▸ h.unclosed_issued j (hunclosed ▸ Multiset.mem_cons_self j _)
    rcases List.mem_append.mp hj with hj | hj
    · refine ⟨first, rest, hissued, hfirst, fun j' hj' => ?_⟩
      exact hkeep j' hj' fun heq => hnodup.2.2 j hj j' hj' heq.symm
    · obtain ⟨pre, post, rfl⟩ := List.append_of_mem hj
      refine ⟨first ++ pre ++ [j], post, by simp [hissued], ?_, fun j' hj' => ?_⟩
      · exact hdone (first ++ pre) post (by simp [hissued])
      · refine hkeep j' (by simp [hj']) ?_
        rintro rfl
        exact (List.nodup_cons.mp (List.nodup_append.mp hnodup.2.1).2.1).1 hj'

end Ledger

end SmartNic
