import SmartNic.Library.Ranges

/-!
# Ranges one after the other

Items of given sizes are laid out from a start on.  Their ranges tile what they
take together, and an assignment to the items that goes through the layout leaves
for each item the range that it has last.
-/

namespace SmartNic.Tiling

open Ranges

/-- Ranges follow each other from one place to another without a gap. -/
def Tiles : ℕ → List Range → ℕ → Prop
  | start, [], stop => start = stop
  | start, r :: ranges, stop => r.start = start ∧ Tiles r.stop ranges stop

theorem Tiles.le {start stop : ℕ} {ranges : List Range}
    (h : Tiles start ranges stop) : start ≤ stop := by
  induction ranges generalizing start with
  | nil => exact le_of_eq h
  | cons r ranges ih =>
      obtain ⟨rfl, hrest⟩ := h
      exact (Nat.le_add_right _ _).trans (ih hrest)

theorem Tiles.append {start mid stop : ℕ} {ranges ranges' : List Range}
    (h : Tiles start ranges mid) (h' : Tiles mid ranges' stop) :
    Tiles start (ranges ++ ranges') stop := by
  induction ranges generalizing start with
  | nil =>
      obtain rfl : start = mid := h
      exact h'
  | cons r ranges ih => exact ⟨h.1, ih h.2⟩

/-- Equal ranges one after the other. -/
theorem tiles_map_range (size n : ℕ) :
    Tiles 0 ((List.range n).map fun p => ⟨p * size, size⟩) (n * size) := by
  induction n with
  | zero => exact (Nat.zero_mul size).symm
  | succ n ih =>
      rw [List.range_succ, List.map_append]
      exact ih.append ⟨rfl, (Nat.succ_mul n size).symm⟩

/-- A range of a tiling lies in what is tiled. -/
theorem Tiles.mem {start stop : ℕ} {ranges : List Range}
    (h : Tiles start ranges stop) {r : Range} (hr : r ∈ ranges) :
    start ≤ r.start ∧ r.stop ≤ stop := by
  induction ranges generalizing start with
  | nil => cases hr
  | cons r' ranges ih =>
      obtain ⟨rfl, hrest⟩ := h
      rcases List.mem_cons.mp hr with rfl | hr
      · exact ⟨le_rfl, hrest.le⟩
      · obtain ⟨hstart, hstop⟩ := ih hrest hr
        exact ⟨(Nat.le_add_right _ _).trans hstart, hstop⟩

/-- No two ranges of a tiling share a place. -/
theorem Tiles.pairwise {start stop : ℕ} {ranges : List Range}
    (h : Tiles start ranges stop) :
    ranges.Pairwise fun a b => a.stop ≤ b.start := by
  induction ranges generalizing start with
  | nil => exact List.Pairwise.nil
  | cons r ranges ih =>
      obtain ⟨rfl, hrest⟩ := h
      refine List.Pairwise.cons ?_ (ih hrest)
      intro r' hr'
      exact (hrest.mem hr').1

/-! ## Layouts -/

section Layout

variable {κ β γ : Type} (size : κ → ℕ)

/-- The items with their ranges from `start` on. -/
def layOut (start : ℕ) : List κ → List (κ × Range)
  | [] => []
  | x :: items => (x, ⟨start, size x⟩) :: layOut (start + size x) items

theorem tiles_layOut (start : ℕ) (items : List κ) :
    Tiles start ((layOut size start items).map Prod.snd)
      (start + (items.map size).sum) := by
  induction items generalizing start with
  | nil => rfl
  | cons x items ih =>
      refine ⟨rfl, ?_⟩
      have hrest := ih (start + size x)
      rwa [Nat.add_assoc] at hrest

theorem map_fst_layOut (start : ℕ) (items : List κ) :
    (layOut size start items).map Prod.fst = items := by
  induction items generalizing start with
  | nil => rfl
  | cons x items ih => exact congrArg (x :: ·) (ih _)

variable {size} in
theorem len_of_mem_layOut {start : ℕ} {items : List κ} {x : κ} {r : Range}
    (h : (x, r) ∈ layOut size start items) : r.len = size x := by
  induction items generalizing start with
  | nil => cases h
  | cons y items ih =>
      rcases List.mem_cons.mp h with heq | h
      · obtain ⟨rfl, rfl⟩ := Prod.mk.inj heq
        rfl
      · exact ih h

end Layout

/-! ## Assignments -/

section Assign

variable {κ β γ : Type} [DecidableEq κ]

/-- Assign values to keys, one after the other. -/
def assign (f : κ → β) (entries : List (κ × β)) : κ → β :=
  entries.foldl (fun f entry => Function.update f entry.1 entry.2) f

variable {f : κ → β} {entries entries' : List (κ × β)} {k : κ}

theorem assign_append :
    assign f (entries ++ entries') = assign (assign f entries) entries' :=
  List.foldl_append

/-- What holds of all values before and of those assigned holds of all after. -/
theorem assign_property {P : κ → β → Prop} (hf : ∀ k, P k (f k))
    (hentries : ∀ entry ∈ entries, P entry.1 entry.2) (k : κ) :
    P k (assign f entries k) := by
  induction entries generalizing f with
  | nil => exact hf k
  | cons entry entries ih =>
      have hentry := hentries entry List.mem_cons_self
      apply ih ?_ fun e he => hentries e (List.mem_cons_of_mem _ he)
      intro k'
      dsimp only
      by_cases hk : k' = entry.1
      · subst hk
        rwa [Function.update_self]
      · rw [Function.update_of_ne hk]
        exact hf k'

/-- A key that is assigned has a value that does not depend on what was there
before, and one of those assigned to it. -/
theorem exists_assign (h : k ∈ entries.map Prod.fst) :
    ∃ x, (k, x) ∈ entries ∧ ∀ f : κ → β, assign f entries k = x := by
  induction entries using List.reverseRecOn with
  | nil => cases h
  | append_singleton entries entry ih =>
      by_cases hk : k = entry.1
      · refine ⟨entry.2, ?_, ?_⟩
        · rw [hk]
          exact List.mem_append_right _ List.mem_cons_self
        · intro f
          rw [assign_append, hk]
          exact Function.update_self _ _ _
      · rw [List.map_append, List.mem_append] at h
        obtain ⟨x, hx, hassign⟩ := ih (h.resolve_right fun h => hk (by simpa using h))
        refine ⟨x, List.mem_append_left _ hx, ?_⟩
        intro f
        rw [assign_append]
        exact (Function.update_of_ne hk _ _).trans (hassign f)

/-- Assignments of a function of the values. -/
theorem assign_map (g : κ → β → γ) {x : β} (hx : ∀ f, assign f entries k = x)
    (hk : k ∈ entries.map Prod.fst) (f : κ → γ) :
    assign f (entries.map fun entry => (entry.1, g entry.1 entry.2)) k = g k x := by
  induction entries using List.reverseRecOn generalizing f with
  | nil => cases hk
  | append_singleton entries entry ih =>
      rw [List.map_append, assign_append]
      by_cases hentry : k = entry.1
      · have hlast : entry.2 = x := by
          have hlast := hx fun _ => x
          rw [assign_append, hentry] at hlast
          exact (Function.update_self _ _ _).symm.trans hlast
        rw [← hlast, hentry]
        exact Function.update_self _ _ _
      · have hrest : ∀ f, assign f entries k = x := by
          intro f
          have hx := hx f
          rw [assign_append] at hx
          exact (Function.update_of_ne hentry _ _).symm.trans hx
        rw [List.map_append, List.mem_append] at hk
        have hk := hk.resolve_right fun h => hentry (by simpa using h)
        refine (Function.update_of_ne hentry _ _).trans ?_
        exact ih hrest hk _

end Assign

end SmartNic.Tiling
