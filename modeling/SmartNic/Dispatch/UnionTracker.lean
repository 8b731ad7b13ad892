import Mathlib
import SmartNic.Library.Machine
import SmartNic.Library.Meter

/-!
# The union tracker of the DPU

The ring functions report when an AllGather or a ReduceScatter enters its ring and
when it exits.  The tracker counts the active ones and adds up the time in which
at least one AllGather, at least one ReduceScatter, and both were active.  A call
reads the clock before it takes the lock.
-/

namespace SmartNic.UnionTracker

open Machine

/-! ## Tracker -/

/-- `total += t - start` on `uint64_t`. -/
def addElapsed (total t start : ℕ) : ℕ :=
  (total + (t + 2 ^ 64 - start)) % 2 ^ 64

/-- The globals `g_union_ag_*` or `g_union_rs_*`. -/
structure Busy where
  active : ℕ
  busyStart : ℕ
  busyTotal : ℕ
  count : ℕ
  maxInflight : ℕ
deriving DecidableEq, Repr

namespace Busy

def init : Busy := ⟨0, 0, 0, 0, 0⟩

def enter (b : Busy) (t : ℕ) : Busy where
  active := b.active + 1
  busyStart := if b.active = 0 then t else b.busyStart
  busyTotal := b.busyTotal
  count := (b.count + 1) % 2 ^ 64
  maxInflight := if b.maxInflight < b.active + 1 then b.active + 1 else b.maxInflight

def exit (b : Busy) (t : ℕ) : Busy :=
  { b with
    active := b.active - 1
    busyTotal :=
      if b.active - 1 = 0 ∧ 0 < b.busyStart then addElapsed b.busyTotal t b.busyStart
      else b.busyTotal }

end Busy

/-- The state that `g_union_lock` protects. -/
structure Tracker where
  ag : Busy
  rs : Busy
  bothStart : ℕ
  bothTotal : ℕ
deriving DecidableEq, Repr

namespace Tracker

def init : Tracker := ⟨.init, .init, 0, 0⟩

def busy (r : Tracker) : Bool → Busy
  | true => r.ag
  | false => r.rs

def setBusy (r : Tracker) (b : Busy) : Bool → Tracker
  | true => { r with ag := b }
  | false => { r with rs := b }

/-- `was_both` and `is_both_now`. -/
abbrev Both (r : Tracker) : Prop :=
  0 < r.ag.active ∧ 0 < r.rs.active

structure TotalsLe (r r' : Tracker) : Prop where
  busyTotal_le : ∀ isAg, (r.busy isAg).busyTotal ≤ (r'.busy isAg).busyTotal
  bothTotal_le : r.bothTotal ≤ r'.bothTotal

/-- `dpu_union_tracker_enter` under the lock. -/
def enter (r : Tracker) (isAg : Bool) (t : ℕ) : Tracker :=
  let r' := r.setBusy ((r.busy isAg).enter t) isAg
  if ¬ r.Both ∧ r'.Both then { r' with bothStart := t } else r'

/-- `dpu_union_tracker_exit` under the lock. -/
def exit (r : Tracker) (isAg : Bool) (t : ℕ) : Tracker :=
  let r' := r.setBusy ((r.busy isAg).exit t) isAg
  if r.Both ∧ ¬ r'.Both ∧ 0 < r'.bothStart then
    { r' with bothTotal := addElapsed r'.bothTotal t r'.bothStart }
  else r'

end Tracker

/-! ## Threads -/

/-- Where a thread is. -/
inductive Phase where
  | idle
  /-- `dpu_union_tracker_enter` has read the clock. -/
  | entering (isAg : Bool) (t : ℕ)
  /-- The collective runs, since the time that the enter call read. -/
  | active (isAg : Bool) (entered : ℕ)
  /-- `dpu_union_tracker_exit` has read the clock. -/
  | exiting (isAg : Bool) (entered t : ℕ)
deriving DecidableEq, Repr

namespace Phase

/-- The time that a pending call has read. -/
def stamp : Phase → Option ℕ
  | entering _ t => some t
  | exiting _ _ t => some t
  | _ => none

/-- The time at which a counted collective entered. -/
def entered : Phase → Option ℕ
  | active _ a => some a
  | exiting _ a _ => some a
  | _ => none

/-- The tracker counts the thread. -/
def Counted (isAg : Bool) : Phase → Prop
  | active k _ => k = isAg
  | exiting k _ _ => k = isAg
  | _ => False

instance (isAg : Bool) : DecidablePred (Counted isAg) := fun p => by
  cases p <;> unfold Counted <;> infer_instance

/-- When the collective of the thread was active, up to a time. -/
def interval (isAg : Bool) (now : ℕ) : Phase → Finset ℕ
  | idle => ∅
  | entering k t => if k = isAg then Finset.Ico t now else ∅
  | active k a => if k = isAg then Finset.Ico a now else ∅
  | exiting k a t => if k = isAg then Finset.Ico a (min t now) else ∅

end Phase

/-- A finished collective: its kind, and the times of its two calls. -/
structure Finished where
  isAg : Bool
  entered : ℕ
  exited : ℕ
deriving DecidableEq, Repr

/-- The tracker and the threads.  `finished` and `last` record, for the statements,
the collectives that have exited and the latest time that the tracker has used. -/
structure State (ι : Type) where
  clock : ℕ
  tracker : Tracker
  phase : ι → Phase
  finished : List Finished
  last : ℕ

inductive Action (ι : Type) where
  /-- The monotone clock advances. -/
  | tick (n : ℕ)
  /-- `dpu_union_tracker_enter` reads the clock. -/
  | readEnter (i : ι) (isAg : Bool)
  /-- It takes the lock. -/
  | enter (i : ι)
  /-- `dpu_union_tracker_exit` reads the clock. -/
  | readExit (i : ι)
  /-- It takes the lock. -/
  | exit (i : ι)

namespace State

variable {ι : Type} [DecidableEq ι]

def init : State ι where
  clock := 0
  tracker := .init
  phase _ := .idle
  finished := []
  last := 0

/-- The nanoseconds since boot fit in a `uint64_t`. -/
def tick (s : State ι) (n : ℕ) : Option (State ι) :=
  if s.clock + n < 2 ^ 64 then some { s with clock := s.clock + n } else none

def readEnter (s : State ι) (i : ι) (isAg : Bool) : Option (State ι) :=
  match s.phase i with
  | .idle => some { s with phase := Function.update s.phase i (.entering isAg s.clock) }
  | _ => none

def enter (s : State ι) (i : ι) : Option (State ι) :=
  match s.phase i with
  | .entering isAg t =>
      some { s with
        tracker := s.tracker.enter isAg t
        phase := Function.update s.phase i (.active isAg t)
        last := max s.last t }
  | _ => none

def readExit (s : State ι) (i : ι) : Option (State ι) :=
  match s.phase i with
  | .active isAg a =>
      some { s with phase := Function.update s.phase i (.exiting isAg a s.clock) }
  | _ => none

def exit (s : State ι) (i : ι) : Option (State ι) :=
  match s.phase i with
  | .exiting isAg a t =>
      some { s with
        tracker := s.tracker.exit isAg t
        phase := Function.update s.phase i .idle
        finished := ⟨isAg, a, t⟩ :: s.finished
        last := max s.last t }
  | _ => none

def step (s : State ι) : Action ι → Option (State ι)
  | .tick n => s.tick n
  | .readEnter i isAg => s.readEnter i isAg
  | .enter i => s.enter i
  | .readExit i => s.readExit i
  | .exit i => s.exit i

/-! ## Truth -/

variable [Fintype ι]

/-- The times at which a collective of the kind was active, up to the latest time
that the tracker has used. -/
def busy (s : State ι) (isAg : Bool) : Finset ℕ :=
  (s.finished.toFinset.filter fun f => f.isAg = isAg).biUnion
      (fun f => Finset.Ico f.entered f.exited) ∪
    Finset.univ.biUnion fun i => (s.phase i).interval isAg s.last

/-- What the tracker has measured of one kind: its total and the open period. -/
def measured (s : State ι) (isAg : Bool) : ℕ :=
  let b := s.tracker.busy isAg
  b.busyTotal + if 0 < b.active then s.last - b.busyStart else 0

def measuredBoth (s : State ι) : ℕ :=
  s.tracker.bothTotal + if s.tracker.Both then s.last - s.tracker.bothStart else 0

/-- The tracker measures the AllGathers, the ReduceScatters, their overlap and
their union. -/
structure Accurate (s : State ι) : Prop where
  measured_eq : ∀ isAg, s.measured isAg = (s.busy isAg).card
  measuredBoth_eq : s.measuredBoth = (s.busy true ∩ s.busy false).card
  union_eq : s.measured true + s.measured false - s.measuredBoth =
    (s.busy true ∪ s.busy false).card
  /-- With no open period the totals alone measure the union. -/
  totals_eq : (∀ i, s.phase i = .idle) →
    s.tracker.ag.busyTotal + s.tracker.rs.busyTotal - s.tracker.bothTotal =
      (s.busy true ∪ s.busy false).card

/-- No total decreases in the step. -/
def Grows (s : State ι) (a : Action ι) : Prop :=
  ∀ s', s.step a = some s' → s.tracker.TotalsLe s'.tracker

/-- No thread waits for the lock with an earlier time. -/
def Earliest (s : State ι) (i : ι) : Prop :=
  ∀ t ∈ (s.phase i).stamp, ∀ j, ∀ t' ∈ (s.phase j).stamp, t ≤ t'

/-- Calls take the lock in the order of the times they read, and no collective
enters at time 0, which the tracker takes for unset. -/
def InOrder (s : State ι) : Action ι → Prop
  | .readEnter _ _ => 0 < s.clock
  | .enter i => s.Earliest i
  | .exit i => s.Earliest i
  | _ => True

instance (s : State ι) (i : ι) : Decidable (s.Earliest i) := by
  unfold Earliest
  infer_instance

instance (s : State ι) (a : Action ι) : Decidable (s.InOrder a) := by
  cases a <;> unfold InOrder <;> infer_instance

end State

/-! ## Updates of the tracker -/

section

variable {total start t : ℕ}

/-- The sum does not wrap. -/
theorem addElapsed_eq (hstart : start ≤ t) (hfits : total + (t - start) < 2 ^ 64) :
    addElapsed total t start = total + (t - start) := by
  have hsum : total + (t + 2 ^ 64 - start) = total + (t - start) + 2 ^ 64 := by omega
  unfold addElapsed
  rw [hsum, Nat.add_mod_right, Nat.mod_eq_of_lt hfits]

variable {times : Finset ℕ} {b : Busy}

/-- Adding the open period to the total closes the meter. -/
theorem addElapsed_of_meter {p : Prop} [Decidable p] (h : Meter times total start p t)
    (hp : p) (ht : t < 2 ^ 64) : addElapsed total t start = total + (t - start) := by
  apply addElapsed_eq (h.start_le hp)
  have hcard := h.card_eq
  rw [if_pos hp] at hcard
  rw [hcard]
  exact lt_of_le_of_lt h.card_le ht

namespace Busy

theorem enter_active_pos : 0 < (b.enter t).active :=
  Nat.succ_pos b.active

theorem enter_meter (h : Meter times b.busyTotal b.busyStart (0 < b.active) t) :
    Meter times (b.enter t).busyTotal (b.enter t).busyStart (0 < (b.enter t).active) t := by
  unfold enter
  dsimp only
  split
  · rename_i hzero
    exact h.opened (Nat.not_lt.mpr hzero.le)
  · rename_i hpos
    exact h.kept ⟨fun _ => Nat.pos_of_ne_zero hpos, fun _ => Nat.succ_pos b.active⟩

theorem enter_busyStart_pos (h : 0 < b.active → 0 < b.busyStart) (ht : 0 < t) :
    0 < (b.enter t).active → 0 < (b.enter t).busyStart := by
  intro _
  unfold enter
  dsimp only
  split
  · exact ht
  · rename_i hpos
    exact h (Nat.pos_of_ne_zero hpos)

theorem exit_active_le : (b.exit t).active ≤ b.active :=
  Nat.sub_le b.active 1

theorem exit_meter (h : Meter times b.busyTotal b.busyStart (0 < b.active) t)
    (hactive : 0 < b.active) (hstart : 0 < b.busyStart) (ht : t < 2 ^ 64) :
    Meter times (b.exit t).busyTotal (b.exit t).busyStart (0 < (b.exit t).active) t := by
  unfold exit
  dsimp only
  split
  · rename_i hlast
    rw [addElapsed_of_meter h hactive ht]
    exact h.closed hactive (Nat.not_lt.mpr hlast.1.le)
  · rename_i hmore
    have hpos : 0 < b.active - 1 := Nat.pos_of_ne_zero fun hzero => hmore ⟨hzero, hstart⟩
    exact h.kept ⟨fun _ => hactive, fun _ => hpos⟩

theorem le_exit_busyTotal (h : Meter times b.busyTotal b.busyStart (0 < b.active) t)
    (hactive : 0 < b.active) (ht : t < 2 ^ 64) : b.busyTotal ≤ (b.exit t).busyTotal := by
  unfold exit
  dsimp only
  split
  · rw [addElapsed_of_meter h hactive ht]
    exact Nat.le_add_right _ _
  · exact le_rfl

end Busy

namespace Tracker

variable {r : Tracker} {k k' : Bool}

theorem busy_setBusy : (r.setBusy b k).busy k' = if k' = k then b else r.busy k' := by
  cases k <;> cases k' <;> rfl

theorem busy_setBothStart : { r with bothStart := t }.busy k = r.busy k := by
  cases k <;> rfl

theorem busy_setBothTotal : { r with bothTotal := total }.busy k = r.busy k := by
  cases k <;> rfl

theorem busy_enter :
    (r.enter k t).busy k' = if k' = k then (r.busy k).enter t else r.busy k' := by
  rw [← busy_setBusy]
  unfold enter
  dsimp only
  split
  · exact busy_setBothStart
  · rfl

theorem busy_exit :
    (r.exit k t).busy k' = if k' = k then (r.busy k).exit t else r.busy k' := by
  rw [← busy_setBusy]
  unfold exit
  dsimp only
  split
  · exact busy_setBothTotal
  · rfl

theorem both_iff : r.Both ↔ ∀ k, 0 < (r.busy k).active :=
  ⟨fun h k => match k with
    | true => h.1
    | false => h.2, fun h => ⟨h true, h false⟩⟩

/-- An enter call keeps the overlap meter: it opens it or changes nothing. -/
theorem enter_meter (h : Meter times r.bothTotal r.bothStart r.Both t) :
    Meter times (r.enter k t).bothTotal (r.enter k t).bothStart (r.enter k t).Both t := by
  have hmono : r.Both → (r.setBusy ((r.busy k).enter t) k).Both := by
    intro hboth
    rw [both_iff] at hboth ⊢
    intro k'
    rw [busy_setBusy]
    split
    · exact Busy.enter_active_pos
    · exact hboth k'
  have hstart : (r.setBusy ((r.busy k).enter t) k).bothStart = r.bothStart := by
    cases k <;> rfl
  have htotal : (r.setBusy ((r.busy k).enter t) k).bothTotal = r.bothTotal := by
    cases k <;> rfl
  unfold enter
  dsimp only
  split
  · rename_i hopen
    rw [htotal]
    exact h.opened hopen.1
  · rename_i hsame
    rw [hstart, htotal]
    refine h.kept ⟨fun hnow => ?_, hmono⟩
    by_contra hwas
    exact hsame ⟨hwas, hnow⟩

theorem enter_bothStart_pos (h : r.Both → 0 < r.bothStart) (ht : 0 < t) :
    (r.enter k t).Both → 0 < (r.enter k t).bothStart := by
  have hstart : (r.setBusy ((r.busy k).enter t) k).bothStart = r.bothStart := by
    cases k <;> rfl
  unfold enter
  dsimp only
  split
  · intro _
    exact ht
  · rename_i hsame
    intro hnow
    rw [hstart]
    apply h
    by_contra hwas
    exact hsame ⟨hwas, hnow⟩

theorem exit_bothStart : (r.exit k t).bothStart = r.bothStart := by
  unfold exit
  dsimp only
  split <;> cases k <;> rfl

theorem both_of_exit (h : (r.exit k t).Both) : r.Both := by
  rw [both_iff] at h ⊢
  intro k'
  have hk := h k'
  rw [busy_exit] at hk
  split at hk
  · rename_i hkk
    subst hkk
    exact lt_of_lt_of_le hk Busy.exit_active_le
  · exact hk

theorem enter_bothTotal : (r.enter k t).bothTotal = r.bothTotal := by
  unfold enter
  dsimp only
  split <;> cases k <;> rfl

theorem TotalsLe.of_eq {r' : Tracker} (h : r' = r) : r.TotalsLe r' := by
  rw [h]
  exact ⟨fun _ => le_rfl, le_rfl⟩

theorem totalsLe_enter : r.TotalsLe (r.enter k t) where
  busyTotal_le k' := by
    rw [busy_enter]
    split
    · rename_i hk
      rw [hk]
      exact le_rfl
    · exact le_rfl
  bothTotal_le := enter_bothTotal.ge

/-- An exit call closes the overlap meter or changes nothing. -/
theorem exit_meter (h : Meter times r.bothTotal r.bothStart r.Both t)
    (hstart : r.Both → 0 < r.bothStart) (ht : t < 2 ^ 64) :
    Meter times (r.exit k t).bothTotal (r.exit k t).bothStart (r.exit k t).Both t ∧
      r.bothTotal ≤ (r.exit k t).bothTotal := by
  have hstart' : (r.setBusy ((r.busy k).exit t) k).bothStart = r.bothStart := by
    cases k <;> rfl
  have htotal : (r.setBusy ((r.busy k).exit t) k).bothTotal = r.bothTotal := by
    cases k <;> rfl
  by_cases hclose : r.Both ∧ ¬ (r.setBusy ((r.busy k).exit t) k).Both
  · have heq : r.exit k t =
        { r.setBusy ((r.busy k).exit t) k with
          bothTotal := r.bothTotal + (t - r.bothStart) } := by
      rw [← addElapsed_of_meter h hclose.1 ht, ← htotal, ← hstart']
      exact if_pos ⟨hclose.1, hclose.2, hstart'.symm ▸ hstart hclose.1⟩
    rw [heq]
    exact ⟨h.closed hclose.1 hclose.2, Nat.le_add_right _ _⟩
  · have heq : r.exit k t = r.setBusy ((r.busy k).exit t) k :=
      if_neg fun hnow => hclose ⟨hnow.1, hnow.2.1⟩
    have hmono : (r.setBusy ((r.busy k).exit t) k).Both → r.Both := by
      rw [← heq]
      exact both_of_exit
    rw [heq, hstart', htotal]
    refine ⟨h.kept ⟨hmono, fun hwas => ?_⟩, le_rfl⟩
    by_contra hnow
    exact hclose ⟨hwas, hnow⟩

end Tracker

end

/-! ## What a call adds -/

namespace Phase

variable {p : Phase} {k : Bool} {now t x : ℕ}

/-- With no earlier call pending, the interval of a counted thread grows. -/
theorem mem_interval_advance (hnow : now ≤ t) (hentered : ∀ a ∈ p.entered, a ≤ now)
    (hstamp : ∀ t' ∈ p.stamp, t ≤ t') :
    x ∈ p.interval k t ↔ x ∈ p.interval k now ∨ p.Counted k ∧ now ≤ x ∧ x < t := by
  cases p with
  | idle =>
      constructor
      · intro hx
        exact absurd hx (Finset.notMem_empty x)
      · rintro (hx | ⟨hcounted, -⟩)
        · exact hx
        · exact hcounted.elim
  | entering k' t' =>
      have ht := hstamp t' rfl
      have hempty : ∀ u ≤ t', (entering k' t').interval k u = ∅ := by
        intro u hu
        rw [interval, Finset.Ico_eq_empty (Nat.not_lt.mpr hu), ite_self]
      rw [hempty t ht, hempty now (hnow.trans ht)]
      constructor
      · intro hx
        exact absurd hx (Finset.notMem_empty x)
      · rintro (hx | ⟨hcounted, -⟩)
        · exact hx
        · exact hcounted.elim
  | active k' a =>
      have ha := hentered a rfl
      rw [interval, interval, Counted]
      split
      · rename_i hk
        simp only [Finset.mem_Ico, hk, true_and]
        omega
      · rename_i hk
        simp only [Finset.notMem_empty, hk, false_and, or_false]
  | exiting k' a t' =>
      have ha := hentered a rfl
      have ht := hstamp t' rfl
      rw [interval, interval, Counted, min_eq_right ht, min_eq_right (hnow.trans ht)]
      split
      · rename_i hk
        simp only [Finset.mem_Ico, hk, true_and]
        omega
      · rename_i hk
        simp only [Finset.notMem_empty, hk, false_and, or_false]

end Phase

namespace State

variable {ι : Type} [Fintype ι] {s s' : State ι} {i : ι} {k : Bool}

theorem mem_busy {x : ℕ} :
    x ∈ s.busy k ↔ (∃ f ∈ s.finished, f.isAg = k ∧ f.entered ≤ x ∧ x < f.exited) ∨
      ∃ j, x ∈ (s.phase j).interval k s.last := by
  unfold busy
  simp only [Finset.mem_union, Finset.mem_biUnion, Finset.mem_filter, List.mem_toFinset,
    Finset.mem_Ico, Finset.mem_univ, true_and, and_assoc]

/-- The threads that the tracker counts. -/
def counted (phase : ι → Phase) (isAg : Bool) : Finset ι :=
  Finset.univ.filter fun j => (phase j).Counted isAg

structure Inv (s : State ι) : Prop where
  active_eq : ∀ k, (s.tracker.busy k).active = (counted s.phase k).card
  meter : ∀ k, Meter (s.busy k) (s.tracker.busy k).busyTotal (s.tracker.busy k).busyStart
    (0 < (s.tracker.busy k).active) s.last
  bothMeter : Meter (s.busy true ∩ s.busy false) s.tracker.bothTotal s.tracker.bothStart
    s.tracker.Both s.last
  busyStart_pos : ∀ k, 0 < (s.tracker.busy k).active → 0 < (s.tracker.busy k).busyStart
  bothStart_pos : s.tracker.Both → 0 < s.tracker.bothStart
  stamp_mem : ∀ j, ∀ t ∈ (s.phase j).stamp, 0 < t ∧ s.last ≤ t ∧ t ≤ s.clock
  entered_le : ∀ j, ∀ a ∈ (s.phase j).entered, a ≤ s.last
  last_le : s.last ≤ s.clock
  clock_lt : s.clock < 2 ^ 64

theorem inv_init : (init : State ι).Inv := by
  have hbusy : ∀ k, (init : State ι).busy k = ∅ := by
    intro k
    apply Finset.eq_empty_of_forall_notMem
    intro x hx
    rcases mem_busy.mp hx with ⟨f, hf, -⟩ | ⟨j, hj⟩
    · exact List.not_mem_nil hf
    · exact Finset.notMem_empty x hj
  have hcounted : ∀ k, counted (init : State ι).phase k = ∅ := by
    intro k
    apply Finset.filter_false_of_mem
    intro j _ hj
    exact hj
  have hmeter : Meter ∅ 0 0 (0 < 0) 0 := Meter.empty.kept (iff_false_intro (lt_irrefl 0))
  constructor
  · intro k
    rw [hcounted k]
    cases k <;> rfl
  · intro k
    rw [hbusy k]
    cases k <;> exact hmeter
  · rw [hbusy true, Finset.empty_inter]
    exact Meter.empty.kept ⟨fun h => lt_irrefl 0 h.1, False.elim⟩
  · intro k hactive
    cases k <;> exact absurd hactive (lt_irrefl 0)
  · intro hboth
    exact absurd hboth.1 (lt_irrefl 0)
  · intro j t ht
    exact absurd ht (Option.not_mem_none t)
  · intro j a ha
    exact absurd ha (Option.not_mem_none a)
  · exact le_rfl
  · exact Nat.two_pow_pos 64

theorem Inv.exists_counted (h : s.Inv) :
    0 < (s.tracker.busy k).active ↔ ∃ j, (s.phase j).Counted k := by
  rw [h.active_eq k, Finset.card_pos]
  constructor
  · rintro ⟨j, hj⟩
    exact ⟨j, (Finset.mem_filter.mp hj).2⟩
  · rintro ⟨j, hj⟩
    exact ⟨j, Finset.mem_filter.mpr ⟨Finset.mem_univ j, hj⟩⟩

theorem Inv.accurate (h : s.Inv) : s.Accurate := by
  have hmeasured : ∀ isAg, s.measured isAg = (s.busy isAg).card :=
    fun isAg => (h.meter isAg).card_eq
  have hboth : s.measuredBoth = (s.busy true ∩ s.busy false).card := h.bothMeter.card_eq
  have hunion : s.measured true + s.measured false - s.measuredBoth =
      (s.busy true ∪ s.busy false).card := by
    rw [hmeasured, hmeasured, hboth, ← Finset.card_union_add_card_inter, Nat.add_sub_cancel]
  refine ⟨hmeasured, hboth, hunion, ?_⟩
  intro hidle
  have hzero : ∀ k, ¬ 0 < (s.tracker.busy k).active := by
    intro k hactive
    obtain ⟨j, hj⟩ := h.exists_counted.mp hactive
    rw [hidle j] at hj
    exact hj
  rw [← hunion, measured, measured, measuredBoth, if_neg (hzero true), if_neg (hzero false),
    if_neg fun hboth => hzero true hboth.1]
  rfl

theorem Inv.clock_pos (h : s.Inv) (hcounted : (s.phase i).Counted k) : 0 < s.clock := by
  have hactive := h.exists_counted.mpr ⟨i, hcounted⟩
  exact lt_of_lt_of_le (h.busyStart_pos k hactive)
    (((h.meter k).start_le hactive).trans h.last_le)

/-- Up to a time that no pending call precedes, the busy times grow with what the
tracker counts. -/
theorem Inv.busy_advance {t : ℕ} (h : s.Inv) (hlast : s.last ≤ t)
    (hstamp : ∀ j, ∀ t' ∈ (s.phase j).stamp, t ≤ t') :
    { s with last := t }.busy k =
      s.busy k ∪ grow (0 < (s.tracker.busy k).active) s.last t := by
  ext x
  have hadvance := fun j =>
    Phase.mem_interval_advance (k := k) (x := x) hlast (h.entered_le j) (hstamp j)
  rw [Finset.mem_union, mem_grow, mem_busy, mem_busy, h.exists_counted]
  constructor
  · rintro (hfinished | ⟨j, hj⟩)
    · exact .inl (.inl hfinished)
    · rcases (hadvance j).mp hj with hold | ⟨hcounted, hx⟩
      · exact .inl (.inr ⟨j, hold⟩)
      · exact .inr ⟨⟨j, hcounted⟩, hx⟩
  · rintro ((hfinished | ⟨j, hj⟩) | ⟨⟨j, hcounted⟩, hx⟩)
    · exact .inl hfinished
    · exact .inr ⟨j, (hadvance j).mpr (.inl hj)⟩
    · exact .inr ⟨j, (hadvance j).mpr (.inr ⟨hcounted, hx⟩)⟩

/-- The tracker may be looked at a later time that no pending call precedes. -/
theorem Inv.advance {t : ℕ} (h : s.Inv) (hlast : s.last ≤ t) (hclock : t ≤ s.clock)
    (hstamp : ∀ j, ∀ t' ∈ (s.phase j).stamp, t ≤ t') : { s with last := t }.Inv where
  active_eq := h.active_eq
  meter k := by
    rw [h.busy_advance hlast hstamp]
    exact (h.meter k).advance hlast
  bothMeter := by
    rw [h.busy_advance hlast hstamp, h.busy_advance hlast hstamp,
      union_grow_inter (h.meter true).lt_now (h.meter false).lt_now]
    exact h.bothMeter.advance hlast
  busyStart_pos := h.busyStart_pos
  bothStart_pos := h.bothStart_pos
  stamp_mem j t' ht' :=
    have hmem := h.stamp_mem j t' ht'
    ⟨hmem.1, hstamp j t' ht', hmem.2.2⟩
  entered_le j a ha := (h.entered_le j a ha).trans hlast
  last_le := hclock
  clock_lt := h.clock_lt

/-- Before a call takes effect the tracker may be looked at the time it read. -/
theorem Inv.atStamp {t : ℕ} (h : s.Inv) (hearliest : s.Earliest i)
    (ht : t ∈ (s.phase i).stamp) : { s with last := t }.Inv ∧ max s.last t = t := by
  obtain ⟨-, hlast, hclock⟩ := h.stamp_mem i t ht
  exact ⟨h.advance hlast hclock (hearliest t ht), max_eq_right hlast⟩

omit [Fintype ι] in
theorem tracker_tick {n : ℕ} (hstep : s.tick n = some s') : s'.tracker = s.tracker := by
  unfold State.tick at hstep
  split at hstep
  · obtain rfl := Option.some.inj hstep
    rfl
  · exact absurd hstep (by simp)

theorem Inv.tick {n : ℕ} (h : s.Inv) (hstep : s.tick n = some s') : s'.Inv := by
  unfold State.tick at hstep
  split at hstep
  · rename_i hfits
    obtain rfl := Option.some.inj hstep
    exact { h with
      stamp_mem := fun j t ht =>
        have hmem := h.stamp_mem j t ht
        ⟨hmem.1, hmem.2.1, hmem.2.2.trans (Nat.le_add_right _ n)⟩
      last_le := h.last_le.trans (Nat.le_add_right _ n)
      clock_lt := hfits }
  · exact absurd hstep (by simp)

variable [DecidableEq ι]

/-- A call reads the clock: the tracker and the intervals up to now stay. -/
theorem Inv.read {p : Phase} (h : s.Inv)
    (hcounted : ∀ k, p.Counted k ↔ (s.phase i).Counted k)
    (hinterval : ∀ k, p.interval k s.last = (s.phase i).interval k s.last)
    (hentered : ∀ a ∈ p.entered, a ≤ s.last) (hstamp : ∀ t ∈ p.stamp, t = s.clock)
    (hpos : 0 < s.clock) : { s with phase := Function.update s.phase i p }.Inv := by
  have hset : ∀ k, counted (Function.update s.phase i p) k = counted s.phase k := by
    intro k
    apply Finset.filter_congr
    intro j _
    refine Function.forall_update_iff s.phase
      (p := fun j q => q.Counted k ↔ (s.phase j).Counted k) |>.mpr ⟨hcounted k, ?_⟩ j
    exact fun _ _ => Iff.rfl
  have hbusy : ∀ k, { s with phase := Function.update s.phase i p }.busy k =
      s.busy k := by
    intro k
    have hsame : ∀ j, (Function.update s.phase i p j).interval k s.last =
        (s.phase j).interval k s.last := by
      refine Function.forall_update_iff s.phase
        (p := fun j q => q.interval k s.last = (s.phase j).interval k s.last) |>.mpr
          ⟨hinterval k, ?_⟩
      exact fun _ _ => rfl
    unfold busy
    simp only [hsame]
  constructor
  · intro k
    rw [hset]
    exact h.active_eq k
  · intro k
    rw [hbusy]
    exact h.meter k
  · rw [hbusy, hbusy]
    exact h.bothMeter
  · exact h.busyStart_pos
  · exact h.bothStart_pos
  · apply Function.forall_update_iff s.phase
      (p := fun _ q => ∀ t ∈ q.stamp, 0 < t ∧ s.last ≤ t ∧ t ≤ s.clock) |>.mpr
    refine ⟨?_, fun j _ => h.stamp_mem j⟩
    intro t ht
    obtain rfl := hstamp t ht
    exact ⟨hpos, h.last_le, le_rfl⟩
  · apply Function.forall_update_iff s.phase
      (p := fun _ q => ∀ a ∈ q.entered, a ≤ s.last) |>.mpr
    exact ⟨hentered, fun j _ => h.entered_le j⟩
  · exact h.last_le
  · exact h.clock_lt

theorem Inv.readEnter {isAg : Bool} (h : s.Inv) (hpos : 0 < s.clock)
    (hstep : s.readEnter i isAg = some s') : s'.Inv := by
  unfold State.readEnter at hstep
  split at hstep
  · rename_i hphase
    obtain rfl := Option.some.inj hstep
    apply h.read _ _ _ _ hpos
    · intro k
      rw [hphase]
      exact Iff.rfl
    · intro k
      rw [hphase, Phase.interval, Phase.interval,
        Finset.Ico_eq_empty (Nat.not_lt.mpr h.last_le), ite_self]
    · intro a ha
      exact absurd ha (Option.not_mem_none a)
    · intro t ht
      exact (Option.some.inj ht).symm
  · exact absurd hstep (by simp)

theorem Inv.readExit (h : s.Inv) (hstep : s.readExit i = some s') : s'.Inv := by
  unfold State.readExit at hstep
  split at hstep
  · rename_i isAg a hphase
    obtain rfl := Option.some.inj hstep
    have hpos : 0 < s.clock := by
      apply h.clock_pos
      rw [hphase]
      exact (rfl : isAg = isAg)
    apply h.read _ _ _ _ hpos
    · intro k
      rw [hphase]
      exact Iff.rfl
    · intro k
      rw [hphase, Phase.interval, Phase.interval, min_eq_right h.last_le]
    · intro a' ha
      apply h.entered_le i
      rw [hphase]
      exact ha
    · intro t ht
      exact (Option.some.inj ht).symm
  · exact absurd hstep (by simp)

theorem counted_update {phase : ι → Phase} {p : Phase} :
    counted (Function.update phase i p) k =
      if p.Counted k then insert i (counted phase k) else (counted phase k).erase i := by
  ext j
  rcases eq_or_ne j i with rfl | hj
  · rw [counted, Finset.mem_filter, Function.update_self]
    split <;> rename_i hp <;> simp [hp]
  · rw [counted, Finset.mem_filter, Function.update_of_ne hj]
    split <;> simp [hj, counted]

/-- An enter call at the latest time. -/
theorem Inv.enterNow {isAg : Bool} (h : s.Inv) (hphase : s.phase i = .entering isAg s.last) :
    { s with
      tracker := s.tracker.enter isAg s.last
      phase := Function.update s.phase i (.active isAg s.last) }.Inv := by
  have hlast : 0 < s.last := (h.stamp_mem i s.last (by rw [hphase]; rfl)).1
  have hbusy : ∀ k, { s with
      tracker := s.tracker.enter isAg s.last
      phase := Function.update s.phase i (.active isAg s.last) }.busy k = s.busy k := by
    intro k
    have hsame : ∀ j, (Function.update s.phase i (.active isAg s.last) j).interval k s.last =
        (s.phase j).interval k s.last := by
      refine Function.forall_update_iff s.phase
        (p := fun j q => q.interval k s.last = (s.phase j).interval k s.last) |>.mpr
          ⟨?_, fun _ _ => rfl⟩
      rw [hphase]
      rfl
    unfold busy
    simp only [hsame]
  have hnot : ∀ k, i ∉ counted s.phase k := by
    intro k hi
    have hcounted := (Finset.mem_filter.mp hi).2
    rw [hphase] at hcounted
    exact hcounted
  constructor
  · intro k
    rw [Tracker.busy_enter, counted_update]
    by_cases hk : k = isAg
    · subst hk
      have hnew : (Phase.active k s.last).Counted k := (rfl : k = k)
      rw [if_pos rfl, if_pos hnew, Finset.card_insert_of_notMem (hnot k), ← h.active_eq k]
      rfl
    · have hother : ¬ (Phase.active isAg s.last).Counted k := fun h => hk (Eq.symm h)
      rw [if_neg hk, if_neg hother, Finset.erase_eq_of_notMem (hnot k)]
      exact h.active_eq k
  · intro k
    rw [hbusy, Tracker.busy_enter]
    by_cases hk : k = isAg
    · subst hk
      rw [if_pos rfl]
      exact Busy.enter_meter (h.meter k)
    · rw [if_neg hk]
      exact h.meter k
  · rw [hbusy, hbusy]
    exact Tracker.enter_meter h.bothMeter
  · intro k
    rw [Tracker.busy_enter]
    by_cases hk : k = isAg
    · subst hk
      rw [if_pos rfl]
      exact Busy.enter_busyStart_pos (h.busyStart_pos k) hlast
    · rw [if_neg hk]
      exact h.busyStart_pos k
  · exact Tracker.enter_bothStart_pos h.bothStart_pos hlast
  · apply Function.forall_update_iff s.phase
      (p := fun _ q => ∀ t ∈ q.stamp, 0 < t ∧ s.last ≤ t ∧ t ≤ s.clock) |>.mpr
    exact ⟨fun t ht => absurd ht (Option.not_mem_none t), fun j _ => h.stamp_mem j⟩
  · apply Function.forall_update_iff s.phase
      (p := fun _ q => ∀ a ∈ q.entered, a ≤ s.last) |>.mpr
    exact ⟨fun a ha => (Option.some.inj ha).ge, fun j _ => h.entered_le j⟩
  · exact h.last_le
  · exact h.clock_lt

/-- A section that ends at the latest time covers the times that it covered
before. -/
theorem busy_exitNow {isAg : Bool} {a : ℕ} (hphase : s.phase i = .exiting isAg a s.last)
    (k : Bool) :
    { s with
      tracker := s.tracker.exit isAg s.last
      phase := Function.update s.phase i .idle
      finished := ⟨isAg, a, s.last⟩ :: s.finished }.busy k = s.busy k := by
  ext x
  have hmove : x ∈ (s.phase i).interval k s.last ↔
      isAg = k ∧ a ≤ x ∧ x < s.last := by
    rw [hphase, Phase.interval, min_self]
    split
    · rename_i hk
      rw [Finset.mem_Ico]
      exact ⟨fun hx => ⟨hk, hx⟩, And.right⟩
    · rename_i hk
      exact ⟨fun hx => absurd hx (Finset.notMem_empty x), fun hx => absurd hx.1 hk⟩
  rw [mem_busy, mem_busy]
  constructor
  · rintro (⟨f, hf, hx⟩ | ⟨j, hj⟩)
    · rcases List.mem_cons.mp hf with rfl | hold
      · exact .inr ⟨i, hmove.mpr hx⟩
      · exact .inl ⟨f, hold, hx⟩
    · rcases eq_or_ne j i with rfl | hne
      · dsimp only at hj
        rw [Function.update_self] at hj
        exact absurd hj (Finset.notMem_empty x)
      · dsimp only at hj
        rw [Function.update_of_ne hne] at hj
        exact .inr ⟨j, hj⟩
  · rintro (⟨f, hf, hx⟩ | ⟨j, hj⟩)
    · exact .inl ⟨f, List.mem_cons_of_mem _ hf, hx⟩
    · rcases eq_or_ne j i with rfl | hne
      · exact .inl ⟨_, List.mem_cons_self, hmove.mp hj⟩
      · refine .inr ⟨j, ?_⟩
        dsimp only
        rw [Function.update_of_ne hne]
        exact hj

/-- An exit call at the latest time. -/
theorem Inv.exitNow {isAg : Bool} {a : ℕ} (h : s.Inv)
    (hphase : s.phase i = .exiting isAg a s.last) :
    { s with
      tracker := s.tracker.exit isAg s.last
      phase := Function.update s.phase i .idle
      finished := ⟨isAg, a, s.last⟩ :: s.finished }.Inv := by
  have hlt : s.last < 2 ^ 64 := lt_of_le_of_lt h.last_le h.clock_lt
  have hcounted : (s.phase i).Counted isAg := by
    rw [hphase]
    exact (rfl : isAg = isAg)
  have hactive : 0 < (s.tracker.busy isAg).active := h.exists_counted.mpr ⟨i, hcounted⟩
  have hbusy := busy_exitNow hphase
  constructor
  · intro k
    have hidle : ¬ Phase.idle.Counted k := id
    rw [Tracker.busy_exit, counted_update, if_neg hidle]
    by_cases hk : k = isAg
    · subst hk
      have hmem : i ∈ counted s.phase k := Finset.mem_filter.mpr ⟨Finset.mem_univ i, hcounted⟩
      rw [if_pos rfl, Finset.card_erase_of_mem hmem, ← h.active_eq k]
      rfl
    · have hnot : i ∉ counted s.phase k := by
        intro hi
        have hi := (Finset.mem_filter.mp hi).2
        rw [hphase] at hi
        exact hk (Eq.symm hi)
      rw [if_neg hk, Finset.erase_eq_of_notMem hnot]
      exact h.active_eq k
  · intro k
    rw [hbusy, Tracker.busy_exit]
    by_cases hk : k = isAg
    · subst hk
      rw [if_pos rfl]
      exact Busy.exit_meter (h.meter k) hactive (h.busyStart_pos k hactive) hlt
    · rw [if_neg hk]
      exact h.meter k
  · rw [hbusy, hbusy]
    exact (Tracker.exit_meter h.bothMeter h.bothStart_pos hlt).1
  · intro k
    rw [Tracker.busy_exit]
    by_cases hk : k = isAg
    · subst hk
      rw [if_pos rfl]
      exact fun _ => h.busyStart_pos k hactive
    · rw [if_neg hk]
      exact h.busyStart_pos k
  · intro hboth
    rw [Tracker.exit_bothStart]
    exact h.bothStart_pos (Tracker.both_of_exit hboth)
  · apply Function.forall_update_iff s.phase
      (p := fun _ q => ∀ t ∈ q.stamp, 0 < t ∧ s.last ≤ t ∧ t ≤ s.clock) |>.mpr
    exact ⟨fun t ht => absurd ht (Option.not_mem_none t), fun j _ => h.stamp_mem j⟩
  · apply Function.forall_update_iff s.phase
      (p := fun _ q => ∀ a ∈ q.entered, a ≤ s.last) |>.mpr
    exact ⟨fun a ha => absurd ha (Option.not_mem_none a), fun j _ => h.entered_le j⟩
  · exact h.last_le
  · exact h.clock_lt

theorem Inv.enter (h : s.Inv) (hearliest : s.Earliest i) (hstep : s.enter i = some s') :
    s'.Inv := by
  unfold State.enter at hstep
  split at hstep
  · rename_i isAg t hphase
    obtain rfl := Option.some.inj hstep
    obtain ⟨hnow, hmax⟩ := h.atStamp hearliest (t := t) (by rw [hphase]; rfl)
    rw [hmax]
    exact hnow.enterNow hphase
  · exact absurd hstep (by simp)

theorem Inv.exit (h : s.Inv) (hearliest : s.Earliest i) (hstep : s.exit i = some s') :
    s'.Inv := by
  unfold State.exit at hstep
  split at hstep
  · rename_i isAg a t hphase
    obtain rfl := Option.some.inj hstep
    obtain ⟨hnow, hmax⟩ := h.atStamp hearliest (t := t) (by rw [hphase]; rfl)
    rw [hmax]
    exact hnow.exitNow hphase
  · exact absurd hstep (by simp)

/-- A step in which the calls take the lock in order keeps the invariant. -/
theorem Inv.step {a : Action ι} (h : s.Inv) (horder : s.InOrder a)
    (hstep : s.step a = some s') : s'.Inv := by
  cases a with
  | tick n => exact h.tick hstep
  | readEnter i isAg => exact h.readEnter horder hstep
  | enter i => exact h.enter horder hstep
  | readExit i => exact h.readExit hstep
  | exit i => exact h.exit horder hstep

omit [Fintype ι] in
theorem tracker_readEnter {isAg : Bool} (hstep : s.readEnter i isAg = some s') :
    s'.tracker = s.tracker := by
  unfold State.readEnter at hstep
  split at hstep
  · obtain rfl := Option.some.inj hstep
    rfl
  · exact absurd hstep (by simp)

omit [Fintype ι] in
theorem tracker_readExit (hstep : s.readExit i = some s') : s'.tracker = s.tracker := by
  unfold State.readExit at hstep
  split at hstep
  · obtain rfl := Option.some.inj hstep
    rfl
  · exact absurd hstep (by simp)

omit [Fintype ι] in
theorem totalsLe_of_enter (hstep : s.enter i = some s') : s.tracker.TotalsLe s'.tracker := by
  unfold State.enter at hstep
  split at hstep
  · obtain rfl := Option.some.inj hstep
    exact Tracker.totalsLe_enter
  · exact absurd hstep (by simp)

theorem Inv.totalsLe_of_exit (h : s.Inv) (hearliest : s.Earliest i)
    (hstep : s.exit i = some s') : s.tracker.TotalsLe s'.tracker := by
  unfold State.exit at hstep
  split at hstep
  · rename_i isAg a t hphase
    obtain rfl := Option.some.inj hstep
    obtain ⟨hnow, -⟩ := h.atStamp hearliest (t := t) (by rw [hphase]; rfl)
    have hlt : t < 2 ^ 64 := lt_of_le_of_lt hnow.last_le hnow.clock_lt
    have hactive : 0 < (s.tracker.busy isAg).active := by
      apply h.exists_counted.mpr ⟨i, _⟩
      rw [hphase]
      exact (rfl : isAg = isAg)
    constructor
    · intro k
      dsimp only
      rw [Tracker.busy_exit]
      split
      · rename_i hk
        subst hk
        exact Busy.le_exit_busyTotal (hnow.meter k) hactive hlt
      · exact le_rfl
    · exact (Tracker.exit_meter hnow.bothMeter hnow.bothStart_pos hlt).2
  · exact absurd hstep (by simp)

/-- No total decreases when the calls take the lock in order. -/
theorem Inv.grows {a : Action ι} (h : s.Inv) (horder : s.InOrder a) : s.Grows a := by
  intro s' hstep
  cases a with
  | tick n => exact .of_eq (tracker_tick hstep)
  | readEnter i isAg => exact .of_eq (tracker_readEnter hstep)
  | enter i => exact totalsLe_of_enter hstep
  | readExit i => exact .of_eq (tracker_readExit hstep)
  | exit i => exact h.totalsLe_of_exit horder hstep

/-- In every run whose calls take the lock in the order of their times, no total
decreases, and the totals measure the AllGathers, the ReduceScatters, their overlap
and their union in every state reached. -/
theorem measures_of_inOrder {acts : List (Action ι)}
    (horder : AllSteps step InOrder (init : State ι) acts) :
    AllSteps step Grows (init : State ι) acts ∧
      AllStates step Accurate (init : State ι) acts := by
  constructor
  · exact horder.imp (fun _ _ _ hP hstep hs => Inv.step hs hP hstep)
      (fun _ _ hs hP => Inv.grows hs hP) inv_init
  · exact horder.allStates (fun _ _ _ hP hstep hs => Inv.step hs hP hstep)
      (fun _ hs => Inv.accurate hs) inv_init

/-- A ReduceScatter of the first thread overlaps with an AllGather of the second. -/
theorem measures_overlapping :
    ∃ acts : List (Action Bool), AllSteps step InOrder init acts ∧
      (run step init acts).map (fun s => (s.tracker.ag.busyTotal, s.tracker.rs.busyTotal,
        s.tracker.bothTotal)) = some (8, 9, 5) ∧
      AllSteps step Grows init acts ∧ AllStates step Accurate init acts := by
  refine ⟨[.tick 1, .readEnter false false, .enter false, .tick 4, .readEnter true true,
    .enter true, .tick 5, .readExit false, .exit false, .tick 3, .readExit true,
    .exit true], ?_⟩
  have horder : AllSteps step InOrder (init : State Bool)
      [.tick 1, .readEnter false false, .enter false, .tick 4, .readEnter true true,
        .enter true, .tick 5, .readExit false, .exit false, .tick 3, .readExit true,
        .exit true] := by
    decide +kernel
  exact ⟨horder, by decide +kernel, measures_of_inOrder horder⟩

/-- The ReduceScatter reads the clock for its exit at 10, the AllGather for its
enter at 20, and the enter call takes the lock first: the overlap total becomes
-10. -/
theorem not_measures_lateExit :
    ¬ ∀ acts : List (Action Bool),
      AllSteps step Grows init acts ∧ AllStates step Accurate init acts := by
  intro h
  have hrun : (run step (init : State Bool)
      [.tick 1, .readEnter false false, .enter false, .tick 9, .readExit false, .tick 10,
        .readEnter true true, .enter true, .exit false]).map
      (fun s => (s.measuredBoth, (s.busy true ∩ s.busy false).card)) =
        some (2 ^ 64 - 10, 0) := by
    decide +kernel
  obtain ⟨s, hs, hvalues⟩ := Option.map_eq_some_iff.mp hrun
  obtain ⟨hboth, hcard⟩ := Prod.mk.inj hvalues
  have haccurate := ((h _).2.last hs).measuredBoth_eq
  rw [hboth, hcard] at haccurate
  exact absurd haccurate (by decide)

end State

end SmartNic.UnionTracker
