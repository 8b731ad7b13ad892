import Mathlib.Data.Fintype.Basic
import Mathlib.Data.List.Count
import Mathlib.Logic.Function.Basic
import Mathlib.Order.Basic

/-!
# Logs of meetings

Members call a meeting point again and again, each time for some subject.  The
log holds, for every member, the subjects of its calls and of its returns.  In
a sound log a member returns from its calls in order, never from more calls
than another has made, and the `k`-th calls of all members are for the same
subject; then a return for a subject has a matching call on every member.
-/

namespace SmartNic.CallLog

structure Log (ι T : Type) where
  entries : ι → List T
  exits : ι → List T

variable {ι T : Type}

namespace Log

def empty : Log ι T where
  entries := fun _ => []
  exits := fun _ => []

/-- The `k`-th calls of any two members have the same subject. -/
def Agrees (entries : ι → List T) : Prop :=
  ∀ (r q : ι) (k : ℕ) (x y : T),
    (entries r)[k]? = some x → (entries q)[k]? = some y → x = y

structure Sound (log : Log ι T) : Prop where
  prefix_exits : ∀ r, log.exits r <+: log.entries r
  separated : ∀ r q, (log.exits r).length ≤ (log.entries q).length
  agrees : Agrees log.entries

/-- Every member that has made the next call of `r` made it for `t`. -/
def Admits (entries : ι → List T) (r : ι) (t : T) : Prop :=
  ∀ q, ∀ x ∈ (entries q)[(entries r).length]?, x = t

instance [Fintype ι] [DecidableEq T] (entries : ι → List T) (r : ι) (t : T) :
    Decidable (Admits entries r t) :=
  inferInstanceAs (Decidable (∀ q, ∀ x ∈ (entries q)[(entries r).length]?,
    x = t))

theorem Sound.empty : (empty : Log ι T).Sound where
  prefix_exits _ := List.prefix_rfl
  separated _ _ := le_rfl
  agrees := by
    intro r q k x y hx
    simp [Log.empty] at hx

/-- Of the calls of two members one list continues the other. -/
theorem Agrees.prefix_or_prefix {entries : ι → List T} (h : Agrees entries)
    (r q : ι) : entries r <+: entries q ∨ entries q <+: entries r := by
  have hpre : ∀ r q, (entries r).length ≤ (entries q).length →
      entries r <+: entries q := by
    intro r q hlen
    rw [List.prefix_iff_getElem?]
    intro k hk
    have hr := List.getElem?_eq_getElem hk
    have hq := List.getElem?_eq_getElem (hk.trans_le hlen)
    rw [hq, h r q k _ _ hr hq]
  rcases Nat.le_total (entries r).length (entries q).length with hle | hle
  · exact .inl (hpre r q hle)
  · exact .inr (hpre q r hle)

/-- The returns of one member are a prefix of the calls of any other. -/
theorem Sound.exits_prefix_entries {log : Log ι T} (h : log.Sound) (r q : ι) :
    log.exits r <+: log.entries q := by
  rcases h.agrees.prefix_or_prefix r q with hrq | hqr
  · exact (h.prefix_exits r).trans hrq
  · exact List.prefix_of_prefix_length_le (h.prefix_exits r) hqr
      (h.separated r q)

/-- A member has not returned from more calls for a subject than any other
member has made. -/
theorem Sound.count_le [BEq T] {log : Log ι T} (h : log.Sound) (r q : ι)
    (t : T) : (log.exits r).count t ≤ (log.entries q).count t :=
  (h.exits_prefix_entries r q).sublist.count_le t

section

variable [DecidableEq ι]

/-- `r` makes a call for `t`. -/
def enter (log : Log ι T) (r : ι) (t : T) : Log ι T :=
  { log with entries := Function.update log.entries r (log.entries r ++ [t]) }

/-- `r` returns from its oldest call that it has not returned from, for `t`. -/
def leave (log : Log ι T) (r : ι) (t : T) : Log ι T :=
  { log with exits := Function.update log.exits r (log.exits r ++ [t]) }

theorem Agrees.enter {entries : ι → List T} (h : Agrees entries) {r : ι}
    {t : T} (hadmits : Admits entries r t) :
    Agrees (Function.update entries r (entries r ++ [t])) := by
  have hnew : ∀ (q : ι) (k : ℕ) (x : T), (entries q)[k]? = some x → ∀ y,
      (entries r ++ [t])[k]? = some y → x = y := by
    intro q k x hx y hy
    rcases Nat.lt_trichotomy k (entries r).length with hk | rfl | hk
    · rw [List.getElem?_append_left hk] at hy
      exact h q r k x y hx hy
    · rw [List.getElem?_concat_length] at hy
      exact (hadmits q x hx).trans (Option.some.inj hy)
    · rw [List.getElem?_eq_none (by simp; omega)] at hy
      cases hy
  intro p q k x y hx hy
  by_cases hp : p = r
  · subst hp
    rw [Function.update_self] at hx
    by_cases hq : q = p
    · subst hq
      rw [Function.update_self] at hy
      exact Option.some.inj (hx.symm.trans hy)
    · rw [Function.update_of_ne hq] at hy
      exact (hnew q k y hy x hx).symm
  · rw [Function.update_of_ne hp] at hx
    by_cases hq : q = r
    · subst hq
      rw [Function.update_self] at hy
      exact hnew p k x hx y hy
    · rw [Function.update_of_ne hq] at hy
      exact h p q k x y hx hy

theorem Sound.enter {log : Log ι T} (h : log.Sound) {r : ι} {t : T}
    (hadmits : Admits log.entries r t) : (log.enter r t).Sound where
  prefix_exits q := by
    by_cases hq : q = r
    · subst hq
      simp only [Log.enter, Function.update_self]
      exact (h.prefix_exits q).trans (List.prefix_append _ _)
    · simp only [Log.enter, Function.update_of_ne hq]
      exact h.prefix_exits q
  separated p q := by
    have hlen := h.separated p q
    by_cases hq : q = r
    · subst hq
      simp only [Log.enter, Function.update_self, List.length_append]
      omega
    · simp only [Log.enter, Function.update_of_ne hq]
      exact hlen
  agrees := h.agrees.enter hadmits

/-- A member may return from its only open call once all members have made as
many calls. -/
theorem Sound.leave {log : Log ι T} (h : log.Sound) {r : ι} {t : T}
    (hopen : log.entries r = log.exits r ++ [t])
    (hall : ∀ q, (log.entries r).length ≤ (log.entries q).length) :
    (log.leave r t).Sound where
  prefix_exits q := by
    by_cases hq : q = r
    · subst hq
      simp only [Log.leave, Function.update_self, hopen]
      exact List.prefix_rfl
    · simp only [Log.leave, Function.update_of_ne hq]
      exact h.prefix_exits q
  separated p q := by
    by_cases hp : p = r
    · subst hp
      simp only [Log.leave, Function.update_self, ← hopen]
      exact hall q
    · simp only [Log.leave, Function.update_of_ne hp]
      exact h.separated p q
  agrees := h.agrees

end

end Log

end SmartNic.CallLog
