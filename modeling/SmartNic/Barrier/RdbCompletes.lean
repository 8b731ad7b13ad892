import SmartNic.Barrier.RdbSafety

/-!
# The RDB barrier completes

As long as no write fails, every wave has reached the slot of the next rank
before the next one is posted, so that the order in which writes arrive does not
matter.  A rank that waits can then only wait for a rank that has not called as
often.
-/

namespace SmartNic.Barrier

open SmartNic.Machine SmartNic.RingWaves

/-- The failure of a write. -/
def Action.fails : Action n T → Bool
  | .at _ (.fail _) => true
  | _ => false

/-- A step of a call that has been made, or of the network. -/
def Action.goesOn : Action n T → Bool
  | .at _ (.enter _) => false
  | .at _ (.fail _) => false
  | _ => true

/-! ## Links -/

/-- The link of a rank to the next one, the slot of which is given: the last
wave has arrived, is posted or is on its way. -/
inductive Worker.Linked (w : Worker T) (slot : UInt64) : Prop
  | arrived (hposted : ∀ t buf rest, w.caller t ≠ .posted buf rest)
      (hflight : w.inFlight = []) (hslot : slot.toNat = w.waves)
  | posted (t : T) (buf : SendBuf) (rest : List Instr)
      (hcaller : w.caller t = .posted buf rest) (hflight : w.inFlight = [])
      (hbuf : (w.sendBuf buf).toNat = w.waves) (hslot : slot.toNat + 1 = w.waves)
  | flying (value : UInt64) (hposted : ∀ t buf rest, w.caller t ≠ .posted buf rest)
      (hflight : w.inFlight = [value]) (hvalue : value.toNat = w.waves)
      (hslot : slot.toNat + 1 = w.waves)

section Worker

variable [DecidableEq T] {rank : ℕ} {w w' : Worker T} {t : T} {slot : UInt64}

omit [DecidableEq T] in
theorem Worker.Linked.slot_le (h : w.Linked slot) : slot.toNat ≤ w.waves := by
  cases h with
  | arrived _ _ hslot => exact hslot.le
  | posted _ _ _ _ _ _ hslot => omega
  | flying _ _ _ _ hslot => omega

omit [DecidableEq T] in
/-- The thread that is not outside is the one that is busy. -/
theorem Worker.Busy.eq {prev : ℕ} (h : w.Busy rank prev t) {u : T} {c : Caller}
    (hcaller : w.caller u = c) (hc : c ≠ .outside) : u = t := by
  by_contra hne
  exact hc (hcaller.symm.trans (h.alone u hne))

/-- A step that neither posts a write nor lets the NIC read one. -/
theorem Worker.Linked.goto {prev : ℕ} (h : w.Linked slot) (hbusy : w.Busy rank prev t)
    (hnot : ∀ buf rest, w.caller t ≠ .posted buf rest) {c : Caller}
    (hc : ∀ buf rest, c ≠ .posted buf rest)
    (hcaller : w'.caller = Function.update w.caller t c)
    (hflight : w'.inFlight = w.inFlight) (hwaves : w'.waves = w.waves) :
    w'.Linked slot := by
  have hposted : (∀ u buf rest, w.caller u ≠ .posted buf rest) →
      ∀ u buf rest, w'.caller u ≠ .posted buf rest := by
    intro hold u buf rest
    rw [hcaller]
    by_cases hu : u = t
    · subst hu
      rw [Function.update_self]
      exact hc buf rest
    · rw [Function.update_of_ne hu]
      exact hold u buf rest
  cases h with
  | arrived hold hflight' hslot =>
      exact .arrived (hposted hold) (hflight.trans hflight') (by rw [hwaves, hslot])
  | posted u buf rest hcaller' _ _ _ =>
      obtain rfl := hbusy.eq hcaller' nofun
      exact absurd hcaller' (hnot buf rest)
  | flying value hold hflight' hvalue hslot =>
      exact .flying value (hposted hold) (hflight.trans hflight')
        (hvalue.trans hwaves.symm) (by rw [hwaves, hslot])

/-- While a rank is outside, nothing of it is posted. -/
theorem Worker.Linked.enter {c : Caller} (h : w.Linked slot)
    (hout : ∀ u, w.caller u = .outside) (hc : ∀ buf rest, c ≠ .posted buf rest)
    (hcaller : w'.caller = Function.update w.caller t c)
    (hflight : w'.inFlight = w.inFlight) (hwaves : w'.waves = w.waves) :
    w'.Linked slot := by
  have hposted : ∀ u buf rest, w'.caller u ≠ .posted buf rest := by
    intro u buf rest
    rw [hcaller]
    by_cases hu : u = t
    · subst hu
      rw [Function.update_self]
      exact hc buf rest
    · rw [Function.update_of_ne hu, hout u]
      exact nofun
  cases h with
  | arrived _ hflight' hslot =>
      exact .arrived hposted (hflight.trans hflight') (by rw [hwaves, hslot])
  | posted u buf rest hcaller' _ _ _ =>
      cases (hout u).symm.trans hcaller'
  | flying value _ hflight' hvalue hslot =>
      exact .flying value hposted (hflight.trans hflight')
        (hvalue.trans hwaves.symm) (by rw [hwaves, hslot])

/-- A rank writes the next wave; the last one has arrived. -/
theorem Worker.Linked.write {prev : ℕ} {buf : SendBuf} {value : UInt64}
    {rest : List Instr} (h : w.Linked slot) (hbusy : w.Busy rank prev t)
    (hcaller : w.caller t = .inside (.writeNext buf value :: rest))
    (hlt : w.entries.length < 2 ^ 63)
    (hclose : ((w.fill buf value).goto t (.posted buf rest)).waves ≤
      slot.toNat + 1) :
    ((w.fill buf value).goto t (.posted buf rest)).Linked slot := by
  have hpos := hbusy.position
  rw [hcaller] at hpos
  obtain ⟨-, hsuffix, hwaves, -⟩ := hpos
  have hvalue := write_value hsuffix hbusy.entries_pos hlt
  simp only [writes] at hwaves
  have hfill : (w.fill buf value).waves = value.toNat :=
    Worker.waves_fill (by omega)
  have hnew : ((w.fill buf value).goto t (.posted buf rest)).waves = w.waves + 1 :=
    hfill.trans (by omega)
  rw [hnew] at hclose
  have hsent : ((w.fill buf value).goto t (.posted buf rest)).sendBuf buf = value := by
    cases buf <;> rfl
  cases h with
  | arrived _ hflight hslot =>
      refine .posted t buf rest (Function.update_self _ _ _) hflight ?_ ?_
      · rw [hsent, hnew]
        omega
      · rw [hnew, hslot]
  | posted u buf' rest' hcaller' _ _ _ =>
      rw [hbusy.eq hcaller' (by simp), hcaller] at hcaller'
      cases hcaller'
  | flying _ _ _ _ hslot => omega

/-- The NIC reads the send buffer. -/
theorem Worker.Linked.fetch {prev : ℕ} {buf : SendBuf} {rest : List Instr}
    (h : w.Linked slot) (hbusy : w.Busy rank prev t)
    (hcaller : w.caller t = .posted buf rest) :
    ({ w.goto t (.inside rest) with
        inFlight := w.inFlight ++ [w.sendBuf buf] } : Worker T).Linked slot := by
  cases h with
  | arrived hposted _ _ => exact absurd hcaller (hposted t buf rest)
  | posted u buf' rest' hcaller' hflight hbuf hslot =>
      rw [hbusy.eq hcaller' nofun, hcaller] at hcaller'
      obtain ⟨rfl, rfl⟩ := Caller.posted.inj hcaller'
      refine .flying _ (fun v buf' rest' => ?_) (by rw [hflight]; rfl) hbuf hslot
      by_cases hv : v = t
      · subst hv
        exact fun heq => nomatch (Function.update_self _ _ _).symm.trans heq
      · intro heq
        have hout := hbusy.alone v hv
        rw [← (Function.update_of_ne hv (Caller.inside rest) w.caller)] at hout
        cases hout.symm.trans heq
  | flying _ hposted _ _ _ => exact absurd hcaller (hposted t buf rest)

omit [DecidableEq T] in
/-- The own slot does not matter to the link to the next rank. -/
theorem Worker.Linked.ownSlot (h : w.Linked slot) (own : UInt64) :
    ({ w with rdbLocalSlot := own } : Worker T).Linked slot := by
  cases h with
  | arrived hposted hflight hslot => exact .arrived hposted hflight hslot
  | posted t buf rest hcaller hflight hbuf hslot =>
      exact .posted t buf rest hcaller hflight hbuf hslot
  | flying value hposted hflight hvalue hslot =>
      exact .flying value hposted hflight hvalue hslot

/-- A step of a rank, after which it is at most one wave ahead of the slot. -/
theorem Worker.Linked.step {prev : ℕ} (h : w.Linked slot) (hok : w.Ok rank prev)
    (hlt : w.entries.length < 2 ^ 63) {a : LocalAction T}
    (hserial : ∀ t, a = .enter t → ∀ u, w.caller u = .outside)
    (hfail : ∀ t, a ≠ .fail t) (hclose : w'.waves ≤ slot.toNat + 1)
    (hstep : w.step rank a = some w') : w'.Linked slot := by
  cases a with
  | enter t =>
      have hout := hserial t rfl
      simp only [Worker.step, hout t, Option.some.injEq] at hstep
      subst hstep
      exact h.enter (c := .entered) hout (by simp) rfl rfl rfl
  | load t =>
      simp only [Worker.step] at hstep
      split at hstep <;> cases hstep
      next hcaller =>
      exact h.goto (c := .loaded _) (hok.busy hcaller (by simp)) (by simp [hcaller]) (by simp) rfl
        rfl rfl
  | store t =>
      simp only [Worker.step] at hstep
      split at hstep <;> cases hstep
      next seq hcaller =>
      exact h.goto (c := .inside _) (hok.busy hcaller (by simp)) (by simp [hcaller]) (by simp) rfl
        rfl rfl
  | exec t =>
      simp only [Worker.step] at hstep
      split at hstep
      next buf value rest hcaller =>
        cases hstep
        exact h.write (hok.busy hcaller (by simp)) hcaller hlt hclose
      next target rest hcaller =>
        split at hstep <;> cases hstep
        exact h.goto (c := .inside rest) (hok.busy hcaller (by simp)) (by simp [hcaller])
          (by simp) rfl rfl rfl
      · cases hstep
  | fetch t =>
      simp only [Worker.step] at hstep
      split at hstep <;> cases hstep
      next buf rest hcaller =>
      exact h.fetch (hok.busy hcaller (by simp)) hcaller
  | fail t => exact absurd rfl (hfail t)
  | leave t =>
      simp only [Worker.step] at hstep
      split at hstep <;> cases hstep
      next hcaller =>
      exact h.goto (c := .outside) (hok.busy hcaller (by simp)) (by simp [hcaller]) (by simp) rfl
        rfl rfl

end Worker

/-! ## The ring -/

section Ring

variable {n : ℕ} [NeZero n] {s s' : Ring n T}

/-- The invariant of a ring on which no write has failed: every rank has waited
for no more than its slot shows, and every link is in order. -/
structure Ring.Live (s : Ring n T) : Prop where
  inv : s.Inv
  ok : ∀ r : Fin n, (s r).Ok r (s r).rdbLocalSlot.toNat
  linked : ∀ r, (s r).Linked (s (r + 1)).rdbLocalSlot

theorem Ring.Live.init : (Ring.init : Ring n T).Live where
  inv := .init
  ok _ := .inl
    { outside := fun _ => rfl
      exits_eq := rfl
      seq_eq := rfl
      waves_eq := rfl
      prev_le := Nat.zero_le _ }
  linked _ := .arrived (fun _ _ _ => nofun) rfl rfl

/-- No rank is more than one wave ahead of what the next one can see. -/
theorem Ring.waves_le_slot (hinv : s.Inv)
    (hok : ∀ r : Fin n, (s r).Ok r (s r).rdbLocalSlot.toNat) (r : Fin n) :
    (s r).waves ≤ (s (r + 1)).rdbLocalSlot.toNat + 1 := by
  have hnext := (hok (r + 1)).waves_le
  by_cases hr : r + 1 = 0
  · have hle : (s r).waves ≤ (s 0).waves := hinv.ordered.antitone (Fin.zero_le r)
    rw [hr, if_pos (Fin.val_zero n)] at hnext
    rw [hr]
    exact hle.trans hnext
  · have hle : (s r).waves ≤ (s (r + 1)).waves + 1 := hinv.ordered.le_add_one r _
    rw [if_neg (by rwa [Fin.val_eq_zero_iff])] at hnext
    omega

theorem Ring.deliver_apply (s : Ring n T) (r : Fin n) (i : ℕ) (value : UInt64)
    (q : Fin n) :
    s.deliver r i value q =
      { s q with
        inFlight := if q = r then (s q).inFlight.eraseIdx i else (s q).inFlight
        rdbLocalSlot := if q = r + 1 then value else (s q).rdbLocalSlot } := by
  unfold Ring.deliver
  by_cases hq : q = r + 1
  · subst hq
    rw [Function.update_self, if_pos rfl]
    by_cases hr : r + 1 = r
    · rw [if_pos hr, hr, Function.update_self]
    · rw [if_neg hr, Function.update_of_ne hr]
  · rw [Function.update_of_ne hq, if_neg hq]
    by_cases hr : q = r
    · subst hr
      rw [Function.update_self, if_pos rfl]
    · rw [Function.update_of_ne hr, if_neg hr]

/-- A write arrives: it is the only one on its link. -/
theorem Ring.Live.deliver (h : s.Live) {r : Fin n} {i : ℕ} {value : UInt64}
    (hi : (s r).inFlight[i]? = some value) : (s.deliver r i value).Live := by
  cases h.linked r with
  | arrived _ hflight _ => simp [hflight] at hi
  | posted _ _ _ _ hflight _ _ => simp [hflight] at hi
  | flying value' hposted hflight hvalue hslot =>
      rw [hflight, List.getElem?_singleton] at hi
      split at hi
      next hzero =>
        obtain rfl := Option.some.inj hi
        subst hzero
        refine ⟨h.inv.deliver (by rw [hflight]; rfl), fun q => ?_, fun q => ?_⟩
        · rw [Ring.deliver_apply]
          refine ((h.ok q).mono ?_).network _ _
          dsimp only
          split
          next hq =>
            subst hq
            omega
          · exact le_rfl
        · rw [Ring.deliver_apply, Ring.deliver_apply]
          by_cases hq : q = r
          · subst hq
            dsimp only
            rw [if_pos rfl, if_pos rfl]
            exact .arrived hposted (by rw [hflight]; rfl) hvalue
          · dsimp only
            rw [if_neg hq, if_neg fun heq => hq (add_right_cancel heq)]
            exact (h.linked q).ownSlot _
      · cases hi

variable [DecidableEq T]

/-- A step of one rank. -/
theorem Ring.Live.local (h : s.Live) {r : Fin n} {a : LocalAction T} {w : Worker T}
    (hlt : ∀ r, (s r).entries.length < 2 ^ 63)
    (hserial : Serialised s (.at r a)) (hfail : ∀ t, a ≠ .fail t)
    (hstep : (s r).step r a = some w) : Ring.Live (Function.update s r w) := by
  have hserial' : ∀ t, a = .enter t → ∀ u, (s r).caller u = .outside := by
    rintro t rfl
    exact hserial
  have hinv : Ring.Inv (Function.update s r w) := by
    refine h.inv.step (a := .at r a) hlt hserial ?_
    exact Option.map_eq_some_iff.mpr ⟨w, hstep, rfl⟩
  obtain ⟨hok, hgrows⟩ := (h.ok r).step le_rfl (hlt r) hserial' hstep
  have hslot : ∀ q, (Function.update s r w q).rdbLocalSlot = (s q).rdbLocalSlot := by
    intro q
    by_cases hq : q = r
    · subst hq
      rw [Function.update_self, hgrows.slot_eq]
    · rw [Function.update_of_ne hq]
  have hall : ∀ q : Fin n, (Function.update s r w q).Ok q
      (Function.update s r w q).rdbLocalSlot.toNat := by
    intro q
    rw [hslot]
    by_cases hq : q = r
    · subst hq
      rw [Function.update_self]
      exact hok
    · rw [Function.update_of_ne hq]
      exact h.ok q
  refine ⟨hinv, hall, fun q => ?_⟩
  rw [hslot]
  by_cases hq : q = r
  · subst hq
    have hclose := Ring.waves_le_slot hinv hall q
    rw [hslot, Function.update_self] at hclose
    rw [Function.update_self]
    exact (h.linked q).step (h.ok q) (hlt q) hserial' hfail hclose hstep
  · rw [Function.update_of_ne hq]
    exact h.linked q

theorem Ring.Live.step (h : s.Live) {a : Action n T}
    (hlt : ∀ r, (s r).entries.length < 2 ^ 63) (hserial : Serialised s a)
    (hfail : a.fails = false) (hstep : s.step a = some s') : s'.Live := by
  cases a with
  | «at» r a =>
      obtain ⟨w, hw, rfl⟩ := Option.map_eq_some_iff.mp hstep
      refine h.local hlt hserial ?_ hw
      rintro t rfl
      cases hfail
  | deliver r i =>
      obtain ⟨value, hvalue, rfl⟩ := Option.map_eq_some_iff.mp hstep
      exact h.deliver hvalue

/-! ## Blocked states -/

/-- No call that has been made can go on. -/
def Ring.Blocked (s : Ring n T) : Prop :=
  ∀ a : Action n T, a.goesOn = true → s.step a = none

omit [NeZero n] [DecidableEq T] in
/-- At a wait a rank has as many writes to come as waits; rank 0 has one write
fewer. -/
theorem writes_of_wait {rank k : ℕ} {target : UInt64} {rest : List Instr}
    (h : (.waitLocalSlot target :: rest) <:+ callProgram rank k) :
    writes rest + (if rank = 0 then 1 else 0) = waits rest + 1 := by
  have hpos := suffix_callProgram h
  unfold callProgram rdbBarrier at hpos
  split at hpos <;>
    simp only [List.drop, List.cons.injEq, reduceCtorEq, false_and, false_or,
      or_false] at hpos <;>
    rcases hpos with ⟨-, rfl⟩ | ⟨-, rfl⟩ <;>
    simp [writes, waits, *]

/-- Nothing is on its way. -/
theorem Ring.Live.slot_eq (h : s.Live) (hblocked : s.Blocked) (r : Fin n) :
    (s r).rdbLocalSlot.toNat = (s (r - 1)).waves := by
  have hlink := h.linked (r - 1)
  rw [sub_add_cancel] at hlink
  cases hlink with
  | arrived _ _ hslot => exact hslot
  | posted t buf rest hcaller _ _ _ =>
      have hnone := hblocked (.at (r - 1) (.fetch t)) rfl
      rw [Ring.step, Worker.step, hcaller] at hnone
      cases hnone
  | flying value _ hflight _ _ =>
      have hnone := hblocked (.deliver (r - 1) 0) rfl
      rw [Ring.step, hflight] at hnone
      cases hnone

/-- A call that cannot go on waits for its slot. -/
theorem Ring.Blocked.waits (hblocked : s.Blocked) {r : Fin n} {t : T}
    (hcaller : (s r).caller t ≠ .outside) :
    ∃ target rest, (s r).caller t = .inside (.waitLocalSlot target :: rest) ∧
      (s r).rdbLocalSlot < target := by
  have hnone : ∀ a : LocalAction T, (Action.at r a).goesOn = true →
      (s r).step r a = none :=
    fun a ha => Option.map_eq_none_iff.mp (hblocked (.at r a) ha)
  cases hc : (s r).caller t with
  | outside => exact absurd hc hcaller
  | entered => simpa [Worker.step, hc] using hnone (.load t) rfl
  | loaded seq => simpa [Worker.step, hc] using hnone (.store t) rfl
  | posted buf rest => simpa [Worker.step, hc] using hnone (.fetch t) rfl
  | inside rest =>
      cases rest with
      | nil => simpa [Worker.step, hc] using hnone (.leave t) rfl
      | cons i rest =>
          cases i with
          | writeNext buf value => simpa [Worker.step, hc] using hnone (.exec t) rfl
          | waitLocalSlot target =>
              refine ⟨target, rest, rfl, ?_⟩
              by_contra hslot
              simpa [Worker.step, hc, hslot] using hnone (.exec t) rfl

/-- A rank that waits has as many waves as the previous one; rank 0 is ahead by
one. -/
theorem Ring.Live.waves_of_blocked (h : s.Live) (hblocked : s.Blocked)
    (hlt : ∀ r, (s r).entries.length < 2 ^ 63) {r : Fin n} {t : T}
    (hcaller : (s r).caller t ≠ .outside) :
    (s r).waves = (s (r - 1)).waves + (if r.val = 0 then 1 else 0) ∧
      (s (r - 1)).waves < 2 * (s r).entries.length := by
  obtain ⟨target, rest, hinside, hslot⟩ := hblocked.waits hcaller
  have hbusy := (h.ok r).busy hinside nofun
  have hpos := hbusy.position
  rw [hinside] at hpos
  obtain ⟨-, hsuffix, hwaves, hprev⟩ := hpos
  have htarget := wait_target hsuffix hbusy.entries_pos (hlt r)
  have hwrites := writes_of_wait hsuffix
  have hseen := h.slot_eq hblocked r
  rw [UInt64.lt_iff_toNat_lt] at hslot
  simp only [writes, waits] at hwaves hprev
  omega

/-- If a call cannot go on, some rank has not called as often. -/
theorem Ring.Live.exists_missing (h : s.Live) (hblocked : s.Blocked)
    (hlt : ∀ r, (s r).entries.length < 2 ^ 63) {r : Fin n} {t : T}
    (hcaller : (s r).caller t ≠ .outside) :
    ∃ q, (s q).entries.length < (s r).entries.length := by
  obtain ⟨m, -, hmin⟩ := Finset.exists_min_image Finset.univ
    (fun q => (s q).waves) ⟨r, Finset.mem_univ r⟩
  have hleast : ∃ i, ∃ hi : i < n, (s ⟨i, hi⟩).waves = (s m).waves :=
    ⟨m, m.isLt, rfl⟩
  classical
  obtain ⟨hi, heq⟩ := Nat.find_spec hleast
  set q : Fin n := ⟨Nat.find hleast, hi⟩ with hq
  have hfirst : q.val ≠ 0 → (s q).waves < (s (q - 1)).waves := by
    intro hzero
    have hval : (q - 1).val = q.val - 1 :=
      Fin.val_sub_one_of_ne_zero (by rwa [ne_eq, ← Fin.val_eq_zero_iff])
    have hqval : q.val = Nat.find hleast := rfl
    have hne := Nat.find_min hleast (m := (q - 1).val) (by omega)
    rw [not_exists] at hne
    have hle := hmin (q - 1) (Finset.mem_univ _)
    have hne' : (s (q - 1)).waves ≠ (s m).waves := hne (q - 1).isLt
    omega
  have hout : ∀ u, (s q).caller u = .outside := by
    intro u
    by_contra hu
    obtain ⟨hwaves, -⟩ := h.waves_of_blocked hblocked hlt hu
    have hle := hmin (q - 1) (Finset.mem_univ _)
    by_cases hzero : q.val = 0
    · rw [if_pos hzero] at hwaves
      omega
    · have hdrop := hfirst hzero
      rw [if_neg hzero] at hwaves
      omega
  have hidle : (s q).waves = 2 * (s q).entries.length := by
    rcases h.ok q with hidle | ⟨u, hbusy⟩
    · exact hidle.waves_eq
    · have hpos := hbusy.position
      rw [hout u] at hpos
      exact hpos.elim
  obtain ⟨-, hbehind⟩ := h.waves_of_blocked hblocked hlt hcaller
  have hle := hmin (r - 1) (Finset.mem_univ _)
  exact ⟨q, by omega⟩

/-! ## Budgets -/

omit [NeZero n] [DecidableEq T] in
theorem sum_update {ι β : Type} [Fintype ι] [DecidableEq ι] (g : β → ℕ)
    (f : ι → β) (i : ι) (b : β) :
    ∑ j, g (Function.update f i b j) + g (f i) = ∑ j, g (f j) + g b := by
  have hother : ∑ j ∈ Finset.univ.erase i, g (Function.update f i b j) =
      ∑ j ∈ Finset.univ.erase i, g (f j) :=
    Finset.sum_congr rfl fun j hj => by
      rw [Function.update_of_ne (Finset.ne_of_mem_erase hj)]
  rw [← Finset.add_sum_erase _ _ (Finset.mem_univ i), hother,
    ← Finset.add_sum_erase _ (fun j => g (f j)) (Finset.mem_univ i),
    Function.update_self]
  omega

/-- The steps that are left of a call, those of the network for it included. -/
def Caller.left : Caller → ℕ
  | .outside => 0
  | .entered => 11
  | .loaded _ => 10
  | .inside rest => 3 * writes rest + waits rest + 1
  | .posted _ rest => 3 * writes rest + waits rest + 3

variable [Fintype T]

def Worker.left (w : Worker T) : ℕ :=
  ∑ t, (w.caller t).left + w.inFlight.length

def Ring.left (s : Ring n T) : ℕ := ∑ r, (s r).left

/-- The calls that have been made on all ranks. -/
def Ring.calls (s : Ring n T) : ℕ := ∑ r, (s r).entries.length

omit [NeZero n] in
/-- A step of a rank is paid for; a call brings twelve steps. -/
theorem Worker.left_step {rank : ℕ} {w w' : Worker T} {a : LocalAction T}
    (hstep : w.step rank a = some w') :
    w'.left + 1 + 12 * w.entries.length ≤ w.left + 12 * w'.entries.length := by
  have hgoto : ∀ t c, ∑ u, (Function.update w.caller t c u).left +
      (w.caller t).left = ∑ u, (w.caller u).left + c.left :=
    fun t c => sum_update Caller.left w.caller t c
  cases a with
  | enter t =>
      simp only [Worker.step] at hstep
      split at hstep <;> cases hstep
      next hcaller =>
      have hsum := hgoto t .entered
      rw [hcaller] at hsum
      simp only [Worker.left, Worker.goto, List.length_append, List.length_singleton,
        Caller.left] at hsum ⊢
      omega
  | load t =>
      simp only [Worker.step] at hstep
      split at hstep <;> cases hstep
      next hcaller =>
      have hsum := hgoto t (.loaded w.rdbMySeq)
      rw [hcaller] at hsum
      simp only [Worker.left, Worker.goto, Caller.left] at hsum ⊢
      omega
  | store t =>
      simp only [Worker.step] at hstep
      split at hstep <;> cases hstep
      next seq hcaller =>
      have hsum := hgoto t (.inside (rdbBarrier rank (seq + 1)))
      have hprogram : 3 * writes (rdbBarrier rank (seq + 1)) +
          waits (rdbBarrier rank (seq + 1)) = 8 := by
        unfold rdbBarrier
        split <;> rfl
      rw [hcaller] at hsum
      simp only [Worker.left, Worker.goto, Caller.left, hprogram] at hsum ⊢
      omega
  | exec t =>
      simp only [Worker.step] at hstep
      split at hstep
      next buf value rest hcaller =>
        cases hstep
        have hsum := hgoto t (.posted buf rest)
        rw [hcaller] at hsum
        simp only [Worker.left, Worker.goto, Worker.fill, Caller.left, writes, waits]
          at hsum ⊢
        omega
      next target rest hcaller =>
        split at hstep <;> cases hstep
        have hsum := hgoto t (.inside rest)
        rw [hcaller] at hsum
        simp only [Worker.left, Worker.goto, Caller.left, writes, waits] at hsum ⊢
        omega
      · cases hstep
  | fetch t =>
      simp only [Worker.step] at hstep
      split at hstep <;> cases hstep
      next buf rest hcaller =>
      have hsum := hgoto t (.inside rest)
      rw [hcaller] at hsum
      simp only [Worker.left, Worker.goto, Caller.left, List.length_append,
        List.length_singleton] at hsum ⊢
      omega
  | fail t =>
      simp only [Worker.step] at hstep
      split at hstep <;> cases hstep
      next buf rest hcaller =>
      have hsum := hgoto t (.inside rest)
      rw [hcaller] at hsum
      simp only [Worker.left, Worker.goto, Caller.left] at hsum ⊢
      omega
  | leave t =>
      simp only [Worker.step] at hstep
      split at hstep <;> cases hstep
      next hcaller =>
      have hsum := hgoto t .outside
      rw [hcaller] at hsum
      simp only [Worker.left, Worker.goto, Caller.left, writes, waits] at hsum ⊢
      omega

theorem Ring.left_step {a : Action n T} (hstep : s.step a = some s') :
    s'.left + 1 + 12 * s.calls ≤ s.left + 12 * s'.calls := by
  cases a with
  | «at» r a =>
      obtain ⟨w, hw, rfl⟩ := Option.map_eq_some_iff.mp hstep
      have hlocal := Worker.left_step hw
      have hleft := sum_update Worker.left s r w
      have hcalls := sum_update (fun w : Worker T => w.entries.length) s r w
      unfold Ring.left Ring.calls
      omega
  | deliver r i =>
      obtain ⟨value, hvalue, rfl⟩ := Option.map_eq_some_iff.mp hstep
      have hi : i < (s r).inFlight.length := (List.getElem?_eq_some_iff.mp hvalue).1
      have hcalls : (s.deliver r i value).calls = s.calls :=
        Finset.sum_congr rfl fun q _ => by rw [Ring.entries_deliver]
      have hleft : (s.deliver r i value).left < s.left := by
        refine Finset.sum_lt_sum (fun q _ => ?_) ⟨r, Finset.mem_univ r, ?_⟩
        · rw [Ring.deliver_apply]
          refine Nat.add_le_add_left ?_ _
          dsimp only
          split
          · exact List.length_eraseIdx_le _ _
          · exact le_rfl
        · rw [Ring.deliver_apply]
          refine Nat.add_lt_add_left ?_ _
          dsimp only
          rw [if_pos rfl, List.length_eraseIdx_of_lt hi]
          omega
      omega

theorem Ring.left_run {acts : List (Action n T)}
    (hrun : run Ring.step s acts = some s') :
    acts.length + s'.left + 12 * s.calls ≤ s.left + 12 * s'.calls := by
  induction acts generalizing s with
  | nil =>
      obtain rfl := Option.some.inj hrun
      exact (congrArg (· + _) (Nat.zero_add _)).le
  | cons a acts ih =>
      obtain ⟨s₁, hstep, hrest⟩ := Option.bind_eq_some_iff.mp hrun
      have hfirst := Ring.left_step hstep
      have hlast := ih hrest
      rw [List.length_cons]
      omega

/-! ## Completion -/

omit [Fintype T] in
/-- A step of a call that has been made is always serialised, and the ring stays
live. -/
theorem Ring.Live.goOn (h : s.Live) (hlt : ∀ r, (s r).entries.length < 2 ^ 63)
    {a : Action n T} (ha : a.goesOn = true) (hstep : s.step a = some s') :
    s'.Live ∧ s'.entries = s.entries := by
  have hfail : a.fails = false := by
    unfold Action.goesOn at ha
    unfold Action.fails
    split at ha <;> simp_all
  have hserial : Serialised s a := by
    unfold Action.goesOn at ha
    unfold Serialised
    split at ha <;> simp_all
  refine ⟨h.step hlt hserial hfail hstep, ?_⟩
  rcases Ring.entries_step hstep with heq | ⟨r, t, rfl, -⟩
  · exact heq
  · cases ha

omit [Fintype T] in
/-- No rank has entered more calls than at the end of the run. -/
theorem Ring.Live.run {acts : List (Action n T)}
    (hrun : run Ring.step .init acts = some s)
    (hsteps : AllSteps Ring.step (fun s a => Serialised s a ∧ a.fails = false) .init
      acts)
    (hlt : ∀ r, (s r).entries.length < 2 ^ 63) : s.Live := by
  refine hsteps.invariant (I := fun s => (∀ r, (s r).entries.length < 2 ^ 63) → s.Live)
    (fun s a s' ha hstep hlive hlt' => ?_) hrun (fun _ => .init) hlt
  have hlt₀ : ∀ r, (s r).entries.length < 2 ^ 63 :=
    fun r => (Ring.entries_le_step hstep r).trans_lt (hlt' r)
  exact (hlive hlt₀).step hlt₀ ha.1 ha.2 hstep

/-- In a run with fewer than `2 ^ 63` serialised calls on each rank and without
failed writes, each call accounts for at most twelve steps; a call can only be
unable to go on while some rank has not called as often; and once all ranks have
called equally often, all their calls return. -/
theorem rdbBarrier_completes (acts : List (Action n T)) (s : Ring n T)
    (hrun : run Ring.step .init acts = some s)
    (hsteps : AllSteps Ring.step (fun s a => Serialised s a ∧ a.fails = false) .init
      acts)
    (hlt : ∀ r, (s r).entries.length < 2 ^ 63) :
    acts.length ≤ 12 * s.calls ∧
      (s.Blocked → ∀ r t, (s r).caller t ≠ .outside →
        ∃ q, (s q).entries.length < (s r).entries.length) ∧
      ((∀ r q, (s r).entries.length = (s q).entries.length) →
        ∃ acts' s', (∀ a ∈ acts', a.goesOn = true) ∧
          run Ring.step s acts' = some s' ∧
          ∀ r, (s' r).exits = (s r).entries) := by
  have hlive := Ring.Live.run hrun hsteps hlt
  refine ⟨?_, fun hblocked r t hcaller => hlive.exists_missing hblocked hlt hcaller,
    fun hequal => ?_⟩
  · have hle := Ring.left_run hrun
    have hleft : (Ring.init : Ring n T).left = 0 := by
      simp [Ring.left, Worker.left, Ring.init, Worker.init, Caller.left]
    have hcalls : (Ring.init : Ring n T).calls = 0 := by
      simp [Ring.calls, Ring.init, Worker.init]
    omega
  · obtain ⟨acts', s', hacts', hrun', ⟨hlive', hsame⟩, hblocked⟩ :=
      exists_blocked (Q := fun a : Action n T => a.goesOn = true)
        (I := fun s' : Ring n T => s'.Live ∧ s'.entries = s.entries)
        (μ := Ring.left) (fun s₁ a s₂ ha hstep hI => by
          have hlt₁ : ∀ r, (s₁ r).entries.length < 2 ^ 63 := by
            intro r
            rw [show (s₁ r).entries = (s r).entries from congrFun hI.2 r]
            exact hlt r
          obtain ⟨hlive₂, hsame₂⟩ := hI.1.goOn hlt₁ ha hstep
          have hspent := Ring.left_step hstep
          have hcalls : s₂.calls = s₁.calls :=
            Finset.sum_congr rfl fun r _ =>
              congrArg List.length (congrFun hsame₂ r)
          exact ⟨⟨hlive₂, hsame₂.trans hI.2⟩, by omega⟩) ⟨hlive, rfl⟩
    refine ⟨acts', s', hacts', hrun', fun r => ?_⟩
    have hentries : ∀ q, (s' q).entries = (s q).entries := congrFun hsame
    have hout : ∀ t, (s' r).caller t = .outside := by
      intro t
      by_contra hcaller
      have hlt' : ∀ q, (s' q).entries.length < 2 ^ 63 := by
        intro q
        rw [hentries]
        exact hlt q
      obtain ⟨q, hq⟩ := hlive'.exists_missing hblocked hlt' hcaller
      rw [hentries, hentries, hequal q r] at hq
      exact Nat.lt_irrefl _ hq
    rw [hlive'.inv.exits_of_enter hout, hentries]

end Ring

/-! ## Calls by one thread -/

section Single

variable {n : ℕ} [NeZero n] {s s' : Ring n T} [DecidableEq T]

/-- The calls that an action makes on rank `q`. -/
def Action.entersAt (q : Fin n) : Action n T → ℕ
  | .at r (.enter _) => if r = q then 1 else 0
  | _ => 0

/-- The returns of an action on rank `q`. -/
def Action.leavesAt (q : Fin n) : Action n T → ℕ
  | .at r (.leave _) => if r = q then 1 else 0
  | _ => 0

omit [NeZero n] in
theorem Worker.calls_step {rank : ℕ} {w w' : Worker T} {a : LocalAction T}
    (hstep : w.step rank a = some w') (r : Fin n) :
    w'.entries.length = w.entries.length + (Action.at r a).entersAt r ∧
      w'.exits.length = w.exits.length + (Action.at r a).leavesAt r := by
  cases a <;> simp only [Worker.step] at hstep <;> split at hstep <;>
    try split at hstep
  all_goals cases hstep
  all_goals simp [Action.entersAt, Action.leavesAt, Worker.goto, Worker.fill]

omit [NeZero n] [DecidableEq T] in
theorem Action.entersAt_of_ne {r q : Fin n} (hq : q ≠ r) (a : LocalAction T) :
    (Action.at r a).entersAt q = 0 ∧ (Action.at r a).leavesAt q = 0 := by
  cases a <;> simp [Action.entersAt, Action.leavesAt, Ne.symm hq]

omit [NeZero n] [DecidableEq T] in
theorem Action.entersAt_eq_zero {a : Action n T} (h : ∀ r t, a ≠ .at r (.enter t))
    (q : Fin n) : a.entersAt q = 0 := by
  unfold Action.entersAt
  split
  next r t => exact absurd rfl (h r t)
  · rfl

omit [NeZero n] [DecidableEq T] in
theorem Action.leavesAt_eq_zero {a : Action n T} (h : ∀ r t, a ≠ .at r (.leave t))
    (q : Fin n) : a.leavesAt q = 0 := by
  unfold Action.leavesAt
  split
  next r t => exact absurd rfl (h r t)
  · rfl

/-- A step makes the calls and the returns of its action and no others. -/
theorem Ring.calls_step {a : Action n T} (hstep : s.step a = some s') (q : Fin n) :
    (s' q).entries.length = (s q).entries.length + a.entersAt q ∧
      (s' q).exits.length = (s q).exits.length + a.leavesAt q := by
  cases a with
  | «at» r a =>
      obtain ⟨w, hw, rfl⟩ := Option.map_eq_some_iff.mp hstep
      by_cases hq : q = r
      · subst hq
        rw [Function.update_self]
        exact Worker.calls_step hw q
      · rw [Function.update_of_ne hq, (Action.entersAt_of_ne hq a).1,
          (Action.entersAt_of_ne hq a).2]
        exact ⟨rfl, rfl⟩
  | deliver r i =>
      obtain ⟨value, -, rfl⟩ := Option.map_eq_some_iff.mp hstep
      rw [Ring.deliver_apply]
      exact ⟨rfl, rfl⟩

/-- The calls of the only thread have returned, but for the one that it is in. -/
def Worker.Single (w : Worker Unit) : Prop :=
  w.exits.length + (if w.caller () = .outside then 0 else 1) = w.entries.length

theorem Worker.Single.step {rank : ℕ} {w w' : Worker Unit} {a : LocalAction Unit}
    (h : w.Single) (hstep : w.step rank a = some w') : w'.Single := by
  unfold Worker.Single at h ⊢
  cases a <;> simp only [Worker.step] at hstep <;> split at hstep <;>
    try split at hstep
  all_goals cases hstep
  all_goals
    simp_all [Worker.goto, Worker.fill]

theorem Ring.single_step {s s' : Ring n Unit} (h : ∀ r, (s r).Single)
    {a : Action n Unit} (hstep : s.step a = some s') (r : Fin n) : (s' r).Single := by
  cases a with
  | «at» q a =>
      obtain ⟨w, hw, rfl⟩ := Option.map_eq_some_iff.mp hstep
      by_cases hr : r = q
      · subst hr
        rw [Function.update_self]
        exact (h r).step hw
      · rw [Function.update_of_ne hr]
        exact h r
  | deliver q i =>
      obtain ⟨value, -, rfl⟩ := Option.map_eq_some_iff.mp hstep
      rw [Ring.deliver_apply]
      exact h r

end Single

/-- Three ranks call once, `c` after the gather wave of `a` is on its way. -/
def callInTurn (a b c : Fin n) : List (Action n Unit) :=
  call a ++ call b ++ [.at a (.exec ()), .at a (.fetch ())] ++ call c

theorem rdbBarrier_completes_three :
    ∃ s acts' s', run Ring.step (.init : Ring 3 Unit) (callInTurn 0 1 2) = some s ∧
      run Ring.step s acts' = some s' ∧ ∀ r, (s' r).exits = [()] := by
  have hentries : (run Ring.step (.init : Ring 3 Unit) (callInTurn 0 1 2)).map
      (fun s => decide (∀ r, (s r).entries = [()])) = some true := by
    decide
  obtain ⟨s, hrun, hcalled⟩ := Option.map_eq_some_iff.mp hentries
  have hcalled := of_decide_eq_true hcalled
  have hsteps : AllSteps Ring.step (fun s a => Serialised s a ∧ a.fails = false)
      (.init : Ring 3 Unit) (callInTurn 0 1 2) := by
    decide
  obtain ⟨-, -, hcompletes⟩ := rdbBarrier_completes (callInTurn 0 1 2) s hrun hsteps
    fun r => by rw [hcalled r]; decide
  obtain ⟨acts', s', -, hrun', hexits⟩ :=
    hcompletes fun r q => by rw [hcalled r, hcalled q]
  exact ⟨s, acts', s', hrun, hrun', fun r => (hexits r).trans (hcalled r)⟩

end SmartNic.Barrier
