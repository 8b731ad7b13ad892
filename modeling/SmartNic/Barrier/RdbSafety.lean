import SmartNic.Barrier.RdbInvariant
import SmartNic.Library.RingWaves

/-!
# The RDB barrier separates the ranks

The invariants of the ranks, taken round the ring, keep all ranks within one
wave of each other; no rank can then return from a call that another has not
entered.  The sequence numbers have 64 bits and the targets are twice as large,
which ends this after `2 ^ 63 - 1` calls.
-/

namespace SmartNic.Barrier

open SmartNic.Machine SmartNic.RingWaves

section Ring

variable {n : ℕ} [NeZero n]

/-- Every rank is in order with respect to the previous one, and no write that
is on its way to a slot, or that has reached it, carries more than the waves of
the rank that sent it. -/
structure Ring.Inv (s : Ring n T) : Prop where
  ok : ∀ r : Fin n, (s r).Ok r (s (r - 1)).waves
  flight_le : ∀ r, ∀ v ∈ (s r).inFlight, v.toNat ≤ (s r).waves
  slot_le : ∀ r, (s r).rdbLocalSlot.toNat ≤ (s (r - 1)).waves

theorem Ring.Inv.init : (Ring.init : Ring n T).Inv where
  ok _ := .inl
    { outside := fun _ => rfl
      exits_eq := rfl
      seq_eq := rfl
      waves_eq := rfl
      prev_le := Nat.zero_le _ }
  flight_le _ _ hv := by simp [Ring.init, Worker.init] at hv
  slot_le _ := Nat.zero_le _

variable {s s' : Ring n T}

theorem Ring.Inv.ordered (h : s.Inv) : Ordered fun r => (s r).waves where
  follower r hr := by
    have hle := (h.ok r).waves_le
    rwa [if_neg (by rwa [Fin.val_eq_zero_iff])] at hle
  leader := by
    have hle := (h.ok 0).waves_le
    rwa [if_pos (Fin.val_zero n)] at hle

/-- A rank has not returned from more calls than any other rank has entered. -/
theorem Ring.Inv.separated (h : s.Inv) (r q : Fin n) :
    (s r).exits.length ≤ (s q).entries.length := by
  have hr := (h.ok r).waves_bounds.1
  have hq := (h.ok q).waves_bounds.2
  have hwaves := h.ordered.le_add_one r q
  omega

/-- A serialised thread that enters finds all earlier calls of its rank
returned. -/
theorem Ring.Inv.exits_of_enter (h : s.Inv) {r : Fin n}
    (hserial : ∀ t, (s r).caller t = .outside) :
    (s r).exits = (s r).entries := by
  rcases h.ok r with hidle | ⟨t, hbusy⟩
  · exact hidle.exits_eq
  · have hpos := hbusy.position
    rw [hserial t] at hpos
    exact hpos.elim

theorem Ring.Inv.local (h : s.Inv) {r : Fin n} {w : Worker T}
    (hok : w.Ok r (s (r - 1)).waves) (hgrows : (s r).Grows w) :
    Ring.Inv (Function.update s r w) := by
  have hwaves : ∀ q, (s q).waves ≤ (Function.update s r w q).waves := by
    intro q
    by_cases hq : q = r
    · subst hq
      rw [Function.update_self]
      exact hgrows.waves_le
    · rw [Function.update_of_ne hq]
  refine ⟨?_, ?_, ?_⟩
  · intro q
    by_cases hq : q = r
    · subst hq
      rw [Function.update_self]
      exact hok.mono (hwaves _)
    · rw [Function.update_of_ne hq]
      exact (h.ok q).mono (hwaves _)
  · intro q
    by_cases hq : q = r
    · subst hq
      rw [Function.update_self]
      exact hgrows.inFlight_le (h.flight_le q)
    · rw [Function.update_of_ne hq]
      exact h.flight_le q
  · intro q
    refine le_trans ?_ (hwaves (q - 1))
    by_cases hq : q = r
    · subst hq
      rw [Function.update_self, hgrows.slot_eq]
      exact h.slot_le q
    · rw [Function.update_of_ne hq]
      exact h.slot_le q

/-- A slot may hold anything that the previous rank has forwarded. -/
theorem Ring.Inv.slot (h : s.Inv) {r : Fin n} (value : UInt64)
    (hvalue : value.toNat ≤ (s (r - 1)).waves) :
    Ring.Inv (Function.update s r { s r with rdbLocalSlot := value }) := by
  have hwaves : ∀ q, (Function.update s r
      { s r with rdbLocalSlot := value } q).waves = (s q).waves := by
    intro q
    by_cases hq : q = r
    · subst hq
      rw [Function.update_self]
      rfl
    · rw [Function.update_of_ne hq]
  refine ⟨?_, ?_, ?_⟩
  · intro q
    rw [hwaves]
    by_cases hq : q = r
    · subst hq
      rw [Function.update_self]
      exact (h.ok q).network _ _
    · rw [Function.update_of_ne hq]
      exact h.ok q
  · intro q
    rw [hwaves]
    by_cases hq : q = r
    · subst hq
      rw [Function.update_self]
      exact h.flight_le q
    · rw [Function.update_of_ne hq]
      exact h.flight_le q
  · intro q
    rw [hwaves]
    by_cases hq : q = r
    · subst hq
      rw [Function.update_self]
      exact hvalue
    · rw [Function.update_of_ne hq]
      exact h.slot_le q

theorem Ring.entries_deliver (s : Ring n T) (r : Fin n) (i : ℕ)
    (value : UInt64) (q : Fin n) :
    (s.deliver r i value q).entries = (s q).entries := by
  unfold Ring.deliver
  by_cases hq : q = r + 1
  · subst hq
    rw [Function.update_self]
    by_cases hr : r + 1 = r
    · rw [hr, Function.update_self]
    · rw [Function.update_of_ne hr]
  · rw [Function.update_of_ne hq]
    by_cases hr : q = r
    · subst hr
      rw [Function.update_self]
    · rw [Function.update_of_ne hr]

/-- The arrival of a write changes a slot and the writes in flight only. -/
theorem Ring.Inv.deliver (h : s.Inv) {r : Fin n} {i : ℕ} {value : UInt64}
    (hi : (s r).inFlight[i]? = some value) : (s.deliver r i value).Inv := by
  have hsent : value.toNat ≤ (s r).waves :=
    h.flight_le r value (List.mem_of_getElem? hi)
  have hremoved : Ring.Inv (Function.update s r
      { s r with inFlight := (s r).inFlight.eraseIdx i }) := by
    refine h.local ((h.ok r).network _ _) ⟨le_rfl, rfl, ?_⟩
    intro hflight v hv
    exact hflight v (List.mem_of_mem_eraseIdx hv)
  refine hremoved.slot _ ?_
  by_cases hr : r + 1 - 1 = r
  · rw [hr, Function.update_self]
    exact hsent
  · exact absurd (add_sub_cancel_right r 1) hr

variable [DecidableEq T]

theorem Ring.Inv.step (h : s.Inv) {a : Action n T}
    (hlt : ∀ r, (s r).entries.length < 2 ^ 63) (hserial : Serialised s a)
    (hstep : s.step a = some s') : s'.Inv := by
  cases a with
  | «at» r a =>
      obtain ⟨w, hw, rfl⟩ := Option.map_eq_some_iff.mp hstep
      have hserial' : ∀ t, a = .enter t → ∀ u, (s r).caller u = .outside := by
        rintro t rfl
        exact hserial
      obtain ⟨hok, hgrows⟩ :=
        (h.ok r).step (h.slot_le r) (hlt r) hserial' hw
      exact h.local hok hgrows
  | deliver r i =>
      obtain ⟨value, hvalue, rfl⟩ := Option.map_eq_some_iff.mp hstep
      exact h.deliver hvalue

/-! ## Whole runs -/

/-- A step adds at most one call. -/
theorem Worker.entries_step {rank : ℕ} {w w' : Worker T} {a : LocalAction T}
    (hstep : w.step rank a = some w') :
    w'.entries = w.entries ∨ ∃ t, a = .enter t ∧
      w.caller t = .outside ∧ w'.entries = w.entries ++ [t] := by
  cases a <;> simp only [Worker.step] at hstep <;> split at hstep <;>
    try split at hstep
  all_goals cases hstep
  all_goals first
    | exact .inl rfl
    | exact .inr ⟨_, rfl, by assumption, rfl⟩

/-- The calls of all ranks. -/
def Ring.entries (s : Ring n T) (r : Fin n) : List T := (s r).entries

theorem Ring.entries_step {a : Action n T} (hstep : s.step a = some s') :
    s'.entries = s.entries ∨ ∃ r t, a = .at r (.enter t) ∧
      s'.entries = Function.update s.entries r (s.entries r ++ [t]) := by
  cases a with
  | «at» q a =>
      obtain ⟨w, hw, rfl⟩ := Option.map_eq_some_iff.mp hstep
      have hupdate : Ring.entries (Function.update s q w) =
          Function.update s.entries q w.entries := by
        funext r
        unfold Ring.entries
        by_cases hr : r = q
        · subst hr
          rw [Function.update_self, Function.update_self]
        · rw [Function.update_of_ne hr, Function.update_of_ne hr]
      rw [hupdate]
      rcases Worker.entries_step hw with heq | ⟨t, rfl, -, heq⟩
      · left
        rw [heq]
        exact Function.update_eq_self q s.entries
      · exact .inr ⟨q, t, rfl, by rw [heq]; rfl⟩
  | deliver q i =>
      obtain ⟨value, -, rfl⟩ := Option.map_eq_some_iff.mp hstep
      exact .inl (funext (Ring.entries_deliver s q i value))

theorem Ring.entries_le_step {a : Action n T} (hstep : s.step a = some s')
    (q : Fin n) : (s q).entries.length ≤ (s' q).entries.length := by
  change (s.entries q).length ≤ (s'.entries q).length
  rcases Ring.entries_step hstep with heq | ⟨r, t, -, heq⟩
  · rw [heq]
  · rw [heq]
    by_cases hq : q = r
    · subst hq
      rw [Function.update_self, List.length_append]
      exact Nat.le_add_right _ _
    · rw [Function.update_of_ne hq]

/-- The invariant holds and no counter has wrapped, or every rank has entered
the last call before one does. -/
def Ring.Reached (s : Ring n T) : Prop :=
  (s.Inv ∧ ∀ r, (s r).entries.length < 2 ^ 63) ∨
    ∀ r, 2 ^ 63 - 1 ≤ (s r).entries.length

theorem Ring.Reached.step (h : s.Reached) {a : Action n T}
    (hserial : Serialised s a) (hstep : s.step a = some s') :
    s'.Reached := by
  rcases h with ⟨hinv, hlt⟩ | hlast
  · have hinv' := hinv.step hlt hserial hstep
    by_cases hwrap : ∀ r, (s' r).entries.length < 2 ^ 63
    · exact .inl ⟨hinv', hwrap⟩
    · right
      rw [not_forall] at hwrap
      obtain ⟨q, hq⟩ := hwrap
      have hbound := hlt q
      rcases Ring.entries_step hstep with heq | ⟨r, t, rfl, heq⟩
      · exact absurd (congrArg List.length (congrFun heq q)) (by
          unfold Ring.entries
          omega)
      have hexits := congrArg List.length (hinv.exits_of_enter hserial)
      have hr : q = r := by
        by_contra hne
        have hsame := congrFun heq q
        rw [Function.update_of_ne hne] at hsame
        have hlen := congrArg List.length hsame
        unfold Ring.entries at hlen
        omega
      subst hr
      have hnew := congrArg List.length (congrFun heq q)
      rw [Function.update_self, List.length_append,
        List.length_singleton] at hnew
      unfold Ring.entries at hnew
      intro p
      have hsep := hinv.separated q p
      have hle := Ring.entries_le_step hstep p
      omega
  · right
    intro r
    have hr := hlast r
    have hle := Ring.entries_le_step hstep r
    omega

/-- No rank returns from its `k`-th call of `rdb_barrier` before every rank has
entered its `k`-th call, as long as `2 * k` does not wrap. -/
theorem rdbBarrier_separates (acts : List (Action n T)) (s : Ring n T)
    (hrun : run Ring.step .init acts = some s)
    (hserial : AllSteps Ring.step Serialised .init acts)
    (k : ℕ) (hk : k < 2 ^ 63) (r : Fin n) (hreturned : k ≤ (s r).exits.length)
    (q : Fin n) : k ≤ (s q).entries.length := by
  have hinit : (Ring.init : Ring n T).Reached :=
    .inl ⟨.init, fun _ => by simp [Ring.init, Worker.init]⟩
  have hreached : s.Reached :=
    hserial.invariant (fun s a s' hs hstep h => h.step hs hstep) hrun hinit
  rcases hreached with ⟨hinv, -⟩ | hlast
  · have hsep := hinv.separated r q
    omega
  · have hq := hlast q
    omega

end Ring

/-! ## Runs of three ranks -/

/-- A rank calls the barrier and takes its sequence number. -/
def call (r : Fin n) : List (Action n Unit) :=
  [.at r (.enter ()), .at r (.load ()), .at r (.store ())]

/-- A rank forwards a wave to the next one. -/
def forward (r : Fin n) : List (Action n Unit) :=
  [.at r (.exec ()), .at r (.fetch ()), .deliver r 0]

/-- A rank is past a wait. -/
def passWait (r : Fin n) : List (Action n Unit) := [.at r (.exec ())]

/-- A rank returns. -/
def leave (r : Fin n) : List (Action n Unit) := [.at r (.leave ())]

section Three

/-- A worker with one thread and no write in flight. -/
def lone (seq a b slot : UInt64) (c : Caller) (entries exits : List Unit) :
    Worker Unit where
  rdbMySeq := seq
  sendA := a
  sendB := b
  rdbLocalSlot := slot
  inFlight := []
  caller := fun _ => c
  entries := entries
  exits := exits

def three (w₀ w₁ w₂ : Worker Unit) : Ring 3 Unit
  | 0 => w₀
  | 1 => w₁
  | 2 => w₂

section

variable (w₀ w₁ w₂ w : Worker Unit)

theorem three_zero : three w₀ w₁ w₂ 0 = w₀ := rfl

theorem three_one : three w₀ w₁ w₂ 1 = w₁ := rfl

theorem three_two : three w₀ w₁ w₂ 2 = w₂ := rfl

theorem update_three_zero :
    Function.update (three w₀ w₁ w₂) 0 w = three w w₁ w₂ := by
  funext r
  match r with
  | 0 | 1 | 2 => rfl

theorem update_three_one :
    Function.update (three w₀ w₁ w₂) 1 w = three w₀ w w₂ := by
  funext r
  match r with
  | 0 | 1 | 2 => rfl

theorem update_three_two :
    Function.update (three w₀ w₁ w₂) 2 w = three w₀ w₁ w := by
  funext r
  match r with
  | 0 | 1 | 2 => rfl

theorem update_lone (f : Unit → Caller) (c : Caller) :
    Function.update f () c = fun _ => c := by
  funext u
  cases u
  rfl

end

abbrev SerialRun := Leads (Ring.step (n := 3) (T := Unit)) Serialised

variable (seq a b g rl : UInt64) (log log' : List Unit)

/-! One rank moves. -/

section Rank

variable {seq a b slot value : UInt64} {log log' : List Unit} {rest : List Instr}
  {buf : SendBuf} {s : Ring 3 Unit} {r : Fin 3}

theorem leads_call (hr : s r = lone seq a b slot .outside log log') :
    SerialRun s (call r) (Function.update s r
      (lone (seq + 1) a b slot (.inside (rdbBarrier r (seq + 1)))
        (log ++ [()]) log')) := by
  constructor <;>
    simp [call, run, AllSteps, Serialised, Ring.step, Worker.step, Worker.goto,
      hr, lone, update_lone]

theorem leads_passWait (hslot : ¬ slot < value)
    (hr : s r = lone seq a b slot (.inside (.waitLocalSlot value :: rest))
      log log') :
    SerialRun s (passWait r) (Function.update s r
      (lone seq a b slot (.inside rest) log log')) := by
  constructor <;>
    simp [passWait, run, AllSteps, Serialised, Ring.step, Worker.step,
      Worker.goto, hr, hslot, lone, update_lone]

theorem leads_forward
    (hr : s r = lone seq a b slot (.inside (.writeNext buf value :: rest))
      log log') :
    SerialRun s (forward r)
      (Function.update
        (Function.update s r
          ((lone seq a b slot (.inside rest) log log').fill buf value)) (r + 1)
        { s (r + 1) with rdbLocalSlot := value }) := by
  have hne : r + 1 ≠ r := by
    fin_cases r <;> decide
  cases buf <;> constructor <;>
    simp [forward, run, AllSteps, Serialised, Ring.step, Ring.deliver,
      Worker.step, Worker.goto, Worker.fill, Worker.sendBuf, hr, hne, lone,
      update_lone]

theorem leads_leave (hr : s r = lone seq a b slot (.inside []) log log') :
    SerialRun s (leave r) (Function.update s r
      (lone seq a b slot .outside log (log' ++ [()]))) := by
  constructor <;>
    simp [leave, run, AllSteps, Serialised, Ring.step, Worker.step, Worker.goto,
      hr, lone, update_lone]

/-! One of three ranks forwards a wave or is past a wait. -/

theorem forward_zero (w₁ w₂ : Worker Unit) :
    SerialRun
      (three (lone seq a b slot (.inside (.writeNext buf value :: rest)) log log')
        w₁ w₂) (forward 0)
      (three ((lone seq a b slot (.inside rest) log log').fill buf value)
        { w₁ with rdbLocalSlot := value } w₂) := by
  have hrun := leads_forward (three_zero
    (lone seq a b slot (.inside (.writeNext buf value :: rest)) log log') w₁ w₂)
  rw [update_three_zero, zero_add, update_three_one, three_one] at hrun
  exact hrun

theorem forward_one (w₀ w₂ : Worker Unit) :
    SerialRun
      (three w₀ (lone seq a b slot (.inside (.writeNext buf value :: rest)) log log')
        w₂) (forward 1)
      (three w₀ ((lone seq a b slot (.inside rest) log log').fill buf value)
        { w₂ with rdbLocalSlot := value }) := by
  have hrun := leads_forward (three_one w₀
    (lone seq a b slot (.inside (.writeNext buf value :: rest)) log log') w₂)
  have hnext : (1 : Fin 3) + 1 = 2 := rfl
  rw [update_three_one, hnext, update_three_two, three_two] at hrun
  exact hrun

theorem forward_two (w₀ w₁ : Worker Unit) :
    SerialRun
      (three w₀ w₁
        (lone seq a b slot (.inside (.writeNext buf value :: rest)) log log'))
      (forward 2)
      (three { w₀ with rdbLocalSlot := value } w₁
        ((lone seq a b slot (.inside rest) log log').fill buf value)) := by
  have hrun := leads_forward (three_two w₀ w₁
    (lone seq a b slot (.inside (.writeNext buf value :: rest)) log log'))
  have hnext : (2 : Fin 3) + 1 = 0 := rfl
  rw [update_three_two, hnext, update_three_zero, three_zero] at hrun
  exact hrun

theorem passWait_zero (hslot : ¬ slot < value) (w₁ w₂ : Worker Unit) :
    SerialRun
      (three (lone seq a b slot (.inside (.waitLocalSlot value :: rest)) log log')
        w₁ w₂) (passWait 0)
      (three (lone seq a b slot (.inside rest) log log') w₁ w₂) := by
  have hrun := leads_passWait hslot (three_zero
    (lone seq a b slot (.inside (.waitLocalSlot value :: rest)) log log') w₁ w₂)
  rw [update_three_zero] at hrun
  exact hrun

theorem passWait_one (hslot : ¬ slot < value) (w₀ w₂ : Worker Unit) :
    SerialRun
      (three w₀ (lone seq a b slot (.inside (.waitLocalSlot value :: rest)) log log')
        w₂) (passWait 1)
      (three w₀ (lone seq a b slot (.inside rest) log log') w₂) := by
  have hrun := leads_passWait hslot (three_one w₀
    (lone seq a b slot (.inside (.waitLocalSlot value :: rest)) log log') w₂)
  rw [update_three_one] at hrun
  exact hrun

theorem passWait_two (hslot : ¬ slot < value) (w₀ w₁ : Worker Unit) :
    SerialRun
      (three w₀ w₁
        (lone seq a b slot (.inside (.waitLocalSlot value :: rest)) log log'))
      (passWait 2)
      (three w₀ w₁ (lone seq a b slot (.inside rest) log log')) := by
  have hrun := leads_passWait hslot (three_two w₀ w₁
    (lone seq a b slot (.inside (.waitLocalSlot value :: rest)) log log'))
  rw [update_three_two] at hrun
  exact hrun

end Rank

/-- A wave goes round. -/
theorem wave_three (buf : SendBuf) (slot value : UInt64)
    (rest₀ rest₁ rest₂ : List Instr) :
    SerialRun
      (three
        (lone seq a b slot (.inside
          (.writeNext buf value :: .waitLocalSlot value :: rest₀)) log log')
        (lone seq a b slot (.inside
          (.waitLocalSlot value :: .writeNext buf value :: rest₁)) log log')
        (lone seq a b slot (.inside
          (.waitLocalSlot value :: .writeNext buf value :: rest₂)) log log'))
      (forward 0 ++ passWait 1 ++ forward 1 ++ passWait 2 ++ forward 2 ++
        passWait 0)
      (three ((lone seq a b value (.inside rest₀) log log').fill buf value)
        ((lone seq a b value (.inside rest₁) log log').fill buf value)
        ((lone seq a b value (.inside rest₂) log log').fill buf value)) := by
  have hpass : ¬ value < value := UInt64.lt_irrefl value
  exact (((((forward_zero _ _).append (passWait_one hpass _ _)).append
    (forward_one _ _)).append (passWait_two hpass _ _)).append
    (forward_two _ _)).append (passWait_zero hpass _ _)

/-- All ranks call the barrier. -/
theorem call_three :
    SerialRun
      (three (lone seq a b b .outside log log)
        (lone seq a b b .outside log log) (lone seq a b b .outside log log))
      (call 0 ++ call 1 ++ call 2)
      (three
        (lone (seq + 1) a b b (.inside (rdbBarrier 0 (seq + 1)))
          (log ++ [()]) log)
        (lone (seq + 1) a b b (.inside (rdbBarrier 1 (seq + 1)))
          (log ++ [()]) log)
        (lone (seq + 1) a b b (.inside (rdbBarrier 2 (seq + 1)))
          (log ++ [()]) log)) := by
  have hrun := ((leads_call (three_zero (lone seq a b b .outside log log)
    (lone seq a b b .outside log log) (lone seq a b b .outside log log))).append
    (leads_call (r := 1) rfl)).append (leads_call (r := 2) rfl)
  rw [update_three_zero, update_three_one, update_three_two] at hrun
  exact hrun

/-- The gather wave goes round. -/
theorem gather_three (rest₀ rest₁ rest₂ : List Instr) :
    SerialRun
      (three
        (lone seq a b b (.inside
          (.writeNext .a g :: .waitLocalSlot g :: rest₀)) log log')
        (lone seq a b b (.inside
          (.waitLocalSlot g :: .writeNext .a g :: rest₁)) log log')
        (lone seq a b b (.inside
          (.waitLocalSlot g :: .writeNext .a g :: rest₂)) log log'))
      (forward 0 ++ passWait 1 ++ forward 1 ++ passWait 2 ++ forward 2 ++
        passWait 0)
      (three (lone seq g b g (.inside rest₀) log log')
        (lone seq g b g (.inside rest₁) log log')
        (lone seq g b g (.inside rest₂) log log')) :=
  wave_three seq a b log log' .a b g rest₀ rest₁ rest₂

/-- The release wave goes round. -/
theorem release_three :
    SerialRun
      (three
        (lone seq a b a (.inside [.writeNext .b rl, .waitLocalSlot rl])
          log log')
        (lone seq a b a (.inside [.waitLocalSlot rl, .writeNext .b rl])
          log log')
        (lone seq a b a (.inside [.waitLocalSlot rl, .writeNext .b rl])
          log log'))
      (forward 0 ++ passWait 1 ++ forward 1 ++ passWait 2 ++ forward 2 ++
        passWait 0)
      (three (lone seq a rl rl (.inside []) log log')
        (lone seq a rl rl (.inside []) log log')
        (lone seq a rl rl (.inside []) log log')) :=
  wave_three seq a b log log' .b a rl [] [] []

/-- All ranks return. -/
theorem leave_three :
    SerialRun
      (three (lone seq a b b (.inside []) log log')
        (lone seq a b b (.inside []) log log')
        (lone seq a b b (.inside []) log log'))
      (leave 0 ++ leave 1 ++ leave 2)
      (three (lone seq a b b .outside log (log' ++ [()]))
        (lone seq a b b .outside log (log' ++ [()]))
        (lone seq a b b .outside log (log' ++ [()]))) := by
  have hrun := ((leads_leave (three_zero (lone seq a b b (.inside []) log log')
    (lone seq a b b (.inside []) log log')
    (lone seq a b b (.inside []) log log'))).append
    (leads_leave (r := 1) rfl)).append (leads_leave (r := 2) rfl)
  rw [update_three_zero, update_three_one, update_three_two] at hrun
  exact hrun

/-- Any number of whole barriers can be run. -/
theorem calls_three (k : ℕ) :
    ∃ acts a, ∃ log : List Unit, log.length = k ∧
      SerialRun Ring.init acts
        (three
          (lone (UInt64.ofNat k) a (2 * UInt64.ofNat k)
            (2 * UInt64.ofNat k) .outside log log)
          (lone (UInt64.ofNat k) a (2 * UInt64.ofNat k)
            (2 * UInt64.ofNat k) .outside log log)
          (lone (UInt64.ofNat k) a (2 * UInt64.ofNat k)
            (2 * UInt64.ofNat k) .outside log log)) := by
  induction k with
  | zero =>
      refine ⟨[], 0, [], rfl, ?_, trivial⟩
      refine congrArg some ?_
      funext r
      match r with
      | 0 | 1 | 2 => rfl
  | succ k ih =>
      obtain ⟨acts, a, log, hlen, hruns⟩ := ih
      have hcall := call_three (UInt64.ofNat k) a (2 * UInt64.ofNat k) log
      have hgather := gather_three (UInt64.ofNat k + 1) a
        (2 * UInt64.ofNat k) (2 * (UInt64.ofNat k + 1) - 1) (log ++ [()]) log
        [.writeNext .b (2 * (UInt64.ofNat k + 1)),
          .waitLocalSlot (2 * (UInt64.ofNat k + 1))]
        [.waitLocalSlot (2 * (UInt64.ofNat k + 1)),
          .writeNext .b (2 * (UInt64.ofNat k + 1))]
        [.waitLocalSlot (2 * (UInt64.ofNat k + 1)),
          .writeNext .b (2 * (UInt64.ofNat k + 1))]
      have hrelease := release_three (UInt64.ofNat k + 1)
        (2 * (UInt64.ofNat k + 1) - 1) (2 * UInt64.ofNat k)
        (2 * (UInt64.ofNat k + 1)) (log ++ [()]) log
      have hleave := leave_three (UInt64.ofNat k + 1)
        (2 * (UInt64.ofNat k + 1) - 1) (2 * (UInt64.ofNat k + 1))
        (log ++ [()]) log
      have hseq : UInt64.ofNat (k + 1) = UInt64.ofNat k + 1 :=
        UInt64.ofNat_add k 1
      rw [hseq]
      exact ⟨_, _, log ++ [()], by simp [hlen],
        (((hruns.append hcall).append hgather).append hrelease).append
          hleave⟩

theorem rdbBarrier_separates_three :
    ∃ acts, ∃ s : Ring 3 Unit, run Ring.step .init acts = some s ∧
      1 ≤ (s 1).exits.length ∧ 1 ≤ (s 0).entries.length := by
  obtain ⟨acts, a, log, hlen, hruns⟩ := calls_three 1
  exact ⟨acts, _, hruns.run_eq, hlen.ge,
    rdbBarrier_separates acts _ hruns.run_eq hruns.allSteps 1 (by decide) 1
      hlen.ge 0⟩

/-- Two of the three ranks call the barrier. -/
theorem call_two :
    SerialRun
      (three (lone seq a b b .outside log log)
        (lone seq a b b .outside log log) (lone seq a b b .outside log log))
      (call 0 ++ call 1)
      (three
        (lone (seq + 1) a b b (.inside (rdbBarrier 0 (seq + 1)))
          (log ++ [()]) log)
        (lone (seq + 1) a b b (.inside (rdbBarrier 1 (seq + 1)))
          (log ++ [()]) log)
        (lone seq a b b .outside log log)) := by
  have hrun := (leads_call (three_zero (lone seq a b b .outside log log)
    (lone seq a b b .outside log log) (lone seq a b b .outside log log))).append
    (leads_call (r := 1) rfl)
  rw [update_three_zero, update_three_one] at hrun
  exact hrun

/-- The gather wave reaches the slot of a rank that has not called. -/
theorem gather_two (rest₀ rest₁ : List Instr) :
    SerialRun
      (three
        (lone (seq + 1) a b b (.inside (.writeNext .a g :: rest₀)) log' log)
        (lone (seq + 1) a b b (.inside
          (.waitLocalSlot g :: .writeNext .a g :: rest₁)) log' log)
        (lone seq a b b .outside log log))
      (forward 0 ++ passWait 1 ++ forward 1)
      (three (lone (seq + 1) g b b (.inside rest₀) log' log)
        (lone (seq + 1) g b g (.inside rest₁) log' log)
        (lone seq a b g .outside log log)) :=
  ((forward_zero _ _).append
    (passWait_one (UInt64.lt_irrefl g) _ _)).append (forward_one _ _)

/-- A rank whose slot has reached the release target, because that has wrapped
to zero, returns without waiting for the release wave. -/
theorem overtake_two (rest₀ : List Instr) (hwrap : ¬ g < rl) :
    SerialRun
      (three (lone (seq + 1) g b b (.inside rest₀) log' log)
        (lone (seq + 1) g b g (.inside
          [.waitLocalSlot rl, .writeNext .b rl]) log' log)
        (lone seq a b g .outside log log))
      (passWait 1 ++ forward 1 ++ leave 1)
      (three (lone (seq + 1) g b b (.inside rest₀) log' log)
        (lone (seq + 1) g rl g .outside log' (log ++ [()]))
        (lone seq a b rl .outside log log)) := by
  have hleave := leads_leave (three_one
    (lone (seq + 1) g b b (.inside rest₀) log' log)
    (lone (seq + 1) g rl g (.inside []) log' log)
    (lone seq a b rl .outside log log))
  rw [update_three_one] at hleave
  exact ((passWait_one hwrap _ _).append (forward_one _ _)).append hleave

/-- After `2 ^ 63 - 1` barriers of three ranks one rank returns from the next
call before another one has entered it. -/
theorem rdbBarrier_wraps :
    ∃ acts, ∃ s : Ring 3 Unit, run Ring.step .init acts = some s ∧
      AllSteps Ring.step Serialised .init acts ∧
      2 ^ 63 ≤ (s 1).exits.length ∧ ¬ 2 ^ 63 ≤ (s 2).entries.length := by
  obtain ⟨acts, a, log, hlen, hruns⟩ := calls_three (2 ^ 63 - 1)
  have hcall := call_two (UInt64.ofNat (2 ^ 63 - 1)) a
    (2 * UInt64.ofNat (2 ^ 63 - 1)) log
  have hgather := gather_two (UInt64.ofNat (2 ^ 63 - 1)) a
    (2 * UInt64.ofNat (2 ^ 63 - 1))
    (2 * (UInt64.ofNat (2 ^ 63 - 1) + 1) - 1) log (log ++ [()])
    [.waitLocalSlot (2 * (UInt64.ofNat (2 ^ 63 - 1) + 1) - 1),
      .writeNext .b (2 * (UInt64.ofNat (2 ^ 63 - 1) + 1)),
      .waitLocalSlot (2 * (UInt64.ofNat (2 ^ 63 - 1) + 1))]
    [.waitLocalSlot (2 * (UInt64.ofNat (2 ^ 63 - 1) + 1)),
      .writeNext .b (2 * (UInt64.ofNat (2 ^ 63 - 1) + 1))]
  have hovertake := overtake_two (UInt64.ofNat (2 ^ 63 - 1)) a
    (2 * UInt64.ofNat (2 ^ 63 - 1))
    (2 * (UInt64.ofNat (2 ^ 63 - 1) + 1) - 1)
    (2 * (UInt64.ofNat (2 ^ 63 - 1) + 1)) log (log ++ [()])
    [.waitLocalSlot (2 * (UInt64.ofNat (2 ^ 63 - 1) + 1) - 1),
      .writeNext .b (2 * (UInt64.ofNat (2 ^ 63 - 1) + 1)),
      .waitLocalSlot (2 * (UInt64.ofNat (2 ^ 63 - 1) + 1))]
    UInt64.not_lt_zero
  have hall := ((hruns.append hcall).append hgather).append hovertake
  refine ⟨_, _, hall.run_eq, hall.allSteps, ?_, ?_⟩
  · rw [three_one]
    simp [lone, hlen]
  · rw [three_two]
    simp [lone, hlen]

end Three

end SmartNic.Barrier
