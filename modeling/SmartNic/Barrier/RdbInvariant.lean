import SmartNic.Barrier.Rdb

/-!
# One rank in the RDB barrier

A rank that has stored `2 k - 1` and `2 k` in its send buffers has forwarded
both waves of its `k`-th barrier.  The invariant ties the waves that a rank has
forwarded to its position in `rdb_barrier` and to the waves of the previous
rank, the only one whose writes its slot can hold.
-/

namespace SmartNic.Barrier

/-! ## The program of one call -/

/-- The waits that remain. -/
def waits : List Instr → ℕ
  | [] => 0
  | .waitLocalSlot _ :: rest => waits rest + 1
  | .writeNext _ _ :: rest => waits rest

/-- The writes that remain. -/
def writes : List Instr → ℕ
  | [] => 0
  | .waitLocalSlot _ :: rest => writes rest
  | .writeNext _ _ :: rest => writes rest + 1

/-- Call number `k` of a rank runs with sequence number `k`. -/
def callProgram (rank k : ℕ) : List Instr := rdbBarrier rank (UInt64.ofNat k)

section Program

variable {rank k : ℕ} {rest : List Instr}

theorem toNat_gatherTarget (hk : 0 < k) (hlt : k < 2 ^ 63) :
    (2 * UInt64.ofNat k - 1 : UInt64).toNat = 2 * k - 1 := by
  rw [UInt64.toNat_sub, UInt64.toNat_mul, UInt64.toNat_ofNat']
  simp only [UInt64.reduceToNat]
  omega

theorem toNat_releaseTarget (hlt : k < 2 ^ 63) :
    (2 * UInt64.ofNat k : UInt64).toNat = 2 * k := by
  rw [UInt64.toNat_mul, UInt64.toNat_ofNat']
  simp only [UInt64.reduceToNat]
  omega

/-- The five positions of a call. -/
theorem suffix_callProgram (h : rest <:+ callProgram rank k) :
    rest = callProgram rank k ∨ rest = (callProgram rank k).drop 1 ∨
      rest = (callProgram rank k).drop 2 ∨
      rest = (callProgram rank k).drop 3 ∨ rest = [] := by
  have hlen : (callProgram rank k).length = 4 := by
    unfold callProgram rdbBarrier
    split <;> rfl
  have hle : rest.length ≤ 4 := hlen ▸ h.length_le
  rw [List.suffix_iff_eq_drop, hlen] at h
  obtain hrest | hrest | hrest | hrest | hrest :
      rest.length = 4 ∨ rest.length = 3 ∨ rest.length = 2 ∨
        rest.length = 1 ∨ rest.length = 0 := by omega
  · exact .inl (by simpa [hrest] using h)
  · exact .inr (.inl (by simpa [hrest] using h))
  · exact .inr (.inr (.inl (by simpa [hrest] using h)))
  · exact .inr (.inr (.inr (.inl (by simpa [hrest] using h))))
  · exact .inr (.inr (.inr (.inr (List.length_eq_zero_iff.mp hrest))))

/-- A wait that is reached asks for the number of waves that the waits behind
it leave. -/
theorem wait_target {target : UInt64}
    (h : (.waitLocalSlot target :: rest) <:+ callProgram rank k)
    (hk : 0 < k) (hlt : k < 2 ^ 63) :
    target.toNat + waits rest = 2 * k := by
  have hgather := toNat_gatherTarget hk hlt
  have hrelease := toNat_releaseTarget hlt
  have hpos := suffix_callProgram h
  unfold callProgram rdbBarrier at hpos
  split at hpos <;>
    simp only [List.drop, List.cons.injEq, reduceCtorEq, false_and, false_or,
      or_false, Instr.waitLocalSlot.injEq] at hpos <;>
    rcases hpos with ⟨rfl, rfl⟩ | ⟨rfl, rfl⟩ <;>
    simp only [waits, hgather, hrelease] <;> omega

/-- A write that is reached stores the number of waves that the writes behind
it leave. -/
theorem write_value {buf : SendBuf} {value : UInt64}
    (h : (.writeNext buf value :: rest) <:+ callProgram rank k)
    (hk : 0 < k) (hlt : k < 2 ^ 63) :
    value.toNat + writes rest = 2 * k := by
  have hgather := toNat_gatherTarget hk hlt
  have hrelease := toNat_releaseTarget hlt
  have hpos := suffix_callProgram h
  unfold callProgram rdbBarrier at hpos
  split at hpos <;>
    simp only [List.drop, List.cons.injEq, reduceCtorEq, false_and, false_or,
      or_false, Instr.writeNext.injEq] at hpos <;>
    rcases hpos with ⟨⟨rfl, rfl⟩, rfl⟩ | ⟨⟨rfl, rfl⟩, rfl⟩ <;>
    simp only [writes, hgather, hrelease] <;> omega

/-- A rank waits before it writes; rank 0 is one wait late. -/
theorem waits_le (h : rest <:+ callProgram rank k) :
    waits rest ≤ writes rest + if rank = 0 then 1 else 0 := by
  have hpos := suffix_callProgram h
  unfold callProgram rdbBarrier at hpos
  split at hpos <;> rename_i hrank <;>
    simp only [List.drop] at hpos <;>
    rcases hpos with rfl | rfl | rfl | rfl | rfl <;>
    simp [waits, writes, hrank]

theorem writes_le (h : rest <:+ callProgram rank k) : writes rest ≤ 2 := by
  have hpos := suffix_callProgram h
  unfold callProgram rdbBarrier at hpos
  split at hpos <;>
    simp only [List.drop] at hpos <;>
    rcases hpos with rfl | rfl | rfl | rfl | rfl <;>
    simp [writes]

theorem waits_callProgram : waits (callProgram rank k) = 2 := by
  unfold callProgram rdbBarrier
  split <;> rfl

theorem writes_callProgram : writes (callProgram rank k) = 2 := by
  unfold callProgram rdbBarrier
  split <;> rfl

end Program

/-! ## One worker -/

section Worker

/-- The waves that a rank has forwarded: the larger of its send buffers. -/
def Worker.waves (w : Worker T) : ℕ := max w.sendA.toNat w.sendB.toNat

/-- No thread of the rank is in the barrier, and all calls have returned;
`prev` is the number of waves of the previous rank. -/
structure Worker.Idle (prev : ℕ) (w : Worker T) : Prop where
  outside : ∀ t, w.caller t = .outside
  exits_eq : w.exits = w.entries
  seq_eq : w.rdbMySeq = UInt64.ofNat w.entries.length
  waves_eq : w.waves = 2 * w.entries.length
  prev_le : 2 * w.entries.length ≤ prev

/-- Where the thread of the `k`-th call can be. -/
def Worker.Position (rank prev : ℕ) (w : Worker T) (k : ℕ) : Caller → Prop
  | .outside => False
  | .entered =>
      w.rdbMySeq = UInt64.ofNat (k - 1) ∧ w.waves + 2 = 2 * k ∧
        2 * k ≤ prev + 2
  | .loaded seq =>
      seq = UInt64.ofNat (k - 1) ∧ w.waves + 2 = 2 * k ∧ 2 * k ≤ prev + 2
  | .inside rest | .posted _ rest =>
      w.rdbMySeq = UInt64.ofNat k ∧ rest <:+ callProgram rank k ∧
        w.waves + writes rest = 2 * k ∧ 2 * k ≤ prev + waits rest

/-- The thread `t` is in the barrier, alone, with the last call. -/
structure Worker.Busy (rank prev : ℕ) (w : Worker T) (t : T) : Prop where
  alone : ∀ u, u ≠ t → w.caller u = .outside
  entries_eq : w.entries = w.exits ++ [t]
  position : w.Position rank prev w.entries.length (w.caller t)

/-- A worker whose calls are serialised. -/
def Worker.Ok (rank prev : ℕ) (w : Worker T) : Prop :=
  w.Idle prev ∨ ∃ t, w.Busy rank prev t

variable {rank prev prev' : ℕ} {w w' : Worker T}

theorem Worker.Position.mono {k : ℕ} {c : Caller}
    (h : w.Position rank prev k c) (hle : prev ≤ prev') :
    w.Position rank prev' k c := by
  cases c with
  | outside => exact h
  | entered => exact ⟨h.1, h.2.1, by have := h.2.2; omega⟩
  | loaded seq => exact ⟨h.1, h.2.1, by have := h.2.2; omega⟩
  | inside rest => exact ⟨h.1, h.2.1, h.2.2.1, by have := h.2.2.2; omega⟩
  | posted buf rest => exact ⟨h.1, h.2.1, h.2.2.1, by have := h.2.2.2; omega⟩

/-- The previous rank only adds waves. -/
theorem Worker.Ok.mono (h : w.Ok rank prev) (hle : prev ≤ prev') :
    w.Ok rank prev' := by
  rcases h with hidle | ⟨t, hbusy⟩
  · exact .inl { hidle with prev_le := hidle.prev_le.trans hle }
  · exact .inr ⟨t, { hbusy with position := hbusy.position.mono hle }⟩

/-- A call has forwarded none, one or both of its waves, and no more than the
previous rank has; rank 0 may be one wave ahead of it. -/
theorem Worker.Position.bounds {k : ℕ} {c : Caller}
    (h : w.Position rank prev k c) :
    2 * k ≤ w.waves + 2 ∧ w.waves ≤ 2 * k ∧
      w.waves ≤ prev + if rank = 0 then 1 else 0 := by
  cases c with
  | outside => exact h.elim
  | entered =>
      obtain ⟨-, hwaves, hprev⟩ := h
      omega
  | loaded seq =>
      obtain ⟨-, hwaves, hprev⟩ := h
      omega
  | inside rest =>
      obtain ⟨-, hsuffix, hwaves, hprev⟩ := h
      have hwaits := waits_le hsuffix
      have hwrites := writes_le hsuffix
      omega
  | posted buf rest =>
      obtain ⟨-, hsuffix, hwaves, hprev⟩ := h
      have hwaits := waits_le hsuffix
      have hwrites := writes_le hsuffix
      omega

/-- A rank returns from its calls in order. -/
theorem Worker.Ok.prefix_exits (h : w.Ok rank prev) :
    w.exits <+: w.entries := by
  rcases h with hidle | ⟨t, hbusy⟩
  · rw [hidle.exits_eq]
  · rw [hbusy.entries_eq]
    exact List.prefix_append _ _

/-- The slot and the writes in flight do not matter to the order. -/
theorem Worker.Ok.network (h : w.Ok rank prev) (slot : UInt64)
    (inFlight : List UInt64) :
    Worker.Ok rank prev
      { w with rdbLocalSlot := slot, inFlight := inFlight } := by
  rcases h with hidle | ⟨t, hbusy⟩
  · exact .inl ⟨hidle.outside, hidle.exits_eq, hidle.seq_eq, hidle.waves_eq,
      hidle.prev_le⟩
  · exact .inr ⟨t, hbusy.alone, hbusy.entries_eq, hbusy.position⟩

theorem Worker.Ok.waves_le (h : w.Ok rank prev) :
    w.waves ≤ prev + if rank = 0 then 1 else 0 := by
  rcases h with hidle | ⟨t, hbusy⟩
  · have hwaves := hidle.waves_eq
    have hprev := hidle.prev_le
    omega
  · exact hbusy.position.bounds.2.2

/-- Every call that has returned left two waves, and no call leaves more. -/
theorem Worker.Ok.waves_bounds (h : w.Ok rank prev) :
    2 * w.exits.length ≤ w.waves ∧ w.waves ≤ 2 * w.entries.length := by
  rcases h with hidle | ⟨t, hbusy⟩
  · rw [hidle.exits_eq, hidle.waves_eq]
    omega
  · have hbounds := hbusy.position.bounds
    have hentries := congrArg List.length hbusy.entries_eq
    rw [List.length_append, List.length_singleton] at hentries
    omega

theorem Worker.Busy.entries_pos {t : T} (h : w.Busy rank prev t) :
    0 < w.entries.length := by
  rw [h.entries_eq, List.length_append, List.length_singleton]
  omega

/-- What every step of a worker adds to: its waves and its writes in flight,
none of which carries more than the waves. -/
structure Worker.Grows (w w' : Worker T) : Prop where
  waves_le : w.waves ≤ w'.waves
  slot_eq : w'.rdbLocalSlot = w.rdbLocalSlot
  inFlight_le : (∀ v ∈ w.inFlight, v.toNat ≤ w.waves) →
    ∀ v ∈ w'.inFlight, v.toNat ≤ w'.waves

theorem Worker.Grows.of_eq (hwaves : w'.waves = w.waves)
    (hslot : w'.rdbLocalSlot = w.rdbLocalSlot)
    (hflight : w'.inFlight = w.inFlight) : w.Grows w' where
  waves_le := hwaves.ge
  slot_eq := hslot
  inFlight_le h := by
    rw [hflight, hwaves]
    exact h

theorem Worker.sendBuf_le (w : Worker T) (buf : SendBuf) :
    (w.sendBuf buf).toNat ≤ w.waves := by
  cases buf with
  | a => exact Nat.le_max_left _ _
  | b => exact Nat.le_max_right _ _

/-- Storing a value above all waves makes it the number of waves. -/
theorem Worker.waves_fill {buf : SendBuf} {value : UInt64}
    (h : w.waves ≤ value.toNat) : (w.fill buf value).waves = value.toNat := by
  unfold Worker.waves at h ⊢
  have ha := (Nat.max_le.mp h).1
  have hb := (Nat.max_le.mp h).2
  cases buf with
  | a => exact Nat.max_eq_left hb
  | b => exact Nat.max_eq_right ha

/-! ### Steps of a worker -/

variable [DecidableEq T] {t : T}

/-- Only the calling thread is not outside. -/
theorem Worker.Ok.busy (h : w.Ok rank prev) {c : Caller}
    (hcaller : w.caller t = c) (hc : c ≠ .outside) : w.Busy rank prev t := by
  rcases h with hidle | ⟨u, hbusy⟩
  · exact absurd (hcaller ▸ hidle.outside t) hc
  · by_cases hu : t = u
    · exact hu ▸ hbusy
    · exact absurd (hcaller ▸ hbusy.alone t hu) hc

/-- The calling thread moves on to another position. -/
theorem Worker.Busy.goto (h : w.Busy rank prev t) {c : Caller}
    (hcaller : w'.caller = Function.update w.caller t c)
    (hentries : w'.entries = w.entries) (hexits : w'.exits = w.exits)
    (hposition : w'.Position rank prev w.entries.length c) :
    w'.Ok rank prev := by
  refine .inr ⟨t, ?_, ?_, ?_⟩
  · intro u hu
    rw [hcaller, Function.update_of_ne hu]
    exact h.alone u hu
  · rw [hentries, hexits]
    exact h.entries_eq
  · rw [hcaller, Function.update_self, hentries]
    exact hposition

section Steps

variable (h : w.Ok rank prev)

include h

theorem Worker.Ok.enter (hserial : ∀ u, w.caller u = .outside)
    (hstep : w.step rank (.enter t) = some w') :
    w'.Ok rank prev ∧ w.Grows w' := by
  have hidle : w.Idle prev := by
    rcases h with hidle | ⟨u, hbusy⟩
    · exact hidle
    · have hpos := hbusy.position
      rw [hserial u] at hpos
      exact hpos.elim
  simp only [Worker.step, hserial t, Option.some.injEq] at hstep
  subst hstep
  have hwaves := hidle.waves_eq
  have hprev := hidle.prev_le
  refine ⟨.inr ⟨t, ?_, ?_, ?_⟩, .of_eq rfl rfl rfl⟩
  · intro u hu
    exact (Function.update_of_ne hu _ _).trans (hserial u)
  · simp only [Worker.goto, hidle.exits_eq]
  · simp only [Worker.goto, Function.update_self, List.length_append,
      List.length_singleton]
    refine ⟨?_, ?_, ?_⟩
    · exact hidle.seq_eq
    · change w.waves + 2 = _
      omega
    · omega

theorem Worker.Ok.load (hstep : w.step rank (.load t) = some w') :
    w'.Ok rank prev ∧ w.Grows w' := by
  simp only [Worker.step] at hstep
  split at hstep <;> cases hstep
  next hcaller =>
  have hbusy := h.busy hcaller (by nofun)
  have hpos := hbusy.position
  rw [hcaller] at hpos
  exact ⟨hbusy.goto rfl rfl rfl hpos, .of_eq rfl rfl rfl⟩

theorem Worker.Ok.store (hstep : w.step rank (.store t) = some w') :
    w'.Ok rank prev ∧ w.Grows w' := by
  simp only [Worker.step] at hstep
  split at hstep <;> cases hstep
  next seq hcaller =>
  have hbusy := h.busy hcaller (by nofun)
  have hentries := hbusy.entries_pos
  have hpos := hbusy.position
  rw [hcaller] at hpos
  obtain ⟨rfl, hwaves, hprev⟩ := hpos
  have hseq : UInt64.ofNat (w.entries.length - 1) + 1 =
      UInt64.ofNat w.entries.length := by
    rw [show (1 : UInt64) = UInt64.ofNat 1 from rfl, ← UInt64.ofNat_add,
      Nat.sub_add_cancel hentries]
  rw [hseq]
  refine ⟨hbusy.goto rfl rfl rfl ⟨rfl, List.suffix_rfl, ?_, ?_⟩,
    .of_eq rfl rfl rfl⟩
  · change w.waves + writes (callProgram rank w.entries.length) = _
    rw [writes_callProgram]
    exact hwaves
  · change _ ≤ prev + waits (callProgram rank w.entries.length)
    rw [waits_callProgram]
    exact hprev

theorem Worker.Ok.exec (hslot : w.rdbLocalSlot.toNat ≤ prev)
    (hlt : w.entries.length < 2 ^ 63)
    (hstep : w.step rank (.exec t) = some w') :
    w'.Ok rank prev ∧ w.Grows w' := by
  simp only [Worker.step] at hstep
  split at hstep
  next buf value rest hcaller =>
    cases hstep
    have hbusy := h.busy hcaller (by nofun)
    have hpos := hbusy.position
    rw [hcaller] at hpos
    obtain ⟨hseq, hsuffix, hwaves, hprev⟩ := hpos
    have hvalue := write_value hsuffix hbusy.entries_pos hlt
    simp only [writes] at hwaves
    have hfill : (w.fill buf value).waves = value.toNat :=
      Worker.waves_fill (by omega)
    constructor
    · refine hbusy.goto rfl rfl rfl ⟨hseq, ?_, ?_, hprev⟩
      · exact (List.suffix_cons _ _).trans hsuffix
      · change (w.fill buf value).waves + writes rest = _
        omega
    · have hgrows : w.waves ≤ (w.fill buf value).waves := by omega
      exact
        { waves_le := hgrows
          slot_eq := rfl
          inFlight_le := fun hflight v hv => (hflight v hv).trans hgrows }
  next target rest hcaller =>
    split at hstep <;> cases hstep
    next hreached =>
    have hbusy := h.busy hcaller (by nofun)
    have hpos := hbusy.position
    rw [hcaller] at hpos
    obtain ⟨hseq, hsuffix, hwaves, hprev⟩ := hpos
    have htarget := wait_target hsuffix hbusy.entries_pos hlt
    have hslot' : target.toNat ≤ w.rdbLocalSlot.toNat := by
      rw [UInt64.lt_iff_toNat_lt] at hreached
      omega
    refine ⟨hbusy.goto rfl rfl rfl ⟨hseq, ?_, hwaves, ?_⟩,
      .of_eq rfl rfl rfl⟩
    · exact (List.suffix_cons _ _).trans hsuffix
    · omega
  · cases hstep

theorem Worker.Ok.fetch (hstep : w.step rank (.fetch t) = some w') :
    w'.Ok rank prev ∧ w.Grows w' := by
  simp only [Worker.step] at hstep
  split at hstep <;> cases hstep
  next buf rest hcaller =>
  have hbusy := h.busy hcaller (by nofun)
  have hpos := hbusy.position
  rw [hcaller] at hpos
  refine ⟨hbusy.goto rfl rfl rfl hpos, le_rfl, rfl, ?_⟩
  intro hflight v hv
  rcases List.mem_append.mp hv with hold | hnew
  · exact hflight v hold
  · rw [List.mem_singleton.mp hnew]
    exact w.sendBuf_le buf

theorem Worker.Ok.fail (hstep : w.step rank (.fail t) = some w') :
    w'.Ok rank prev ∧ w.Grows w' := by
  simp only [Worker.step] at hstep
  split at hstep <;> cases hstep
  next buf rest hcaller =>
  have hbusy := h.busy hcaller (by nofun)
  have hpos := hbusy.position
  rw [hcaller] at hpos
  exact ⟨hbusy.goto rfl rfl rfl hpos, .of_eq rfl rfl rfl⟩

theorem Worker.Ok.leave (hstep : w.step rank (.leave t) = some w') :
    w'.Ok rank prev ∧ w.Grows w' := by
  simp only [Worker.step] at hstep
  split at hstep <;> cases hstep
  next hcaller =>
  have hbusy := h.busy hcaller (by nofun)
  have hpos := hbusy.position
  rw [hcaller] at hpos
  obtain ⟨hseq, -, hwaves, hprev⟩ := hpos
  refine ⟨.inl ⟨?_, hbusy.entries_eq.symm, hseq, hwaves, hprev⟩,
    .of_eq rfl rfl rfl⟩
  intro u
  by_cases hu : u = t
  · subst hu
    exact Function.update_self _ _ _
  · exact (Function.update_of_ne hu _ _).trans (hbusy.alone u hu)

/-- A step of a rank whose calls are serialised keeps its worker in order. -/
theorem Worker.Ok.step (hslot : w.rdbLocalSlot.toNat ≤ prev)
    (hlt : w.entries.length < 2 ^ 63) {a : LocalAction T}
    (hserial : ∀ t, a = .enter t → ∀ u, w.caller u = .outside)
    (hstep : w.step rank a = some w') : w'.Ok rank prev ∧ w.Grows w' := by
  cases a with
  | enter t => exact h.enter (hserial t rfl) hstep
  | load t => exact h.load hstep
  | store t => exact h.store hstep
  | exec t => exact h.exec hslot hlt hstep
  | fetch t => exact h.fetch hstep
  | fail t => exact h.fail hstep
  | leave t => exact h.leave hstep

end Steps

end Worker

end SmartNic.Barrier
