import SmartNic.WorkingBuffer.Layout

/-!
# Which uses of the working buffer overlap

The slots do not overlap, nor do the flag pool and the RDB slots, and no two
commands have the same slot.  What is left is what `State.Clear` asks for.
-/

namespace SmartNic.WorkingBuffer

open SmartNic.Codec SmartNic.Completion SmartNic.Machine SmartNic.Ranges

/-! ## The slots that commands have -/

/-- Commands have slots of their own that hold their data, and at most one
thread has `flag_write_mtx`. -/
structure State.Inv (cfg : Config) (s : State) : Prop where
  inUse : ∀ t op pool i, s.op t = some op → op.slot pool = some i →
    s.inUse pool i = true
  distinct : ∀ t u op op' pool i, s.op t = some op → s.op u = some op' →
    op.slot pool = some i → op'.slot pool = some i → t = u
  fits : ∀ t op pool i, s.op t = some op → op.slot pool = some i →
    op.cmd.workingBufferLen ≤ cfg.slotSize
  mutex : ∀ t u op op', s.op t = some op → s.op u = some op' →
    op.isFlag → op'.isFlag → t = u
  flagPool : ∀ t op, s.op t = some op → op.isFlag → cfg.flagPoolEnabled

section Invariant

variable {cfg : Config} {s s' : State}

/-- After an update a thread executes the new command or what it did. -/
theorem update_some_cases {op : Thread → Option Op} {t u : Thread}
    {new op' : Op} (h : Function.update op t (some new) u = some op') :
    (u = t ∧ op' = new) ∨ (u ≠ t ∧ op u = some op') := by
  by_cases hut : u = t
  · subst hut
    rw [Function.update_self] at h
    exact .inl ⟨rfl, (Option.some.inj h).symm⟩
  · rw [Function.update_of_ne hut] at h
    exact .inr ⟨hut, h⟩

theorem update_none_cases {op : Thread → Option Op} {t u : Thread} {op' : Op}
    (h : Function.update op t none u = some op') :
    u ≠ t ∧ op u = some op' := by
  by_cases hut : u = t
  · subst hut
    rw [Function.update_self] at h
    cases h
  · rw [Function.update_of_ne hut] at h
    exact ⟨hut, h⟩

theorem State.Inv.init : State.init.Inv cfg where
  inUse _ _ _ _ h := by cases h
  distinct _ _ _ _ _ _ h := by cases h
  fits _ _ _ _ h := by cases h
  mutex _ _ _ _ h := by cases h
  flagPool _ _ h := by cases h

theorem cwBufferPoolAcquire_cases {slotSize size : ℕ} {inUse : Slot → Bool}
    {i : Slot} (h : cwBufferPoolAcquire slotSize inUse size = some i) :
    inUse i = false ∧ size ≤ slotSize := by
  unfold cwBufferPoolAcquire at h
  split at h
  next hfree =>
    split at h <;> cases h
    exact ⟨hfree, by omega⟩
  next hfree =>
    split at h <;> cases h
    exact ⟨hfree, by omega⟩
  · cases h

/-- The slots of a new command were free and are long enough. -/
theorem State.acquire_cases {cmd : Cmd} {slot : Pool → Option Slot}
    (h : s.acquire cfg cmd = some slot) {pool : Pool} {i : Slot}
    (hi : slot pool = some i) :
    s.inUse pool i = false ∧ cmd.workingBufferLen ≤ cfg.slotSize := by
  unfold State.acquire at h
  dsimp only at h
  split at h
  · cases h
    cases hi
  · split at h
    · cases h
    next i' hsend =>
      split at h
      · cases h
        cases pool with
        | send =>
            obtain rfl := Option.some.inj hi
            exact cwBufferPoolAcquire_cases hsend
        | recv => cases hi
      · split at h
        · cases h
        next j hrecv =>
          cases h
          cases pool with
          | send =>
              obtain rfl := Option.some.inj hi
              exact cwBufferPoolAcquire_cases hsend
          | recv =>
              obtain rfl := Option.some.inj hi
              exact cwBufferPoolAcquire_cases hrecv

theorem State.flagBusy_eq_false (h : s.flagBusy = false) {t : Thread} {op : Op}
    (hop : s.op t = some op) : op.isFlag = false := by
  unfold State.flagBusy at h
  simp only [List.any_cons, List.any_nil, Bool.or_false, Bool.or_eq_false_iff]
    at h
  cases t
  · simpa [hop] using h.1
  · simpa [hop] using h.2.1
  · simpa [hop] using h.2.2

/-- A command goes on to a phase that is not in `phase14_write_flag`, unless no
other thread is and there is a pool. -/
theorem State.Inv.goto (h : s.Inv cfg) {t : Thread} {op : Op} (phase : Phase)
    (hop : s.op t = some op)
    (hflag : ({ op with phase := phase } : Op).isFlag →
      s.flagBusy = false ∧ cfg.flagPoolEnabled) :
    (s.goto t op phase).Inv cfg := by
  have hcases : ∀ u op', (s.goto t op phase).op u = some op' →
      (u = t ∧ op' = { op with phase := phase }) ∨
        (u ≠ t ∧ s.op u = some op') :=
    fun _ _ => update_some_cases
  have hslots : ∀ u op', (s.goto t op phase).op u = some op' →
      ∃ op₀, s.op u = some op₀ ∧ op₀.slot = op'.slot ∧ op₀.cmd = op'.cmd := by
    intro u op' hu
    rcases hcases u op' hu with ⟨rfl, rfl⟩ | ⟨-, hu⟩
    · exact ⟨op, hop, rfl, rfl⟩
    · exact ⟨op', hu, rfl, rfl⟩
  constructor
  · intro u op' pool i hu hi
    obtain ⟨op₀, h₀, hslot, -⟩ := hslots u op' hu
    exact h.inUse u op₀ pool i h₀ (by rw [hslot]; exact hi)
  · intro u v op' op'' pool i hu hv hi hj
    obtain ⟨op₀, h₀, hslot₀, -⟩ := hslots u op' hu
    obtain ⟨op₁, h₁, hslot₁, -⟩ := hslots v op'' hv
    exact h.distinct u v op₀ op₁ pool i h₀ h₁ (by rw [hslot₀]; exact hi)
      (by rw [hslot₁]; exact hj)
  · intro u op' pool i hu hi
    obtain ⟨op₀, h₀, hslot, hcmd⟩ := hslots u op' hu
    rw [← hcmd]
    exact h.fits u op₀ pool i h₀ (by rw [hslot]; exact hi)
  · intro u v op' op'' hu hv hfu hfv
    rcases hcases u op' hu with ⟨rfl, rfl⟩ | ⟨-, holdu⟩
    · rcases hcases v op'' hv with ⟨rfl, rfl⟩ | ⟨-, holdv⟩
      · rfl
      · rw [State.flagBusy_eq_false (hflag hfu).1 holdv] at hfv
        cases hfv
    · rcases hcases v op'' hv with ⟨rfl, rfl⟩ | ⟨-, holdv⟩
      · rw [State.flagBusy_eq_false (hflag hfv).1 holdu] at hfu
        cases hfu
      · exact h.mutex u v op' op'' holdu holdv hfu hfv
  · intro u op' hu hfu
    rcases hcases u op' hu with ⟨rfl, rfl⟩ | ⟨-, hu⟩
    · exact (hflag hfu).2
    · exact h.flagPool u op' hu hfu

theorem State.Inv.start (h : s.Inv cfg) {t : Thread} {cmd : Cmd}
    {slot : Pool → Option Slot} (hslot : s.acquire cfg cmd = some slot) :
    State.Inv cfg { s with
      inUse := mark s.inUse slot true
      op := Function.update s.op t (some ⟨cmd, slot, .barrier⟩) } := by
  have hfresh : ∀ {u op' pool i}, s.op u = some op' → op'.slot pool = some i →
      slot pool = some i → False := by
    intro u op' pool i hu hi hnew
    have hused := h.inUse u op' pool i hu hi
    rw [(State.acquire_cases hslot hnew).1] at hused
    cases hused
  constructor
  · intro u op' pool i hu hi
    dsimp only [mark]
    split
    · rfl
    next hne =>
      rcases update_some_cases hu with ⟨rfl, rfl⟩ | ⟨-, hu⟩
      · exact absurd hi hne
      · exact h.inUse u op' pool i hu hi
  · intro u v op' op'' pool i hu hv hi hj
    rcases update_some_cases hu with ⟨rfl, rfl⟩ | ⟨-, holdu⟩
    · rcases update_some_cases hv with ⟨rfl, rfl⟩ | ⟨-, holdv⟩
      · rfl
      · exact (hfresh holdv hj hi).elim
    · rcases update_some_cases hv with ⟨rfl, rfl⟩ | ⟨-, holdv⟩
      · exact (hfresh holdu hi hj).elim
      · exact h.distinct u v op' op'' pool i holdu holdv hi hj
  · intro u op' pool i hu hi
    rcases update_some_cases hu with ⟨rfl, rfl⟩ | ⟨-, hu⟩
    · exact (State.acquire_cases hslot hi).2
    · exact h.fits u op' pool i hu hi
  · intro u v op' op'' hu hv hfu hfv
    rcases update_some_cases hu with ⟨rfl, rfl⟩ | ⟨-, holdu⟩
    · cases hfu
    · rcases update_some_cases hv with ⟨rfl, rfl⟩ | ⟨-, holdv⟩
      · cases hfv
      · exact h.mutex u v op' op'' holdu holdv hfu hfv
  · intro u op' hu hfu
    rcases update_some_cases hu with ⟨rfl, rfl⟩ | ⟨-, hu⟩
    · cases hfu
    · exact h.flagPool u op' hu hfu

theorem State.Inv.release (h : s.Inv cfg) {t : Thread} {op : Op}
    (hop : s.op t = some op) :
    State.Inv cfg { s with
      inUse := mark s.inUse op.slot false
      op := Function.update s.op t none } := by
  constructor
  · intro u op' pool i hu hi
    obtain ⟨hut, hu⟩ := update_none_cases hu
    dsimp only [mark]
    rw [if_neg]
    · exact h.inUse u op' pool i hu hi
    · intro hsame
      exact hut (h.distinct u t op' op pool i hu hop hi hsame)
  · intro u v op' op'' pool i hu hv
    exact h.distinct u v op' op'' pool i (update_none_cases hu).2
      (update_none_cases hv).2
  · intro u op' pool i hu
    exact h.fits u op' pool i (update_none_cases hu).2
  · intro u v op' op'' hu hv
    exact h.mutex u v op' op'' (update_none_cases hu).2
      (update_none_cases hv).2
  · intro u op' hu
    exact h.flagPool u op' (update_none_cases hu).2

theorem State.Inv.step (h : s.Inv cfg) {a : Action}
    (hstep : s.step cfg a = some s') : s'.Inv cfg := by
  cases a with
  | start t cmd =>
      simp only [State.step] at hstep
      split at hstep
      · split at hstep
        · obtain rfl := Option.some.inj hstep
          exact h
        next slot hslot =>
          obtain rfl := Option.some.inj hstep
          exact h.start hslot
      · cases hstep
  | cross t =>
      obtain ⟨op, hop, hstep⟩ := Option.bind_eq_some_iff.mp hstep
      split at hstep
      · obtain rfl := Option.some.inj hstep
        exact h.goto _ hop (by nofun)
      · cases hstep
  | finish t =>
      obtain ⟨op, hop, hstep⟩ := Option.bind_eq_some_iff.mp hstep
      split at hstep
      · obtain rfl := Option.some.inj hstep
        exact h.goto _ hop (by nofun)
      · cases hstep
  | writeFlag t =>
      obtain ⟨op, hop, hstep⟩ := Option.bind_eq_some_iff.mp hstep
      split at hstep
      next hguard =>
        obtain rfl := Option.some.inj hstep
        obtain ⟨-, -, hpool, hidle⟩ := hguard
        have hgoto := h.goto (.flag s.flagSendBufIdx) hop
          fun _ => ⟨hidle, hpool⟩
        exact ⟨hgoto.inUse, hgoto.distinct, hgoto.fits, hgoto.mutex,
          hgoto.flagPool⟩
      · cases hstep
  | flagWritten t =>
      obtain ⟨op, hop, hstep⟩ := Option.bind_eq_some_iff.mp hstep
      split at hstep
      · obtain rfl := Option.some.inj hstep
        exact h.goto _ hop (by nofun)
      · cases hstep
  | stage t =>
      obtain ⟨op, hop, hstep⟩ := Option.bind_eq_some_iff.mp hstep
      split at hstep
      · obtain rfl := Option.some.inj hstep
        exact h.goto _ hop (by nofun)
      · cases hstep
  | copy t =>
      obtain ⟨op, hop, hstep⟩ := Option.bind_eq_some_iff.mp hstep
      split at hstep
      · obtain rfl := Option.some.inj hstep
        exact h.goto _ hop (by nofun)
      · cases hstep
  | copyFlags t =>
      obtain ⟨op, hop, hstep⟩ := Option.bind_eq_some_iff.mp hstep
      split at hstep
      · obtain rfl := Option.some.inj hstep
        exact h.goto _ hop (by nofun)
      · cases hstep
  | release t =>
      obtain ⟨op, hop, hstep⟩ := Option.bind_eq_some_iff.mp hstep
      split at hstep
      · obtain rfl := Option.some.inj hstep
        exact h.release hop
      · cases hstep

end Invariant

/-! ## Where the uses are -/

section Ranges

variable {cfg : Config} {s : State} {a b : Range}

theorem Op.uncopied_eq {op : Op} {pool : Pool} (h : a ∈ op.uncopied cfg pool) :
    ∃ i len, op.slot pool = some i ∧ a = ⟨cfg.slotBuf pool i, len⟩ ∧
      len ≤ op.cmd.workingBufferLen := by
  cases pool with
  | recv => cases h
  | send =>
      unfold Op.uncopied at h
      dsimp only at h
      split at h
      next i cpu hslot _ =>
        obtain rfl := Option.some.inj h
        exact ⟨i, _, hslot, rfl, Nat.min_le_right _ _⟩
      · cases h

/-- The data of a command begins where its slot does. -/
theorem Op.data_eq {op : Op} {pool : Pool} (h : a ∈ op.data cfg pool) :
    ∃ i len, op.slot pool = some i ∧ a = ⟨cfg.slotBuf pool i, len⟩ ∧
      len ≤ op.cmd.workingBufferLen := by
  unfold Op.data at h
  split at h
  · obtain ⟨i, hi, rfl⟩ := Option.map_eq_some_iff.mp h
    exact ⟨i, _, hi, rfl, le_rfl⟩
  · obtain ⟨i, hi, rfl⟩ := Option.map_eq_some_iff.mp h
    exact ⟨i, _, hi, rfl, le_rfl⟩
  · exact Op.uncopied_eq h
  · exact Op.uncopied_eq h
  · exact Op.uncopied_eq h
  · exact Op.uncopied_eq h
  · cases h
  · cases h

theorem Op.flagEntry_eq {op : Op} (h : a ∈ op.flagEntry cfg) :
    op.isFlag ∧ ∃ idx, a = cfg.flagEntry idx := by
  unfold Op.flagEntry at h
  split at h
  next idx hphase =>
    cases h
    exact ⟨by simp [Op.isFlag, hphase], idx, rfl⟩
  · cases h

theorem Op.dbStaging_eq {op : Op} (h : a ∈ op.dbStaging cfg) :
    op.phase = .doorbell ∧ a.stop ≤ cfg.slotSize + 8 := by
  unfold Op.dbStaging at h
  split at h
  next hphase =>
    refine ⟨hphase, ?_⟩
    split at h
    next i _ =>
      cases h
      match i with
      | 0 | 1 => simp [Range.stop, Config.slotBuf]
    · cases h
      simp [Range.stop]
  · cases h

theorem Op.rdbSend_eq {op : Op} {wave : Wave} (h : a ∈ op.rdbSend cfg wave) :
    op.phase = .barrier ∧ cfg.rdbEnabled ∧ a = cfg.rdbSend wave := by
  unfold Op.rdbSend at h
  split at h
  next hcond =>
    cases h
    exact ⟨hcond.1, hcond.2, rfl⟩
  · cases h

/-- The data of a command stays in its slot. -/
theorem State.Inv.data_stop (h : s.Inv cfg) {t : Thread} {op : Op} {pool : Pool}
    (hop : s.op t = some op) (ha : a ∈ op.data cfg pool) :
    a.stop ≤ cfg.poolTotal := by
  obtain ⟨i, len, hi, rfl, hlen⟩ := Op.data_eq ha
  have hfits := h.fits t op pool i hop hi
  unfold Range.stop Config.slotBuf Config.poolTotal CW_BUFFER_POOL_SLOTS
  match pool, i with
  | .send, 0 | .send, 1 | .recv, 0 | .recv, 1 => simp; omega

/-- Slots of different pools or with different indices do not overlap. -/
theorem slotBuf_apart (cfg : Config) {pool pool' : Pool} {i j : Slot}
    (hne : pool = pool' → i ≠ j) {m n : ℕ} (hm : m ≤ cfg.slotSize)
    (hn : n ≤ cfg.slotSize) :
    Range.Apart ⟨cfg.slotBuf pool i, m⟩ ⟨cfg.slotBuf pool' j, n⟩ := by
  unfold Range.Apart Range.stop Config.slotBuf CW_BUFFER_POOL_SLOTS
  match pool, i, pool', j with
  | .send, 0, .send, 0 | .send, 1, .send, 1 | .recv, 0, .recv, 0
  | .recv, 1, .recv, 1 => exact absurd rfl (hne rfl)
  | .send, 0, .send, 1 | .send, 1, .send, 0 | .recv, 0, .recv, 1
  | .recv, 1, .recv, 0 | .send, 0, .recv, 0 | .send, 0, .recv, 1
  | .send, 1, .recv, 0 | .send, 1, .recv, 1 | .recv, 0, .send, 0
  | .recv, 0, .send, 1 | .recv, 1, .send, 0 | .recv, 1, .send, 1 =>
      simp
      omega

/-- The flag pool ends where the RDB region begins. -/
theorem flagEntry_stop (hpool : cfg.flagPoolEnabled) (idx : ℕ) :
    (cfg.flagEntry idx).stop ≤ cfg.workingBufSize - RDB_SLOT_REGION_SIZE := by
  unfold Config.flagPoolEnabled at hpool
  simp only [Bool.and_eq_true, decide_eq_true_eq] at hpool
  have hmod : idx % 256 < 256 := Nat.mod_lt _ (by decide)
  have hsize := hpool.2
  unfold Config.flagEntry Range.stop Config.flagPoolOffset flagPoolBytes
    poolEntries at *
  dsimp only at *
  omega

/-- All uses but those of the barrier and the copy to a local CPU buffer end where the
RDB region begins. -/
theorem State.Inv.stop_le (h : s.Inv cfg) {u : Use} (ha : a ∈ s.uses cfg u)
    (hu : ∀ t wave, u ≠ .rdbSend t wave) (hlocal : u ≠ .rdbLocalSlot)
    (hcopy : ∀ t, u ≠ .localCpu t) :
    a.stop ≤ cfg.workingBufSize - RDB_SLOT_REGION_SIZE := by
  have htotal : cfg.poolTotal + 192 ≤ cfg.workingBufSize := by
    unfold Config.workingBufSize
    omega
  cases u with
  | data t pool =>
      obtain ⟨op, hop, ha⟩ := Option.bind_eq_some_iff.mp ha
      have hstop := h.data_stop hop ha
      unfold RDB_SLOT_REGION_SIZE
      omega
  | flagEntry t =>
      obtain ⟨op, hop, ha⟩ := Option.bind_eq_some_iff.mp ha
      obtain ⟨hflag, idx, rfl⟩ := Op.flagEntry_eq ha
      exact flagEntry_stop (h.flagPool t op hop hflag) idx
  | dbStaging t =>
      obtain ⟨op, hop, ha⟩ := Option.bind_eq_some_iff.mp ha
      have hstop := (Op.dbStaging_eq ha).2
      unfold Config.workingBufSize Config.poolTotal CW_BUFFER_POOL_SLOTS
        RDB_SLOT_REGION_SIZE
      omega
  | localCpu t => exact absurd rfl (hcopy t)
  | rdbSend t wave => exact absurd rfl (hu t wave)
  | rdbLocalSlot => exact absurd rfl hlocal

/-- The bytes of the barrier. -/
theorem rdb_range {u : Use} (ha : a ∈ s.uses cfg u)
    (hu : u = .rdbLocalSlot ∨ ∃ t wave, u = .rdbSend t wave) :
    a.len = 8 ∧ a.start = cfg.workingBufSize -
      match u with
      | .rdbSend _ .gather => 192
      | .rdbSend _ .release => 128
      | _ => 64 := by
  rcases hu with rfl | ⟨t, wave, rfl⟩
  · simp only [State.uses] at ha
    split at ha
    · cases ha
      exact ⟨rfl, rfl⟩
    · cases ha
  · obtain ⟨op, -, ha⟩ := Option.bind_eq_some_iff.mp ha
    obtain ⟨-, -, rfl⟩ := Op.rdbSend_eq ha
    cases wave <;> exact ⟨rfl, rfl⟩

theorem workingBufSize_ge (cfg : Config) : 4096 ≤ cfg.workingBufSize :=
  Nat.le_add_left _ _

end Ranges

/-! ## Separate uses -/

section Separation

variable {cfg : Config} {s : State}

/-- A command stages no doorbell while it writes its flag. -/
theorem State.Clear.staging_apart_flag (hclear : s.Clear cfg) {t u : Thread}
    {op op' : Op} (hop : s.op t = some op) (hop' : s.op u = some op')
    {a b : Range} (ha : a ∈ op.dbStaging cfg) (hb : b ∈ op'.flagEntry cfg) :
    a.Apart b := by
  have hphase := (Op.dbStaging_eq ha).1
  have hne : t ≠ u := by
    rintro rfl
    obtain rfl := Option.some.inj (hop.symm.trans hop')
    have hflag := (Op.flagEntry_eq hb).1
    unfold Op.isFlag at hflag
    rw [hphase] at hflag
    cases hflag
  exact (hclear.staging t u op op' hne hop hop' a ha).1 b hb

/-- The data of two commands, or of the two slots of one, is apart. -/
theorem State.Inv.data_apart (h : s.Inv cfg) {t u : Thread} {pool pool' : Pool}
    (hne : Use.data t pool ≠ .data u pool') {op op' : Op}
    (hop : s.op t = some op) (hop' : s.op u = some op') {a b : Range}
    (ha : a ∈ op.data cfg pool) (hb : b ∈ op'.data cfg pool') : a.Apart b := by
  obtain ⟨i, m, hi, rfl, hm⟩ := Op.data_eq ha
  obtain ⟨j, n, hj, rfl, hn⟩ := Op.data_eq hb
  refine slotBuf_apart cfg ?_ (hm.trans (h.fits t op pool i hop hi))
    (hn.trans (h.fits u op' pool' j hop' hj))
  rintro rfl rfl
  obtain rfl := h.distinct t u op op' pool i hop hop' hi hj
  exact hne rfl

/-- The copy to a local CPU buffer and another use. -/
theorem State.Clear.localCpu_apart (hclear : s.Clear cfg) {u v : Use} (hne : u ≠ v)
    {a b : Range} (ha : a ∈ s.uses cfg u) (hb : b ∈ s.uses cfg v) {t : Thread}
    (hu : u = .localCpu t) : a.Apart b := by
  subst hu
  obtain ⟨op, hop, ha⟩ := Option.bind_eq_some_iff.mp ha
  exact hclear.localCpu t op hop a ha v hne.symm b hb

/-- Uses that are not of the barrier. -/
theorem State.Inv.apart (h : s.Inv cfg) (hclear : s.Clear cfg) {u v : Use}
    (hne : u ≠ v) {a b : Range} (ha : a ∈ s.uses cfg u) (hb : b ∈ s.uses cfg v)
    (hu : ¬ (u = .rdbLocalSlot ∨ ∃ t wave, u = .rdbSend t wave))
    (hv : ¬ (v = .rdbLocalSlot ∨ ∃ t wave, v = .rdbSend t wave)) :
    a.Apart b := by
  cases u with
  | rdbLocalSlot => exact absurd (.inl rfl) hu
  | rdbSend t wave => exact absurd (.inr ⟨t, wave, rfl⟩) hu
  | localCpu t => exact hclear.localCpu_apart hne ha hb rfl
  | data t pool =>
      obtain ⟨op, hop, ha⟩ := Option.bind_eq_some_iff.mp ha
      cases v with
      | rdbLocalSlot => exact absurd (.inl rfl) hv
      | rdbSend t wave => exact absurd (.inr ⟨t, wave, rfl⟩) hv
      | localCpu u =>
          have ha' : a ∈ s.uses cfg (.data t pool) :=
            Option.bind_eq_some_iff.mpr ⟨op, hop, ha⟩
          exact (hclear.localCpu_apart hne.symm hb ha' rfl).symm
      | data u pool' =>
          obtain ⟨op', hop', hb⟩ := Option.bind_eq_some_iff.mp hb
          exact h.data_apart hne hop hop' ha hb
      | flagEntry u =>
          obtain ⟨op', hop', hb⟩ := Option.bind_eq_some_iff.mp hb
          exact (hclear.flag u t op' op hop' hop b hb pool a ha).symm
      | dbStaging u =>
          obtain ⟨op', hop', hb⟩ := Option.bind_eq_some_iff.mp hb
          exact (hclear.stagingData u t op' op hop' hop b hb pool a ha).symm
  | flagEntry t =>
      obtain ⟨op, hop, ha⟩ := Option.bind_eq_some_iff.mp ha
      cases v with
      | rdbLocalSlot => exact absurd (.inl rfl) hv
      | rdbSend t wave => exact absurd (.inr ⟨t, wave, rfl⟩) hv
      | localCpu u =>
          have ha' : a ∈ s.uses cfg (.flagEntry t) :=
            Option.bind_eq_some_iff.mpr ⟨op, hop, ha⟩
          exact (hclear.localCpu_apart hne.symm hb ha' rfl).symm
      | data u pool =>
          obtain ⟨op', hop', hb⟩ := Option.bind_eq_some_iff.mp hb
          exact hclear.flag t u op op' hop hop' a ha pool b hb
      | flagEntry u =>
          obtain ⟨op', hop', hb⟩ := Option.bind_eq_some_iff.mp hb
          obtain rfl := h.mutex t u op op' hop hop' (Op.flagEntry_eq ha).1
            (Op.flagEntry_eq hb).1
          exact absurd rfl hne
      | dbStaging u =>
          obtain ⟨op', hop', hb⟩ := Option.bind_eq_some_iff.mp hb
          exact (hclear.staging_apart_flag hop' hop hb ha).symm
  | dbStaging t =>
      obtain ⟨op, hop, ha⟩ := Option.bind_eq_some_iff.mp ha
      cases v with
      | rdbLocalSlot => exact absurd (.inl rfl) hv
      | rdbSend t wave => exact absurd (.inr ⟨t, wave, rfl⟩) hv
      | localCpu u =>
          have ha' : a ∈ s.uses cfg (.dbStaging t) :=
            Option.bind_eq_some_iff.mpr ⟨op, hop, ha⟩
          exact (hclear.localCpu_apart hne.symm hb ha' rfl).symm
      | data u pool =>
          obtain ⟨op', hop', hb⟩ := Option.bind_eq_some_iff.mp hb
          exact hclear.stagingData t u op op' hop hop' a ha pool b hb
      | flagEntry u =>
          obtain ⟨op', hop', hb⟩ := Option.bind_eq_some_iff.mp hb
          exact hclear.staging_apart_flag hop hop' ha hb
      | dbStaging u =>
          obtain ⟨op', hop', hb⟩ := Option.bind_eq_some_iff.mp hb
          have htu : t ≠ u := by
            rintro rfl
            exact hne rfl
          exact (hclear.staging t u op op' htu hop hop' a ha).2 b hb

/-- A use of the barrier and another one. -/
theorem State.Inv.rdb_apart (h : s.Inv cfg) (hclear : s.Clear cfg) {u v : Use}
    (hne : u ≠ v) {a b : Range} (ha : a ∈ s.uses cfg u) (hb : b ∈ s.uses cfg v)
    (hu : u = .rdbLocalSlot ∨ ∃ t wave, u = .rdbSend t wave) : a.Apart b := by
  have hsize := workingBufSize_ge cfg
  obtain ⟨halen, hastart⟩ := rdb_range ha hu
  by_cases hv : v = .rdbLocalSlot ∨ ∃ t wave, v = .rdbSend t wave
  · obtain ⟨hblen, hbstart⟩ := rdb_range hb hv
    unfold Range.Apart Range.stop
    have hwaves : ∀ t t' wave, u = .rdbSend t wave → v = .rdbSend t' wave →
        False := by
      rintro t t' wave rfl rfl
      obtain ⟨op, hop, ha⟩ := Option.bind_eq_some_iff.mp ha
      obtain ⟨op', hop', hb⟩ := Option.bind_eq_some_iff.mp hb
      obtain ⟨hphase, hrdb, -⟩ := Op.rdbSend_eq ha
      have htt' : t ≠ t' := by
        rintro rfl
        exact hne rfl
      exact hclear.barrier hrdb t t' op op' htt' hop hop' hphase
        (Op.rdbSend_eq hb).1
    rcases hu with rfl | ⟨t, wave, rfl⟩
    · rcases hv with rfl | ⟨t', wave', rfl⟩
      · exact absurd rfl hne
      · cases wave' <;> simp only at hastart hbstart <;> omega
    · rcases hv with rfl | ⟨t', wave', rfl⟩
      · cases wave <;> simp only at hastart hbstart <;> omega
      · cases wave <;> cases wave' <;> simp only at hastart hbstart
        · exact (hwaves t t' .gather rfl rfl).elim
        · omega
        · omega
        · exact (hwaves t t' .release rfl rfl).elim
  · by_cases hcopy : ∃ t, v = .localCpu t
    · obtain ⟨t, hcopy⟩ := hcopy
      exact (hclear.localCpu_apart hne.symm hb ha hcopy).symm
    · have hstop := h.stop_le hb (fun t wave heq => hv (.inr ⟨t, wave, heq⟩))
        (fun heq => hv (.inl heq)) (fun t heq => hcopy ⟨t, heq⟩)
      have hstart : cfg.workingBufSize - RDB_SLOT_REGION_SIZE ≤ a.start := by
        rw [hastart]
        unfold RDB_SLOT_REGION_SIZE
        split <;> omega
      exact .inr (.inr (.inr (hstop.trans hstart)))

/-- The uses of the buffer are separate exactly if the operations in progress
are clear of each other. -/
theorem State.Inv.separate_iff (h : s.Inv cfg) :
    Separate (s.uses cfg) ↔ s.Clear cfg := by
  constructor
  · intro hsep
    have happart : ∀ u v, u ≠ v → ∀ a ∈ s.uses cfg u, ∀ b ∈ s.uses cfg v,
        a.Apart b :=
      fun u v hne a ha b hb => (a.disjoint_bytes_iff b).mp (hsep u v hne a ha b hb)
    constructor
    · intro hrdb t u op op' hne hop hop' hphase hphase'
      have hsend : ∀ {t op}, s.op t = some op → op.phase = .barrier →
          cfg.rdbSend .gather ∈ s.uses cfg (.rdbSend t .gather) := by
        intro t op hop hphase
        refine Option.bind_eq_some_iff.mpr ⟨op, hop, ?_⟩
        exact if_pos ⟨hphase, hrdb⟩
      have hapart := happart (.rdbSend t .gather) (.rdbSend u .gather)
        (by simpa using hne) _ (hsend hop hphase) _ (hsend hop' hphase')
      unfold Range.Apart Range.stop Config.rdbSend at hapart
      dsimp only at hapart
      omega
    · intro t u op op' hop hop' a ha pool b hb
      exact happart (.dbStaging t) (.data u pool) (by nofun) a
        (Option.bind_eq_some_iff.mpr ⟨op, hop, ha⟩) b
        (Option.bind_eq_some_iff.mpr ⟨op', hop', hb⟩)
    · intro t u op op' hne hop hop' a ha
      have ha' : a ∈ s.uses cfg (.dbStaging t) :=
        Option.bind_eq_some_iff.mpr ⟨op, hop, ha⟩
      refine ⟨?_, ?_⟩
      · intro b hb
        exact happart (.dbStaging t) (.flagEntry u) (by nofun) a ha' b
          (Option.bind_eq_some_iff.mpr ⟨op', hop', hb⟩)
      · intro b hb
        exact happart (.dbStaging t) (.dbStaging u) (by simpa using hne) a ha' b
          (Option.bind_eq_some_iff.mpr ⟨op', hop', hb⟩)
    · intro t u op op' hop hop' a ha pool b hb
      exact happart (.flagEntry t) (.data u pool) (by nofun) a
        (Option.bind_eq_some_iff.mpr ⟨op, hop, ha⟩) b
        (Option.bind_eq_some_iff.mpr ⟨op', hop', hb⟩)
    · intro t op hop a ha u hne b hb
      exact happart (.localCpu t) u hne.symm a
        (Option.bind_eq_some_iff.mpr ⟨op, hop, ha⟩) b hb
  · intro hclear u v hne a ha b hb
    rw [Range.disjoint_bytes_iff]
    by_cases hu : u = .rdbLocalSlot ∨ ∃ t wave, u = .rdbSend t wave
    · exact h.rdb_apart hclear hne ha hb hu
    · by_cases hv : v = .rdbLocalSlot ∨ ∃ t wave, v = .rdbSend t wave
      · exact (h.rdb_apart hclear hne.symm hb ha hv).symm
      · exact h.apart hclear hne ha hb hu hv

end Separation

/-- The uses of the working buffer are separate in a state that can be reached
exactly if its operations are clear of each other. -/
theorem regions_separate_iff_clear (cfg : Config) (acts : List Action)
    (s : State) (hrun : run (State.step cfg) .init acts = some s) :
    Separate (s.uses cfg) ↔ s.Clear cfg := by
  have hinv : s.Inv cfg :=
    run_invariant (fun _ _ _ hstep h => h.step hstep) hrun .init
  exact hinv.separate_iff

/-- Two rings, the doorbell and slots of 1 GiB. -/
def twoRings : Config where
  slotSize := 2 ^ 30
  useRingQueues := true
  ringR1Enabled := true
  rdbEnabled := false
  flagPool := true
  doorbellEnabled := true

def gather (gpuDirect : Bool) : Cmd :=
  ⟨.allGather, 512, 1024, gpuDirect, false, none⟩

/-- Ring 1 rings the doorbell for a GPU Direct AllGather while ring 0 executes an
AllGather in its send slot. -/
def headStaging : List Action :=
  [.start .ring0 (gather false), .start .ring1 (gather true), .cross .ring1,
    .finish .ring1, .stage .ring1]

theorem regions_separate_iff_clear_one :
    ∃ s, run (State.step twoRings) .init [.start .ring0 (gather false)] =
      some s ∧ (Separate (s.uses twoRings) ↔ s.Clear twoRings) :=
  ⟨_, rfl, regions_separate_iff_clear twoRings [.start .ring0 (gather false)] _
    rfl⟩

/-- Ring 0 stages the doorbell of an AllGather whose output is still to be copied to a
local CPU buffer. -/
def ownStaging : List Action :=
  [.start .ring0 { gather false with localCpu := some ⟨1024, none⟩ }, .cross .ring0,
    .finish .ring0, .stage .ring0]

/-- A state in which two uses share bytes. -/
theorem not_separate_of_uses {acts : List Action} {cfg : Config} {u v : Use} {a b : Range}
    (hne : u ≠ v) (hapart : ¬ a.Apart b)
    (hend : (run (State.step cfg) .init acts).map
      (fun s => (s.uses cfg u, s.uses cfg v)) = some (some a, some b)) :
    ∃ s, run (State.step cfg) .init acts = some s ∧ ¬ Separate (s.uses cfg) := by
  obtain ⟨s, hrun, huses⟩ := Option.map_eq_some_iff.mp hend
  obtain ⟨hu, hv⟩ := Prod.mk.inj huses
  refine ⟨s, hrun, ?_⟩
  intro hsep
  have hdisjoint := hsep u v hne a hu b hv
  rw [Range.disjoint_bytes_iff] at hdisjoint
  exact hapart hdisjoint

/-- The doorbell of a GPU Direct AllGather is staged on the data of another command, and
that of a command on the data that it has still to copy. -/
theorem doorbell_staging_overlaps :
    (∃ s, run (State.step twoRings) .init headStaging = some s ∧
        ¬ Separate (s.uses twoRings)) ∧
      ∃ s, run (State.step twoRings) .init ownStaging = some s ∧
        ¬ Separate (s.uses twoRings) := by
  constructor
  · exact not_separate_of_uses (u := .dbStaging .ring1) (v := .data .ring0 .send)
      (a := ⟨0, 8⟩) (b := ⟨0, 1024⟩) (by decide) (by decide) (by decide +kernel)
  · exact not_separate_of_uses (u := .dbStaging .ring0) (v := .data .ring0 .send)
      (a := ⟨0, 8⟩) (b := ⟨0, 1024⟩) (by decide) (by decide) (by decide +kernel)

end SmartNic.WorkingBuffer
