import SmartNic.FlagPool.Pool

/-!
# The waits pass for their own flags only

The slots go around and their generations grow.  A slot that comes around again
holds the flag of its use before, since the wait for that has passed.
-/

namespace SmartNic.FlagPool

open Machine RoundRobin

section

variable (baseAddr size : ℕ)

/-- The address of a slot. -/
def slotAddr (slot : ℕ) : ℕ := baseAddr + slot * 4

/-- What `acquire` returns for the `k`th time. -/
def acquisition (k : ℕ) : Acquisition where
  slotId := k % size
  generation := generation size k
  gpuAddr := slotAddr baseAddr (k % size)
  expectedValue := generation size k

/-- The pool after `n` acquisitions. -/
structure GpuFlagPool.Turned (pool : GpuFlagPool) (n : ℕ) : Prop where
  size_eq : pool.size = size
  mask_eq : pool.mask = size - 1
  baseAddr_eq : pool.baseAddr = baseAddr
  pos : size ≠ 0
  power : size &&& (size - 1) = 0
  next_eq : pool.next = n % size
  gens_eq : ∀ slot < size, pool.gens slot = used size slot n

/-- A command whose flag is not written yet. -/
structure FlagCmd.Unwritten (n : ℕ) (written : ℕ → Bool) (cmd : FlagCmd) :
    Prop where
  owner_lt : cmd.owner < n
  flagGpuAddr_eq : cmd.flagGpuAddr = slotAddr baseAddr (cmd.owner % size)
  flagValue_eq : cmd.flagValue = BitVec.ofNat 32 (generation size cmd.owner)
  unwritten : written cmd.owner = false

/-- The last use of a slot is live until the next one. -/
def State.Live (s : State) (k : ℕ) : Prop :=
  k < s.acquired.length ∧ s.acquired.length ≤ k + size

structure State.Inv (s : State) : Prop where
  pool : s.pool.Turned baseAddr size s.acquired.length
  acquired : ∀ k a, s.acquired[k]? = some a → a = acquisition baseAddr size k
  generation_lt : ∀ k < s.acquired.length, generation size k < 2 ^ 30
  recent : ∀ k, k + size < s.acquired.length → s.passed k
  passed : ∀ k, s.passed k → s.written k
  fresh : ∀ k, s.acquired.length ≤ k → s.written k = false
  unused : ∀ slot < size, s.acquired.length ≤ slot →
    s.flags (slotAddr baseAddr slot) = 0
  current : ∀ k, s.Live size k → s.written k →
    (s.flags (slotAddr baseAddr (k % size))).toNat = generation size k
  stale : ∀ k, s.Live size k → s.written k = false →
    (s.flags (slotAddr baseAddr (k % size))).toNat < generation size k
  cmds : ∀ cmd ∈ s.cmds,
    cmd.Unwritten baseAddr size s.acquired.length s.written
  owners : (s.cmds.map FlagCmd.owner).Nodup
  writer : ∀ w ∈ s.writer, w.status ≠ .landed →
    w.cmd.Unwritten baseAddr size s.acquired.length s.written ∧
      w.cmd.owner ∉ s.cmds.map FlagCmd.owner
  staged : ∀ w ∈ s.writer, s.worker.flagSendBufPool w.idx = w.cmd.flagValue

end

section

variable {baseAddr size : ℕ} {s s' : State}

theorem slotAddr_inj {slot slot' : ℕ}
    (h : slotAddr baseAddr slot = slotAddr baseAddr slot') : slot = slot' := by
  unfold slotAddr at h
  omega

theorem GpuFlagPool.create_turned {pool : GpuFlagPool}
    (h : GpuFlagPool.create baseAddr size = .ok pool) :
    pool.Turned baseAddr size 0 := by
  unfold GpuFlagPool.create at h
  split_ifs at h with hsize
  rw [not_or, not_not] at hsize
  cases h
  exact
    { size_eq := rfl
      mask_eq := rfl
      baseAddr_eq := rfl
      pos := hsize.1
      power := hsize.2
      next_eq := (Nat.zero_mod _).symm
      gens_eq := fun slot _ => (used_zero slot).symm }

theorem State.Inv.init {pool : GpuFlagPool}
    (h : GpuFlagPool.create baseAddr size = .ok pool) (flagPoolEnabled : Bool) :
    (State.init pool flagPoolEnabled).Inv baseAddr size := by
  have hpool := GpuFlagPool.create_turned h
  constructor <;> intros <;> simp_all [State.init, State.Live]

section Acquire

variable {pool : GpuFlagPool} {n : ℕ}

theorem GpuFlagPool.Turned.generation_eq (h : pool.Turned baseAddr size n) :
    pool.gens pool.next + 1 = generation size n := by
  have hslot : n % size < size := Nat.mod_lt _ (Nat.pos_of_ne_zero h.pos)
  rw [h.next_eq, h.gens_eq _ hslot, generation, used_succ_self]

theorem GpuFlagPool.Turned.acquire_fst (h : pool.Turned baseAddr size n) :
    pool.acquire.1.Turned baseAddr size (n + 1) := by
  have hfst : pool.acquire.1 = { pool with
      next := (pool.next + 1) &&& pool.mask
      gens := Function.update pool.gens pool.next (pool.gens pool.next + 1) } := by
    unfold GpuFlagPool.acquire
    dsimp only
    split_ifs <;> rfl
  rw [hfst]
  constructor
  · exact h.size_eq
  · exact h.mask_eq
  · exact h.baseAddr_eq
  · exact h.pos
  · exact h.power
  · dsimp only
    rw [h.mask_eq, and_mask h.pos h.power, h.next_eq, Nat.mod_add_mod]
  · intro slot hlt
    dsimp only
    rw [h.generation_eq, h.next_eq]
    by_cases heq : slot = n % size
    · rw [heq, Function.update_self]
      rfl
    · rw [Function.update_of_ne heq, used_succ_of_ne heq, h.gens_eq _ hlt]

/-- Below the limit `acquire` returns the next acquisition. -/
theorem GpuFlagPool.Turned.acquire_snd (h : pool.Turned baseAddr size n)
    (hlimit : generation size n < 2 ^ 30) :
    pool.acquire.2 = some (acquisition baseAddr size n) := by
  unfold GpuFlagPool.acquire
  dsimp only
  rw [h.generation_eq, if_neg (Nat.not_le.mpr hlimit), h.next_eq, h.baseAddr_eq]
  rfl

end Acquire

/-! ## Steps -/

/-- The next slot has the flag of its use before, or it has not been used. -/
theorem State.Inv.stale_next (h : s.Inv baseAddr size)
    (hpassed : size ≤ s.acquired.length →
      s.passed (s.acquired.length - size)) :
    (s.flags (slotAddr baseAddr (s.acquired.length % size))).toNat <
      generation size s.acquired.length := by
  by_cases hle : size ≤ s.acquired.length
  · have hpos := Nat.pos_of_ne_zero h.pool.pos
    have hslot := sub_slot hle
    rw [← hslot, h.current _ ⟨by omega, by omega⟩ (h.passed _ (hpassed hle))]
    exact RoundRobin.generation_lt (by omega) hslot
  · have hlt := Nat.lt_of_not_le hle
    rw [Nat.mod_eq_of_lt hlt, h.unused _ hlt le_rfl]
    exact generation_pos _

/-- A command that is not written stays so when another slot is acquired. -/
theorem FlagCmd.Unwritten.succ {cmd : FlagCmd} {n : ℕ} {written : ℕ → Bool}
    (h : cmd.Unwritten baseAddr size n written) :
    cmd.Unwritten baseAddr size (n + 1) written :=
  ⟨Nat.lt_succ_of_lt h.owner_lt, h.flagGpuAddr_eq, h.flagValue_eq, h.unwritten⟩

/-- Below the limit a command with the next generation is queued. -/
theorem State.Inv.acquire_eq (h : s.Inv baseAddr size)
    (hlimit : generation size s.acquired.length < 2 ^ 30) :
    s.acquire = { s with
      pool := s.pool.acquire.1
      acquired := s.acquired ++ [acquisition baseAddr size s.acquired.length]
      cmds := s.cmds ++ [⟨s.acquired.length,
        slotAddr baseAddr (s.acquired.length % size),
        BitVec.ofNat 32 (generation size s.acquired.length)⟩] } := by
  have hpair : s.pool.acquire = (s.pool.acquire.1,
      some (acquisition baseAddr size s.acquired.length)) :=
    Prod.ext rfl (h.pool.acquire_snd hlimit)
  unfold State.acquire
  rw [hpair]
  rfl

/-- No command is for an acquisition to come. -/
theorem State.Inv.length_notMem_owners (h : s.Inv baseAddr size) :
    s.acquired.length ∉ s.cmds.map FlagCmd.owner := by
  intro hin
  obtain ⟨cmd, hcmd, heq⟩ := List.mem_map.mp hin
  exact absurd (h.cmds cmd hcmd).owner_lt (by omega)

theorem State.Inv.acquire (h : s.Inv baseAddr size) (hpaced : Paced s .acquire) :
    s.acquire.Inv baseAddr size := by
  obtain ⟨hpassed, hlimit⟩ := hpaced rfl
  rw [h.pool.generation_eq] at hlimit
  rw [h.pool.size_eq] at hpassed
  have hlength : (s.acquired ++
      [acquisition baseAddr size s.acquired.length]).length =
      s.acquired.length + 1 := by
    rw [List.length_append, List.length_singleton]
  have hlive : ∀ k, s.acquire.Live size k → k = s.acquired.length ∨
      s.Live size k := by
    intro k hk
    rw [h.acquire_eq hlimit] at hk
    unfold State.Live at hk ⊢
    dsimp only at hk
    omega
  rw [h.acquire_eq hlimit] at hlive ⊢
  constructor <;> dsimp only <;> try rw [hlength]
  · exact h.pool.acquire_fst
  · intro k a ha
    rw [List.getElem?_append] at ha
    split_ifs at ha with hlt
    · exact h.acquired k a ha
    · rw [List.getElem?_singleton] at ha
      split_ifs at ha with heq
      have hk : k = s.acquired.length := by omega
      rw [hk]
      exact (Option.some.inj ha).symm
  · intro k hk
    rcases Nat.lt_succ_iff_lt_or_eq.mp hk with hk | rfl
    · exact h.generation_lt k hk
    · exact hlimit
  · intro k hk
    rcases Nat.lt_succ_iff_lt_or_eq.mp hk with hk | hk
    · exact h.recent k hk
    · have heq : k = s.acquired.length - size := by omega
      rw [heq]
      exact hpassed (by omega)
  · exact h.passed
  · intro k hk
    exact h.fresh k (by omega)
  · intro slot hslot hle
    exact h.unused slot hslot (by omega)
  · intro k hk hwritten
    rcases hlive k hk with rfl | hk
    · rw [h.fresh _ le_rfl] at hwritten
      exact absurd hwritten Bool.false_ne_true
    · exact h.current k hk hwritten
  · intro k hk hunwritten
    rcases hlive k hk with rfl | hk
    · exact h.stale_next hpassed
    · exact h.stale k hk hunwritten
  · intro cmd hcmd
    rcases List.mem_append.mp hcmd with hcmd | hcmd
    · exact (h.cmds cmd hcmd).succ
    · rw [List.mem_singleton.mp hcmd]
      exact ⟨Nat.lt_succ_self _, rfl, rfl, h.fresh _ le_rfl⟩
  · rw [List.map_append]
    apply List.Nodup.append h.owners (List.nodup_singleton _)
    exact List.disjoint_singleton.mpr h.length_notMem_owners
  · intro w hw hstatus
    obtain ⟨hcmd, hnotin⟩ := h.writer w hw hstatus
    refine ⟨hcmd.succ, ?_⟩
    rw [List.map_append, List.mem_append, not_or, List.map_singleton,
      List.mem_singleton]
    exact ⟨hnotin, hcmd.owner_lt.ne⟩
  · exact h.staged

theorem State.Inv.sublist (h : s.Inv baseAddr size) {cmds : List FlagCmd}
    (hsub : cmds.Sublist s.cmds) : { s with cmds := cmds }.Inv baseAddr size := by
  refine { h with cmds := ?_, owners := ?_, writer := ?_ }
  · intro cmd hcmd
    exact h.cmds cmd (hsub.subset hcmd)
  · exact (hsub.map _).nodup h.owners
  · intro w hw hstatus
    obtain ⟨hold, hnotin⟩ := h.writer w hw hstatus
    exact ⟨hold, fun hin => hnotin ((hsub.map _).subset hin)⟩

theorem State.Inv.writeFlag (h : s.Inv baseAddr size) {i : ℕ} {cmd : FlagCmd}
    (hcmd : s.cmds[i]? = some cmd) : (s.writeFlag i cmd).Inv baseAddr size := by
  have hsub := h.sublist (List.eraseIdx_sublist s.cmds i)
  unfold State.writeFlag
  dsimp only
  split_ifs with hoff
  · exact hsub
  · have hold := h.cmds cmd (List.mem_of_getElem? hcmd)
    obtain ⟨hi, rfl⟩ := List.getElem?_eq_some_iff.mp hcmd
    have hperm := List.getElem_cons_eraseIdx_perm hi
    have hnodup := (hperm.map FlagCmd.owner).nodup_iff.mpr h.owners
    refine { hsub with writer := ?_, staged := ?_ }
    · intro w hw _
      obtain rfl := Option.some.inj hw
      exact ⟨hold, (List.nodup_cons.mp hnodup).1⟩
    · intro w hw
      obtain rfl := Option.some.inj hw
      exact Function.update_self ..

/-- A flag that lands is the current use of its slot. -/
theorem State.Inv.land (h : s.Inv baseAddr size) {w : Writer}
    (hw : s.writer = some w) (hstatus : w.status = .submitted) :
    (s.land w).Inv baseAddr size := by
  obtain ⟨hcmd, hnotin⟩ := h.writer w hw (by rw [hstatus]; decide)
  have hflag : (s.land w).flags = Function.update s.flags
      (slotAddr baseAddr (w.cmd.owner % size))
      (BitVec.ofNat 32 (generation size w.cmd.owner)) := by
    rw [State.land, h.staged w hw, hcmd.flagGpuAddr_eq, hcmd.flagValue_eq]
  have hlive : s.Live size w.cmd.owner := by
    refine ⟨hcmd.owner_lt, ?_⟩
    by_contra hnot
    have hwritten := h.passed _ (h.recent _ (Nat.lt_of_not_le hnot))
    rw [hcmd.unwritten] at hwritten
    exact Bool.false_ne_true hwritten
  have hpos := Nat.pos_of_ne_zero h.pool.pos
  have hothers : ∀ k, s.Live size k → k ≠ w.cmd.owner →
      (s.land w).flags (slotAddr baseAddr (k % size)) =
        s.flags (slotAddr baseAddr (k % size)) := by
    intro k hk hne
    rw [hflag]
    refine Function.update_of_ne (fun heq => ?_) ..
    have hslot := slotAddr_inj heq
    unfold State.Live at hk hlive
    rcases Nat.lt_or_gt_of_ne hne with hlt | hlt
    · exact slot_ne hlt (by omega) hslot
    · exact slot_ne hlt (by omega) hslot.symm
  have hkeep : ∀ cmd : FlagCmd,
      cmd.Unwritten baseAddr size s.acquired.length s.written →
      cmd.owner ≠ w.cmd.owner →
      cmd.Unwritten baseAddr size s.acquired.length (s.land w).written := by
    intro cmd hold hne
    exact ⟨hold.owner_lt, hold.flagGpuAddr_eq, hold.flagValue_eq,
      (Function.update_of_ne hne ..).trans hold.unwritten⟩
  refine { h with
    passed := ?_, fresh := ?_, unused := ?_, current := ?_, stale := ?_,
    cmds := ?_, writer := ?_, staged := ?_ }
  · intro k hk
    by_cases heq : k = w.cmd.owner
    · rw [heq]
      exact Function.update_self ..
    · exact (Function.update_of_ne heq ..).trans (h.passed k hk)
  · intro k hk
    have hne : k ≠ w.cmd.owner := by
      have hlt := hcmd.owner_lt
      change s.acquired.length ≤ k at hk
      omega
    exact (Function.update_of_ne hne ..).trans (h.fresh k hk)
  · intro slot hslot hle
    change s.acquired.length ≤ slot at hle
    rw [hflag, Function.update_of_ne, h.unused slot hslot hle]
    intro heq
    have hlt := hcmd.owner_lt
    have hmod := slotAddr_inj heq
    rw [Nat.mod_eq_of_lt (by omega)] at hmod
    omega
  · intro k hk hwritten
    by_cases heq : k = w.cmd.owner
    · rw [heq, hflag, Function.update_self, BitVec.toNat_ofNat]
      apply Nat.mod_eq_of_lt
      exact (h.generation_lt _ hcmd.owner_lt).trans (by norm_num)
    · rw [hothers k hk heq]
      exact h.current k hk ((Function.update_of_ne heq ..).symm.trans hwritten)
  · intro k hk hunwritten
    by_cases heq : k = w.cmd.owner
    · have hwritten : (s.land w).written k = true := by
        rw [heq]
        exact Function.update_self ..
      rw [hwritten] at hunwritten
      exact Bool.noConfusion hunwritten
    · rw [hothers k hk heq]
      exact h.stale k hk ((Function.update_of_ne heq ..).symm.trans hunwritten)
  · intro cmd hin
    refine hkeep cmd (h.cmds cmd hin) fun heq => hnotin ?_
    rw [← heq]
    exact List.mem_map_of_mem hin
  · intro w' hw' hstatus'
    obtain rfl := Option.some.inj hw'
    exact absurd rfl hstatus'
  · intro w' hw'
    obtain rfl := Option.some.inj hw'
    exact h.staged w hw

/-- The wait of a live acquisition passes exactly if its flag is written. -/
theorem State.Inv.passes_iff (h : s.Inv baseAddr size) {k : ℕ}
    {a : Acquisition} (ha : s.acquired[k]? = some a) (hlive : s.Live size k) :
    s.Passes a ↔ s.written k := by
  have hlt := h.generation_lt k hlive.1
  have hvalue : (BitVec.ofNat 32 (generation size k)).toNat =
      generation size k := by
    rw [BitVec.toNat_ofNat]
    exact Nat.mod_eq_of_lt (hlt.trans (by norm_num))
  rw [h.acquired k a ha]
  unfold State.Passes acquisition
  dsimp only
  cases hwritten : s.written k with
  | true =>
      refine iff_of_true (BitVec.eq_of_toNat_eq ?_) rfl
      rw [h.current k hlive hwritten, hvalue]
  | false =>
      refine iff_of_false (fun heq => ?_) Bool.false_ne_true
      have hstale := h.stale k hlive hwritten
      rw [heq, hvalue] at hstale
      exact Nat.lt_irrefl _ hstale

theorem State.Inv.live (h : s.Inv baseAddr size) {k : ℕ} {a : Acquisition}
    (ha : s.Outstanding k a) : s.Live size k := by
  refine ⟨(List.getElem?_eq_some_iff.mp ha.1).1, ?_⟩
  by_contra hnot
  have hpassed := h.recent k (Nat.lt_of_not_le hnot)
  rw [ha.2] at hpassed
  exact Bool.false_ne_true hpassed

theorem State.Inv.pass (h : s.Inv baseAddr size) {k : ℕ} {a : Acquisition}
    (ha : s.Outstanding k a) (hpasses : s.Passes a) :
    { s with passed := Function.update s.passed k true }.Inv baseAddr size := by
  have hwritten := (h.passes_iff ha.1 (h.live ha)).mp hpasses
  refine { h with recent := ?_, passed := ?_ }
  · intro j hj
    by_cases heq : j = k
    · rw [heq]
      exact Function.update_self ..
    · exact (Function.update_of_ne heq ..).trans (h.recent j hj)
  · intro j hj
    by_cases heq : j = k
    · rw [heq]
      exact hwritten
    · exact h.passed j ((Function.update_of_ne heq ..).symm.trans hj)

theorem State.Inv.reject (h : s.Inv baseAddr size) {w : Writer}
    (hw : s.writer = some w) (hstatus : w.status = .submitted) :
    { s with writer := some { w with status := .failed } }.Inv baseAddr size := by
  refine { h with writer := ?_, staged := ?_ }
  · intro w' hw' _
    obtain rfl := Option.some.inj hw'
    exact h.writer w hw (by rw [hstatus]; decide)
  · intro w' hw'
    obtain rfl := Option.some.inj hw'
    exact h.staged w hw

theorem State.Inv.step (h : s.Inv baseAddr size) {act : Action}
    (hpaced : Paced s act) (hstep : step s act = some s') :
    s'.Inv baseAddr size := by
  cases act with
  | acquire =>
      obtain rfl := Option.some.inj hstep
      exact h.acquire hpaced
  | loseCmd i =>
      simp only [FlagPool.step] at hstep
      split_ifs at hstep
      obtain rfl := Option.some.inj hstep
      exact h.sublist (List.eraseIdx_sublist s.cmds i)
  | writeFlag i =>
      simp only [FlagPool.step] at hstep
      split at hstep
      next cmd hcmd _ =>
        obtain rfl := Option.some.inj hstep
        exact h.writeFlag hcmd
      next => cases hstep
  | land =>
      simp only [FlagPool.step] at hstep
      split at hstep
      next w hw =>
        split_ifs at hstep with hstatus
        obtain rfl := Option.some.inj hstep
        exact h.land hw hstatus
      next => cases hstep
  | reject =>
      simp only [FlagPool.step] at hstep
      split at hstep
      next w hw =>
        split_ifs at hstep with hstatus
        obtain rfl := Option.some.inj hstep
        exact h.reject hw hstatus
      next => cases hstep
  | unlock =>
      simp only [FlagPool.step] at hstep
      split at hstep
      next w hw =>
        split_ifs at hstep with hstatus
        obtain rfl := Option.some.inj hstep
        refine { h with writer := ?_, staged := ?_ }
        · intro w' hw'
          cases hw'
        · intro w' hw'
          cases hw'
      next => cases hstep
  | pass k =>
      simp only [FlagPool.step] at hstep
      split at hstep
      next a ha =>
        split_ifs at hstep with hpass
        obtain rfl := Option.some.inj hstep
        exact h.pass ⟨ha, Bool.eq_false_of_not_eq_true hpass.1⟩ hpass.2
      next => cases hstep

theorem State.Inv.sound (h : s.Inv baseAddr size) : s.Sound := by
  constructor
  · intro j k a b hj hk hne
    rw [h.acquired j a hj.1, h.acquired k b hk.1]
    have hlj := h.live hj
    have hlk := h.live hk
    unfold State.Live at hlj hlk
    rcases Nat.lt_or_gt_of_ne hne with hlt | hlt
    · exact slot_ne hlt (by omega)
    · exact (slot_ne hlt (by omega)).symm
  · intro k a ha
    exact h.passes_iff ha.1 (h.live ha)
  · exact h.passed

end

/-- In every run in which the acquisitions keep their pace, no two outstanding
acquisitions share a slot and a wait passes exactly if its own flag is
written. -/
theorem flag_waits_sound {baseAddr size : ℕ} {pool : GpuFlagPool}
    (hpool : GpuFlagPool.create baseAddr size = .ok pool) (flagPoolEnabled : Bool)
    {acts : List Action}
    (hpaced : AllSteps step Paced (State.init pool flagPoolEnabled) acts)
    {s : State} (hrun : run step (State.init pool flagPoolEnabled) acts = some s) :
    s.Sound :=
  (hpaced.invariant (fun _ _ _ hpaced hstep h => State.Inv.step h hpaced hstep)
    hrun (State.Inv.init hpool flagPoolEnabled)).sound

/-- Two slots, three acquisitions and one flag. -/
def wrap : List Action :=
  [.acquire, .writeFlag 0, .land, .unlock, .pass 0, .acquire, .acquire]

theorem flag_waits_sound_wrap :
    ∃ pool s, GpuFlagPool.create 64 2 = .ok pool ∧
      run step (State.init pool true) wrap = some s ∧
      s.acquired.map Acquisition.generation = [1, 1, 2] ∧ s.Sound := by
  have hpool : GpuFlagPool.create 64 2 = .ok ⟨2, 1, 64, fun _ => 0, 0⟩ := rfl
  have hpaced : AllSteps step Paced
      (State.init ⟨2, 1, 64, fun _ => 0, 0⟩ true) wrap := by decide
  exact ⟨_, _, hpool, rfl, rfl, flag_waits_sound hpool true hpaced rfl⟩

end SmartNic.FlagPool
