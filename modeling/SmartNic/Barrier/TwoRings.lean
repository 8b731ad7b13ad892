import SmartNic.Barrier.RdbSafety
import SmartNic.Library.CallLog
import SmartNic.Library.Pair

/-!
# Barriers of the two rings

`rdb_barrier` as the worker threads of both rings of a rank call it.  With RDB
it ignores `ring_id`, so that both threads share one counter and one slot;
without, it is `MPI_Barrier` on the communicator of the ring, or on
`MPI_COMM_WORLD` if that could not be duplicated.
-/

namespace SmartNic.Barrier

open SmartNic.Machine SmartNic.CallLog

attribute [local instance] neZero_two

/-- `ring_id`. -/
inductive RingId where
  | ring0
  | ring1
deriving DecidableEq, Repr

instance : Fintype RingId where
  elems := {.ring0, .ring1}
  complete i := by cases i <;> decide

/-- The communicators: `ring_comm[ring_id]` and `MPI_COMM_WORLD`. -/
inductive Comm where
  | ring (i : RingId)
  | world
deriving DecidableEq, Repr

/-- What `execute_doca_create_ring_cmd` left on a rank. -/
structure RankConfig where
  rdbEnabled : Bool
  ringCommValid : RingId → Bool

/-- The communicator that `rdb_barrier` falls back to. -/
def RankConfig.comm (cfg : RankConfig) (i : RingId) : Comm :=
  if cfg.ringCommValid i then .ring i else .world

/-- The calls of `MPI_Barrier`: the log of each communicator, and the number of
the call on its communicator that a thread is in. -/
structure Mpi (n : ℕ) where
  log : Comm → Log (Fin n) RingId
  calling : Fin n → RingId → Option ℕ

structure State (n : ℕ) where
  rdb : Ring n RingId
  mpi : Mpi n

def State.init {n : ℕ} [NeZero n] : State n where
  rdb := .init
  mpi := { log := fun _ => .empty, calling := fun _ _ => none }

inductive CallAction (n : ℕ) where
  | rdb (a : Action n RingId)
  | mpiEnter (r : Fin n) (i : RingId)
  | mpiLeave (r : Fin n) (i : RingId)
deriving DecidableEq, Repr

/-- The rank whose thread calls the barrier over RDB. -/
def Action.caller? : Action n T → Option (Fin n)
  | .at r (.enter _) => some r
  | _ => none

variable {n : ℕ}

/-- A thread calls `MPI_Barrier(comm)`. -/
def Mpi.enter (m : Mpi n) (c : Comm) (r : Fin n) (i : RingId) : Mpi n where
  log := Function.update m.log c ((m.log c).enter r i)
  calling := Function.update m.calling r (Function.update (m.calling r) i
    (some (((m.log c).entries r).length + 1)))

/-- A thread returns from `MPI_Barrier(comm)`. -/
def Mpi.leave (m : Mpi n) (c : Comm) (r : Fin n) (i : RingId) : Mpi n where
  log := Function.update m.log c ((m.log c).leave r i)
  calling := Function.update m.calling r
    (Function.update (m.calling r) i none)

/-- `MPI_Barrier` returns from the `k`-th call of a rank on a communicator once
all ranks have made `k` calls on it. -/
def Mpi.complete (m : Mpi n) (c : Comm) (k : ℕ) : Prop :=
  ∀ q, k ≤ ((m.log c).entries q).length

instance (m : Mpi n) (c : Comm) (k : ℕ) : Decidable (m.complete c k) :=
  inferInstanceAs (Decidable (∀ q, k ≤ ((m.log c).entries q).length))

variable [NeZero n]

def State.step (cfg : Fin n → RankConfig) (s : State n) :
    CallAction n → Option (State n)
  | .rdb a =>
      if ∀ r ∈ a.caller?, (cfg r).rdbEnabled then
        (s.rdb.step a).map fun rdb => { s with rdb := rdb }
      else none
  | .mpiEnter r i =>
      if (cfg r).rdbEnabled = false ∧ s.mpi.calling r i = none then
        some { s with mpi := s.mpi.enter ((cfg r).comm i) r i }
      else none
  | .mpiLeave r i =>
      match s.mpi.calling r i with
      | some k =>
          if s.mpi.complete ((cfg r).comm i) k then
            some { s with mpi := s.mpi.leave ((cfg r).comm i) r i }
          else none
      | none => none

/-! ## Isolation of the rings -/

/-- How often the thread of ring `i` on rank `r` has called the barrier. -/
def State.entered (cfg : Fin n → RankConfig) (s : State n) (r : Fin n)
    (i : RingId) : ℕ :=
  if (cfg r).rdbEnabled then (s.rdb r).entries.count i
  else ((s.mpi.log ((cfg r).comm i)).entries r).count i

/-- How often the thread of ring `i` on rank `r` has returned from it. -/
def State.returned (cfg : Fin n → RankConfig) (s : State n) (r : Fin n)
    (i : RingId) : ℕ :=
  if (cfg r).rdbEnabled then (s.rdb r).exits.count i
  else ((s.mpi.log ((cfg r).comm i)).exits r).count i

/-- A thread has returned from its `k`-th barrier for a ring only if all ranks
have entered their `k`-th barrier for that ring. -/
def State.Isolated (cfg : Fin n → RankConfig) (s : State n) : Prop :=
  ∀ i r q, s.returned cfg r i ≤ s.entered cfg q i

/-- A barrier is called only when no other barrier call of the rank uses the
same RDB state or communicator, when every rank that has already made that
call on it made it for the same ring, and before the RDB counter wraps. -/
def Orderly (cfg : Fin n → RankConfig) (s : State n) : CallAction n → Prop
  | .rdb (.at r (.enter i)) =>
      (∀ j, (s.rdb r).caller j = .outside) ∧
        Log.Admits s.rdb.entries r i ∧
        (s.rdb r).entries.length + 1 < 2 ^ 63
  | .mpiEnter r i =>
      (∀ j, (cfg r).comm j = (cfg r).comm i → s.mpi.calling r j = none) ∧
        Log.Admits (s.mpi.log ((cfg r).comm i)).entries r i
  | _ => True

instance (cfg : Fin n → RankConfig) (s : State n) :
    (a : CallAction n) → Decidable (Orderly cfg s a)
  | .rdb (.at r (.enter i)) => inferInstanceAs (Decidable
      ((∀ j, (s.rdb r).caller j = .outside) ∧ Log.Admits s.rdb.entries r i ∧
        (s.rdb r).entries.length + 1 < 2 ^ 63))
  | .mpiEnter r i => inferInstanceAs (Decidable
      ((∀ j, (cfg r).comm j = (cfg r).comm i → s.mpi.calling r j = none) ∧
        Log.Admits (s.mpi.log ((cfg r).comm i)).entries r i))
  | .rdb (.at _ (.load _)) | .rdb (.at _ (.store _)) | .rdb (.at _ (.exec _))
  | .rdb (.at _ (.fetch _)) | .rdb (.at _ (.fail _))
  | .rdb (.at _ (.leave _)) | .rdb (.deliver _ _) | .mpiLeave _ _ =>
      isTrue trivial

/-! ## The invariant -/

/-- The calls and returns of all ranks over RDB. -/
def State.rdbLog (s : State n) : Log (Fin n) RingId where
  entries := s.rdb.entries
  exits := fun r => (s.rdb r).exits

/-- On a communicator a rank is in no call, or one of its threads is in the
last one. -/
def Mpi.Serial (cfg : Fin n → RankConfig) (m : Mpi n) (c : Comm)
    (r : Fin n) : Prop :=
  ((m.log c).entries r = (m.log c).exits r ∧
    ∀ i, (cfg r).comm i = c → m.calling r i = none) ∨
  ∃ i, (cfg r).comm i = c ∧
    (m.log c).entries r = (m.log c).exits r ++ [i] ∧
    m.calling r i = some ((m.log c).entries r).length ∧
    ∀ j, j ≠ i → (cfg r).comm j = c → m.calling r j = none

structure State.Inv (cfg : Fin n → RankConfig) (s : State n) : Prop where
  rdb : s.rdb.Inv
  entries_lt : ∀ r, (s.rdb r).entries.length < 2 ^ 63
  agrees : Log.Agrees s.rdb.entries
  rdbEnabled : ∀ r, ∀ i ∈ s.rdb.entries r, (cfg r).rdbEnabled
  sound : ∀ c, (s.mpi.log c).Sound
  serial : ∀ c r, s.mpi.Serial cfg c r
  fallback : ∀ c r, ∀ i ∈ (s.mpi.log c).entries r,
    (cfg r).rdbEnabled = false ∧ (cfg r).comm i = c

variable {cfg : Fin n → RankConfig} {s s' : State n}

theorem State.Inv.init : (State.init : State n).Inv cfg where
  rdb := .init
  entries_lt _ := by simp [State.init, Ring.init, Worker.init]
  agrees := Log.Sound.empty.agrees
  rdbEnabled _ i hi := by
    simp [Ring.entries, State.init, Ring.init, Worker.init] at hi
  sound _ := .empty
  serial _ _ := .inl ⟨rfl, fun _ _ => rfl⟩
  fallback _ _ i hi := by simp [State.init, Log.empty] at hi

theorem State.Inv.rdbLog_sound (h : s.Inv cfg) : s.rdbLog.Sound where
  prefix_exits r := (h.rdb.ok r).prefix_exits
  separated := h.rdb.separated
  agrees := h.agrees

/-- A thread calls over the RDB or the communicator that its rank chose for its
ring; nowhere else is there a call of it. -/
theorem State.Inv.isolated (h : s.Inv cfg) : s.Isolated cfg := by
  intro i r q
  unfold State.returned State.entered
  by_cases hr : (cfg r).rdbEnabled
  · rw [if_pos hr]
    have hcount := h.rdbLog_sound.count_le r q i
    by_cases hq : (cfg q).rdbEnabled
    · rw [if_pos hq]
      exact hcount
    · have hnone : (s.rdbLog.entries q).count i = 0 :=
        List.count_eq_zero.mpr fun hi => hq (h.rdbEnabled q i hi)
      rw [hnone] at hcount
      exact hcount.trans (Nat.zero_le _)
  · rw [if_neg hr]
    have hcount := (h.sound ((cfg r).comm i)).count_le r q i
    by_cases hi : i ∈ (s.mpi.log ((cfg r).comm i)).entries q
    · obtain ⟨hq, hcomm⟩ := h.fallback _ q i hi
      rw [if_neg (by simp [hq]), hcomm]
      exact hcount
    · rw [List.count_eq_zero.mpr hi] at hcount
      exact hcount.trans (Nat.zero_le _)

/-! ### Steps -/

theorem State.Inv.rdb_step (h : s.Inv cfg) {a : Action n RingId}
    (hcaller : ∀ r ∈ a.caller?, (cfg r).rdbEnabled)
    (horderly : Orderly cfg s (.rdb a)) {rdb : Ring n RingId}
    (hstep : s.rdb.step a = some rdb) :
    State.Inv cfg { s with rdb := rdb } := by
  have hserial : Serialised s.rdb a := by
    cases a with
    | «at» r a =>
        cases a with
        | enter t => exact horderly.1
        | _ => trivial
    | deliver r i => trivial
  have hrdb := h.rdb.step h.entries_lt hserial hstep
  rcases Ring.entries_step hstep with hsame | ⟨r, i, rfl, hnew⟩
  · exact
      { h with
        rdb := hrdb
        entries_lt := fun q => by
          have hq := congrArg List.length (congrFun hsame q)
          exact hq.trans_lt (h.entries_lt q)
        agrees := hsame ▸ h.agrees
        rdbEnabled := hsame ▸ h.rdbEnabled }
  · obtain ⟨-, hadmits, hlt⟩ := horderly
    refine
      { h with
        rdb := hrdb
        entries_lt := ?_
        agrees := hnew ▸ h.agrees.enter hadmits
        rdbEnabled := ?_ }
    · intro q
      have hq := congrFun hnew q
      change (rdb.entries q).length < _
      rw [hq]
      by_cases hqr : q = r
      · subst hqr
        rw [Function.update_self, List.length_append]
        exact hlt
      · rw [Function.update_of_ne hqr]
        exact h.entries_lt q
    · intro q j hj
      change j ∈ rdb.entries q at hj
      rw [hnew] at hj
      by_cases hqr : q = r
      · subst hqr
        exact hcaller q rfl
      · rw [Function.update_of_ne hqr] at hj
        exact h.rdbEnabled q j hj

omit [NeZero n] in
/-- Whether the calls of a rank on a communicator are in order depends on them
and on the threads that use it only. -/
theorem Mpi.Serial.congr {m m' : Mpi n} {c : Comm} {r : Fin n}
    (h : m.Serial cfg c r)
    (hentries : (m'.log c).entries r = (m.log c).entries r)
    (hexits : (m'.log c).exits r = (m.log c).exits r)
    (hcalling : ∀ i, (cfg r).comm i = c →
      m'.calling r i = m.calling r i) : m'.Serial cfg c r := by
  unfold Mpi.Serial
  rw [hentries, hexits]
  rcases h with ⟨heq, hnone⟩ | ⟨i, hi, hopen, hcall, hothers⟩
  · exact .inl ⟨heq, fun i hi => (hcalling i hi).trans (hnone i hi)⟩
  · exact .inr ⟨i, hi, hopen, (hcalling i hi).trans hcall,
      fun j hj hc => (hcalling j hc).trans (hothers j hj hc)⟩

omit [NeZero n] in
/-- A step of the thread `i` of rank `r` on its communicator leaves the calls
of other ranks and on other communicators in order. -/
theorem Mpi.Serial.frame {m : Mpi n} {c : Comm} {r q : Fin n} {i : RingId}
    (h : m.Serial cfg c q) (log : Log (Fin n) RingId) (k : Option ℕ)
    (hne : c = (cfg r).comm i → q ≠ r ∧
      log.entries q = (m.log c).entries q ∧ log.exits q = (m.log c).exits q) :
    Mpi.Serial cfg
      { log := Function.update m.log ((cfg r).comm i) log
        calling := Function.update m.calling r
          (Function.update (m.calling r) i k) } c q := by
  by_cases hc : c = (cfg r).comm i
  · obtain ⟨hq, hentries, hexits⟩ := hne hc
    subst hc
    refine h.congr ?_ ?_ ?_
    · simp only [Function.update_self, hentries]
    · simp only [Function.update_self, hexits]
    · intro j _
      simp only [Function.update_of_ne hq]
  · refine h.congr ?_ ?_ ?_
    · simp only [Function.update_of_ne hc]
    · simp only [Function.update_of_ne hc]
    · intro j hj
      by_cases hq : q = r
      · subst hq
        have hji : j ≠ i := by
          rintro rfl
          exact hc hj.symm
        simp only [Function.update_self, Function.update_of_ne hji]
      · simp only [Function.update_of_ne hq]

theorem State.Inv.mpiEnter (h : s.Inv cfg) {r : Fin n} {i : RingId}
    (hfallback : (cfg r).rdbEnabled = false)
    (horderly : Orderly cfg s (.mpiEnter r i)) :
    State.Inv cfg { s with mpi := s.mpi.enter ((cfg r).comm i) r i } := by
  obtain ⟨hidle, hadmits⟩ := horderly
  have hsound := (h.sound ((cfg r).comm i)).enter hadmits
  have hclosed : (s.mpi.log ((cfg r).comm i)).entries r =
      (s.mpi.log ((cfg r).comm i)).exits r := by
    rcases h.serial ((cfg r).comm i) r with ⟨heq, -⟩ | ⟨j, hj, -, hcall, -⟩
    · exact heq
    · rw [hidle j hj] at hcall
      cases hcall
  refine
    { h with
      sound := ?_
      serial := ?_
      fallback := ?_ }
  · intro c
    by_cases hc : c = (cfg r).comm i
    · subst hc
      simpa only [Mpi.enter, Function.update_self] using hsound
    · simpa only [Mpi.enter, Function.update_of_ne hc] using h.sound c
  · intro c q
    by_cases hcq : c = (cfg r).comm i ∧ q = r
    · obtain ⟨rfl, rfl⟩ := hcq
      refine .inr ⟨i, rfl, ?_, ?_, ?_⟩
      · simp only [Mpi.enter, Log.enter, Function.update_self, hclosed]
      · simp only [Mpi.enter, Log.enter, Function.update_self,
          List.length_append, List.length_singleton]
      · intro j hj hc
        simp only [Mpi.enter, Function.update_self, Function.update_of_ne hj]
        exact hidle j hc
    · refine (h.serial c q).frame _ _ ?_
      rintro rfl
      have hq : q ≠ r := fun hq => hcq ⟨rfl, hq⟩
      exact ⟨hq, Function.update_of_ne hq _ _, rfl⟩
  · intro c q j hj
    by_cases hc : c = (cfg r).comm i
    · subst hc
      by_cases hq : q = r
      · subst hq
        simp only [Mpi.enter, Log.enter, Function.update_self,
          List.mem_append, List.mem_singleton] at hj
        rcases hj with hold | rfl
        · exact h.fallback _ q j hold
        · exact ⟨hfallback, rfl⟩
      · simp only [Mpi.enter, Log.enter, Function.update_self,
          Function.update_of_ne hq] at hj
        exact h.fallback _ q j hj
    · simp only [Mpi.enter, Function.update_of_ne hc] at hj
      exact h.fallback c q j hj

theorem State.Inv.mpiLeave (h : s.Inv cfg) {r : Fin n} {i : RingId} {k : ℕ}
    (hcall : s.mpi.calling r i = some k)
    (hcomplete : s.mpi.complete ((cfg r).comm i) k) :
    State.Inv cfg { s with mpi := s.mpi.leave ((cfg r).comm i) r i } := by
  obtain ⟨hopen, hk, hothers⟩ :
      (s.mpi.log ((cfg r).comm i)).entries r =
        (s.mpi.log ((cfg r).comm i)).exits r ++ [i] ∧
      k = ((s.mpi.log ((cfg r).comm i)).entries r).length ∧
      ∀ j, j ≠ i → (cfg r).comm j = (cfg r).comm i →
        s.mpi.calling r j = none := by
    rcases h.serial ((cfg r).comm i) r with
      ⟨-, hnone⟩ | ⟨j, hj, hopen, hcall', hothers⟩
    · rw [hnone i rfl] at hcall
      cases hcall
    · by_cases hji : i = j
      · subst hji
        rw [hcall] at hcall'
        exact ⟨hopen, Option.some.inj hcall', hothers⟩
      · rw [hothers i hji rfl] at hcall
        cases hcall
  have hsound := (h.sound ((cfg r).comm i)).leave hopen (hk ▸ hcomplete)
  refine
    { h with
      sound := ?_
      serial := ?_
      fallback := ?_ }
  · intro c
    by_cases hc : c = (cfg r).comm i
    · subst hc
      simpa only [Mpi.leave, Function.update_self] using hsound
    · simpa only [Mpi.leave, Function.update_of_ne hc] using h.sound c
  · intro c q
    by_cases hcq : c = (cfg r).comm i ∧ q = r
    · obtain ⟨rfl, rfl⟩ := hcq
      refine .inl ⟨?_, ?_⟩
      · simp only [Mpi.leave, Log.leave, Function.update_self, hopen]
      · intro j hj
        by_cases hji : j = i
        · subst hji
          simp only [Mpi.leave, Function.update_self]
        · simp only [Mpi.leave, Function.update_self,
            Function.update_of_ne hji]
          exact hothers j hji hj
    · refine (h.serial c q).frame _ _ ?_
      rintro rfl
      have hq : q ≠ r := fun hq => hcq ⟨rfl, hq⟩
      exact ⟨hq, rfl, Function.update_of_ne hq _ _⟩
  · intro c q j hj
    refine h.fallback c q j ?_
    by_cases hc : c = (cfg r).comm i
    · subst hc
      simpa only [Mpi.leave, Log.leave, Function.update_self] using hj
    · simpa only [Mpi.leave, Function.update_of_ne hc] using hj

theorem State.Inv.step (h : s.Inv cfg) {a : CallAction n}
    (horderly : Orderly cfg s a) (hstep : s.step cfg a = some s') :
    s'.Inv cfg := by
  cases a with
  | rdb a =>
      simp only [State.step] at hstep
      split at hstep
      next hcaller =>
        obtain ⟨rdb, hrdb, rfl⟩ := Option.map_eq_some_iff.mp hstep
        exact h.rdb_step hcaller horderly hrdb
      · cases hstep
  | mpiEnter r i =>
      simp only [State.step] at hstep
      split at hstep
      next hguard =>
        cases hstep
        exact h.mpiEnter hguard.1 horderly
      · cases hstep
  | mpiLeave r i =>
      simp only [State.step] at hstep
      split at hstep
      next k hcall =>
        split at hstep
        next hcomplete =>
          cases hstep
          exact h.mpiLeave hcall hcomplete
        · cases hstep
      · cases hstep

/-! ## Whole runs -/

/-- If every barrier is called in an orderly way, barriers of one ring never
satisfy those of the other. -/
theorem barriers_isolated_of_orderly (cfg : Fin n → RankConfig)
    (acts : List (CallAction n)) (s : State n)
    (hrun : run (State.step cfg) .init acts = some s)
    (horderly : AllSteps (State.step cfg) (Orderly cfg) .init acts) :
    s.Isolated cfg := by
  have hinv : s.Inv cfg :=
    horderly.invariant (fun s a s' ha hstep h => h.step ha hstep) hrun .init
  exact hinv.isolated

/-- Every rank fell back to MPI and has a communicator for each ring. -/
def OwnComms (cfg : Fin n → RankConfig) : Prop :=
  ∀ r, (cfg r).rdbEnabled = false ∧ ∀ i, (cfg r).comm i = .ring i

/-- On communicators of their own, barrier calls are orderly whenever they are
possible. -/
theorem State.Inv.orderly_of_ownComms (h : s.Inv cfg) (hcfg : OwnComms cfg)
    {a : CallAction n} (hstep : s.step cfg a = some s') :
    Orderly cfg s a := by
  cases a with
  | rdb a =>
      cases a with
      | deliver r i => trivial
      | «at» r a =>
          cases a with
          | enter i =>
              simp only [State.step] at hstep
              split at hstep
              next hcaller =>
                have henabled := hcaller r rfl
                rw [(hcfg r).1] at henabled
                cases henabled
              · cases hstep
          | _ => trivial
  | mpiEnter r i =>
      simp only [State.step] at hstep
      split at hstep
      next hguard =>
        constructor
        · intro j hj
          rw [(hcfg r).2, (hcfg r).2, Comm.ring.injEq] at hj
          exact hj ▸ hguard.2
        · intro q x hx
          have hcomm := (h.fallback _ q x (List.mem_of_getElem? hx)).2
          rw [(hcfg q).2, (hcfg r).2, Comm.ring.injEq] at hcomm
          exact hcomm
      · cases hstep
  | mpiLeave r i => trivial

/-- The MPI fallback with a communicator for each ring keeps the rings apart
whatever the threads do. -/
theorem barriers_isolated_of_ownComms (hcfg : OwnComms cfg)
    (acts : List (CallAction n))
    (hrun : run (State.step cfg) .init acts = some s) : s.Isolated cfg := by
  have hinv : s.Inv cfg :=
    run_invariant (fun s a s' hstep h =>
      h.step (h.orderly_of_ownComms hcfg hstep) hstep) hrun .init
  exact hinv.isolated

/-- Both ranks call for ring 0, then both for ring 1, over MPI. -/
def ringByRing : List (CallAction 2) :=
  [.mpiEnter 0 .ring0, .mpiEnter 1 .ring0, .mpiLeave 1 .ring0,
    .mpiEnter 1 .ring1, .mpiLeave 0 .ring0, .mpiEnter 0 .ring1,
    .mpiLeave 0 .ring1]

/-- No RDB, and no communicator but `MPI_COMM_WORLD`. -/
def worldOnly : Fin 2 → RankConfig := fun _ =>
  { rdbEnabled := false, ringCommValid := fun _ => false }

theorem barriers_isolated_of_orderly_two :
    ∃ s, run (State.step worldOnly) .init ringByRing = some s ∧
      s.Isolated worldOnly := by
  have hend : (run (State.step worldOnly) .init ringByRing).isSome := by
    decide +kernel
  have horderly : AllSteps (State.step worldOnly) (Orderly worldOnly) .init
      ringByRing := by decide +kernel
  obtain ⟨s, hrun⟩ := Option.isSome_iff_exists.mp hend
  exact ⟨s, hrun,
    barriers_isolated_of_orderly worldOnly ringByRing s hrun horderly⟩

/-- Rank 0 calls for ring 0 and rank 1 for ring 1. -/
def mixedRings : List (CallAction 2) :=
  [.at 0 (.enter .ring0), .at 0 (.load .ring0), .at 0 (.store .ring0),
    .at 0 (.exec .ring0), .at 0 (.fetch .ring0), .deliver 0 0,
    .at 1 (.enter .ring1), .at 1 (.load .ring1), .at 1 (.store .ring1),
    .at 1 (.exec .ring1), .at 1 (.exec .ring1), .at 1 (.fetch .ring1),
    .deliver 1 0, .at 0 (.exec .ring0), .at 0 (.exec .ring0),
    .at 0 (.fetch .ring0), .deliver 0 0, .at 1 (.exec .ring1),
    .at 1 (.exec .ring1), .at 1 (.fetch .ring1), .at 1 (.leave .ring1)].map
    CallAction.rdb

/-- RDB came up on all ranks. -/
def rdbOnly : Fin 2 → RankConfig := fun _ =>
  { rdbEnabled := true, ringCommValid := fun _ => true }

/-- The barrier of rank 0 for ring 0 satisfies that of rank 1 for ring 1. -/
theorem mixed_rings_not_isolated :
    ∃ s, run (State.step rdbOnly) .init mixedRings = some s ∧
      ¬ s.Isolated rdbOnly := by
  have hend : (run (State.step rdbOnly) .init mixedRings).map
      (fun s => (s.returned rdbOnly 1 .ring1, s.entered rdbOnly 0 .ring1)) =
      some (1, 0) := by decide +kernel
  obtain ⟨s, hrun, hcounts⟩ := Option.map_eq_some_iff.mp hend
  refine ⟨s, hrun, ?_⟩
  intro hisolated
  have hle := hisolated .ring1 1 0
  rw [(Prod.mk.inj hcounts).1, (Prod.mk.inj hcounts).2] at hle
  exact absurd hle (by decide)

end SmartNic.Barrier
