import SmartNic.Library.Machine
import SmartNic.Library.RoundRobin
import SmartNic.Partition.Parameter

/-!
# The pool of GPU flags

`GpuFlagPool` of `gpu_flag_pool.py`, `phase14_write_flag` of `comch_server.c` and
the equality waits of the GPU streams.  Every AllGather acquires a slot; the DPU
writes the generation there when the AllGather is done, at any later time and in
any order, and the streams wait for it.
-/

namespace SmartNic.FlagPool

open SmartNic.Partition

/-! ## The host -/

/-- `GpuFlagPool`; the flags themselves are in the GPU memory. -/
structure GpuFlagPool where
  size : ℕ
  mask : ℕ
  baseAddr : ℕ
  gens : ℕ → ℕ
  next : ℕ

/-- What `acquire` returns. -/
structure Acquisition where
  slotId : ℕ
  generation : ℕ
  gpuAddr : ℕ
  expectedValue : ℕ
deriving DecidableEq, Repr

namespace GpuFlagPool

/-- `__init__` for flags that `torch.zeros` put at `baseAddr`. -/
def create (baseAddr size : ℕ) : Except PyError GpuFlagPool :=
  if size = 0 ∨ size &&& (size - 1) ≠ 0 then .error .valueError
  else .ok
    { size := size
      mask := size - 1
      baseAddr := baseAddr
      gens := fun _ => 0
      next := 0 }

/-- `acquire`; there is no acquisition if it raises `OverflowError`. -/
def acquire (pool : GpuFlagPool) : GpuFlagPool × Option Acquisition :=
  let slotId := pool.next
  let gen := pool.gens slotId + 1
  let pool' := { pool with
    next := (pool.next + 1) &&& pool.mask
    gens := Function.update pool.gens slotId gen }
  if 2 ^ 30 ≤ gen then (pool', none)
  else
    (pool', some
      { slotId := slotId
        generation := gen
        gpuAddr := pool.baseAddr + slotId * 4
        expectedValue := gen })

end GpuFlagPool

/-! ## The DPU -/

/-- The flag fields of a command; `owner` is the acquisition it was made for. -/
structure FlagCmd where
  owner : ℕ
  flagGpuAddr : ℕ
  flagValue : BitVec 32

/-- What has become of the submitted write. -/
inductive WriteStatus where
  | submitted
  | landed
  | failed
deriving DecidableEq

/-- The thread that holds `flag_write_mtx`. -/
structure Writer where
  cmd : FlagCmd
  idx : BitVec 32
  status : WriteStatus

/-- The flag pool in `collective_worker_t`. -/
structure CollectiveWorker where
  flagPoolEnabled : Bool
  flagSendBufPool : BitVec 32 → BitVec 32
  flagSendBufIdx : BitVec 32

/-! ## The system -/

structure State where
  pool : GpuFlagPool
  acquired : List Acquisition
  cmds : List FlagCmd
  worker : CollectiveWorker
  writer : Option Writer
  flags : ℕ → BitVec 32
  written : ℕ → Bool
  passed : ℕ → Bool

/-- The pool is fresh and its flags are zero. -/
def State.init (pool : GpuFlagPool) (flagPoolEnabled : Bool) : State where
  pool := pool
  acquired := []
  cmds := []
  worker := ⟨flagPoolEnabled, fun _ => 0, 0⟩
  writer := none
  flags := fun _ => 0
  written := fun _ => false
  passed := fun _ => false

/-- A command is named by its position. -/
inductive Action where
  | acquire
  | loseCmd (i : ℕ)
  | writeFlag (i : ℕ)
  | land
  | reject
  | unlock
  | pass (k : ℕ)
deriving DecidableEq

namespace State

/-- `all_gather_flat_via_base` acquires a slot and sends a command with it. -/
def acquire (s : State) : State :=
  match s.pool.acquire with
  | (pool, some a) =>
      { s with
        pool := pool
        acquired := s.acquired ++ [a]
        cmds := s.cmds ++ [⟨s.acquired.length, a.gpuAddr,
          BitVec.ofNat 32 a.expectedValue⟩] }
  | (pool, none) => { s with pool := pool }

/-- `phase14_write_flag` up to the submitted write. -/
def writeFlag (s : State) (i : ℕ) (cmd : FlagCmd) : State :=
  let s := { s with cmds := s.cmds.eraseIdx i }
  if !s.worker.flagPoolEnabled ∨ cmd.flagGpuAddr = 0 then s
  else
    let idx := s.worker.flagSendBufIdx &&& 0xFF
    { s with
      worker := { s.worker with
        flagSendBufIdx := s.worker.flagSendBufIdx + 1
        flagSendBufPool :=
          Function.update s.worker.flagSendBufPool idx cmd.flagValue }
      writer := some ⟨cmd, idx, .submitted⟩ }

/-- The write takes its value out of the staging entry. -/
def land (s : State) (w : Writer) : State :=
  { s with
    flags := Function.update s.flags w.cmd.flagGpuAddr
      (s.worker.flagSendBufPool w.idx)
    written := Function.update s.written w.cmd.owner true
    writer := some { w with status := .landed } }

/-- `cuStreamWaitValue32` with `EQ`. -/
def Passes (s : State) (a : Acquisition) : Prop :=
  s.flags a.gpuAddr = BitVec.ofNat 32 a.expectedValue

instance (s : State) (a : Acquisition) : Decidable (s.Passes a) :=
  inferInstanceAs (Decidable (_ = _))

end State

/-- A command can be lost before its flag is written, a write can be refused,
and the mutex is free again when the write is over. -/
def step (s : State) : Action → Option State
  | .acquire => some s.acquire
  | .loseCmd i =>
      if i < s.cmds.length then some { s with cmds := s.cmds.eraseIdx i }
      else none
  | .writeFlag i =>
      match s.cmds[i]?, s.writer with
      | some cmd, none => some (s.writeFlag i cmd)
      | _, _ => none
  | .land =>
      match s.writer with
      | some w => if w.status = .submitted then some (s.land w) else none
      | none => none
  | .reject =>
      match s.writer with
      | some w =>
          if w.status = .submitted then
            some { s with writer := some { w with status := .failed } }
          else none
      | none => none
  | .unlock =>
      match s.writer with
      | some w =>
          if w.status = .submitted then none else some { s with writer := none }
      | none => none
  | .pass k =>
      match s.acquired[k]? with
      | some a =>
          if ¬ s.passed k ∧ s.Passes a then
            some { s with passed := Function.update s.passed k true }
          else none
      | none => none

/-- The wait of an acquisition has passed before `size` further ones are made,
and the generations stay below the limit. -/
def Paced (s : State) (a : Action) : Prop :=
  a = .acquire →
    (s.pool.size ≤ s.acquired.length →
      s.passed (s.acquired.length - s.pool.size)) ∧
    s.pool.gens s.pool.next + 1 < 2 ^ 30

instance (s : State) (a : Action) : Decidable (Paced s a) :=
  inferInstanceAs (Decidable (_ → _))

/-- The wait of an acquisition has not passed yet. -/
def State.Outstanding (s : State) (k : ℕ) (a : Acquisition) : Prop :=
  s.acquired[k]? = some a ∧ s.passed k = false

/-- Outstanding acquisitions have slots of their own, and their waits pass when
their own flags are written. -/
structure State.Sound (s : State) : Prop where
  slots : ∀ j k a b, s.Outstanding j a → s.Outstanding k b → j ≠ k →
    a.slotId ≠ b.slotId
  waits : ∀ k a, s.Outstanding k a → (s.Passes a ↔ s.written k)
  passed : ∀ k, s.passed k → s.written k

end SmartNic.FlagPool
