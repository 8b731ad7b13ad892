import SmartNic.Codec.ControlCmd
import SmartNic.Completion.Doorbell
import SmartNic.Library.Pair
import SmartNic.Library.Ranges

/-!
# The working buffer

Send and receive slots, the staging pool of the flag writes and the slots of the
RDB barrier are parts of one buffer.  Threads execute collective commands; the
phase of a command says which bytes it uses.
-/

namespace SmartNic.WorkingBuffer

open SmartNic.Codec SmartNic.Completion SmartNic.Ranges

attribute [local instance] neZero_two

/-! ## Layout -/

def CW_BUFFER_POOL_SLOTS : ℕ := 2

/-- The index of a slot, below `CW_BUFFER_POOL_SLOTS`. -/
abbrev Slot := Fin 2

/-- `send_pool` or `recv_pool`. -/
inductive Pool where
  | send
  | recv
deriving DecidableEq, Repr

def RDB_SLOT_REGION_SIZE : ℕ := 192
def RDB_OFFSET_SEND_A : ℕ := 192
def RDB_OFFSET_SEND_B : ℕ := 128
def RDB_OFFSET_LOCAL_SLOT : ℕ := 64

/-- The two waves of `rdb_barrier`. -/
inductive Wave where
  | gather
  | release
deriving DecidableEq, Repr

/-- `pool_entries` of 16 bytes. -/
def poolEntries : ℕ := 256
def flagPoolBytes : ℕ := poolEntries * 16

/-- `slotSize` is `CW_SLOT_DEFAULT_BYTES`; `flagPool` is whether the host sent a
flag pool that could be imported. -/
structure Config where
  slotSize : ℕ
  useRingQueues : Bool
  ringR1Enabled : Bool
  rdbEnabled : Bool
  flagPool : Bool
  doorbellEnabled : Bool
deriving DecidableEq, Repr

namespace Config

variable (cfg : Config)

def poolTotal : ℕ := cfg.slotSize * CW_BUFFER_POOL_SLOTS * 2

def workingBufSize : ℕ := cfg.poolTotal + 4096

/-- `flag_pool_enabled`. -/
def flagPoolEnabled : Bool :=
  cfg.flagPool && RDB_SLOT_REGION_SIZE + flagPoolBytes ≤ cfg.workingBufSize

def flagPoolOffset : ℕ :=
  cfg.workingBufSize - RDB_SLOT_REGION_SIZE - flagPoolBytes

/-- `slots[i].buf` of a pool, which starts at the base given by
`execute_doca_create_ring_cmd`. -/
def slotBuf : Pool → Slot → ℕ
  | .send, i => i * cfg.slotSize
  | .recv, i => cfg.slotSize * CW_BUFFER_POOL_SLOTS + i * cfg.slotSize

/-- What `phase14_write_flag` stages for the value `idx` of its counter. -/
def flagEntry (idx : ℕ) : Range where
  start := cfg.flagPoolOffset + idx % 256 * 16
  len := 4

/-- `rdb_get_send_buf_a` and `rdb_get_send_buf_b`. -/
def rdbSend : Wave → Range
  | .gather => ⟨cfg.workingBufSize - RDB_OFFSET_SEND_A, 8⟩
  | .release => ⟨cfg.workingBufSize - RDB_OFFSET_SEND_B, 8⟩

/-- `rdb_local_slot`, which the previous rank may write at any time. -/
def rdbLocalSlot : Range := ⟨cfg.workingBufSize - RDB_OFFSET_LOCAL_SLOT, 8⟩

end Config

/-! ## Commands in progress -/

/-- `local_cpu_buffer_len` and, if there is a `local_cpu_flag_address`,
`local_cpu_flag_len`. -/
structure LocalCpu where
  bufferLen : ℕ
  flagLen : Option ℕ
deriving DecidableEq, Repr

/-- A collective command.  `gpuDirect` is whether both its buffers could be
imported over PCI, `flag` whether it carries a flag address; `localCpu` is there if
the output is copied to a `local_cpu_buffer_address` as well. -/
structure Cmd where
  op : CollectiveCommunication
  srcLen : ℕ
  dstLen : ℕ
  gpuDirect : Bool
  flag : Bool
  localCpu : Option LocalCpu
deriving DecidableEq, Repr

/-- `gpu_direct_ag`. -/
def Cmd.gpuDirectAg (cmd : Cmd) : Bool := cmd.op = .allGather && cmd.gpuDirect

/-- `working_buffer_len`: the longer buffer, in whole `fp16` elements. -/
def Cmd.workingBufferLen (cmd : Cmd) : ℕ :=
  2 * ((max cmd.srcLen cmd.dstLen + 2 - 1) / 2)

/-- How far a thread is in `execute_doca_collective_cmd`: in the barrier, in the
ring, after the collective, in `phase14_write_flag`, after it, in the write of the
doorbell, in the copy to the local CPU buffer, or in the write of its flags. -/
inductive Phase where
  | barrier
  | ring
  | finished
  | flag (idx : ℕ)
  | flagged
  | doorbell
  | copy
  | copyFlags
deriving DecidableEq, Repr

/-- A command with the slot that it has of each pool, `send_slot` and
`recv_slot`. -/
structure Op where
  cmd : Cmd
  slot : Pool → Option Slot
  phase : Phase

/-- `in_use` of the slots of each pool, `flag_send_buf_idx` and what the threads
execute. -/
structure State where
  inUse : Pool → Slot → Bool
  flagSendBufIdx : ℕ
  op : Thread → Option Op

def State.init : State where
  inUse := fun _ _ => false
  flagSendBufIdx := 0
  op := fun _ => none

/-- `cw_buffer_pool_acquire`: the first free slot, if it is long enough. -/
def cwBufferPoolAcquire (slotSize : ℕ) (inUse : Slot → Bool) (size : ℕ) :
    Option Slot :=
  match inUse 0, inUse 1 with
  | false, _ => if slotSize < size then none else some 0
  | true, false => if slotSize < size then none else some 1
  | true, true => none

/-- The slots of a command: none for a GPU Direct AllGather, a send slot for
another AllGather and one of each pool for a ReduceScatter. -/
def State.acquire (s : State) (cfg : Config) (cmd : Cmd) :
    Option (Pool → Option Slot) :=
  let size := cmd.workingBufferLen
  if cmd.gpuDirectAg then some fun _ => none
  else
    match cwBufferPoolAcquire cfg.slotSize (s.inUse .send) size with
    | none => none
    | some i =>
        if cmd.op = .allGather then
          some fun
            | .send => some i
            | .recv => none
        else
          match cwBufferPoolAcquire cfg.slotSize (s.inUse .recv) size with
          | none => none
          | some j =>
              some fun
                | .send => some i
                | .recv => some j

/-- The threads that may get a command: the message thread executes it inline
without queues or when there is no `ring_job`, and a ReduceScatter is never for
ring 1. -/
def Config.admits (cfg : Config) (cmd : Cmd) : Thread → Bool
  | .message => true
  | .ring0 => cfg.useRingQueues
  | .ring1 =>
      cfg.useRingQueues && cfg.ringR1Enabled && cmd.op = .allGather

inductive Action where
  /-- `execute_doca_collective_cmd` up to the barrier. -/
  | start (t : Thread) (cmd : Cmd)
  /-- The return of `rdb_barrier`. -/
  | cross (t : Thread)
  /-- The return of the collective. -/
  | finish (t : Thread)
  /-- `phase14_write_flag` has `flag_write_mtx`. -/
  | writeFlag (t : Thread)
  | flagWritten (t : Thread)
  /-- The doorbell is staged. -/
  | stage (t : Thread)
  /-- `put_task` of the local CPU buffer, whose key was accepted. -/
  | copy (t : Thread)
  /-- `flag_task` of the local CPU flags, whose key was accepted. -/
  | copyFlags (t : Thread)
  /-- The slots are released. -/
  | release (t : Thread)
deriving DecidableEq, Repr

/-- Sets `in_use` of the slots that a command has. -/
def mark (inUse : Pool → Slot → Bool) (slot : Pool → Option Slot)
    (value : Bool) : Pool → Slot → Bool :=
  fun pool i => if slot pool = some i then value else inUse pool i

namespace Op

variable (op : Op)

/-- Whether the thread is in `phase14_write_flag`. -/
def isFlag : Bool :=
  match op.phase with
  | .flag _ => true
  | _ => false

/-- The command has nothing more to do before its completion is sent. -/
def ready (cfg : Config) : Bool :=
  match op.phase with
  | .finished => !(op.cmd.flag && cfg.flagPoolEnabled)
  | .flagged => true
  | _ => false

/-- The completion has been sent. -/
def notified (cfg : Config) : Bool :=
  op.phase = .doorbell || (!cfg.doorbellEnabled && op.ready cfg)

/-- The data in the send slot that is to be copied to the local CPU buffer after the
collective. -/
def uncopied (cfg : Config) : Pool → Option Range
  | .send =>
      match op.slot .send, op.cmd.localCpu with
      | some i, some cpu =>
          some ⟨cfg.slotBuf .send i, min cpu.bufferLen op.cmd.workingBufferLen⟩
      | _, _ => none
  | .recv => none

/-- The data of a collective in its slot of a pool. -/
def data (cfg : Config) (pool : Pool) : Option Range :=
  match op.phase with
  | .barrier | .ring =>
      (op.slot pool).map fun i => ⟨cfg.slotBuf pool i, op.cmd.workingBufferLen⟩
  | .finished | .flag _ | .flagged | .doorbell => op.uncopied cfg pool
  | .copy | .copyFlags => none

/-- What `put_task` copies to the local CPU buffer and `flag_task` to its flags, from
the start of the send slot on; neither length is checked. -/
def localCpu (cfg : Config) : Option Range :=
  match op.phase, op.cmd.localCpu with
  | .copy, some cpu =>
      (op.slot .send).map fun i => ⟨cfg.slotBuf .send i, cpu.bufferLen⟩
  | .copyFlags, some ⟨_, some len⟩ =>
      (op.slot .send).map fun i => ⟨cfg.slotBuf .send i, len⟩
  | _, _ => none

/-- `send_slot` of `phase14_write_flag`. -/
def flagEntry (cfg : Config) : Option Range :=
  match op.phase with
  | .flag idx => some (cfg.flagEntry idx)
  | _ => none

/-- `db_staging`: the send slot or, without one, the head of the buffer. -/
def dbStaging (cfg : Config) : Option Range :=
  match op.phase with
  | .doorbell =>
      match op.slot .send with
      | some i => some ⟨cfg.slotBuf .send i, 8⟩
      | none => some ⟨0, 8⟩
  | _ => none

/-- The two buffers that `rdb_barrier` writes from. -/
def rdbSend (cfg : Config) (wave : Wave) : Option Range :=
  if op.phase = .barrier ∧ cfg.rdbEnabled then some (cfg.rdbSend wave)
  else none

end Op

namespace State

variable (s : State)

def goto (t : Thread) (op : Op) (phase : Phase) : State :=
  { s with op := Function.update s.op t (some { op with phase := phase }) }

/-- Whether a thread holds `flag_write_mtx`. -/
def flagBusy : Bool :=
  [Thread.message, .ring0, .ring1].any fun t => (s.op t).any Op.isFlag

end State

def State.step (cfg : Config) (s : State) : Action → Option State
  | .start t cmd =>
      if s.op t = none ∧ cfg.admits cmd t then
        match s.acquire cfg cmd with
        | none => some s
        | some slot =>
            some { s with
              inUse := mark s.inUse slot true
              op := Function.update s.op t (some ⟨cmd, slot, .barrier⟩) }
      else none
  | .cross t => do
      let op ← s.op t
      if op.phase = .barrier then some (s.goto t op .ring) else none
  | .finish t => do
      let op ← s.op t
      if op.phase = .ring then some (s.goto t op .finished) else none
  | .writeFlag t => do
      let op ← s.op t
      if op.phase = .finished ∧ op.cmd.flag ∧ cfg.flagPoolEnabled ∧
        s.flagBusy = false
      then
        some { s.goto t op (.flag s.flagSendBufIdx) with
          flagSendBufIdx := s.flagSendBufIdx + 1 }
      else none
  | .flagWritten t => do
      let op ← s.op t
      if op.isFlag then some (s.goto t op .flagged) else none
  | .stage t => do
      let op ← s.op t
      if cfg.doorbellEnabled ∧ op.ready cfg then
        some (s.goto t op .doorbell)
      else none
  | .copy t => do
      let op ← s.op t
      if op.notified cfg ∧ op.cmd.localCpu.isSome then some (s.goto t op .copy)
      else none
  | .copyFlags t => do
      let op ← s.op t
      if op.phase = .copy ∧ (op.cmd.localCpu.bind LocalCpu.flagLen).isSome then
        some (s.goto t op .copyFlags)
      else none
  | .release t => do
      let op ← s.op t
      if op.notified cfg ∨ op.phase = .copy ∨ op.phase = .copyFlags then
        some { s with
          inUse := mark s.inUse op.slot false
          op := Function.update s.op t none }
      else none

/-! ## Uses of the bytes -/

/-- What the buffer is used for: the data of the command that a thread executes,
its flag entry, its doorbell, the copy to its local CPU buffer and its barrier, and the
slot of the barrier that the previous rank writes. -/
inductive Use where
  | data (t : Thread) (pool : Pool)
  | flagEntry (t : Thread)
  | dbStaging (t : Thread)
  | localCpu (t : Thread)
  | rdbSend (t : Thread) (wave : Wave)
  | rdbLocalSlot
deriving DecidableEq, Repr

namespace State

variable (s : State)

def uses (cfg : Config) : Use → Option Range
  | .data t pool => (s.op t).bind fun op => op.data cfg pool
  | .flagEntry t => (s.op t).bind fun op => op.flagEntry cfg
  | .dbStaging t => (s.op t).bind fun op => op.dbStaging cfg
  | .localCpu t => (s.op t).bind fun op => op.localCpu cfg
  | .rdbSend t wave => (s.op t).bind fun op => op.rdbSend cfg wave
  | .rdbLocalSlot => if cfg.rdbEnabled then some cfg.rdbLocalSlot else none

/-- At most one thread is in an RDB barrier; no doorbell is staged on the data of a
command, its own included, or on the flag entry or the doorbell of another one, no
flag entry on the data of a command, and what is copied to a local CPU buffer or its
flags on nothing else that is used. -/
structure Clear (cfg : Config) : Prop where
  barrier : cfg.rdbEnabled → ∀ t u op op', t ≠ u → s.op t = some op →
    s.op u = some op' → op.phase = .barrier → op'.phase ≠ .barrier
  stagingData : ∀ t u op op', s.op t = some op → s.op u = some op' →
    ∀ a ∈ op.dbStaging cfg, ∀ pool, ∀ b ∈ op'.data cfg pool, a.Apart b
  staging : ∀ t u op op', t ≠ u → s.op t = some op → s.op u = some op' →
    ∀ a ∈ op.dbStaging cfg, (∀ b ∈ op'.flagEntry cfg, a.Apart b) ∧
      ∀ b ∈ op'.dbStaging cfg, a.Apart b
  flag : ∀ t u op op', s.op t = some op → s.op u = some op' →
    ∀ a ∈ op.flagEntry cfg, ∀ pool, ∀ b ∈ op'.data cfg pool, a.Apart b
  localCpu : ∀ t op, s.op t = some op → ∀ a ∈ op.localCpu cfg,
    ∀ u, u ≠ .localCpu t → ∀ b ∈ s.uses cfg u, a.Apart b

end State

end SmartNic.WorkingBuffer
