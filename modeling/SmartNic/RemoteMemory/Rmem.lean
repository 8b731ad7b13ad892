import Mathlib.Data.Fintype.Basic
import SmartNic.Collective.AllGather
import SmartNic.Completion.Doorbell
import SmartNic.Library.OwnedCache

/-!
# Remote memories

`execute_doca_collective_cmd` puts the descriptors of a command's buffers into
fields of the worker that all threads share, from a cache or by an import.  The
RDMA tasks of the collective take them from there.  What a task refers to does
not change afterwards, but its mmap may be destroyed by an eviction.
-/

namespace SmartNic.RemoteMemory

open SmartNic.Codec SmartNic.Collective SmartNic.Completion SmartNic.OwnedCache

/-! ## Descriptors and their cache -/

inductive Side where
  | src
  | dst
deriving DecidableEq, Repr

inductive Rail where
  | rail0
  | rail1
deriving DecidableEq, Repr

/-- `host_src_rmem`, `host_dst_rmem` and those of rail 1, each with its cache. -/
abbrev RmemField := Side × Rail

/-- The address and the length of a buffer of the host. -/
abbrev HostBuffer := UInt64 × UInt64

/-- What `doca_mmap_create_from_export` gives for a buffer on a rail. -/
structure Mmap where
  buffer : HostBuffer
  rail : Rail
deriving DecidableEq, Repr

/-- A valid `struct doca_remote_mem_t`; `range` is `remote_addr` and
`remote_len`. -/
structure Rmem where
  remoteMmap : Owned Mmap
  range : HostBuffer
deriving DecidableEq, Repr

def RMEM_CACHE_SIZE : ℕ := 256

/-- `rmem_cache_hash`. -/
def rmemCacheHash (key : HostBuffer) : UInt64 :=
  let x : UInt64 := key.1
  let y : UInt64 := key.2 + (0x9e3779b97f4a7c15 : UInt64) +
    (x <<< (6 : UInt64)) + (x >>> (2 : UInt64))
  (x ^^^ y) &&& (UInt64.ofNat RMEM_CACHE_SIZE - 1)

/-- The four caches; an entry's key is `addr` and `len`. -/
abbrev RmemCache := Store RmemField UInt64 HostBuffer Mmap

/-- `rmem_cache_find`. -/
def rmemCacheFind (cache : RmemCache) (f : RmemField) (key : HostBuffer) :
    Option (Owned Mmap) :=
  cache.find rmemCacheHash f key

/-! ## Commands and threads -/

structure Config where
  pieces : PieceConfig
  worldSize : ℕ
  dualRail : Bool

/-- A collective command.  `gpuDirect` is whether both its buffers could be
imported over PCI, `srcRkeyRail1` whether `src_rkey_buf_len_rail1` is
positive. -/
structure Cmd where
  op : CollectiveCommunication
  src : HostBuffer
  dst : HostBuffer
  gpuDirect : Bool
  srcRkeyRail1 : Bool
deriving DecidableEq, Repr

namespace Cmd

variable (cmd : Cmd)

def buffer : Side → HostBuffer
  | .src => cmd.src
  | .dst => cmd.dst

/-- `gpu_direct_ag`: the collective does without remote memories. -/
def gpuDirectAg : Bool := cmd.op = .allGather && cmd.gpuDirect

/-- `working_buffer_len`. -/
def workingBufferLen : UInt64 :=
  2 * ((max cmd.src.2 cmd.dst.2 + 2 - 1) / 2)

/-- `num_pieces`; a ReduceScatter does not split its tasks. -/
def numPieces (cfg : Config) : ℕ :=
  if cmd.op = .allGather then
    agComputeNumPieces cfg.pieces (cmd.workingBufferLen.toNat / cfg.worldSize)
  else 1

end Cmd

/-- How far a command is: which field is set next, before `use_dual` is
computed, in the ring with its RDMA tasks, or in a ring without such tasks. -/
inductive Stage where
  | srcRmem
  | dstRmem
  | srcRmemRail1
  | dstRmemRail1
  | plan
  | tasks (useDual : Bool)
  | direct
deriving DecidableEq, Repr

/-- An RDMA Read from the source or Write to the destination, the rail it is
submitted to and the mmap of its remote memory, if there was one. -/
structure RdmaTask where
  side : Side
  rail : Rail
  mmap : Option (Owned Mmap)
deriving DecidableEq, Repr

structure Running where
  cmd : Cmd
  stage : Stage
  inflight : List RdmaTask
deriving DecidableEq, Repr

structure State where
  rmem : RmemField → Option Rmem
  cache : RmemCache
  run : Thread → Option Running

def State.init : State where
  rmem := fun _ => none
  cache := .empty
  run := fun _ => none

inductive Action where
  /-- A thread enters `execute_doca_collective_cmd`. -/
  | start (t : Thread) (cmd : Cmd)
  /-- The next field is set.  If nothing is cached, `created` is whether
  `doca_remote_mem_create` succeeds, and then whether it learns the range. -/
  | setRmem (t : Thread) (created : Option Bool)
  /-- The collective begins. -/
  | plan (t : Thread)
  /-- A Read from the source or a Write to the destination for a piece. -/
  | issue (t : Thread) (side : Side) (piece : ℕ)
  /-- The `i`-th of the tasks in flight completes. -/
  | complete (t : Thread) (i : ℕ)
  /-- The thread leaves `execute_doca_collective_cmd`. -/
  | finish (t : Thread)
deriving DecidableEq, Repr

namespace State

variable (s : State)

def setRun (t : Thread) (x : Option Running) : State :=
  { s with run := Function.update s.run t x }

/-- A hit is copied into the field.  Otherwise a new descriptor is created there
and stored under the range it has learnt; a failure leaves the field invalid. -/
def fetch (f : RmemField) (buffer : HostBuffer) (created : Option Bool) :
    State :=
  match rmemCacheFind s.cache f buffer with
  | some mmap => { s with rmem := Function.update s.rmem f (some ⟨mmap, buffer⟩) }
  | none =>
      match created with
      | none => { s with rmem := Function.update s.rmem f none }
      | some known =>
          let range := if known then buffer else (0, 0)
          let mmap : Mmap := ⟨buffer, f.2⟩
          { s with
            rmem := Function.update s.rmem f
              (some ⟨⟨s.cache.next, mmap⟩, range⟩)
            cache := s.cache.insertNew rmemCacheHash f range mmap }


/-- The commands end if a descriptor of rail 0 is missing; rail 1 is only set
for commands with descriptors for it. -/
def setNext (cfg : Config) (t : Thread) (x : Running) (created : Option Bool) :
    Option State :=
  let goto (s : State) (stage : Stage) := s.setRun t (some { x with stage })
  match x.stage with
  | .srcRmem =>
      let s := s.fetch (.src, .rail0) x.cmd.src created
      some (if (s.rmem (.src, .rail0)).isSome then goto s .dstRmem
        else s.setRun t none)
  | .dstRmem =>
      let s := s.fetch (.dst, .rail0) x.cmd.dst created
      some (if (s.rmem (.dst, .rail0)).isSome then
          goto s (if cfg.dualRail && x.cmd.srcRkeyRail1 then .srcRmemRail1
            else .plan)
        else s.setRun t none)
  | .srcRmemRail1 =>
      some (goto (s.fetch (.src, .rail1) x.cmd.src created) .dstRmemRail1)
  | .dstRmemRail1 =>
      some (goto (s.fetch (.dst, .rail1) x.cmd.dst created) .plan)
  | _ => none

/-- `use_dual` of `collective_all_gather`. -/
def useDual (cfg : Config) (cmd : Cmd) : Bool :=
  cmd.op = .allGather && cfg.dualRail && (s.rmem (.src, .rail1)).isSome &&
    (s.rmem (.dst, .rail1)).isSome

end State

/-- The rail of a piece: odd pieces go over rail 1 if both rails are used. -/
def pieceRail (useDual : Bool) (piece : ℕ) : Rail :=
  if useDual ∧ piece % 2 = 1 then .rail1 else .rail0

def State.step (cfg : Config) (s : State) : Action → Option State
  | .start t cmd =>
      match s.run t with
      | some _ => none
      | none =>
          some (s.setRun t (some
            ⟨cmd, if cmd.gpuDirectAg then .direct else .srcRmem, []⟩))
  | .setRmem t created =>
      match s.run t with
      | some x => s.setNext cfg t x created
      | none => none
  | .plan t =>
      match s.run t with
      | some ⟨cmd, .plan, inflight⟩ =>
          some (s.setRun t (some
            ⟨cmd, .tasks (s.useDual cfg cmd), inflight⟩))
      | _ => none
  | .issue t side piece =>
      match s.run t with
      | some ⟨cmd, .tasks useDual, inflight⟩ =>
          if piece < cmd.numPieces cfg then
            let rail := pieceRail useDual piece
            let mmap := (s.rmem (side, rail)).map Rmem.remoteMmap
            some (s.setRun t (some
              ⟨cmd, .tasks useDual, inflight ++ [⟨side, rail, mmap⟩]⟩))
          else none
      | _ => none
  | .complete t i =>
      match s.run t with
      | some x =>
          some (s.setRun t (some { x with inflight := x.inflight.eraseIdx i }))
      | none => none
  | .finish t =>
      match s.run t with
      | some ⟨_, .tasks _, []⟩ | some ⟨_, .direct, []⟩ => some (s.setRun t none)
      | _ => none

/-! ## Isolation -/

/-- The task uses a live descriptor of the command's own buffer on its rail. -/
def RdmaTask.Own (s : State) (cmd : Cmd) (task : RdmaTask) : Prop :=
  ∃ m, task.mmap = some m ∧ s.cache.live m.id = true ∧
    m.value = ⟨cmd.buffer task.side, task.rail⟩

/-- All tasks in flight do, from their submission to their completion. -/
def State.Isolated (s : State) : Prop :=
  ∀ t x, s.run t = some x → ∀ task ∈ x.inflight, task.Own s x.cmd

instance : Fintype Thread where
  elems := {.message, .ring0, .ring1}
  complete t := by cases t <;> decide

/-- A command that needs remote memories starts when no other such command is in
progress, and not for a buffer that looks like a descriptor without a range; an
AllGather of several pieces has descriptors for rail 1 if the fields of rail 1
are valid. -/
def Exclusive (cfg : Config) (s : State) : Action → Prop
  | .start _ cmd => cmd.gpuDirectAg = false →
      (∀ u, ∀ x ∈ s.run u, x.stage = .direct) ∧
        cmd.src ≠ (0, 0) ∧ cmd.dst ≠ (0, 0)
  | .plan t => ∀ x ∈ s.run t, 2 ≤ x.cmd.numPieces cfg →
      s.useDual cfg x.cmd → x.cmd.srcRkeyRail1
  | _ => True

instance (cfg : Config) (s : State) :
    (a : Action) → Decidable (Exclusive cfg s a)
  | .start _ cmd => inferInstanceAs (Decidable (cmd.gpuDirectAg = false →
      (∀ u, ∀ x ∈ s.run u, x.stage = .direct) ∧
        cmd.src ≠ (0, 0) ∧ cmd.dst ≠ (0, 0)))
  | .plan t => inferInstanceAs (Decidable (∀ x ∈ s.run t,
      2 ≤ x.cmd.numPieces cfg → s.useDual cfg x.cmd → x.cmd.srcRkeyRail1))
  | .setRmem _ _ | .issue _ _ _ | .complete _ _ | .finish _ => isTrue trivial

end SmartNic.RemoteMemory
