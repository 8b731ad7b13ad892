import SmartNic.Barrier.RdbCompletes
import SmartNic.Collective.AllGatherCompletes
import SmartNic.Library.Fabric.Relocate

/-!
# A stream of AllGather commands

The thread of a ring takes one command after the other and runs
`execute_doca_collective_cmd`, which calls the doorbell barrier and then works on
the host memory that the command names.  The ranks take the same commands but
are not otherwise in step.  The flag and doorbell writes and the copy to the CPU
buffer, which follow `collective_all_gather`, are not part of the stream.
-/

namespace SmartNic.Collective

open SmartNic.Fabric

/-! ## Commands -/

/-- A byte of a rank: of its host or of the working buffer of its DPU. -/
inductive Cell where
  | host (address : ℕ)
  | dpu (address : ℕ)
deriving DecidableEq, Repr

/-- What `execute_doca_collective_cmd` has of a command when it calls
`collective_all_gather`: the remote buffers, the mmaps that it found or imported
and the slot of the buffer pool. -/
structure GatherCmd where
  remoteSrcBufferAddress : ℕ
  remoteSrcBufferLen : ℕ
  remoteDstBufferAddress : ℕ
  remoteDstBufferLen : ℕ
  args : AllGatherArgs
  sendBuf : ℕ

namespace GatherCmd

/-- The larger of the lengths, in whole elements. -/
def workingBufferLen (c : GatherCmd) : ℕ :=
  let len := max c.remoteSrcBufferLen c.remoteDstBufferLen
  SIZEOF_FP16 * ((len + SIZEOF_FP16 - 1) / SIZEOF_FP16)

/-- Where the buffers of the command are; `recv_buf` is `send_buf`. -/
def place (c : GatherCmd) : Addr → Cell
  | (.src, x) => .host (c.remoteSrcBufferAddress + x)
  | (.dst, x) => .host (c.remoteDstBufferAddress + x)
  | (.send, x) => .dpu (c.sendBuf + x)
  | (.recv, x) => .dpu (c.sendBuf + x)

end GatherCmd

/-- The commands of all ranks for one AllGather: they agree on the length and on
the use of the ring, and the source of a rank lies apart from its destination. -/
structure Gather (ws : ℕ) where
  cmd : Fin ws → GatherCmd
  len : ℕ
  len_eq : ∀ r, (cmd r).workingBufferLen = len
  ring : ∀ r r', AllGather.SameRing (cmd r).args.mode (cmd r').args.mode
  apart : ∀ r, ∀ x < len / ws, ∀ y < ws * (len / ws),
    (cmd r).remoteSrcBufferAddress + x ≠ (cmd r).remoteDstBufferAddress + y

namespace Gather

variable {ws : ℕ}

/-- What the command makes a rank do. -/
def program (V : Type) (cfg : PieceConfig) (g : Gather ws) (r : Fin ws) :
    List (Instr RdmaCtx Pending Cell V Unit) :=
  (collectiveAllGather V Unit cfg (g.cmd r).args r ws
    (g.cmd r).workingBufferLen).map (.relocate (g.cmd r).place)

/-- The host memories after the AllGather, had it run at once. -/
def apply {V : Type} (g : Gather ws) (host : Fin ws → ℕ → V) : Fin ws → ℕ → V :=
  fun r a =>
    let dst := (g.cmd r).remoteDstBufferAddress
    if h : dst ≤ a ∧ a < dst + ws * (g.len / ws) then
      let j : Fin ws := ⟨(a - dst) / (g.len / ws), by
        refine Nat.div_lt_of_lt_mul ?_
        rw [Nat.mul_comm]
        omega⟩
      host j ((g.cmd j).remoteSrcBufferAddress + (a - dst) % (g.len / ws))
    else host r a

/-- The host memories after the first `k` commands, had they run one after the
other. -/
def applyFirst {V : Type} (cmds : ℕ → Gather ws) (host : Fin ws → ℕ → V) :
    ℕ → Fin ws → ℕ → V
  | 0 => host
  | k + 1 => (cmds k).apply (applyFirst cmds host k)

end Gather

/-! ## The ring threads -/

/-- The threads of one ring: the barrier that they call, what is under way for
them, and the commands that each has finished. -/
structure Stream (ws : ℕ) (V : Type) where
  barrier : Barrier.Ring ws Unit
  node : Fin ws → Node RdmaCtx Pending Cell V Unit
  finished : Fin ws → ℕ

inductive StreamAction (ws : ℕ) where
  /-- A step of the barrier, with which a command starts. -/
  | barrier (a : Barrier.Action ws Unit)
  /-- A step of `collective_all_gather`. -/
  | fabric (a : Action (Fin ws) RdmaCtx Empty)
  /-- `collective_all_gather` has returned. -/
  | finish (r : Fin ws)

/-- The transfers on host memory and working buffers. -/
def cellSystem (ws : ℕ) (V : Type) : System (Fin ws) Cell V Unit Empty where
  next := nextRank
  deviceStep a := nomatch a

namespace Stream

variable {ws : ℕ} {V : Type}

/-- No command has been taken. -/
def init (mem : Fin ws → Cell → V) : Stream ws V where
  barrier := .init
  node r := Node.start [] (mem r) ()
  finished _ := 0

variable [NeZero ws]

/-- One step of the threads and of the network; there are `total` commands. -/
def step (cfg : PieceConfig) (cmds : ℕ → Gather ws) (total : ℕ) (s : Stream ws V) :
    StreamAction ws → Option (Stream ws V)
  | .barrier (.at r (.enter t)) =>
      if s.finished r = (s.barrier r).exits.length ∧ s.finished r < total then
        (s.barrier.step (.at r (.enter t))).map fun b => { s with barrier := b }
      else none
  | .barrier (.at r (.leave t)) =>
      let k := (s.barrier r).exits.length
      (s.barrier.step (.at r (.leave t))).map fun b =>
        { s with
          barrier := b
          node := Fabric.set s.node r ((s.node r).load ((cmds k).program V cfg r)) }
  | .barrier a => (s.barrier.step a).map fun b => { s with barrier := b }
  | .fabric a =>
      (Fabric.step (cellSystem ws V) s.node a).map fun n => { s with node := n }
  | .finish r =>
      if s.finished r < (s.barrier r).exits.length ∧ (s.node r).prog.isEmpty then
        some { s with finished := Fabric.set s.finished r (s.finished r + 1) }
      else none

end Stream

/-- The action makes a write of the barrier or a transfer fail. -/
def StreamAction.fails : StreamAction ws → Bool
  | .barrier a => a.fails
  | .fabric a => a.failsAt.isSome
  | .finish _ => false

end SmartNic.Collective
