import SmartNic.Collective.AllGatherCorrect
import SmartNic.Library.Bytes
import SmartNic.Library.Fabric.Frame
import SmartNic.Library.Fabric.Inline

/-!
# The copy to the host CPU

What `execute_doca_collective_cmd` does after an AllGather: it writes the GPU
flag, the doorbell, the copy to the CPU buffer and the flag of that copy, each
with `submit_and_wait_doca`.  The doorbell and the flag are staged in `send_buf`,
from which the copy is taken.  The theorem says for which commands the CPU
buffer gets the gathered bytes.
-/

namespace SmartNic.Collective

open SmartNic.Bytes SmartNic.Fabric

/-! ## The program -/

/-- The buffers of the rest of the command.  `sendBuf` and `workingBuf` stand
for what `db_staging` may point to. -/
inductive CommandBuffer where
  | sendBuf
  | workingBuf
  | flagSendBuf
  | gpuFlag
  | hostDoorbell
  | localCpu
  | localCpuFlag
deriving DecidableEq, Repr

abbrev CommandAddr := CommandBuffer × ℕ

/-- The fields of the command and of the worker that the rest of the command
reads; `localCpuImported` and `localCpuFlagImported` are whether
`doca_remote_mem_create` takes the two keys. -/
structure Command where
  flagGpuAddr : UInt64
  flagValue : UInt32
  flagPoolEnabled : Bool
  doorbellEnabled : Bool
  doorbellSeq : UInt64
  localCpuBufferAddress : UInt64
  localCpuBufferLen : UInt64
  localCpuImported : Bool
  localCpuFlagAddress : UInt64
  localCpuFlagLen : UInt64
  localCpuFlagImported : Bool
deriving DecidableEq, Repr

abbrev CommandItem := Item RdmaCtx CommandAddr UInt8

/-- Stores of the processor from the start of a buffer on. -/
def storeBytes (b : CommandBuffer) (bytes : List UInt8) : CommandItem :=
  .store fun m l => if l.1 = b ∧ l.2 < bytes.length then bytes[l.2]! else m l

/-- `init_write_task` and `submit_and_wait_doca` on the start of two buffers. -/
def writeBytes (a b : CommandBuffer) (length : ℕ) : CommandItem :=
  .copy ((List.range length).map fun x => ((a, x), (b, x))) .rma

namespace Command

variable (cmd : Command) (m : Mode)

/-- `phase14_write_flag`. -/
def phase14WriteFlag : List CommandItem :=
  if cmd.flagGpuAddr ≠ 0 ∧ cmd.flagPoolEnabled then
    [storeBytes .flagSendBuf (toLE 4 cmd.flagValue.toNat),
      writeBytes .flagSendBuf .gpuFlag 4]
  else []

/-- `send_buf` is NULL in a full GPU-direct AllGather; then the head of
`working_buf` is used. -/
def dbStaging : CommandBuffer :=
  if m.fullGpuDirect then .workingBuf else .sendBuf

/-- The doorbell; the notification that replaces it writes no buffer. -/
def doorbell : List CommandItem :=
  if cmd.doorbellEnabled then
    [storeBytes (dbStaging m) (le64 (cmd.doorbellSeq + 1)),
      writeBytes (dbStaging m) .hostDoorbell 8]
  else []

/-- `put_task`.  The local address NULL lies in no registered memory: the task
is refused and nothing is written. -/
def putTask : List CommandItem :=
  if m.fullGpuDirect then []
  else [writeBytes .sendBuf .localCpu cmd.localCpuBufferLen.toNat]

/-- `num_flags`, an `int`. -/
def numFlags : ℕ :=
  (Int.bmod (cmd.localCpuFlagLen.toNat / 4) (2 ^ 32)).toNat

/-- The stores `ones[i] = 1` and `flag_task`.  The stores go to NULL in a full
GPU-direct AllGather. -/
def flagTask : List CommandItem :=
  if m.fullGpuDirect then (if cmd.numFlags = 0 then [] else [.fault])
  else
    [storeBytes .sendBuf (List.replicate cmd.numFlags (toLE 4 1)).flatten,
      writeBytes .sendBuf .localCpuFlag cmd.localCpuFlagLen.toNat]

/-- The part on `local_cpu_buffer`. -/
def localCpu : List CommandItem :=
  if cmd.localCpuBufferAddress = 0 ∨ ¬ cmd.localCpuImported then []
  else
    cmd.putTask m ++
      if cmd.localCpuFlagAddress = 0 ∨ ¬ cmd.localCpuFlagImported then []
      else cmd.flagTask m

/-- `execute_doca_collective_cmd` after the collective. -/
def finish : List CommandItem :=
  cmd.phase14WriteFlag ++ cmd.doorbell m ++ cmd.localCpu m

/-- The memory after the collective: `send_buf` is the working buffer of the
collective. -/
def memory (mem : Addr → UInt8) (host : CommandAddr → UInt8) :
    CommandAddr → UInt8
  | (.sendBuf, x) => mem (.send, x)
  | l => host l

/-- A thread that has returned from the collective. -/
def start (mem : CommandAddr → UInt8) :
    Unit → Node RdmaCtx Unit CommandAddr UInt8 Unit :=
  fun _ => Node.start (inlineProgram () (cmd.finish m)) mem ()

/-- The CPU buffer has the bytes of the output. -/
def Copied (output : ℕ → UInt8) (outputLen : ℕ) (mem : CommandAddr → UInt8) :
    Prop :=
  ∀ x < cmd.localCpuBufferLen.toNat, x < outputLen →
    mem (.localCpu, x) = output x

/-- The states that the thread can reach when no transfer fails. -/
def Reaches (mem : CommandAddr → UInt8)
    (n : Node RdmaCtx Unit CommandAddr UInt8 Unit) : Prop :=
  ∃ (acts : List (Action Unit RdmaCtx Empty))
    (s : Unit → Node RdmaCtx Unit CommandAddr UInt8 Unit),
    (∀ a ∈ acts, a.failsAt = none) ∧
      run (loneSystem _ _ _) (cmd.start m mem) acts = some s ∧ s () = n

/-- The command finishes, the CPU buffer then has the output, and the flag of
the copy does not change before. -/
structure Delivers (output : ℕ → UInt8) (outputLen : ℕ)
    (mem : CommandAddr → UInt8) : Prop where
  finishes : ∃ n, cmd.Reaches m mem n ∧ n.prog = []
  copied : ∀ n, cmd.Reaches m mem n → n.prog = [] →
    cmd.Copied output outputLen n.mem
  signal : ∀ n, cmd.Reaches m mem n →
    (∃ x, n.mem (.localCpuFlag, x) ≠ mem (.localCpuFlag, x)) →
    cmd.Copied output outputLen n.mem

end Command

/-! ## Stores and writes -/

section Effects

variable {b b' : CommandBuffer} {mem : CommandAddr → UInt8} {x : ℕ}

theorem effect_storeBytes (bytes : List UInt8) (l : CommandAddr) :
    (storeBytes b bytes).effect mem l =
      if l.1 = b ∧ l.2 < bytes.length then bytes[l.2]! else mem l := rfl

theorem effect_storeBytes_of_ne (bytes : List UInt8) (h : b' ≠ b) :
    (storeBytes b bytes).effect mem (b', x) = mem (b', x) := by
  rw [effect_storeBytes, if_neg fun hb => h hb.1]

theorem effect_writeBytes_same {a : CommandBuffer} {length : ℕ}
    (h : x < length) :
    (writeBytes a b length).effect mem (b, x) = mem (a, x) := by
  refine writeAll_of_mem (e := fun l : CommandAddr => mem (a, l.2)) ?_ ?_
  · intro w hw
    simp only [List.map_map, List.mem_map, Function.comp_apply] at hw
    obtain ⟨y, -, rfl⟩ := hw
    rfl
  · simpa using h

theorem effect_writeBytes_of_ne {a : CommandBuffer} (length : ℕ) (h : b' ≠ b) :
    (writeBytes a b length).effect mem (b', x) = mem (b', x) := by
  refine writeAll_of_notMem ?_
  simp only [List.map_map, List.mem_map, Function.comp_apply]
  rintro ⟨y, -, heq⟩
  exact h (congrArg Prod.fst heq).symm

/-- No item of the list writes a buffer. -/
def Leaves (b : CommandBuffer) (items : List CommandItem) : Prop :=
  ∀ i ∈ items, ∀ mem x, i.effect mem (b, x) = mem (b, x)

theorem Leaves.append {items items' : List CommandItem} (h : Leaves b items)
    (h' : Leaves b items') : Leaves b (items ++ items') :=
  fun i hi => (List.mem_append.mp hi).elim (h i) (h' i)

theorem Leaves.of_prefix {items items' : List CommandItem} (h : Leaves b items)
    (hfirst : items' <+: items) : Leaves b items' :=
  fun i hi => h i (hfirst.subset hi)

theorem Leaves.effects_eq {items : List CommandItem} (h : Leaves b items)
    (mem : CommandAddr → UInt8) (x : ℕ) :
    effects mem items (b, x) = mem (b, x) := by
  induction items generalizing mem with
  | nil => rfl
  | cons i items ih =>
      rw [effects_cons, ih fun j hj => h j (by simp [hj])]
      exact h i (by simp) mem x

/-- A store to one buffer and a write from it to another leave the rest. -/
theorem leaves_stage {a c : CommandBuffer} (bytes : List UInt8) (length : ℕ)
    (ha : b ≠ a) (hc : b ≠ c) :
    Leaves b [storeBytes a bytes, writeBytes a c length] := by
  intro i hi mem x
  rcases List.mem_cons.mp hi with rfl | hi
  · exact effect_storeBytes_of_ne bytes ha
  · rw [List.mem_singleton.mp hi]
    exact effect_writeBytes_of_ne length hc

end Effects

namespace Command

variable {cmd : Command} {m : Mode} {b : CommandBuffer}
  {mem : CommandAddr → UInt8}

theorem leaves_phase14WriteFlag (hb : b ≠ .flagSendBuf) (hb' : b ≠ .gpuFlag) :
    Leaves b cmd.phase14WriteFlag := by
  unfold phase14WriteFlag
  split
  · exact leaves_stage _ _ hb hb'
  · exact fun i hi => by cases hi

theorem leaves_doorbell (hb : b ≠ dbStaging m) (hb' : b ≠ .hostDoorbell) :
    Leaves b (cmd.doorbell m) := by
  unfold doorbell
  split
  · exact leaves_stage _ _ hb hb'
  · exact fun i hi => by cases hi

theorem dbStaging_ne (hsend : b ≠ .sendBuf) (hwork : b ≠ .workingBuf) :
    b ≠ dbStaging m := by
  unfold dbStaging
  split
  · exact hwork
  · exact hsend

theorem leaves_putTask (hb : b ≠ .localCpu) : Leaves b (cmd.putTask m) := by
  unfold putTask
  split
  · exact fun i hi => by cases hi
  · intro i hi mem x
    rw [List.mem_singleton.mp hi]
    exact effect_writeBytes_of_ne _ hb

/-- What the copy finds in `send_buf`. -/
def staged (cmd : Command) (send : ℕ → UInt8) (x : ℕ) : UInt8 :=
  if cmd.doorbellEnabled ∧ x < 8 then (le64 (cmd.doorbellSeq + 1))[x]!
  else send x

theorem effects_doorbell (hfull : ¬ m.fullGpuDirect) (x : ℕ) :
    effects mem (cmd.phase14WriteFlag ++ cmd.doorbell m) (.sendBuf, x) =
      cmd.staged (fun x => mem (.sendBuf, x)) x := by
  have hflag : Leaves .sendBuf cmd.phase14WriteFlag :=
    leaves_phase14WriteFlag (by decide) (by decide)
  rw [effects_append]
  unfold doorbell staged dbStaging
  rw [if_neg hfull]
  by_cases hbell : cmd.doorbellEnabled
  · rw [if_pos hbell, effects_cons, effects_cons, effects_nil,
      effect_writeBytes_of_ne _ (by decide), effect_storeBytes, length_le64,
      hflag.effects_eq]
    simp [hbell]
  · rw [if_neg hbell, effects_nil, hflag.effects_eq, if_neg fun h => hbell h.1]

/-- The items up to the copy, and the flag of the copy. -/
def untilCopy (cmd : Command) (m : Mode) : List CommandItem :=
  cmd.phase14WriteFlag ++ cmd.doorbell m ++ cmd.putTask m

def copyFlag (cmd : Command) (m : Mode) : List CommandItem :=
  if cmd.localCpuFlagAddress = 0 ∨ ¬ cmd.localCpuFlagImported then []
  else cmd.flagTask m

theorem finish_eq (haddr : cmd.localCpuBufferAddress ≠ 0)
    (himport : cmd.localCpuImported) :
    cmd.finish m = cmd.untilCopy m ++ cmd.copyFlag m := by
  have hnot : ¬ (cmd.localCpuBufferAddress = 0 ∨ ¬ cmd.localCpuImported) :=
    not_or.mpr ⟨haddr, not_not.mpr himport⟩
  rw [finish, localCpu, if_neg hnot, untilCopy, copyFlag,
    List.append_assoc _ (cmd.putTask m)]

theorem leaves_copyFlag : Leaves .localCpu (cmd.copyFlag m) := by
  unfold copyFlag flagTask
  split_ifs
  · exact fun i hi => by cases hi
  · exact fun i hi => by cases hi
  · intro i hi mem x
    rw [List.mem_singleton.mp hi]
    rfl
  · exact leaves_stage _ _ (by decide) (by decide)

theorem leaves_untilCopy : Leaves .localCpuFlag (cmd.untilCopy m) :=
  ((leaves_phase14WriteFlag (by decide) (by decide)).append
    (leaves_doorbell (dbStaging_ne (by decide) (by decide)) (by decide))).append
    (leaves_putTask (by decide))

/-- Only the last item of the command writes the flag of the copy. -/
theorem flag_unchanged {done : List CommandItem}
    (hdone : done <+: cmd.untilCopy m ++ cmd.copyFlag m)
    (hne : done ≠ cmd.untilCopy m ++ cmd.copyFlag m) (x : ℕ) :
    effects mem done (.localCpuFlag, x) = mem (.localCpuFlag, x) := by
  have hbefore : Leaves .localCpuFlag (cmd.untilCopy m) := leaves_untilCopy
  suffices h : Leaves .localCpuFlag done from h.effects_eq mem x
  unfold copyFlag flagTask at hdone hne
  split_ifs at hdone hne with hflag hfull hnum
  · rw [List.append_nil] at hdone
    exact hbefore.of_prefix hdone
  · rw [List.append_nil] at hdone
    exact hbefore.of_prefix hdone
  · refine Leaves.of_prefix (hbefore.append fun i hi mem x => ?_) hdone
    rw [List.mem_singleton.mp hi]
    rfl
  · rw [List.append_cons] at hdone hne
    rcases List.prefix_concat_iff.mp hdone with heq | hdone
    · exact absurd heq hne
    · refine Leaves.of_prefix (hbefore.append fun i hi mem x => ?_) hdone
      rw [List.mem_singleton.mp hi]
      exact effect_storeBytes_of_ne _ (by decide)

/-- The CPU buffer after the command. -/
theorem effects_localCpu {x : ℕ} (hx : x < cmd.localCpuBufferLen.toNat) :
    effects mem (cmd.untilCopy m ++ cmd.copyFlag m) (.localCpu, x) =
      if m.fullGpuDirect then mem (.localCpu, x)
      else cmd.staged (fun x => mem (.sendBuf, x)) x := by
  have hstage : Leaves .localCpu (cmd.phase14WriteFlag ++ cmd.doorbell m) :=
    (leaves_phase14WriteFlag (by decide) (by decide)).append
      (leaves_doorbell (dbStaging_ne (by decide) (by decide)) (by decide))
  rw [effects_append, leaves_copyFlag.effects_eq, untilCopy, effects_append]
  unfold putTask
  split_ifs with hfull
  · rw [effects_nil, hstage.effects_eq]
  · rw [effects_cons, effects_nil, effect_writeBytes_same hx,
      effects_doorbell hfull]

theorem Reaches.between {n : Node RdmaCtx Unit CommandAddr UInt8 Unit}
    (h : cmd.Reaches m mem n) : Between () mem (cmd.finish m) n := by
  obtain ⟨acts, s, hacts, hrun, rfl⟩ := h
  have hstart : Between () mem (cmd.finish m) (cmd.start m mem ()) :=
    Between.start () mem _ ()
  exact hstart.run hacts hrun

/-- The stores of the flag go to NULL. -/
def Crashes (cmd : Command) (m : Mode) : Prop :=
  m.fullGpuDirect ∧ cmd.localCpuFlagAddress ≠ 0 ∧ cmd.localCpuFlagImported ∧
    cmd.numFlags ≠ 0

theorem fault_notMem_untilCopy : .fault ∉ cmd.untilCopy m := by
  unfold untilCopy phase14WriteFlag doorbell putTask
  split_ifs <;> simp [storeBytes, writeBytes]

theorem fault_mem_copyFlag_iff : .fault ∈ cmd.copyFlag m ↔ cmd.Crashes m := by
  unfold copyFlag flagTask Crashes
  split_ifs with hflag hfull hnum
  · rcases hflag with hflag | hflag <;> simp [hflag]
  · simp [hnum]
  · rw [not_or, not_not] at hflag
    simp [hfull, hnum, hflag]
  · simp [hfull, storeBytes, writeBytes]

/-- What the CPU buffer has to hold beforehand for the command to deliver. -/
def Ready (cmd : Command) (m : Mode) (output : ℕ → UInt8) (outputLen : ℕ)
    (mem : CommandAddr → UInt8) : Prop :=
  ¬ cmd.Crashes m ∧ ∀ x < cmd.localCpuBufferLen.toNat, x < outputLen →
    (if m.fullGpuDirect then mem (.localCpu, x)
      else cmd.staged (fun x => mem (.sendBuf, x)) x) = output x

theorem delivers_iff (haddr : cmd.localCpuBufferAddress ≠ 0)
    (himport : cmd.localCpuImported) {output : ℕ → UInt8} {outputLen : ℕ} :
    cmd.Delivers m output outputLen mem ↔ cmd.Ready m output outputLen mem := by
  have hfinish := finish_eq (m := m) haddr himport
  have hfault : .fault ∉ cmd.finish m ↔ ¬ cmd.Crashes m := by
    rw [hfinish, List.mem_append, fault_mem_copyFlag_iff]
    exact not_congr (or_iff_right fault_notMem_untilCopy)
  have hcopied : ∀ mem', mem' = effects mem (cmd.finish m) →
      (cmd.Copied output outputLen mem' ↔
        ∀ x < cmd.localCpuBufferLen.toNat, x < outputLen →
          (if m.fullGpuDirect then mem (.localCpu, x)
            else cmd.staged (fun x => mem (.sendBuf, x)) x) = output x) := by
    rintro _ rfl
    refine forall_congr' fun x => forall_congr' fun hx => ?_
    rw [hfinish, effects_localCpu hx]
  constructor
  · intro h
    obtain ⟨n, hn, hprog⟩ := h.finishes
    obtain ⟨hmem, hnofault⟩ := hn.between.returned hprog
    exact ⟨hfault.mp hnofault, (hcopied _ hmem).mp (h.copied n hn hprog)⟩
  · rintro ⟨hcrash, hready⟩
    refine ⟨?_, ?_, ?_⟩
    · obtain ⟨acts, s, hacts, hrun, hprog⟩ :=
        exists_return (c := ()) (s := cmd.start m mem) (hfault.mpr hcrash)
          rfl rfl rfl
      exact ⟨s (), ⟨acts, s, hacts, hrun, rfl⟩, hprog⟩
    · intro n hn hprog
      exact (hcopied _ (hn.between.returned hprog).1).mpr hready
    · rintro n hn ⟨x, hchanged⟩
      obtain ⟨done, hdone, hmem⟩ := hn.between.mem_eq
      have hall : done = cmd.finish m := by
        by_contra hne
        rw [hfinish] at hdone hne
        rw [hmem] at hchanged
        exact hchanged (flag_unchanged hdone hne x)
      rw [hall] at hmem
      exact (hcopied _ hmem).mpr hready

end Command

/-! ## The working buffer after the collective -/

namespace AllGather

/-- The bytes of the chunk of a rank. -/
def InOwnChunk (chunkSize rank x : ℕ) : Prop :=
  rank * chunkSize ≤ x ∧ x < rank * chunkSize + chunkSize

instance (chunkSize rank x : ℕ) : Decidable (InOwnChunk chunkSize rank x) :=
  inferInstanceAs (Decidable (_ ∧ _))

section Program

variable {ly : Layout} {m : Mode} {rank : ℕ} {V D : Type} {l : Addr}

theorem avoids_pieceBatch {c : Pending} {task : ℕ → Task RdmaCtx Pending Addr}
    (h : ∀ p < ly.numPieces, l ∉ (task p).dst) :
    Avoids l (pieceBatch V D ly c task) := by
  refine Avoids.batch fun t ht => ?_
  obtain ⟨p, hp, rfl⟩ := List.mem_map.mp ht
  exact h p (List.mem_range.mp hp)

theorem notMem_cells_of_ne {a l : Addr} {length : ℕ} (h : l.1 ≠ a.1) :
    l ∉ cells a length := by
  intro hin
  obtain ⟨y, -, rfl⟩ := mem_cells.mp hin
  exact h rfl

/-- A rank that receives in the GPU buffer and reads its own chunk to the DPU
leaves the rest of the working buffer alone. -/
theorem avoids_allGatherIn (hdirect : m.gpuDirect) {x : ℕ}
    (hx : ¬ InOwnChunk ly.chunkSize rank x) :
    Avoids (.send, x) (allGatherIn V D ly m rank) := by
  have hrecv : ∀ step, Avoids (.send, x)
      (pieceBatch V D ly (.recv step) (recvTask ly m rank step)) := by
    intro step
    refine avoids_pieceBatch fun p _ => notMem_cells_of_ne ?_
    rw [Mode.ringBuffer, if_pos hdirect]
    exact Buffer.noConfusion
  have hread : Avoids (.send, x)
      (pieceBatch V D ly .read (readTask ly m rank)) := by
    refine avoids_pieceBatch fun p hp hin => ?_
    rw [readTask, initReadTask, copyTask_dst] at hin
    obtain ⟨y, hy, heq⟩ := mem_cells.mp hin
    have hlt := Layout.pieceOffset_add_lt hp hy
    have hval : x = rank * ly.chunkSize + ly.pieceOffset p + y :=
      congrArg Prod.snd heq
    exact hx ⟨by omega, by omega⟩
  have hwrite : Avoids (.send, x)
      (pieceBatch V D ly .write (writeTask ly m rank)) := by
    refine avoids_pieceBatch fun p _ => ?_
    rw [writeTask, initWriteTask, copyTask_dst]
    exact notMem_cells_of_ne Buffer.noConfusion
  have hsend : ∀ step, Avoids (.send, x)
      (pieceBatch V D ly (.send step) (sendTask ly m rank step)) :=
    fun step => avoids_pieceBatch fun p _ => List.not_mem_nil
  refine ((Avoids.flatMap fun step _ => hrecv step).append ?_).append
    (Avoids.flatMap fun step _ => ?_)
  · split
    · exact .nil
    · exact ((hread.append (.wait _)).append hwrite).append (.wait _)
  · refine ((hsend step).append (.wait _)).append ?_
    rw [if_pos hdirect]
    exact .nil

end Program

/-- The working buffer of a rank that has returned. -/
theorem returned_send {V : Type} {ws : ℕ} (cfg : PieceConfig)
    (args : Fin ws → AllGatherArgs) (bufferLen : ℕ) (mem : Fin ws → Addr → V)
    (huniform : ∀ r r', (args r).mode = (args r').mode)
    {acts : List (Action (Fin ws) RdmaCtx Empty)}
    (hacts : ∀ a ∈ acts, a.failsAt = none) {s : Ranks ws V}
    (hrun : run (ringSystem ws V) (start cfg args bufferLen mem) acts = some s)
    {r : Fin ws} (hreturned : (s r).prog = [])
    (hfull : ¬ (args r).mode.fullGpuDirect) {x : ℕ}
    (hx : x < ws * (bufferLen / ws)) :
    (s r).mem (.send, x) =
      if (args r).mode.gpuDirect ∧ ¬ InOwnChunk (bufferLen / ws) r x then
        mem r (.send, x)
      else gathered (allGatherLayout cfg ws bufferLen)
        (sources (Nat.zero_lt_of_lt r.isLt) mem) x := by
  let ly := allGatherLayout cfg ws bufferLen
  have hknown : (.send, x) ∈ gatheredAt ly (args r).mode r
        (totalSteps ly (args r).mode) →
      (s r).mem (.send, x) =
        gathered ly (sources (Nat.zero_lt_of_lt r.isLt) mem) x :=
    returned_known cfg args bufferLen mem huniform hacts hrun hreturned
  have hpos : 0 < ly.chunkSize := Nat.pos_of_mul_pos_left (Nat.zero_lt_of_lt hx)
  split
  next h =>
    have hspares : Spares (.send, x) (start cfg args bufferLen mem r) :=
      Spares.start (avoids_allGatherIn h.1 h.2)
    exact hspares.run (fun a => a.elim) hrun
  next h =>
    refine hknown ?_
    rw [not_and_or, not_not] at h
    rcases h with h | ⟨hle, hlt⟩
    · have hsplit : x = x / ly.chunkSize * ly.chunkSize + x % ly.chunkSize :=
        (Nat.div_add_mod' _ _).symm
      rw [hsplit]
      exact send_known h r.isLt
        ((Nat.div_lt_iff_lt_mul hpos).mpr hx) (Nat.mod_lt _ hpos)
    · have hsplit : x = r * ly.chunkSize + (x - r * ly.chunkSize) := by
        change x = r * (bufferLen / ws) + (x - r * (bufferLen / ws))
        omega
      rw [hsplit]
      refine own_known hfull ?_
      change x - r * (bufferLen / ws) < bufferLen / ws
      omega

/-! ## The copy -/

/-- The bytes that the command copies are those of the output: without
`send_buf` the CPU buffer has them already; the doorbell agrees with the bytes
it overwrites; and where only the destination is a GPU buffer, `send_buf` had
the chunks of the other ranks before.  Without `send_buf` there is no flag to
set either. -/
def Undisturbed (cmd : Command) (m : Mode) (chunkSize rank outputLen : ℕ)
    (output send cpu : ℕ → UInt8) : Prop :=
  ¬ cmd.Crashes m ∧ ∀ x < cmd.localCpuBufferLen.toNat, x < outputLen →
    (if m.fullGpuDirect then cpu x
      else if cmd.doorbellEnabled ∧ x < 8 then
        (le64 (cmd.doorbellSeq + 1))[x]!
      else if m.gpuDirect ∧ ¬ InOwnChunk chunkSize rank x then send x
      else output x) = output x

/-- What all ranks gather. -/
def output {ws : ℕ} (bufferLen : ℕ) (mem : Fin ws → Addr → UInt8) (r : Fin ws)
    (x : ℕ) : UInt8 :=
  sources (Nat.zero_lt_of_lt r.isLt) mem (x / (bufferLen / ws))
    (x % (bufferLen / ws))

theorem localCopy_delivers_iff {ws : ℕ} (cfg : PieceConfig)
    (args : Fin ws → AllGatherArgs) (bufferLen : ℕ)
    (mem : Fin ws → Addr → UInt8)
    (huniform : ∀ r r', (args r).mode = (args r').mode)
    {acts : List (Action (Fin ws) RdmaCtx Empty)}
    (hacts : ∀ a ∈ acts, a.failsAt = none) {s : Ranks ws UInt8}
    (hrun : run (ringSystem ws UInt8) (start cfg args bufferLen mem) acts = some s)
    {r : Fin ws} (hreturned : (s r).prog = []) (cmd : Command)
    (haddr : cmd.localCpuBufferAddress ≠ 0) (himport : cmd.localCpuImported)
    (host : CommandAddr → UInt8) :
    cmd.Delivers (args r).mode (output bufferLen mem r) (ws * (bufferLen / ws))
        (Command.memory (s r).mem host) ↔
      Undisturbed cmd (args r).mode (bufferLen / ws) r (ws * (bufferLen / ws))
        (output bufferLen mem r) (fun x => mem r (.send, x))
        (fun x => host (.localCpu, x)) := by
  rw [Command.delivers_iff haddr himport, Command.Ready, Undisturbed]
  refine and_congr_right fun _ => forall_congr' fun x => forall_congr' fun _ =>
    forall_congr' fun hx => ?_
  by_cases hfull : (args r).mode.fullGpuDirect
  · rw [if_pos hfull, if_pos hfull]
    rfl
  · rw [if_neg hfull, if_neg hfull, Command.staged]
    by_cases hbell : cmd.doorbellEnabled ∧ x < 8
    · rw [if_pos hbell, if_pos hbell]
    · rw [if_neg hbell, if_neg hbell]
      change (s r).mem (.send, x) = _ ↔ _
      rw [returned_send cfg args bufferLen mem huniform hacts hrun hreturned
        hfull hx]
      rfl

/-- The source of rank `r` is the byte `r + 7`. -/
def stagedBytes (r : Fin 2) (a : Addr) : UInt8 :=
  if a = (.src, 0) then UInt8.ofNat (r + 7) else 0

/-- A copy of two bytes with one flag. -/
def copyTwo (doorbellEnabled : Bool) : Command where
  flagGpuAddr := 0
  flagValue := 0
  flagPoolEnabled := false
  doorbellEnabled := doorbellEnabled
  doorbellSeq := 0
  localCpuBufferAddress := 4096
  localCpuBufferLen := 2
  localCpuImported := true
  localCpuFlagAddress := 8192
  localCpuFlagLen := 4
  localCpuFlagImported := true

theorem exists_staged_return :
    ∃ s, run (ringSystem 2 UInt8)
        (start defaultPieces (fun _ => stagedArgs) 2 stagedBytes)
        stagedActions = some s ∧ (s 0).prog = [] := by
  have hreturned : (run (ringSystem 2 UInt8)
      (start defaultPieces (fun _ => stagedArgs) 2 stagedBytes)
      stagedActions).map (fun s => (s 0).prog.isEmpty) = some true := by
    decide +kernel
  obtain ⟨s, hrun, hprog⟩ := Option.map_eq_some_iff.mp hreturned
  exact ⟨s, hrun, List.isEmpty_iff.mp hprog⟩

/-- Without a doorbell the copy is delivered. -/
theorem localCopy_delivers_iff_quiet :
    ∃ s, run (ringSystem 2 UInt8)
        (start defaultPieces (fun _ => stagedArgs) 2 stagedBytes)
        stagedActions = some s ∧
      (copyTwo false).Delivers stagedArgs.mode (output 2 stagedBytes 0) 2
        (Command.memory (s 0).mem fun _ => 0) := by
  obtain ⟨s, hrun, hreturned⟩ := exists_staged_return
  have huniform : ∀ r r' : Fin 2,
      ((fun _ : Fin 2 => stagedArgs) r).mode = stagedArgs.mode :=
    fun _ _ => rfl
  refine ⟨s, hrun, (localCopy_delivers_iff defaultPieces _ 2 stagedBytes
    huniform (by decide) hrun hreturned (copyTwo false) (by decide) rfl
    fun _ => 0).mpr ⟨?_, ?_⟩⟩
  · exact fun h => Bool.noConfusion h.1
  · intro x _ _
    rfl

/-- The doorbell is sent from the first bytes of `send_buf`, and the copy after
it. -/
theorem doorbell_overwrites_copy :
    ∃ s, run (ringSystem 2 UInt8)
        (start defaultPieces (fun _ => stagedArgs) 2 stagedBytes)
        stagedActions = some s ∧ (s 0).prog = [] ∧
      ¬ (copyTwo true).Delivers stagedArgs.mode (output 2 stagedBytes 0) 2
        (Command.memory (s 0).mem fun _ => 0) := by
  obtain ⟨s, hrun, hreturned⟩ := exists_staged_return
  refine ⟨s, hrun, hreturned, fun h => ?_⟩
  rw [Command.delivers_iff (by decide) rfl] at h
  have hbyte := h.2 0 (by decide) (by decide)
  rw [if_neg (by decide), Command.staged, if_pos (by decide)] at hbyte
  exact absurd hbyte (by decide)

end AllGather

end SmartNic.Collective
