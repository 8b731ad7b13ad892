import Mathlib
import SmartNic.Codec.ControlCmd
import SmartNic.Library.Machine

/-!
# A collective request on the host

`ucp_collective_request_impl` of `comch_client.c` with its export caches.  What
the DOCA calls, the allocations and the send of a request return is given with
the request.  The disabled path that writes the command by RDMA and the wait for
the doorbell, which comes after the unlock, are left out.
-/

namespace SmartNic.Host

open SmartNic.Codec

/-! ## Data -/

/-- The error codes that are named in the function, and those that DOCA returns. -/
inductive DocaError where
  | badState
  | other (code : ℕ)
deriving DecidableEq, Repr

/-- The six export caches: `g_src_rkey_cache`, `g_dst_rkey_cache`,
`g_local_cpu_rkey_cache`, `g_local_cpu_flag_rkey_cache`,
`g_src_rkey_cache_rail1` and `g_dst_rkey_cache_rail1`. -/
inductive Side where
  | src
  | dst
  | localCpu
  | localCpuFlag
  | srcRail1
  | dstRail1
deriving DecidableEq, Repr

structure Buffer where
  addr : UInt64
  len : UInt64
deriving DecidableEq, Repr

inductive Kind where
  | rdma
  | pci
deriving DecidableEq, Repr

/-- What DOCA exports for a buffer; a side stands for its rail as well. -/
structure Descriptor where
  side : Side
  buffer : Buffer
  kind : Kind
  size : ℕ
deriving DecidableEq, Repr

/-- A pointer to a descriptor, or `NULL`, with a length. -/
structure Blob where
  desc : Option Descriptor
  len : ℕ
deriving DecidableEq, Repr

def Blob.null : Blob := ⟨none, 0⟩

/-- A field that holds a pointer and a length, or was never written. -/
abbrev Field := Option Blob

/-- `struct rkey_cache_entry` -/
structure RkeyCacheEntry where
  key : UInt64
  rkey : Blob
  pciExport : Field
deriving DecidableEq, Repr

/-- The calls with which a buffer is registered and exported. -/
inductive Call where
  | create
  | setPermissions
  | setMemrange
  | addDev
  | start
  | exportRdma
deriving DecidableEq, Repr

/-- What the calls for one buffer return. -/
structure Export where
  status : Call → Option DocaError
  size : ℕ
  pciStatus : Option DocaError
  pciSize : ℕ
  entryAllocated : Bool

/-- The arguments of a request. -/
structure Request where
  id : UInt64
  src : Buffer
  dst : Buffer
  localCpu : Buffer
  localCpuFlag : Buffer
  collectiveRequest : CollectiveRequest
  flagGpuAddr : UInt64
  flagValue : UInt32

/-- What the calls of a request return. -/
structure Outcomes where
  flagEntryAllocated : Bool
  exports : Side → Export
  send : Option DocaError

/-- The globals of the host.  `sent` and `hits` are history: the commands that
were handed to `comch_send_control_cmd`, and for every cache hit the buffer that
was asked for with the one that the entry was made for. -/
structure Globals where
  locked : Bool
  finishFlags : List UInt64
  caches : Side → List RkeyCacheEntry
  submitSeq : ℕ
  sent : List (UcpCollectiveMsg Field)
  hits : List (Buffer × Option Buffer)

def Globals.init : Globals := ⟨false, [], fun _ => [], 0, [], []⟩

/-! ## The caches -/

/-- `make_addr_len_key` -/
def makeAddrLenKey (b : Buffer) : UInt64 :=
  b.addr ^^^ (b.len + 0x9e3779b97f4a7c15 + (b.addr <<< (6 : UInt64)) +
    (b.addr >>> (2 : UInt64)))

/-- `rkey_cache_find` -/
def rkeyCacheFind (cache : List RkeyCacheEntry) (key : UInt64) :
    Option RkeyCacheEntry :=
  cache.find? fun e => e.key = key

/-- The buffer that an entry was made for. -/
def RkeyCacheEntry.owner (e : RkeyCacheEntry) : Option Buffer :=
  e.rkey.desc.map Descriptor.buffer

namespace Globals

def lock (g : Globals) : Globals := { g with locked := true }

def unlock (g : Globals) : Globals := { g with locked := false }

/-- `rkey_cache_insert` -/
def insert (g : Globals) (side : Side) (e : RkeyCacheEntry) : Globals :=
  { g with caches := Function.update g.caches side (e :: g.caches side) }

/-- Record a hit. -/
def hit (g : Globals) (b : Buffer) (e : RkeyCacheEntry) : Globals :=
  { g with hits := g.hits ++ [(b, e.owner)] }

end Globals

/-- The first error of a chain of calls. -/
def firstError (calls : List Call) (o : Export) : Option DocaError :=
  calls.findSome? o.status

/-- The descriptors that a buffer's calls export. -/
def exported (side : Side) (kind : Kind) (b : Buffer) (size : ℕ) : Blob :=
  ⟨some ⟨side, b, kind, size⟩, size⟩

/-! ## The blocks of the function -/

/-- The order of the calls for the source and the destination. -/
def mainCalls : List Call :=
  [.create, .setPermissions, .setMemrange, .addDev, .start, .exportRdma]

/-- The order of the calls for the other buffers. -/
def otherCalls : List Call :=
  [.create, .addDev, .setMemrange, .setPermissions, .start, .exportRdma]

/-- The block of the source and that of the destination: the entry, if there is
one, and the descriptor.  The mutex is released before the return with an error. -/
def exportMain (side : Side) (b : Buffer) (o : Export) (g : Globals) :
    Except DocaError (Option RkeyCacheEntry × Blob) × Globals :=
  match rkeyCacheFind (g.caches side) (makeAddrLenKey b) with
  | some e => (.ok (some e, e.rkey), g.hit b e)
  | none =>
      match firstError mainCalls o with
      | some dret => (.error dret, g.unlock)
      | none =>
          let rkey := exported side .rdma b o.size
          let pci := if o.pciStatus = none then exported side .pci b o.pciSize else .null
          if o.entryAllocated then
            let e : RkeyCacheEntry := ⟨makeAddrLenKey b, rkey, some pci⟩
            (.ok (some e, rkey), g.insert side e)
          else (.ok (none, rkey), g)

/-- The block of the local CPU buffer and that of its flag.  They return with an
error as they are. -/
def exportLocal (side : Side) (b : Buffer) (o : Export) (g : Globals) :
    Except DocaError Blob × Globals :=
  match rkeyCacheFind (g.caches side) (makeAddrLenKey b) with
  | some e => (.ok e.rkey, g.hit b e)
  | none =>
      match firstError otherCalls o with
      | some dret => (.error dret, g)
      | none =>
          let rkey := exported side .rdma b o.size
          (.ok rkey,
            if o.entryAllocated then g.insert side ⟨makeAddrLenKey b, rkey, none⟩ else g)

/-- Both blocks, which are only entered for a request with a local CPU buffer. -/
def exportLocals (r : Request) (o : Outcomes) (g : Globals) :
    Except DocaError (Blob × Blob) × Globals :=
  if r.localCpu.addr = 0 then (.ok (.null, .null), g)
  else
    match exportLocal .localCpu r.localCpu (o.exports .localCpu) g with
    | (.error dret, g) => (.error dret, g)
    | (.ok rkey, g) =>
        match exportLocal .localCpuFlag r.localCpuFlag (o.exports .localCpuFlag) g with
        | (.error dret, g) => (.error dret, g)
        | (.ok flagRkey, g) => (.ok (rkey, flagRkey), g)

/-- The blocks of rail 1, which go on without a descriptor after an error.  The
PCI fields of a new entry are only written if that export succeeds. -/
def exportRail1 (side : Side) (b : Buffer) (o : Export) (g : Globals) : Blob × Globals :=
  match rkeyCacheFind (g.caches side) (makeAddrLenKey b) with
  | some e => (e.rkey, g.hit b e)
  | none =>
      match firstError otherCalls o with
      | some _ => (.null, g)
      | none =>
          let rkey := exported side .rdma b o.size
          let pci := if o.pciStatus = none then some (exported side .pci b o.pciSize)
            else none
          (rkey,
            if o.entryAllocated then g.insert side ⟨makeAddrLenKey b, rkey, pci⟩ else g)

/-- The PCI field of an entry; without an entry it is empty. -/
def pciField : Option RkeyCacheEntry → Field
  | some e => e.pciExport
  | none => some .null

/-- The PCI field of rail 1, for which the entry is looked up again. -/
def pciRail1 (dualRail : Bool) (side : Side) (b : Buffer) (g : Globals) : Field :=
  pciField (if dualRail then rkeyCacheFind (g.caches side) (makeAddrLenKey b) else none)

/-- The command, filled from the exports. -/
def controlCmd (dualRail : Bool) (r : Request) (src dst : Option RkeyCacheEntry × Blob)
    (localCpu : Blob × Blob) (srcRail1 dstRail1 : Blob) (g : Globals) :
    UcpCollectiveMsg Field where
  id := r.id
  remoteSrcBufferAddress := r.src.addr
  remoteSrcBufferLen := r.src.len
  srcRkeyBuf := some src.2
  remoteDstBufferAddress := r.dst.addr
  remoteDstBufferLen := r.dst.len
  dstRkeyBuf := some dst.2
  localCpuBufferAddress := r.localCpu.addr
  localCpuBufferLen := r.localCpu.len
  localCpuRkeyBuf := some localCpu.1
  localCpuFlagAddress := r.localCpuFlag.addr
  localCpuFlagLen := r.localCpuFlag.len
  localCpuFlagRkeyBuf := some localCpu.2
  srcRkeyBufRail1 := some srcRail1
  dstRkeyBufRail1 := some dstRail1
  dstPciExportBuf := pciField dst.1
  srcPciExportBuf := pciField src.1
  srcPciExportBufRail1 := pciRail1 dualRail .srcRail1 r.src g
  dstPciExportBufRail1 := pciRail1 dualRail .dstRail1 r.dst g
  collectiveRequest := r.collectiveRequest
  flagGpuAddr := r.flagGpuAddr
  flagValue := r.flagValue
  flagReserved := 0

/-- The command is handed to `comch_send_control_cmd`. -/
def sendCommand (cmd : UcpCollectiveMsg Field) (o : Outcomes) (g : Globals) :
    Option DocaError × Globals :=
  let g := { g with sent := g.sent ++ [cmd] }
  match o.send with
  | some _ => (some .badState, g.unlock)
  | none => (none, { g.unlock with submitSeq := g.submitSeq + 1 })

/-- The part of the function after the destination: the other exports and the
send. -/
def exportRest (dualRail : Bool) (r : Request) (o : Outcomes)
    (src dst : Option RkeyCacheEntry × Blob) (g : Globals) :
    Option DocaError × Globals :=
  match exportLocals r o g with
  | (.error dret, g) => (some dret, g)
  | (.ok localCpu, g) =>
      if dualRail then
        let (srcRail1, g) := exportRail1 .srcRail1 r.src (o.exports .srcRail1) g
        let (dstRail1, g) := exportRail1 .dstRail1 r.dst (o.exports .dstRail1) g
        sendCommand (controlCmd dualRail r src dst localCpu srcRail1 dstRail1 g) o g
      else sendCommand (controlCmd dualRail r src dst localCpu .null .null g) o g

/-- `ucp_collective_request_impl`, entered with the mutex free. -/
def ucpCollectiveRequestImpl (dualRail : Bool) (r : Request) (o : Outcomes)
    (g : Globals) : Option DocaError × Globals :=
  let g := g.lock
  if r.id ∉ g.finishFlags ∧ o.flagEntryAllocated = false then
    (some .badState, g.unlock)
  else
    let g := { g with finishFlags := if r.id ∈ g.finishFlags then g.finishFlags
      else r.id :: g.finishFlags }
    match exportMain .src r.src (o.exports .src) g with
    | (.error dret, g) => (some dret, g)
    | (.ok src, g) =>
        match exportMain .dst r.dst (o.exports .dst) g with
        | (.error dret, g) => (some dret, g)
        | (.ok dst, g) => exportRest dualRail r o src dst g

/-! ## The mutex -/

section Lock

variable {side : Side} {b : Buffer} {e : Export} {r : Request} {o : Outcomes}
  {g : Globals} {dualRail : Bool}

/-- The completion entry of the request exists or can be made. -/
def FlagEntry (r : Request) (o : Outcomes) (g : Globals) : Prop :=
  r.id ∈ g.finishFlags ∨ o.flagEntryAllocated = true

/-- A buffer has an entry or all calls for it succeed. -/
def Exportable (calls : List Call) (side : Side) (b : Buffer) (e : Export)
    (g : Globals) : Prop :=
  rkeyCacheFind (g.caches side) (makeAddrLenKey b) ≠ none ∨ firstError calls e = none

/-- The local CPU buffer and its flag can be exported, where there are such. -/
def LocalsExportable (r : Request) (o : Outcomes) (g : Globals) : Prop :=
  r.localCpu.addr ≠ 0 →
    Exportable otherCalls .localCpu r.localCpu (o.exports .localCpu) g ∧
      Exportable otherCalls .localCpuFlag r.localCpuFlag
        (o.exports .localCpuFlag) g

instance : Decidable (FlagEntry r o g) := inferInstanceAs (Decidable (_ ∨ _))

instance {calls : List Call} : Decidable (Exportable calls side b e g) :=
  inferInstanceAs (Decidable (_ ∨ _))

instance : Decidable (LocalsExportable r o g) := inferInstanceAs (Decidable (_ → _))

/-- What a block does to the globals besides its own cache. -/
structure Touches (side : Side) (g g' : Globals) : Prop where
  caches : ∀ other, other ≠ side → g'.caches other = g.caches other
  sent : g'.sent = g.sent
  finishFlags : g'.finishFlags = g.finishFlags

theorem touches_self (side : Side) (g : Globals) : Touches side g g :=
  ⟨fun _ _ => rfl, rfl, rfl⟩

theorem touches_unlock (side : Side) (g : Globals) : Touches side g g.unlock :=
  ⟨fun _ _ => rfl, rfl, rfl⟩

theorem touches_insert (side : Side) (g : Globals) (entry : RkeyCacheEntry) :
    Touches side g (g.insert side entry) where
  caches _ h := Function.update_of_ne h _ _
  sent := rfl
  finishFlags := rfl

theorem exportMain_touches (side : Side) (b : Buffer) (e : Export) (g : Globals) :
    Touches side g (exportMain side b e g).2 := by
  unfold exportMain
  split
  · exact ⟨fun _ _ => rfl, rfl, rfl⟩
  · split
    · exact touches_unlock side g
    · dsimp only
      split
      · exact touches_insert side g _
      · exact touches_self side g

theorem exportLocal_touches (side : Side) (b : Buffer) (e : Export) (g : Globals) :
    Touches side g (exportLocal side b e g).2 := by
  unfold exportLocal
  split
  · exact ⟨fun _ _ => rfl, rfl, rfl⟩
  · split
    · exact touches_self side g
    · dsimp only
      split
      · exact touches_insert side g _
      · exact touches_self side g

theorem exportRail1_touches (side : Side) (b : Buffer) (e : Export) (g : Globals) :
    Touches side g (exportRail1 side b e g).2 := by
  unfold exportRail1
  split
  · exact ⟨fun _ _ => rfl, rfl, rfl⟩
  · split
    · exact touches_self side g
    · dsimp only
      split
      · exact touches_insert side g _
      · exact touches_self side g

theorem Touches.exportable_iff {g' : Globals} {calls : List Call} {other : Side}
    (h : Touches side g g') (hother : other ≠ side) :
    Exportable calls other b e g' ↔ Exportable calls other b e g := by
  unfold Exportable
  rw [h.caches other hother]

/-- A block of rail 0 fails exactly if its buffer cannot be exported, and then it
has released the mutex. -/
theorem exportMain_cases (side : Side) (b : Buffer) (e : Export) (g : Globals) :
    (¬ Exportable mainCalls side b e g ∧
        ∃ dret, exportMain side b e g = (.error dret, g.unlock)) ∨
      (Exportable mainCalls side b e g ∧
        ∃ v g', exportMain side b e g = (.ok v, g') ∧ g'.locked = g.locked) := by
  unfold exportMain Exportable
  cases hfind : rkeyCacheFind (g.caches side) (makeAddrLenKey b) with
  | some entry =>
      right
      exact ⟨.inl (by simp), _, _, rfl, rfl⟩
  | none =>
      dsimp only
      cases herror : firstError mainCalls e with
      | some dret =>
          left
          exact ⟨by simp, dret, rfl⟩
      | none =>
          right
          refine ⟨.inr rfl, ?_⟩
          by_cases halloc : e.entryAllocated
          · exact ⟨_, _, if_pos halloc, rfl⟩
          · exact ⟨_, _, if_neg halloc, rfl⟩

/-- A block of the local CPU buffer fails exactly if its buffer cannot be exported,
and then the mutex is as before. -/
theorem exportLocal_cases (side : Side) (b : Buffer) (e : Export) (g : Globals) :
    (¬ Exportable otherCalls side b e g ∧
        ∃ dret, exportLocal side b e g = (.error dret, g)) ∨
      (Exportable otherCalls side b e g ∧
        ∃ v g', exportLocal side b e g = (.ok v, g') ∧ g'.locked = g.locked) := by
  unfold exportLocal Exportable
  cases hfind : rkeyCacheFind (g.caches side) (makeAddrLenKey b) with
  | some entry =>
      right
      exact ⟨.inl (by simp), _, _, rfl, rfl⟩
  | none =>
      dsimp only
      cases herror : firstError otherCalls e with
      | some dret =>
          left
          exact ⟨by simp, dret, rfl⟩
      | none =>
          right
          refine ⟨.inr rfl, _, _, rfl, ?_⟩
          split
          · rfl
          · rfl

/-- Both blocks together. -/
theorem exportLocals_cases (r : Request) (o : Outcomes) (g : Globals) :
    (¬ LocalsExportable r o g ∧
        ∃ dret g', exportLocals r o g = (.error dret, g') ∧ g'.locked = g.locked) ∨
      (LocalsExportable r o g ∧
        ∃ v g', exportLocals r o g = (.ok v, g') ∧ g'.locked = g.locked) := by
  unfold exportLocals LocalsExportable
  by_cases hzero : r.localCpu.addr = 0
  · right
    rw [if_pos hzero]
    exact ⟨fun hne => absurd hzero hne, _, _, rfl, rfl⟩
  · rw [if_neg hzero]
    rcases exportLocal_cases .localCpu r.localCpu (o.exports .localCpu) g with
      ⟨hnot, dret, heq⟩ | ⟨hyes, v, g₁, heq, hlocked⟩
    · left
      rw [heq]
      exact ⟨fun h => hnot (h hzero).1, dret, g, rfl, rfl⟩
    · have htouch := exportLocal_touches .localCpu r.localCpu (o.exports .localCpu) g
      rw [heq] at htouch
      have hiff : Exportable otherCalls .localCpuFlag r.localCpuFlag
          (o.exports .localCpuFlag) g₁ ↔
            Exportable otherCalls .localCpuFlag r.localCpuFlag
              (o.exports .localCpuFlag) g :=
        htouch.exportable_iff (by decide)
      rw [heq]
      dsimp only
      rcases exportLocal_cases .localCpuFlag r.localCpuFlag
          (o.exports .localCpuFlag) g₁ with
        ⟨hnot, dret, heq'⟩ | ⟨hyes', v', g₂, heq', hlocked'⟩
      · left
        rw [heq']
        exact ⟨fun h => hnot (hiff.mpr (h hzero).2), dret, g₁, rfl, hlocked⟩
      · right
        rw [heq']
        exact ⟨fun _ => ⟨hyes, hiff.mp hyes'⟩, _, g₂, rfl, hlocked'.trans hlocked⟩

theorem sendCommand_locked (cmd : UcpCollectiveMsg Field) (o : Outcomes) (g : Globals) :
    (sendCommand cmd o g).2.locked = false := by
  unfold sendCommand
  dsimp only
  split
  · rfl
  · rfl

/-- After the destination the mutex stays locked exactly if a local export fails. -/
theorem exportRest_locked (src dst : Option RkeyCacheEntry × Blob)
    (hlocked : g.locked = true) :
    (exportRest dualRail r o src dst g).2.locked = false ↔ LocalsExportable r o g := by
  unfold exportRest
  rcases exportLocals_cases r o g with ⟨hnot, dret, g', heq, hsame⟩ |
    ⟨hyes, v, g', heq, hsame⟩
  · rw [heq]
    dsimp only
    rw [hsame, hlocked]
    exact ⟨fun h => absurd h (by decide), fun h => absurd h hnot⟩
  · rw [heq]
    dsimp only
    refine ⟨fun _ => hyes, fun _ => ?_⟩
    split
    · exact sendCommand_locked _ _ _
    · exact sendCommand_locked _ _ _

end Lock

/-- The mutex is released exactly unless the source and the destination of a
request with a local CPU buffer can be exported and that buffer or its flag
cannot. -/
theorem released_iff (dualRail : Bool) (r : Request) (o : Outcomes) (g : Globals) :
    (ucpCollectiveRequestImpl dualRail r o g).2.locked = false ↔
      ¬ (FlagEntry r o g ∧
        Exportable mainCalls .src r.src (o.exports .src) g ∧
        Exportable mainCalls .dst r.dst (o.exports .dst) g ∧
        ¬ LocalsExportable r o g) := by
  unfold ucpCollectiveRequestImpl
  dsimp only
  split
  next hnone =>
    have hflag : ¬ FlagEntry r o g := by
      rintro (hmem | halloc)
      · exact hnone.1 hmem
      · rw [halloc] at hnone
        cases hnone.2
    exact ⟨fun _ h => hflag h.1, fun _ => rfl⟩
  next hsome =>
    have hflag : FlagEntry r o g := by
      by_contra hnot
      unfold FlagEntry at hnot
      rw [not_or, Bool.not_eq_true] at hnot
      exact hsome hnot
    set g₀ : Globals := { g.lock with
      finishFlags := if r.id ∈ g.lock.finishFlags then g.lock.finishFlags
        else r.id :: g.lock.finishFlags } with hg₀
    have hcaches : g₀.caches = g.caches := rfl
    have hlocked₀ : g₀.locked = true := rfl
    rcases exportMain_cases .src r.src (o.exports .src) g₀ with
      ⟨hnot, dret, heq⟩ | ⟨hyes, src, g₁, heq, hlocked₁⟩
    · rw [heq]
      exact ⟨fun _ h => hnot h.2.1, fun _ => rfl⟩
    · have htouch₁ := exportMain_touches .src r.src (o.exports .src) g₀
      rw [heq] at htouch₁
      rw [heq]
      dsimp only at htouch₁ ⊢
      have hdst : Exportable mainCalls .dst r.dst (o.exports .dst) g₁ ↔
          Exportable mainCalls .dst r.dst (o.exports .dst) g :=
        htouch₁.exportable_iff (by decide)
      rcases exportMain_cases .dst r.dst (o.exports .dst) g₁ with
        ⟨hnot, dret, heq'⟩ | ⟨hyes', dst, g₂, heq', hlocked₂⟩
      · rw [heq']
        exact ⟨fun _ h => hnot (hdst.mpr h.2.2.1), fun _ => rfl⟩
      · have htouch₂ := exportMain_touches .dst r.dst (o.exports .dst) g₁
        rw [heq'] at htouch₂
        rw [heq']
        dsimp only at htouch₂ ⊢
        rw [exportRest_locked src dst (hlocked₂.trans (hlocked₁.trans hlocked₀))]
        have hlocals : LocalsExportable r o g₂ ↔ LocalsExportable r o g := by
          unfold LocalsExportable
          rw [htouch₂.exportable_iff (by decide), htouch₂.exportable_iff (by decide),
            htouch₁.exportable_iff (by decide), htouch₁.exportable_iff (by decide)]
          rfl
        rw [hlocals]
        constructor
        · intro h hnot
          exact hnot.2.2.2 h
        · intro h
          by_contra hnot
          exact h ⟨hflag, hyes, hdst.mp hyes', hnot⟩

/-- A buffer whose calls all succeed. -/
def exportSucceeds : Export := ⟨fun _ => none, 64, none, 32, true⟩

/-- A buffer for which not even an mmap can be created. -/
def createFails : Export :=
  { exportSucceeds with status := fun call => if call = .create then some (.other 7) else none }

/-- A request that buffers in local CPU memory. -/
def bufferedRequest : Request where
  id := 1
  src := ⟨0x7f0000000000, 0x100000⟩
  dst := ⟨0x7f0000800000, 0x400000⟩
  localCpu := ⟨0x560000000000, 0x400000⟩
  localCpuFlag := ⟨0x560000800000, 64⟩
  collectiveRequest := ⟨.allGather, 0⟩
  flagGpuAddr := 0
  flagValue := 0

def localCreateFails : Outcomes where
  flagEntryAllocated := true
  exports side := if side = .localCpu then createFails else exportSucceeds
  send := none

/-- The local CPU buffer cannot be registered: the function returns and the mutex
stays locked. -/
theorem not_released_localCreateFails :
    ¬ (ucpCollectiveRequestImpl false bufferedRequest localCreateFails
      Globals.init).2.locked = false := by
  decide

end SmartNic.Host
