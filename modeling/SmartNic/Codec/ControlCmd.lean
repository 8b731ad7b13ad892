import SmartNic.Codec.Wire

/-!
# The control commands

The command structs of `comch_mpi_common.h`, their layout in 64-bit words, and
the functions `control_cmd_packed_len`, `control_cmd_pack` and
`control_cmd_unpack`.  A message struct is generic in its variable-length
fields: the sender has bytes there, the receiver a place in its buffer.
-/

namespace SmartNic.Codec

open SmartNic.Bytes

/-! ## The message structs -/

/-- `CollectiveCommunication`; a receiver may find any other value. -/
inductive CollectiveCommunication where
  | simpleRing
  | reduceScatter
  | allGather
  | allReduce
  | broadcast
  | reduce
  | unnamed (code : UInt32) (h : 6 ≤ code)
deriving DecidableEq, Repr

namespace CollectiveCommunication

/-- The value of the C enumerator. -/
def code : CollectiveCommunication → UInt32
  | simpleRing => 0
  | reduceScatter => 1
  | allGather => 2
  | allReduce => 3
  | broadcast => 4
  | reduce => 5
  | unnamed c _ => c

/-- The enumerator with a given value. -/
def ofCode (c : UInt32) : CollectiveCommunication :=
  if h : 6 ≤ c then unnamed c h
  else if c = 0 then simpleRing
  else if c = 1 then reduceScatter
  else if c = 2 then allGather
  else if c = 3 then allReduce
  else if c = 4 then broadcast
  else reduce

@[simp]
theorem ofCode_code (op : CollectiveCommunication) : ofCode op.code = op := by
  cases op with
  | unnamed c h => simp [ofCode, code, h]
  | _ => rfl

end CollectiveCommunication

/-- `struct CollectiveRequest`. -/
structure CollectiveRequest where
  collectiveOp : CollectiveCommunication
  root : UInt64
deriving DecidableEq, Repr

/-- `struct ucp_connect_host_dpu_cmd_msg`. -/
structure UcpConnectHostDpuCmdMsg (φ : Type) where
  id : UInt64
  remoteUcpWorkerAddress : φ
  remoteUcpWorkerAddressRail1 : φ
  doorbellExportDesc : φ
deriving DecidableEq, Repr

/-- `struct ucp_create_ring_msg`. -/
structure UcpCreateRingMsg where
  id : UInt64
deriving DecidableEq, Repr

/-- `struct ucp_collective_msg`. -/
structure UcpCollectiveMsg (φ : Type) where
  id : UInt64
  remoteSrcBufferAddress : UInt64
  remoteSrcBufferLen : UInt64
  srcRkeyBuf : φ
  remoteDstBufferAddress : UInt64
  remoteDstBufferLen : UInt64
  dstRkeyBuf : φ
  localCpuBufferAddress : UInt64
  localCpuBufferLen : UInt64
  localCpuRkeyBuf : φ
  localCpuFlagAddress : UInt64
  localCpuFlagLen : UInt64
  localCpuFlagRkeyBuf : φ
  collectiveRequest : CollectiveRequest
  srcRkeyBufRail1 : φ
  dstRkeyBufRail1 : φ
  dstPciExportBuf : φ
  srcPciExportBuf : φ
  dstPciExportBufRail1 : φ
  srcPciExportBufRail1 : φ
  flagGpuAddr : UInt64
  flagValue : UInt32
  flagReserved : UInt32
deriving DecidableEq, Repr

/-- `struct ucp_connect_dpu_dpu_cmd_msg`. -/
structure UcpConnectDpuDpuCmdMsg (φ : Type) where
  id : UInt64
  remoteUcpWorkerAddress : φ
  remoteUcpWorkerAddressRail1 : φ
deriving DecidableEq, Repr

/-- `struct ucp_init_flag_pool_msg`. -/
structure UcpInitFlagPoolMsg (φ : Type) where
  baseAddr : UInt64
  length : UInt64
  rkeyBuf : φ
  rkeyBufRail1 : φ
  pciExportBuf : φ
  pciExportBufRail1 : φ
deriving DecidableEq, Repr

/-- `struct control_cmd`: its `type` together with the union member that the
type selects.  A value of `type` outside the enumeration selects none. -/
inductive ControlCmd (φ : Type) where
  | ucpConnectHostDpu (msg : UcpConnectHostDpuCmdMsg φ)
  | ucpCreateRing (msg : UcpCreateRingMsg)
  | ucpCollective (msg : UcpCollectiveMsg φ)
  | ucpConnectDpuDpu (msg : UcpConnectDpuDpuCmdMsg φ)
  | ucpInitFlagPool (msg : UcpInitFlagPoolMsg φ)
  | unknown (type : UInt64) (h : 5 ≤ type)
deriving DecidableEq, Repr

/-- The value of the field `type`. -/
def ControlCmd.type : ControlCmd φ → UInt64
  | .ucpConnectHostDpu _ => 0
  | .ucpCreateRing _ => 1
  | .ucpCollective _ => 2
  | .ucpConnectDpuDpu _ => 3
  | .ucpInitFlagPool _ => 4
  | .unknown t _ => t

/-- Apply a function to every variable-length field of a command. -/
def ControlCmd.map (f : φ → ψ) : ControlCmd φ → ControlCmd ψ
  | .ucpConnectHostDpu m => .ucpConnectHostDpu
      { id := m.id
        remoteUcpWorkerAddress := f m.remoteUcpWorkerAddress
        remoteUcpWorkerAddressRail1 := f m.remoteUcpWorkerAddressRail1
        doorbellExportDesc := f m.doorbellExportDesc }
  | .ucpCreateRing m => .ucpCreateRing m
  | .ucpCollective m => .ucpCollective
      { m with
        srcRkeyBuf := f m.srcRkeyBuf
        dstRkeyBuf := f m.dstRkeyBuf
        localCpuRkeyBuf := f m.localCpuRkeyBuf
        localCpuFlagRkeyBuf := f m.localCpuFlagRkeyBuf
        srcRkeyBufRail1 := f m.srcRkeyBufRail1
        dstRkeyBufRail1 := f m.dstRkeyBufRail1
        dstPciExportBuf := f m.dstPciExportBuf
        srcPciExportBuf := f m.srcPciExportBuf
        dstPciExportBufRail1 := f m.dstPciExportBufRail1
        srcPciExportBufRail1 := f m.srcPciExportBufRail1 }
  | .ucpConnectDpuDpu m => .ucpConnectDpuDpu
      { id := m.id
        remoteUcpWorkerAddress := f m.remoteUcpWorkerAddress
        remoteUcpWorkerAddressRail1 := f m.remoteUcpWorkerAddressRail1 }
  | .ucpInitFlagPool m => .ucpInitFlagPool
      { baseAddr := m.baseAddr
        length := m.length
        rkeyBuf := f m.rkeyBuf
        rkeyBufRail1 := f m.rkeyBufRail1
        pciExportBuf := f m.pciExportBuf
        pciExportBufRail1 := f m.pciExportBufRail1 }
  | .unknown t h => .unknown t h

/-- The variable-length fields in the order of the wire. -/
def ControlCmd.fields : ControlCmd φ → List φ
  | .ucpConnectHostDpu m =>
      [m.remoteUcpWorkerAddress, m.remoteUcpWorkerAddressRail1,
        m.doorbellExportDesc]
  | .ucpCollective m =>
      [m.srcRkeyBuf, m.dstRkeyBuf, m.localCpuRkeyBuf, m.localCpuFlagRkeyBuf,
        m.srcRkeyBufRail1, m.dstRkeyBufRail1,
        m.dstPciExportBuf, m.srcPciExportBuf,
        m.dstPciExportBufRail1, m.srcPciExportBufRail1]
  | .ucpConnectDpuDpu m =>
      [m.remoteUcpWorkerAddress, m.remoteUcpWorkerAddressRail1]
  | .ucpInitFlagPool m =>
      [m.rkeyBuf, m.rkeyBufRail1, m.pciExportBuf, m.pciExportBufRail1]
  | .ucpCreateRing _ | .unknown _ _ => []

/-! ## Layout -/

/-- `sizeof(struct control_cmd)`: the type and the 33 words of
`ucp_collective_msg`, the largest member of the union. -/
def sizeofControlCmd : UInt64 := 272

/-- The bytes of a struct that no field determines: the padding behind an
enumerator and the rest of the union. -/
structure Garbage where
  pad : UInt32
  bytes : ℕ → UInt8

/-- The 64-bit words of the struct up to the end of its union member. -/
def ControlCmd.words (g : Garbage) : ControlCmd VarField → List UInt64
  | .ucpConnectHostDpu m =>
      [0, m.id,
        m.remoteUcpWorkerAddress.addr, m.remoteUcpWorkerAddress.len,
        m.remoteUcpWorkerAddressRail1.addr, m.remoteUcpWorkerAddressRail1.len,
        m.doorbellExportDesc.addr, m.doorbellExportDesc.len]
  | .ucpCreateRing m => [1, m.id]
  | .ucpCollective m =>
      [2, m.id,
        m.remoteSrcBufferAddress, m.remoteSrcBufferLen,
        m.srcRkeyBuf.addr, m.srcRkeyBuf.len,
        m.remoteDstBufferAddress, m.remoteDstBufferLen,
        m.dstRkeyBuf.addr, m.dstRkeyBuf.len,
        m.localCpuBufferAddress, m.localCpuBufferLen,
        m.localCpuRkeyBuf.addr, m.localCpuRkeyBuf.len,
        m.localCpuFlagAddress, m.localCpuFlagLen,
        m.localCpuFlagRkeyBuf.addr, m.localCpuFlagRkeyBuf.len,
        halves m.collectiveRequest.collectiveOp.code g.pad,
        m.collectiveRequest.root,
        m.srcRkeyBufRail1.addr, m.srcRkeyBufRail1.len,
        m.dstRkeyBufRail1.addr, m.dstRkeyBufRail1.len,
        m.dstPciExportBuf.addr, m.dstPciExportBuf.len,
        m.srcPciExportBuf.addr, m.srcPciExportBuf.len,
        m.dstPciExportBufRail1.addr, m.dstPciExportBufRail1.len,
        m.srcPciExportBufRail1.addr, m.srcPciExportBufRail1.len,
        m.flagGpuAddr, halves m.flagValue m.flagReserved]
  | .ucpConnectDpuDpu m =>
      [3, m.id,
        m.remoteUcpWorkerAddress.addr, m.remoteUcpWorkerAddress.len,
        m.remoteUcpWorkerAddressRail1.addr, m.remoteUcpWorkerAddressRail1.len]
  | .ucpInitFlagPool m =>
      [4, m.baseAddr, m.length,
        m.rkeyBuf.addr, m.rkeyBuf.len,
        m.rkeyBufRail1.addr, m.rkeyBufRail1.len,
        m.pciExportBuf.addr, m.pciExportBuf.len,
        m.pciExportBufRail1.addr, m.pciExportBufRail1.len]
  | .unknown t _ => [t]

/-- The `size` bytes of a struct that starts with the words `ws`. -/
def structBytes (g : Garbage) (ws : List UInt64) (size : ℕ) : List UInt8 :=
  ws.flatMap le64 ++
    (List.range (size - 8 * ws.length)).map fun i => g.bytes (8 * ws.length + i)

/-- The struct that the first bytes of a received buffer hold. -/
def controlCmdAt (buf : List UInt8) : ControlCmd VarSlot :=
  let type := word64 buf 0
  if h : 5 ≤ type then .unknown type h
  else if type = 0 then .ucpConnectHostDpu
    { id := word64 buf 1
      remoteUcpWorkerAddress := slotAt buf 2
      remoteUcpWorkerAddressRail1 := slotAt buf 4
      doorbellExportDesc := slotAt buf 6 }
  else if type = 1 then .ucpCreateRing { id := word64 buf 1 }
  else if type = 2 then .ucpCollective
    { id := word64 buf 1
      remoteSrcBufferAddress := word64 buf 2
      remoteSrcBufferLen := word64 buf 3
      srcRkeyBuf := slotAt buf 4
      remoteDstBufferAddress := word64 buf 6
      remoteDstBufferLen := word64 buf 7
      dstRkeyBuf := slotAt buf 8
      localCpuBufferAddress := word64 buf 10
      localCpuBufferLen := word64 buf 11
      localCpuRkeyBuf := slotAt buf 12
      localCpuFlagAddress := word64 buf 14
      localCpuFlagLen := word64 buf 15
      localCpuFlagRkeyBuf := slotAt buf 16
      collectiveRequest :=
        { collectiveOp := .ofCode (lowHalf (word64 buf 18))
          root := word64 buf 19 }
      srcRkeyBufRail1 := slotAt buf 20
      dstRkeyBufRail1 := slotAt buf 22
      dstPciExportBuf := slotAt buf 24
      srcPciExportBuf := slotAt buf 26
      dstPciExportBufRail1 := slotAt buf 28
      srcPciExportBufRail1 := slotAt buf 30
      flagGpuAddr := word64 buf 32
      flagValue := lowHalf (word64 buf 33)
      flagReserved := highHalf (word64 buf 33) }
  else if type = 3 then .ucpConnectDpuDpu
    { id := word64 buf 1
      remoteUcpWorkerAddress := slotAt buf 2
      remoteUcpWorkerAddressRail1 := slotAt buf 4 }
  else .ucpInitFlagPool
    { baseAddr := word64 buf 1
      length := word64 buf 2
      rkeyBuf := slotAt buf 3
      rkeyBufRail1 := slotAt buf 5
      pciExportBuf := slotAt buf 7
      pciExportBufRail1 := slotAt buf 9 }

/-! ## `control_cmd_packed_len` and `control_cmd_pack` -/

/-- `control_cmd_packed_len`, in `size_t` arithmetic. -/
def controlCmdPackedLen (cmd : ControlCmd VarField) : UInt64 :=
  let packLen := sizeofControlCmd
  match cmd with
  | .ucpConnectHostDpu m =>
      packLen + m.remoteUcpWorkerAddress.len
        + m.remoteUcpWorkerAddressRail1.len
        + m.doorbellExportDesc.len
  | .ucpCollective m =>
      packLen + m.srcRkeyBuf.len
        + m.dstRkeyBuf.len
        + m.localCpuRkeyBuf.len
        + m.localCpuFlagRkeyBuf.len
        + m.srcRkeyBufRail1.len
        + m.dstRkeyBufRail1.len
        + m.dstPciExportBuf.len
        + m.srcPciExportBuf.len
        + m.dstPciExportBufRail1.len
        + m.srcPciExportBufRail1.len
  | .ucpConnectDpuDpu m =>
      packLen + m.remoteUcpWorkerAddress.len
        + m.remoteUcpWorkerAddressRail1.len
  | .ucpInitFlagPool m =>
      packLen + m.rkeyBuf.len
        + m.rkeyBufRail1.len
        + m.pciExportBuf.len
        + m.pciExportBufRail1.len
  | .ucpCreateRing _ | .unknown _ _ => packLen

/-- The `switch` of `control_cmd_pack`. -/
def packControlCmdFields (p : Packer) : ControlCmd VarField → Packer
  | .ucpConnectHostDpu m =>
      p.put m.remoteUcpWorkerAddress
        |>.putIfNonempty m.remoteUcpWorkerAddressRail1
        |>.putIfNonempty m.doorbellExportDesc
  | .ucpCreateRing _ => p
  | .ucpCollective m =>
      p.put m.srcRkeyBuf
        |>.put m.dstRkeyBuf
        |>.put m.localCpuRkeyBuf
        |>.put m.localCpuFlagRkeyBuf
        |>.putIfNonempty m.srcRkeyBufRail1
        |>.putIfNonempty m.dstRkeyBufRail1
        |>.putIfNonempty m.dstPciExportBuf
        |>.putIfNonempty m.srcPciExportBuf
        |>.putIfNonempty m.dstPciExportBufRail1
        |>.putIfNonempty m.srcPciExportBufRail1
  | .ucpConnectDpuDpu m =>
      p.put m.remoteUcpWorkerAddress
        |>.putIfNonempty m.remoteUcpWorkerAddressRail1
  | .ucpInitFlagPool m =>
      p.putIfNonempty m.rkeyBuf
        |>.putIfNonempty m.rkeyBufRail1
        |>.putIfNonempty m.pciExportBuf
        |>.putIfNonempty m.pciExportBufRail1
  | .unknown _ _ => p

/-- `control_cmd_pack` into a buffer of `capacity` bytes. -/
def controlCmdPack (g : Garbage) (cmd : ControlCmd VarField)
    (capacity : UInt64) : Except DocaError Packer :=
  if controlCmdPackedLen cmd > capacity then .error .initialization
  else .ok (packControlCmdFields
    { out := structBytes g (cmd.words g) sizeofControlCmd.toNat
      packedLen := sizeofControlCmd } cmd)

/-! ## `control_cmd_unpack` -/

def unpackUcpConnectHostDpu (c : Cursor)
    (m : UcpConnectHostDpuCmdMsg VarSlot) :
    UcpConnectHostDpuCmdMsg VarSlot × Cursor :=
  let address := c.take m.remoteUcpWorkerAddress
  let addressRail1 := address.2.takeIfNonempty m.remoteUcpWorkerAddressRail1
  let doorbell := addressRail1.2.takeIfNonempty m.doorbellExportDesc
  ({ m with
      remoteUcpWorkerAddress := address.1
      remoteUcpWorkerAddressRail1 := addressRail1.1
      doorbellExportDesc := doorbell.1 }, doorbell.2)

def unpackUcpCollective (c : Cursor) (m : UcpCollectiveMsg VarSlot) :
    UcpCollectiveMsg VarSlot × Cursor :=
  let src := c.take m.srcRkeyBuf
  let dst := src.2.take m.dstRkeyBuf
  let localCpu := dst.2.take m.localCpuRkeyBuf
  let localCpuFlag := localCpu.2.take m.localCpuFlagRkeyBuf
  let srcRail1 := localCpuFlag.2.takeIfNonempty m.srcRkeyBufRail1
  let dstRail1 := srcRail1.2.takeIfNonempty m.dstRkeyBufRail1
  let dstPci := dstRail1.2.takeIfNonempty m.dstPciExportBuf
  let srcPci := dstPci.2.takeIfNonempty m.srcPciExportBuf
  let dstPciRail1 := srcPci.2.takeIfNonempty m.dstPciExportBufRail1
  let srcPciRail1 := dstPciRail1.2.takeIfNonempty m.srcPciExportBufRail1
  ({ m with
      srcRkeyBuf := src.1
      dstRkeyBuf := dst.1
      localCpuRkeyBuf := localCpu.1
      localCpuFlagRkeyBuf := localCpuFlag.1
      srcRkeyBufRail1 := srcRail1.1
      dstRkeyBufRail1 := dstRail1.1
      dstPciExportBuf := dstPci.1
      srcPciExportBuf := srcPci.1
      dstPciExportBufRail1 := dstPciRail1.1
      srcPciExportBufRail1 := srcPciRail1.1 }, srcPciRail1.2)

def unpackUcpConnectDpuDpu (c : Cursor)
    (m : UcpConnectDpuDpuCmdMsg VarSlot) :
    UcpConnectDpuDpuCmdMsg VarSlot × Cursor :=
  let address := c.take m.remoteUcpWorkerAddress
  let addressRail1 := address.2.takeIfNonempty m.remoteUcpWorkerAddressRail1
  ({ m with
      remoteUcpWorkerAddress := address.1
      remoteUcpWorkerAddressRail1 := addressRail1.1 }, addressRail1.2)

def unpackUcpInitFlagPool (c : Cursor) (m : UcpInitFlagPoolMsg VarSlot) :
    UcpInitFlagPoolMsg VarSlot × Cursor :=
  let rkey := c.takeIfNonempty m.rkeyBuf
  let rkeyRail1 := rkey.2.takeIfNonempty m.rkeyBufRail1
  let pci := rkeyRail1.2.takeIfNonempty m.pciExportBuf
  let pciRail1 := pci.2.takeIfNonempty m.pciExportBufRail1
  ({ m with
      rkeyBuf := rkey.1
      rkeyBufRail1 := rkeyRail1.1
      pciExportBuf := pci.1
      pciExportBufRail1 := pciRail1.1 }, pciRail1.2)

/-- The `switch` of `control_cmd_unpack`. -/
def unpackControlCmdFields (c : Cursor) :
    ControlCmd VarSlot → ControlCmd VarSlot × Cursor
  | .ucpConnectHostDpu m =>
      let r := unpackUcpConnectHostDpu c m
      (.ucpConnectHostDpu r.1, r.2)
  | .ucpCreateRing m => (.ucpCreateRing m, c)
  | .ucpCollective m =>
      let r := unpackUcpCollective c m
      (.ucpCollective r.1, r.2)
  | .ucpConnectDpuDpu m =>
      let r := unpackUcpConnectDpuDpu c m
      (.ucpConnectDpuDpu r.1, r.2)
  | .ucpInitFlagPool m =>
      let r := unpackUcpInitFlagPool c m
      (.ucpInitFlagPool r.1, r.2)
  | .unknown t h => (.unknown t h, c)

/-- `control_cmd_unpack` of a buffer whose length argument is
`packedCmdLen`. -/
def controlCmdUnpack (packedCmd : List UInt8) (packedCmdLen : UInt64) :
    Except DocaError (ControlCmd VarSlot) :=
  if packedCmdLen < sizeofControlCmd then .error .invalidValue
  else
    let r := unpackControlCmdFields
      { ptr := sizeofControlCmd, extendedMem := 0 } (controlCmdAt packedCmd)
    -- the sum of the lengths is formed and compared in 64-bit arithmetic
    if sizeofControlCmd + r.2.extendedMem > packedCmdLen
    then .error .invalidValue
    else .ok r.1

end SmartNic.Codec
