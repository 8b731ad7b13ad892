import SmartNic.Codec.ControlCmd

/-!
# The control notifications

The notification structs of `comch_mpi_common.h` and the functions
`control_notify_packed_len`, `control_notify_pack` and
`control_notify_unpack`.
-/

namespace SmartNic.Codec

open SmartNic.Bytes

/-- `struct ucp_connect_host_dpu_notify_msg`. -/
structure UcpConnectHostDpuNotifyMsg (φ : Type) where
  id : UInt64
  remoteUcpWorkerAddress : φ
  remoteUcpWorkerAddressRail1 : φ
  cmdSlotExportDesc : φ
deriving DecidableEq, Repr

/-- `struct ucp_create_ring_notify_msg`. -/
structure UcpCreateRingNotifyMsg where
  id : UInt64
deriving DecidableEq, Repr

/-- `struct ucp_collective_notify_msg`. -/
structure UcpCollectiveNotifyMsg where
  id : UInt64
deriving DecidableEq, Repr

/-- `struct control_notify`, with the union member that its `type` selects. -/
inductive ControlNotify (φ : Type) where
  | ucpConnectHostDpu (msg : UcpConnectHostDpuNotifyMsg φ)
  | ucpCreateRing (msg : UcpCreateRingNotifyMsg)
  | ucpCollective (msg : UcpCollectiveNotifyMsg)
  | unknown (type : UInt64) (h : 3 ≤ type)
deriving DecidableEq, Repr

/-- The value of the field `type`. -/
def ControlNotify.type : ControlNotify φ → UInt64
  | .ucpConnectHostDpu _ => 0
  | .ucpCreateRing _ => 1
  | .ucpCollective _ => 2
  | .unknown t _ => t

/-- Apply a function to every variable-length field of a notification. -/
def ControlNotify.map (f : φ → ψ) : ControlNotify φ → ControlNotify ψ
  | .ucpConnectHostDpu m => .ucpConnectHostDpu
      { id := m.id
        remoteUcpWorkerAddress := f m.remoteUcpWorkerAddress
        remoteUcpWorkerAddressRail1 := f m.remoteUcpWorkerAddressRail1
        cmdSlotExportDesc := f m.cmdSlotExportDesc }
  | .ucpCreateRing m => .ucpCreateRing m
  | .ucpCollective m => .ucpCollective m
  | .unknown t h => .unknown t h

/-- The variable-length fields in the order of the wire. -/
def ControlNotify.fields : ControlNotify φ → List φ
  | .ucpConnectHostDpu m =>
      [m.remoteUcpWorkerAddress, m.remoteUcpWorkerAddressRail1,
        m.cmdSlotExportDesc]
  | .ucpCreateRing _ | .ucpCollective _ | .unknown _ _ => []

/-- `sizeof(struct control_notify)`: the type and the seven words of
`ucp_connect_host_dpu_notify_msg`. -/
def sizeofControlNotify : UInt64 := 64

/-- The 64-bit words of the struct up to the end of its union member. -/
def ControlNotify.words : ControlNotify VarField → List UInt64
  | .ucpConnectHostDpu m =>
      [0, m.id,
        m.remoteUcpWorkerAddress.addr, m.remoteUcpWorkerAddress.len,
        m.remoteUcpWorkerAddressRail1.addr, m.remoteUcpWorkerAddressRail1.len,
        m.cmdSlotExportDesc.addr, m.cmdSlotExportDesc.len]
  | .ucpCreateRing m => [1, m.id]
  | .ucpCollective m => [2, m.id]
  | .unknown t _ => [t]

/-- The struct that the first bytes of a received buffer hold. -/
def controlNotifyAt (buf : List UInt8) : ControlNotify VarSlot :=
  let type := word64 buf 0
  if h : 3 ≤ type then .unknown type h
  else if type = 0 then .ucpConnectHostDpu
    { id := word64 buf 1
      remoteUcpWorkerAddress := slotAt buf 2
      remoteUcpWorkerAddressRail1 := slotAt buf 4
      cmdSlotExportDesc := slotAt buf 6 }
  else if type = 1 then .ucpCreateRing { id := word64 buf 1 }
  else .ucpCollective { id := word64 buf 1 }

/-- `control_notify_packed_len`, in `size_t` arithmetic. -/
def controlNotifyPackedLen (notify : ControlNotify VarField) : UInt64 :=
  let packLen := sizeofControlNotify
  match notify with
  | .ucpConnectHostDpu m =>
      packLen + m.remoteUcpWorkerAddress.len
        + m.remoteUcpWorkerAddressRail1.len
        + m.cmdSlotExportDesc.len
  | .ucpCreateRing _ | .ucpCollective _ | .unknown _ _ => packLen

/-- The `switch` of `control_notify_pack`. -/
def packControlNotifyFields (p : Packer) : ControlNotify VarField → Packer
  | .ucpConnectHostDpu m =>
      p.put m.remoteUcpWorkerAddress
        |>.putIfNonempty m.remoteUcpWorkerAddressRail1
        |>.putIfNonempty m.cmdSlotExportDesc
  | .ucpCreateRing _ | .ucpCollective _ | .unknown _ _ => p

/-- `control_notify_pack` into a buffer of `capacity` bytes. -/
def controlNotifyPack (g : Garbage) (notify : ControlNotify VarField)
    (capacity : UInt64) : Except DocaError Packer :=
  if controlNotifyPackedLen notify > capacity then .error .initialization
  else .ok (packControlNotifyFields
    { out := structBytes g notify.words sizeofControlNotify.toNat
      packedLen := sizeofControlNotify } notify)

def unpackUcpConnectHostDpuNotify (c : Cursor)
    (m : UcpConnectHostDpuNotifyMsg VarSlot) :
    UcpConnectHostDpuNotifyMsg VarSlot × Cursor :=
  let address := c.take m.remoteUcpWorkerAddress
  let addressRail1 := address.2.takeIfNonempty m.remoteUcpWorkerAddressRail1
  let cmdSlot := addressRail1.2.takeIfNonempty m.cmdSlotExportDesc
  ({ m with
      remoteUcpWorkerAddress := address.1
      remoteUcpWorkerAddressRail1 := addressRail1.1
      cmdSlotExportDesc := cmdSlot.1 }, cmdSlot.2)

/-- The `switch` of `control_notify_unpack`. -/
def unpackControlNotifyFields (c : Cursor) :
    ControlNotify VarSlot → ControlNotify VarSlot × Cursor
  | .ucpConnectHostDpu m =>
      let r := unpackUcpConnectHostDpuNotify c m
      (.ucpConnectHostDpu r.1, r.2)
  | .ucpCreateRing m => (.ucpCreateRing m, c)
  | .ucpCollective m => (.ucpCollective m, c)
  | .unknown t h => (.unknown t h, c)

/-- `control_notify_unpack` of a buffer whose length argument is
`packedNotifyLen`. -/
def controlNotifyUnpack (packedNotify : List UInt8)
    (packedNotifyLen : UInt64) : Except DocaError (ControlNotify VarSlot) :=
  if packedNotifyLen < sizeofControlNotify then .error .invalidValue
  else
    let r := unpackControlNotifyFields
      { ptr := sizeofControlNotify, extendedMem := 0 }
      (controlNotifyAt packedNotify)
    if sizeofControlNotify + r.2.extendedMem > packedNotifyLen
    then .error .invalidValue
    else .ok r.1

end SmartNic.Codec
