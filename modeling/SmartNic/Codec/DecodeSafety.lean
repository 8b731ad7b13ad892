import SmartNic.Codec.ControlNotify

/-!
# Decoding at the two endpoints

`message_recv_callback` of the DPU and of the host, from the bytes that arrive
to the struct that a command handler works on.  The lengths of the
variable-length fields come from the wire; the walk of the decoder over them is
compared with the same walk over unbounded numbers.
-/

namespace SmartNic.Codec

open SmartNic.Bytes

/-- A message that `doca_comch` delivers; `msg_len` is a `uint32_t`. -/
structure Message where
  bytes : List UInt8
  length_lt : bytes.length < 2 ^ 32

/-- `msg_len`, converted to `size_t`. -/
def Message.len (msg : Message) : UInt64 := UInt64.ofNat msg.bytes.length

theorem Message.toNat_len (msg : Message) :
    msg.len.toNat = msg.bytes.length := by
  have hlt := msg.length_lt
  rw [Message.len, UInt64.toNat_ofNat', Nat.mod_eq_of_lt]
  omega

/-- What a handler did with a message: the length argument of its call of the
unpack function, whether that call succeeded, and the struct that a command
handler was run on. -/
structure Handling (τ : Type) where
  unpackLen : Option UInt64
  unpacked : Bool
  handled : Option τ

/-- The message is dropped before it is unpacked. -/
def Handling.dropped : Handling τ where
  unpackLen := none
  unpacked := false
  handled := none

/-! ## The DPU -/

namespace Dpu

/-- What the callback finds on its way: whether the context has user data,
whether its two allocations succeed and whether the pool takes the message. -/
structure Local where
  hasUserData : Bool
  copyAllocated : Bool
  argAllocated : Bool
  submitted : Bool
deriving DecidableEq, Repr

/-- The `switch` of `message_worker_thread`: the command that a handler is run
on.  There is none for `CONTROL_CMD_UCP_CONNECT_DPU_DPU` and for types outside
the enumeration. -/
def messageWorkerThread (recvCmd : ControlCmd VarSlot) :
    Option (ControlCmd VarSlot) :=
  match recvCmd with
  | .ucpCreateRing _ | .ucpCollective _ | .ucpConnectHostDpu _
  | .ucpInitFlagPool _ => some recvCmd
  | .ucpConnectDpuDpu _ | .unknown _ _ => none

/-- `message_recv_callback` of the DPU. -/
def messageRecvCallback (env : Local) (msg : Message) :
    Handling (ControlCmd VarSlot) :=
  if !env.hasUserData || !env.copyAllocated then .dropped
  else
    match controlCmdUnpack msg.bytes msg.len with
    | .error _ =>
        { unpackLen := some msg.len, unpacked := false, handled := none }
    | .ok recvCmd =>
        { unpackLen := some msg.len
          unpacked := true
          handled :=
            if env.argAllocated && env.submitted
            then messageWorkerThread recvCmd
            else none }

end Dpu

/-! ## The host -/

namespace Host

/-- `CONTROL_NOTIFY_MAX_SIZE`. -/
def controlNotifyMaxSize : UInt64 := 4096

/-- The out-parameter `*notify` of `control_notify_unpack`.  It is set, and the
pointers behind it are redirected, before the lengths are checked. -/
def controlNotifyOut (packedNotify : List UInt8) (packedNotifyLen : UInt64) :
    Option (ControlNotify VarSlot) :=
  if packedNotifyLen < sizeofControlNotify then none
  else some (unpackControlNotifyFields
    { ptr := sizeofControlNotify, extendedMem := 0 }
    (controlNotifyAt packedNotify)).1

/-- The `switch` of the callback: the notification that a handler is run on. -/
def dispatch (recvNotify : ControlNotify VarSlot) :
    Option (ControlNotify VarSlot) :=
  match recvNotify with
  | .ucpConnectHostDpu _ | .ucpCreateRing _ | .ucpCollective _ =>
      some recvNotify
  | .unknown _ _ => none

/-- `message_recv_callback` of the host.  The unpack function is told that the
message has `CONTROL_NOTIFY_MAX_SIZE` bytes, so that it reads the bytes
`behind` a shorter one, and its status is not looked at. -/
def messageRecvCallback (behind : List UInt8) (msg : Message) :
    Handling (ControlNotify VarSlot) where
  unpackLen := some controlNotifyMaxSize
  unpacked :=
    (controlNotifyUnpack (msg.bytes ++ behind) controlNotifyMaxSize).isOk
  handled :=
    (controlNotifyOut (msg.bytes ++ behind) controlNotifyMaxSize).bind dispatch

end Host

/-! ## Decode safety -/

/-- The field lies inside the received bytes. -/
def VarSlot.Inside (msg : Message) (slot : VarSlot) : Prop :=
  (slot.bytes msg.bytes).isSome

instance (msg : Message) (slot : VarSlot) : Decidable (slot.Inside msg) :=
  inferInstanceAs (Decidable (_ = true))

/-- A handler rejects the message or works on a struct that was unpacked and
whose fields lie inside the message; it never claims that the message is longer
than it is. -/
structure DecodeSafe (fields : τ → List VarSlot) (msg : Message)
    (handling : Handling τ) : Prop where
  length_le : ∀ n ∈ handling.unpackLen, n.toNat ≤ msg.bytes.length
  unpacked : handling.handled.isSome → handling.unpacked = true
  inside : ∀ cmd ∈ handling.handled, ∀ slot ∈ fields cmd, slot.Inside msg

theorem DecodeSafe.of_handled_none {fields : τ → List VarSlot} {msg : Message}
    {handling : Handling τ} (h : handling.handled = none)
    (hlen : ∀ n ∈ handling.unpackLen, n.toNat ≤ msg.bytes.length) :
    DecodeSafe fields msg handling := by
  refine ⟨hlen, ?_, ?_⟩
  · intro hsome
    simp [h] at hsome
  · intro cmd hcmd
    simp [h] at hcmd

/-! ## The walk over the fields -/

/-- The lengths of a list of fields, added up as numbers. -/
def slotsLen (slots : List VarSlot) : ℕ :=
  (slots.map fun slot => slot.len.toNat).sum

@[simp]
theorem slotsLen_nil : slotsLen [] = 0 := rfl

@[simp]
theorem slotsLen_cons (slot : VarSlot) (slots : List VarSlot) :
    slotsLen (slot :: slots) = slot.len.toNat + slotsLen slots := rfl

/-- From the cursor `c`, the fields `slots` become `slots'` and the cursor ends
as `c'`.  A field keeps the sender's pointer only when it is empty. -/
inductive Walk : Cursor → List VarSlot → List VarSlot → Cursor → Prop
  | nil (c : Cursor) : Walk c [] [] c
  | take {c c' : Cursor} {slots slots' : List VarSlot} (slot : VarSlot)
      (rest : Walk (c.take slot).2 slots slots' c') :
      Walk c (slot :: slots) ((c.take slot).1 :: slots') c'
  | skip {c c' : Cursor} {slots slots' : List VarSlot} {slot : VarSlot}
      {value : UInt64} (hlen : slot.len = 0) (haddr : slot.addr = .raw value)
      (rest : Walk c slots slots' c') :
      Walk c (slot :: slots) (slot :: slots') c'

theorem Walk.takeIfNonempty {c c' : Cursor} {slots slots' : List VarSlot}
    (slot : VarSlot) {value : UInt64} (haddr : slot.addr = .raw value)
    (rest : Walk (c.takeIfNonempty slot).2 slots slots' c') :
    Walk c (slot :: slots) ((c.takeIfNonempty slot).1 :: slots') c' := by
  unfold Cursor.takeIfNonempty at rest ⊢
  by_cases h : slot.len > 0
  · rw [if_pos h] at rest ⊢
    exact .take slot rest
  · rw [if_neg h] at rest ⊢
    have hlen : slot.len = 0 := by
      rw [gt_iff_lt, UInt64.lt_iff_toNat_lt] at h
      exact UInt64.toNat_inj.mp (by simpa using h)
    exact .skip hlen haddr rest

/-- The decoder's sum of the lengths is the sum of the lengths modulo
`2 ^ 64`. -/
theorem Walk.extendedMem_eq {c c' : Cursor} {slots slots' : List VarSlot}
    (h : Walk c slots slots' c') :
    c'.extendedMem.toNat = (c.extendedMem.toNat + slotsLen slots) % 2 ^ 64 := by
  induction h with
  | nil c =>
      have hlt := c.extendedMem.toNat_lt
      simp only [slotsLen_nil, Nat.add_zero]
      exact (Nat.mod_eq_of_lt hlt).symm
  | take slot _ ih =>
      rw [ih, slotsLen_cons]
      simp only [Cursor.take, UInt64.toNat_add]
      omega
  | skip hlen _ _ ih =>
      rw [ih, slotsLen_cons, hlen]
      simp

/-- A cursor that stands inside the message redirects every field into the
message exactly if the lengths, added up as numbers, fit behind it: up to the
first field that does not fit no addition has wrapped. -/
theorem Walk.inside_iff {c c' : Cursor} {slots slots' : List VarSlot}
    (h : Walk c slots slots' c') (msg : Message)
    (hptr : c.ptr.toNat ≤ msg.bytes.length) :
    (∀ slot ∈ slots', slot.Inside msg) ↔
      c.ptr.toNat + slotsLen slots ≤ msg.bytes.length := by
  have hmsg := msg.length_lt
  induction h with
  | nil c =>
      simp only [List.not_mem_nil, false_implies, implies_true, slotsLen_nil,
        true_iff]
      omega
  | @take c c' slots slots' slot rest ih =>
      have hfirst : (c.take slot).1.Inside msg ↔
          c.ptr.toNat + slot.len.toNat ≤ msg.bytes.length := by
        simp only [VarSlot.Inside, Cursor.take, VarSlot.bytes]
        by_cases hin : c.ptr.toNat + slot.len.toNat ≤ msg.bytes.length
        · simp [hin]
        · simp [hin]
      rw [List.forall_mem_cons, hfirst, slotsLen_cons]
      by_cases hfits : c.ptr.toNat + slot.len.toNat ≤ msg.bytes.length
      · have hnext : (c.take slot).2.ptr.toNat =
            c.ptr.toNat + slot.len.toNat := by
          simp only [Cursor.take, UInt64.toNat_add]
          rw [Nat.mod_eq_of_lt]
          omega
        rw [hnext] at ih
        have hrest := ih hfits
        constructor
        · intro hall
          have htotal := hrest.mp hall.2
          omega
        · intro htotal
          exact ⟨hfits, hrest.mpr (by omega)⟩
      · constructor
        · intro hall
          exact absurd hall.1 hfits
        · intro htotal
          omega
  | skip hlen haddr _ ih =>
      have hrest := ih hptr
      rw [List.forall_mem_cons, slotsLen_cons, hlen]
      simp only [VarSlot.Inside, VarSlot.bytes, haddr, hlen, if_true,
        Option.isSome_some, true_and, UInt64.toNat_zero, Nat.zero_add]
      exact hrest

theorem controlCmdAt_walk (buf : List UInt8) (c : Cursor) :
    Walk c (controlCmdAt buf).fields
      (unpackControlCmdFields c (controlCmdAt buf)).1.fields
      (unpackControlCmdFields c (controlCmdAt buf)).2 := by
  unfold controlCmdAt
  dsimp only
  split
  · exact .nil c
  · split
    · exact .take _ (.takeIfNonempty _ rfl (.takeIfNonempty _ rfl (.nil _)))
    split
    · exact .nil c
    split
    · exact .take _ (.take _ (.take _ (.take _
        (.takeIfNonempty _ rfl (.takeIfNonempty _ rfl
        (.takeIfNonempty _ rfl (.takeIfNonempty _ rfl
        (.takeIfNonempty _ rfl (.takeIfNonempty _ rfl (.nil _))))))))))
    split
    · exact .take _ (.takeIfNonempty _ rfl (.nil _))
    · exact .takeIfNonempty _ rfl (.takeIfNonempty _ rfl
        (.takeIfNonempty _ rfl (.takeIfNonempty _ rfl (.nil _))))

theorem controlNotifyAt_walk (buf : List UInt8) (c : Cursor) :
    Walk c (controlNotifyAt buf).fields
      (unpackControlNotifyFields c (controlNotifyAt buf)).1.fields
      (unpackControlNotifyFields c (controlNotifyAt buf)).2 := by
  unfold controlNotifyAt
  dsimp only
  split
  · exact .nil c
  · split
    · exact .take _ (.takeIfNonempty _ rfl (.takeIfNonempty _ rfl (.nil _)))
    split
    · exact .nil c
    · exact .nil c

/-! ## Which messages are decoded safely -/

/-- What the struct and the variable-length fields of a command occupy, as a
number that does not wrap. -/
def ControlCmd.totalLen (cmd : ControlCmd VarSlot) : ℕ :=
  sizeofControlCmd.toNat + slotsLen cmd.fields

/-- What the struct and the variable-length fields of a notification occupy. -/
def ControlNotify.totalLen (notify : ControlNotify VarSlot) : ℕ :=
  sizeofControlNotify.toNat + slotsLen notify.fields

/-- The DPU has no handler for the command, the message is shorter than the
struct, the lengths do not wrap, or they wrap to more than the message has. -/
def Dpu.Admissible (msg : Message) : Prop :=
  Dpu.messageWorkerThread (controlCmdAt msg.bytes) = none ∨
    msg.bytes.length < sizeofControlCmd.toNat ∨
    (controlCmdAt msg.bytes).totalLen < 2 ^ 64 ∨
    msg.bytes.length < (controlCmdAt msg.bytes).totalLen % 2 ^ 64

/-- The message fills `CONTROL_NOTIFY_MAX_SIZE` bytes and the lengths stay
below that. -/
def Host.Admissible (msg : Message) : Prop :=
  Host.controlNotifyMaxSize.toNat ≤ msg.bytes.length ∧
    (controlNotifyAt msg.bytes).totalLen ≤ Host.controlNotifyMaxSize.toNat

instance (msg : Message) : Decidable (Dpu.Admissible msg) :=
  inferInstanceAs (Decidable (_ ∨ _ ∨ _ ∨ _))

instance (msg : Message) : Decidable (Host.Admissible msg) :=
  inferInstanceAs (Decidable (_ ∧ _))

/-- Redirecting pointers changes neither the type of a command nor whether it
has a handler. -/
theorem Dpu.messageWorkerThread_unpack (c : Cursor)
    (cmd : ControlCmd VarSlot) :
    Dpu.messageWorkerThread (unpackControlCmdFields c cmd).1 =
      (Dpu.messageWorkerThread cmd).map
        fun _ => (unpackControlCmdFields c cmd).1 := by
  cases cmd <;> rfl

/-- The decoder accepts a command exactly if the wrapped total fits. -/
theorem controlCmdUnpack_eq (msg : Message)
    (hlen : sizeofControlCmd.toNat ≤ msg.bytes.length) :
    controlCmdUnpack msg.bytes msg.len =
      if msg.bytes.length < (controlCmdAt msg.bytes).totalLen % 2 ^ 64
      then .error .invalidValue
      else .ok (unpackControlCmdFields
        { ptr := sizeofControlCmd, extendedMem := 0 }
        (controlCmdAt msg.bytes)).1 := by
  have hwalk := controlCmdAt_walk msg.bytes
    { ptr := sizeofControlCmd, extendedMem := 0 }
  have hext := hwalk.extendedMem_eq
  have hlong : ¬ msg.len < sizeofControlCmd := by
    rw [UInt64.lt_iff_toNat_lt, msg.toNat_len]
    omega
  have hcheck : sizeofControlCmd + (unpackControlCmdFields
      { ptr := sizeofControlCmd, extendedMem := 0 }
      (controlCmdAt msg.bytes)).2.extendedMem > msg.len ↔
      msg.bytes.length < (controlCmdAt msg.bytes).totalLen % 2 ^ 64 := by
    rw [gt_iff_lt, UInt64.lt_iff_toNat_lt, msg.toNat_len, UInt64.toNat_add,
      hext, ControlCmd.totalLen]
    simp only [UInt64.toNat_zero, Nat.zero_add, Nat.add_mod_mod]
  rw [controlCmdUnpack, if_neg hlong]
  simp only [hcheck]

/-- The redirected fields of an accepted command lie inside the message exactly
if the unwrapped total does not exceed it. -/
theorem unpackControlCmdFields_inside_iff (msg : Message)
    (hlen : sizeofControlCmd.toNat ≤ msg.bytes.length) :
    (∀ slot ∈ (unpackControlCmdFields
        { ptr := sizeofControlCmd, extendedMem := 0 }
        (controlCmdAt msg.bytes)).1.fields, slot.Inside msg) ↔
      (controlCmdAt msg.bytes).totalLen ≤ msg.bytes.length :=
  (controlCmdAt_walk msg.bytes _).inside_iff msg hlen

theorem Dpu.decodeSafe_of_handled_none (env : Dpu.Local) (msg : Message)
    (h : (Dpu.messageRecvCallback env msg).handled = none) :
    DecodeSafe ControlCmd.fields msg (Dpu.messageRecvCallback env msg) := by
  refine .of_handled_none h ?_
  have hlen : msg.len.toNat ≤ msg.bytes.length := msg.toNat_len.le
  unfold Dpu.messageRecvCallback
  split
  · simp [Handling.dropped]
  split
  · simpa using hlen
  · simpa using hlen

/-- A struct that the callback works on was accepted by the decoder, which got
the length of the message. -/
theorem Dpu.of_handled {env : Dpu.Local} {msg : Message}
    (h : (Dpu.messageRecvCallback env msg).handled.isSome) :
    (Dpu.messageRecvCallback env msg).unpackLen = some msg.len ∧
      (Dpu.messageRecvCallback env msg).unpacked = true := by
  unfold Dpu.messageRecvCallback at h ⊢
  split at h
  · simp [Handling.dropped] at h
  next hlocal =>
    rw [if_neg hlocal]
    split at h
    · simp at h
    · exact ⟨rfl, rfl⟩

/-- The callback works on what the decoder accepted, if nothing local prevents
it. -/
theorem Dpu.handled_messageRecvCallback (env : Dpu.Local) (msg : Message) :
    (Dpu.messageRecvCallback env msg).handled =
      if env = ⟨true, true, true, true⟩
      then (controlCmdUnpack msg.bytes msg.len).toOption.bind
        Dpu.messageWorkerThread
      else none := by
  obtain ⟨a, b, c, d⟩ := env
  unfold Dpu.messageRecvCallback
  cases controlCmdUnpack msg.bytes msg.len <;>
    cases a <;> cases b <;> cases c <;> cases d <;>
      simp [Handling.dropped, Except.toOption]

theorem Dpu.decodeSafe_iff (env : Dpu.Local) (msg : Message) :
    DecodeSafe ControlCmd.fields msg (Dpu.messageRecvCallback env msg) ↔
      (env = ⟨true, true, true, true⟩ → Dpu.Admissible msg) := by
  have hhandled := Dpu.handled_messageRecvCallback env msg
  by_cases henv : env = ⟨true, true, true, true⟩
  swap
  · rw [if_neg henv] at hhandled
    simp [Dpu.decodeSafe_of_handled_none env msg hhandled, henv]
  rw [if_pos henv] at hhandled
  simp only [henv, true_imp_iff]
  rw [← henv]
  by_cases hlen : sizeofControlCmd.toNat ≤ msg.bytes.length
  swap
  · have hshort : msg.len < sizeofControlCmd := by
      rw [UInt64.lt_iff_toNat_lt, msg.toNat_len]
      omega
    rw [controlCmdUnpack, if_pos hshort] at hhandled
    exact iff_of_true (Dpu.decodeSafe_of_handled_none env msg hhandled)
      (.inr (.inl (by omega)))
  rw [controlCmdUnpack_eq msg hlen] at hhandled
  by_cases hwrapped :
      msg.bytes.length < (controlCmdAt msg.bytes).totalLen % 2 ^ 64
  · rw [if_pos hwrapped] at hhandled
    exact iff_of_true (Dpu.decodeSafe_of_handled_none env msg hhandled)
      (.inr (.inr (.inr hwrapped)))
  rw [if_neg hwrapped] at hhandled
  have hbind : (Dpu.messageRecvCallback env msg).handled =
      (Dpu.messageWorkerThread (controlCmdAt msg.bytes)).map
        fun _ => (unpackControlCmdFields
          { ptr := sizeofControlCmd, extendedMem := 0 }
          (controlCmdAt msg.bytes)).1 :=
    hhandled.trans (Dpu.messageWorkerThread_unpack _ _)
  cases hworker : Dpu.messageWorkerThread (controlCmdAt msg.bytes) with
  | none =>
      rw [hworker] at hbind
      exact iff_of_true (Dpu.decodeSafe_of_handled_none env msg hbind)
        (.inl hworker)
  | some cmd =>
      rw [hworker, Option.map_some] at hbind
      have hinside := unpackControlCmdFields_inside_iff msg hlen
      have hmsg := msg.length_lt
      constructor
      · intro hsafe
        have htotal := hinside.mp (hsafe.inside _ hbind)
        exact .inr (.inr (.inl (by omega)))
      · rintro (hnone | hshort | hnowrap | hbig)
        · simp [hworker] at hnone
        · omega
        · have htotal :
              (controlCmdAt msg.bytes).totalLen ≤ msg.bytes.length := by
            rw [Nat.mod_eq_of_lt hnowrap] at hwrapped
            omega
          have haccepted := Dpu.of_handled (Option.isSome_of_mem hbind)
          refine ⟨?_, fun _ => haccepted.2, ?_⟩
          · intro n hn
            rw [haccepted.1] at hn
            obtain rfl := Option.some.inj hn
            exact msg.toNat_len.le
          · intro cmd' hcmd'
            obtain rfl := Option.some.inj (hbind.symm.trans hcmd')
            exact hinside.mpr htotal
        · exact absurd hbig hwrapped

/-! ### The host -/

theorem word64_append {buf rest : List UInt8} {i : ℕ}
    (h : 8 * i + 8 ≤ buf.length) :
    word64 (buf ++ rest) i = word64 buf i := by
  have hskip : 8 * i - buf.length = 0 := by omega
  have htake : 8 - (buf.drop (8 * i)).length = 0 := by
    rw [List.length_drop]
    omega
  simp only [word64, slice, List.drop_append, hskip, List.drop_zero,
    List.take_append, htake, List.take_zero, List.append_nil]

/-- A message that holds a whole struct is read without the bytes behind it. -/
theorem controlNotifyAt_append {buf : List UInt8} (rest : List UInt8)
    (h : sizeofControlNotify.toNat ≤ buf.length) :
    controlNotifyAt (buf ++ rest) = controlNotifyAt buf := by
  have hlen : 64 ≤ buf.length := h
  have hword : ∀ i < 8, word64 (buf ++ rest) i = word64 buf i :=
    fun i hi => word64_append (by omega)
  simp only [controlNotifyAt, slotAt, hword 0 (by decide),
    hword 1 (by decide), hword 2 (by decide), hword 3 (by decide),
    hword 4 (by decide), hword 5 (by decide), hword 6 (by decide),
    hword 7 (by decide)]

theorem Host.dispatch_unpack (c : Cursor) (notify : ControlNotify VarSlot) :
    Host.dispatch (unpackControlNotifyFields c notify).1 =
      (Host.dispatch notify).map
        fun _ => (unpackControlNotifyFields c notify).1 := by
  cases notify <;> rfl

theorem Host.totalLen_of_dispatch_none {notify : ControlNotify VarSlot}
    (h : Host.dispatch notify = none) :
    notify.totalLen = sizeofControlNotify.toNat := by
  cases notify with
  | unknown t ht => rfl
  | _ => simp [Host.dispatch] at h

/-- Told that the message has `CONTROL_NOTIFY_MAX_SIZE` bytes, the decoder
accepts it exactly if the wrapped total is not larger. -/
theorem Host.controlNotifyUnpack_isOk (buf : List UInt8) :
    (controlNotifyUnpack buf Host.controlNotifyMaxSize).isOk = true ↔
      (controlNotifyAt buf).totalLen % 2 ^ 64 ≤
        Host.controlNotifyMaxSize.toNat := by
  have hext := (controlNotifyAt_walk buf
    { ptr := sizeofControlNotify, extendedMem := 0 }).extendedMem_eq
  have hcheck : sizeofControlNotify + (unpackControlNotifyFields
      { ptr := sizeofControlNotify, extendedMem := 0 }
      (controlNotifyAt buf)).2.extendedMem > Host.controlNotifyMaxSize ↔
      ¬ (controlNotifyAt buf).totalLen % 2 ^ 64 ≤
        Host.controlNotifyMaxSize.toNat := by
    rw [gt_iff_lt, UInt64.lt_iff_toNat_lt, UInt64.toNat_add, hext,
      ControlNotify.totalLen, not_le]
    simp only [UInt64.toNat_zero, Nat.zero_add, Nat.add_mod_mod]
  have hlong : ¬ Host.controlNotifyMaxSize < sizeofControlNotify := by decide
  rw [controlNotifyUnpack, if_neg hlong]
  simp only [hcheck]
  split <;> simp_all [Except.isOk, Except.toBool]

theorem unpackControlNotifyFields_inside_iff (msg : Message)
    (hlen : sizeofControlNotify.toNat ≤ msg.bytes.length) :
    (∀ slot ∈ (unpackControlNotifyFields
        { ptr := sizeofControlNotify, extendedMem := 0 }
        (controlNotifyAt msg.bytes)).1.fields, slot.Inside msg) ↔
      (controlNotifyAt msg.bytes).totalLen ≤ msg.bytes.length :=
  (controlNotifyAt_walk msg.bytes _).inside_iff msg hlen

theorem Host.decodeSafe_iff (behind : List UInt8) (msg : Message) :
    DecodeSafe ControlNotify.fields msg
        (Host.messageRecvCallback behind msg) ↔
      Host.Admissible msg := by
  by_cases hlen : Host.controlNotifyMaxSize.toNat ≤ msg.bytes.length
  swap
  · refine iff_of_false ?_ fun h => hlen h.1
    intro hsafe
    exact hlen (hsafe.length_le _ rfl)
  have hstruct : sizeofControlNotify.toNat ≤ msg.bytes.length :=
    le_trans (by decide) hlen
  have hinside := unpackControlNotifyFields_inside_iff msg hstruct
  have hmsg := msg.length_lt
  have hmax : Host.controlNotifyMaxSize.toNat < 2 ^ 32 := by decide
  have hok := Host.controlNotifyUnpack_isOk (msg.bytes ++ behind)
  rw [controlNotifyAt_append behind hstruct] at hok
  have hhandled : (Host.messageRecvCallback behind msg).handled =
      (Host.dispatch (controlNotifyAt msg.bytes)).map
        fun _ => (unpackControlNotifyFields
          { ptr := sizeofControlNotify, extendedMem := 0 }
          (controlNotifyAt msg.bytes)).1 := by
    rw [← Host.dispatch_unpack, ← controlNotifyAt_append behind hstruct]
    rfl
  constructor
  · intro hsafe
    refine ⟨hlen, ?_⟩
    cases hdispatch : Host.dispatch (controlNotifyAt msg.bytes) with
    | none =>
        rw [Host.totalLen_of_dispatch_none hdispatch]
        decide
    | some notify =>
        rw [hdispatch, Option.map_some] at hhandled
        have htotal := hinside.mp (hsafe.inside _ hhandled)
        have hwrapped :=
          hok.mp (hsafe.unpacked (Option.isSome_of_mem hhandled))
        rwa [Nat.mod_eq_of_lt (by omega)] at hwrapped
  · rintro ⟨-, htotal⟩
    refine ⟨?_, ?_, ?_⟩
    · intro n hn
      obtain rfl := Option.some.inj hn
      exact hlen
    · intro _
      refine hok.mpr ?_
      rwa [Nat.mod_eq_of_lt (by omega)]
    · intro notify hnotify
      rw [hhandled] at hnotify
      obtain ⟨-, -, rfl⟩ := Option.map_eq_some_iff.mp hnotify
      exact hinside.mpr (htotal.trans hlen)

/-- The DPU decodes a message safely if something local drops it or the lengths
in it do not deceive the 64-bit sum; the host decodes it safely exactly if it
fills the largest message and its lengths stay within that. -/
theorem decode_safe_iff (env : Dpu.Local) (behind : List UInt8)
    (msg : Message) :
    (DecodeSafe ControlCmd.fields msg (Dpu.messageRecvCallback env msg) ↔
      (env = ⟨true, true, true, true⟩ → Dpu.Admissible msg)) ∧
    (DecodeSafe ControlNotify.fields msg
        (Host.messageRecvCallback behind msg) ↔ Host.Admissible msg) :=
  ⟨Dpu.decodeSafe_iff env msg, Host.decodeSafe_iff behind msg⟩

/-- `CONTROL_CMD_UCP_CONNECT_HOST_DPU` with a worker address of `2 ^ 64 - 272`
bytes: together with the struct that is `0`. -/
def wrappedConnect : Message where
  bytes := [0, 1, 0, 18446744073709551344].flatMap le64 ++ List.replicate 240 0
  length_lt := by
    rw [List.length_append, length_flatMap_le64, List.length_replicate]
    decide

/-- `CONTROL_NOTIFY_UCP_CREATE_RING`, as the DPU packs it. -/
def createRingNotify : Message where
  bytes := [1, 7, 0, 0, 0, 0, 0, 0].flatMap le64
  length_lt := by
    rw [length_flatMap_le64]
    decide

/-- The DPU connects to a worker address that reaches far behind the message,
and the host claims that 64 bytes are 4096. -/
theorem wrapped_connect_and_short_notify_unsafe :
    ¬ DecodeSafe ControlCmd.fields wrappedConnect
        (Dpu.messageRecvCallback ⟨true, true, true, true⟩ wrappedConnect) ∧
      ¬ DecodeSafe ControlNotify.fields createRingNotify
        (Host.messageRecvCallback [] createRingNotify) := by
  constructor
  · rw [Dpu.decodeSafe_iff]
    intro h
    have hadmissible : ¬ Dpu.Admissible wrappedConnect := by decide +kernel
    exact hadmissible (h rfl)
  · rw [Host.decodeSafe_iff]
    decide +kernel

end SmartNic.Codec
