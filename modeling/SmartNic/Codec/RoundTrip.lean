import SmartNic.Codec.ControlNotify

/-!
# Round trip of the control messages

The size, pack and unpack functions each walk the variable-length fields of a
message on their own.  Every walk is shown to follow the one list `fields`;
the round trip of both message kinds follows from that.
-/

namespace SmartNic.Codec

open SmartNic.Bytes

/-! ## The fixed part -/

theorem length_structBytes (g : Garbage) (ws : List UInt64) (size : ℕ)
    (h : 8 * ws.length ≤ size) : (structBytes g ws size).length = size := by
  simp only [structBytes, List.length_append, length_flatMap_le64,
    List.length_map, List.length_range]
  omega

/-- `buf` starts with the words `ws`. -/
def HasWords (buf : List UInt8) (ws : List UInt64) : Prop :=
  ∀ i (h : i < ws.length), word64 buf i = ws[i]

theorem hasWords_structBytes (g : Garbage) (ws : List UInt64) (size : ℕ)
    (rest : List UInt8) : HasWords (structBytes g ws size ++ rest) ws := by
  intro i h
  rw [structBytes, List.append_assoc]
  exact word64_flatMap_le64 ws _ i h

theorem controlCmdAt_eq {g : Garbage} {cmd : ControlCmd VarField}
    {buf : List UInt8} (h : HasWords buf (cmd.words g)) :
    controlCmdAt buf = cmd.map VarField.slot := by
  have hword : ∀ i (hi : i < (cmd.words g).length),
      word64 buf i = (cmd.words g)[i] := h
  cases cmd with
  | unknown t ht =>
      simp [controlCmdAt, ControlCmd.map, hword, ControlCmd.words, ht]
  | _ =>
      simp [controlCmdAt, ControlCmd.map, slotAt, VarField.slot, hword,
        ControlCmd.words]

theorem controlNotifyAt_eq {notify : ControlNotify VarField}
    {buf : List UInt8} (h : HasWords buf notify.words) :
    controlNotifyAt buf = notify.map VarField.slot := by
  have hword : ∀ i (hi : i < notify.words.length),
      word64 buf i = notify.words[i] := h
  cases notify with
  | unknown t ht =>
      simp [controlNotifyAt, ControlNotify.map, hword, ControlNotify.words, ht]
  | _ =>
      simp [controlNotifyAt, ControlNotify.map, slotAt, VarField.slot, hword,
        ControlNotify.words]

theorem ControlCmd.length_words_le (g : Garbage) (cmd : ControlCmd VarField) :
    8 * (cmd.words g).length ≤ sizeofControlCmd.toNat := by
  cases cmd <;> simp [ControlCmd.words, sizeofControlCmd]

theorem ControlNotify.length_words_le (notify : ControlNotify VarField) :
    8 * notify.words.length ≤ sizeofControlNotify.toNat := by
  cases notify <;> simp [ControlNotify.words, sizeofControlNotify]

/-! ## The three walks over the fields -/

theorem controlCmdPackedLen_eq (cmd : ControlCmd VarField) :
    controlCmdPackedLen cmd =
      sizeofControlCmd + UInt64.ofNat (payload cmd.fields).length := by
  cases cmd <;>
    simp [controlCmdPackedLen, ControlCmd.fields, payload, VarField.len,
      UInt64.add_assoc]

theorem controlNotifyPackedLen_eq (notify : ControlNotify VarField) :
    controlNotifyPackedLen notify =
      sizeofControlNotify + UInt64.ofNat (payload notify.fields).length := by
  cases notify <;>
    simp [controlNotifyPackedLen, ControlNotify.fields, payload, VarField.len,
      UInt64.add_assoc]

theorem packControlCmdFields_eq (p : Packer) (cmd : ControlCmd VarField) :
    packControlCmdFields p cmd = p.putAll cmd.fields := by
  cases cmd <;>
    simp [packControlCmdFields, ControlCmd.fields, Packer.putAll]

theorem packControlNotifyFields_eq (p : Packer)
    (notify : ControlNotify VarField) :
    packControlNotifyFields p notify = p.putAll notify.fields := by
  cases notify <;>
    simp [packControlNotifyFields, ControlNotify.fields, Packer.putAll]

section Unpack

variable {c : Cursor} {base : UInt64} {buf rest : List UInt8}

/-- What the receiver of a field reads: its bytes, wherever they lie. -/
abbrev VarField.received (f : VarField) : Option (List UInt8) := some f.data

/-- Unpacking from in front of the payload finds every field of the command and
ends behind the payload. -/
theorem unpackControlCmdFields_spec (cmd : ControlCmd VarField)
    (h : c.At base buf (payload cmd.fields ++ rest)) :
    (unpackControlCmdFields c (cmd.map VarField.slot)).1.map
        (VarSlot.bytes buf) = cmd.map VarField.received ∧
      (unpackControlCmdFields c (cmd.map VarField.slot)).2.At base buf
        rest := by
  simp only [payload] at h
  cases cmd with
  | ucpConnectHostDpu m =>
      simp only [ControlCmd.fields, List.flatMap_cons, List.flatMap_nil,
        List.append_nil, List.append_assoc] at h
      obtain ⟨haddr, h⟩ := Cursor.take_spec _ h
      obtain ⟨haddr1, h⟩ := Cursor.takeIfNonempty_spec _ h
      obtain ⟨hbell, h⟩ := Cursor.takeIfNonempty_spec _ h
      refine ⟨?_, h⟩
      simp only [unpackControlCmdFields, unpackUcpConnectHostDpu,
        ControlCmd.map, haddr, haddr1, hbell]
  | ucpCreateRing m => exact ⟨rfl, h⟩
  | ucpCollective m =>
      simp only [ControlCmd.fields, List.flatMap_cons, List.flatMap_nil,
        List.append_nil, List.append_assoc] at h
      obtain ⟨hsrc, h⟩ := Cursor.take_spec _ h
      obtain ⟨hdst, h⟩ := Cursor.take_spec _ h
      obtain ⟨hcpu, h⟩ := Cursor.take_spec _ h
      obtain ⟨hflag, h⟩ := Cursor.take_spec _ h
      obtain ⟨hsrc1, h⟩ := Cursor.takeIfNonempty_spec _ h
      obtain ⟨hdst1, h⟩ := Cursor.takeIfNonempty_spec _ h
      obtain ⟨hdstPci, h⟩ := Cursor.takeIfNonempty_spec _ h
      obtain ⟨hsrcPci, h⟩ := Cursor.takeIfNonempty_spec _ h
      obtain ⟨hdstPci1, h⟩ := Cursor.takeIfNonempty_spec _ h
      obtain ⟨hsrcPci1, h⟩ := Cursor.takeIfNonempty_spec _ h
      refine ⟨?_, h⟩
      simp only [unpackControlCmdFields, unpackUcpCollective, ControlCmd.map,
        hsrc, hdst, hcpu, hflag, hsrc1, hdst1, hdstPci, hsrcPci, hdstPci1,
        hsrcPci1]
  | ucpConnectDpuDpu m =>
      simp only [ControlCmd.fields, List.flatMap_cons, List.flatMap_nil,
        List.append_nil, List.append_assoc] at h
      obtain ⟨haddr, h⟩ := Cursor.take_spec _ h
      obtain ⟨haddr1, h⟩ := Cursor.takeIfNonempty_spec _ h
      refine ⟨?_, h⟩
      simp only [unpackControlCmdFields, unpackUcpConnectDpuDpu,
        ControlCmd.map, haddr, haddr1]
  | ucpInitFlagPool m =>
      simp only [ControlCmd.fields, List.flatMap_cons, List.flatMap_nil,
        List.append_nil, List.append_assoc] at h
      obtain ⟨hrkey, h⟩ := Cursor.takeIfNonempty_spec _ h
      obtain ⟨hrkey1, h⟩ := Cursor.takeIfNonempty_spec _ h
      obtain ⟨hpci, h⟩ := Cursor.takeIfNonempty_spec _ h
      obtain ⟨hpci1, h⟩ := Cursor.takeIfNonempty_spec _ h
      refine ⟨?_, h⟩
      simp only [unpackControlCmdFields, unpackUcpInitFlagPool,
        ControlCmd.map, hrkey, hrkey1, hpci, hpci1]
  | unknown t ht => exact ⟨rfl, h⟩

theorem unpackControlNotifyFields_spec (notify : ControlNotify VarField)
    (h : c.At base buf (payload notify.fields ++ rest)) :
    (unpackControlNotifyFields c (notify.map VarField.slot)).1.map
        (VarSlot.bytes buf) = notify.map VarField.received ∧
      (unpackControlNotifyFields c (notify.map VarField.slot)).2.At base buf
        rest := by
  simp only [payload] at h
  cases notify with
  | ucpConnectHostDpu m =>
      simp only [ControlNotify.fields, List.flatMap_cons, List.flatMap_nil,
        List.append_nil, List.append_assoc] at h
      obtain ⟨haddr, h⟩ := Cursor.take_spec _ h
      obtain ⟨haddr1, h⟩ := Cursor.takeIfNonempty_spec _ h
      obtain ⟨hslot, h⟩ := Cursor.takeIfNonempty_spec _ h
      refine ⟨?_, h⟩
      simp only [unpackControlNotifyFields, unpackUcpConnectHostDpuNotify,
        ControlNotify.map, haddr, haddr1, hslot]
  | ucpCreateRing m => exact ⟨rfl, h⟩
  | ucpCollective m => exact ⟨rfl, h⟩
  | unknown t ht => exact ⟨rfl, h⟩

end Unpack

/-! ## The packed message -/

/-- A message whose fixed part has `base` bytes: the result of packing it. -/
structure Packed (base : UInt64) (ws : List UInt64) (fields : List VarField)
    (p : Packer) : Prop where
  length_eq : p.out.length = base.toNat + (payload fields).length
  packedLen_eq : p.packedLen = base + UInt64.ofNat (payload fields).length
  hasWords : ∀ trailing, HasWords (p.out ++ trailing) ws
  drop_eq : p.out.drop base.toNat = payload fields

/-- Writing the fields behind the struct gives the packed message. -/
theorem packed_putAll (g : Garbage) {base : UInt64} {ws : List UInt64}
    (fields : List VarField) (h : 8 * ws.length ≤ base.toNat) :
    Packed base ws fields
      (Packer.putAll
        { out := structBytes g ws base.toNat, packedLen := base } fields) := by
  have hlen := length_structBytes g ws base.toNat h
  refine ⟨?_, ?_, ?_, ?_⟩
  · rw [Packer.out_putAll, List.length_append, hlen]
  · rw [Packer.packedLen_putAll]
  · intro trailing
    rw [Packer.out_putAll, List.append_assoc]
    exact hasWords_structBytes g ws base.toNat _
  · have hdrop : (structBytes g ws base.toNat ++ payload fields).drop
        (structBytes g ws base.toNat).length = payload fields :=
      List.drop_left
    rw [hlen] at hdrop
    rw [Packer.out_putAll]
    exact hdrop

/-- The unpack functions start in front of the payload. -/
theorem Packed.at {base : UInt64} {ws : List UInt64} {fields : List VarField}
    {p : Packer} (h : Packed base ws fields p) (trailing : List UInt8)
    (hlt : (p.out ++ trailing).length < 2 ^ 64) :
    Cursor.At { ptr := base, extendedMem := 0 } base (p.out ++ trailing)
      (payload fields ++ trailing) := by
  have hlen := h.length_eq
  refine ⟨hlt, ?_, ?_, ?_⟩
  · simp
  · simp only [List.length_append]
    omega
  · simp only
    rw [List.drop_append_of_le_length (by omega), h.drop_eq]

/-- Behind the last field the length check of the unpack functions passes. -/
theorem Cursor.At.not_gt {c : Cursor} {base : UInt64} {buf rest : List UInt8}
    (h : c.At base buf rest) :
    ¬ base + c.extendedMem > UInt64.ofNat buf.length := by
  rw [← h.ptr_eq, gt_iff_lt, UInt64.lt_iff_toNat_lt, UInt64.toNat_ofNat',
    Nat.mod_eq_of_lt h.length_lt]
  exact Nat.not_lt.mpr h.ptr_le

theorem toNat_add_of_fits {base capacity : UInt64} {n : ℕ}
    (h : base.toNat + n ≤ capacity.toNat) :
    (base + UInt64.ofNat n).toNat = base.toNat + n := by
  have hcap := capacity.toNat_lt
  have hn : n < 2 ^ 64 := by omega
  rw [UInt64.toNat_add, UInt64.toNat_ofNat', Nat.mod_eq_of_lt hn,
    Nat.mod_eq_of_lt (by omega)]

/-- The length checks of pack pass when the message fits. -/
theorem not_gt_of_fits {base capacity : UInt64} {n : ℕ}
    (h : base.toNat + n ≤ capacity.toNat) :
    ¬ base + UInt64.ofNat n > capacity := by
  rw [gt_iff_lt, UInt64.lt_iff_toNat_lt, toNat_add_of_fits h]
  omega

/-- The first length check of unpack passes on a packed message. -/
theorem Cursor.At.not_lt {base : UInt64} {buf rest : List UInt8}
    (h : Cursor.At { ptr := base, extendedMem := 0 } base buf rest) :
    ¬ UInt64.ofNat buf.length < base := by
  rw [UInt64.lt_iff_toNat_lt, UInt64.toNat_ofNat',
    Nat.mod_eq_of_lt h.length_lt]
  exact Nat.not_lt.mpr h.ptr_le

theorem controlCmdPack_packed (g : Garbage) {cmd : ControlCmd VarField}
    {capacity : UInt64}
    (hfits : sizeofControlCmd.toNat + (payload cmd.fields).length ≤
      capacity.toNat) :
    ∃ p, controlCmdPack g cmd capacity = .ok p ∧
      Packed sizeofControlCmd (cmd.words g) cmd.fields p := by
  have hpacked := packed_putAll g cmd.fields (cmd.length_words_le g)
  rw [← packControlCmdFields_eq] at hpacked
  refine ⟨_, ?_, hpacked⟩
  rw [controlCmdPack, controlCmdPackedLen_eq, if_neg (not_gt_of_fits hfits)]

theorem controlNotifyPack_packed (g : Garbage)
    {notify : ControlNotify VarField} {capacity : UInt64}
    (hfits : sizeofControlNotify.toNat + (payload notify.fields).length ≤
      capacity.toNat) :
    ∃ p, controlNotifyPack g notify capacity = .ok p ∧
      Packed sizeofControlNotify notify.words notify.fields p := by
  have hpacked := packed_putAll g notify.fields notify.length_words_le
  rw [← packControlNotifyFields_eq] at hpacked
  refine ⟨_, ?_, hpacked⟩
  rw [controlNotifyPack, controlNotifyPackedLen_eq,
    if_neg (not_gt_of_fits hfits)]

theorem controlCmdUnpack_packed {g : Garbage} {cmd : ControlCmd VarField}
    {p : Packer}
    (hpacked : Packed sizeofControlCmd (cmd.words g) cmd.fields p)
    (trailing : List UInt8) (hlt : (p.out ++ trailing).length < 2 ^ 64) :
    ∃ d, controlCmdUnpack (p.out ++ trailing)
        (UInt64.ofNat (p.out ++ trailing).length) = .ok d ∧
      d.map (VarSlot.bytes (p.out ++ trailing)) =
        cmd.map VarField.received := by
  have hstart := hpacked.at trailing hlt
  obtain ⟨hfields, hend⟩ := unpackControlCmdFields_spec cmd hstart
  refine ⟨_, ?_, hfields⟩
  rw [controlCmdUnpack, if_neg hstart.not_lt,
    controlCmdAt_eq (hpacked.hasWords trailing)]
  exact if_neg hend.not_gt

theorem controlNotifyUnpack_packed {notify : ControlNotify VarField}
    {p : Packer}
    (hpacked : Packed sizeofControlNotify notify.words notify.fields p)
    (trailing : List UInt8) (hlt : (p.out ++ trailing).length < 2 ^ 64) :
    ∃ d, controlNotifyUnpack (p.out ++ trailing)
        (UInt64.ofNat (p.out ++ trailing).length) = .ok d ∧
      d.map (VarSlot.bytes (p.out ++ trailing)) =
        notify.map VarField.received := by
  have hstart := hpacked.at trailing hlt
  obtain ⟨hfields, hend⟩ := unpackControlNotifyFields_spec notify hstart
  refine ⟨_, ?_, hfields⟩
  rw [controlNotifyUnpack, if_neg hstart.not_lt,
    controlNotifyAt_eq (hpacked.hasWords trailing)]
  exact if_neg hend.not_gt

/-! ## Round trip -/

@[simp]
theorem ControlCmd.type_map (f : φ → ψ) (cmd : ControlCmd φ) :
    (cmd.map f).type = cmd.type := by
  cases cmd <;> rfl

@[simp]
theorem ControlNotify.type_map (f : φ → ψ) (notify : ControlNotify φ) :
    (notify.map f).type = notify.type := by
  cases notify <;> rfl

/-- A packed message `p` reports the length `packedLen` of the size function
and, with any bytes behind it, unpacks to a message of which the receiver
observes exactly `sent`. -/
structure RoundTrip (packedLen : UInt64)
    (unpack : List UInt8 → UInt64 → Except DocaError δ)
    (observe : List UInt8 → δ → ε) (sent : ε) (p : Packer) : Prop where
  packedLen_eq : p.packedLen = packedLen
  length_eq : p.out.length = packedLen.toNat
  unpack_eq : ∀ trailing, (p.out ++ trailing).length < 2 ^ 64 →
    ∃ d, unpack (p.out ++ trailing) (UInt64.ofNat (p.out ++ trailing).length)
        = .ok d ∧ observe (p.out ++ trailing) d = sent

/-- What the receiver of a command observes: its type, its scalars and the
bytes of its fields. -/
def ControlCmd.observe (buf : List UInt8) (d : ControlCmd VarSlot) :
    UInt64 × ControlCmd (Option (List UInt8)) :=
  (d.type, d.map (VarSlot.bytes buf))

/-- What the receiver of a notification observes. -/
def ControlNotify.observe (buf : List UInt8) (d : ControlNotify VarSlot) :
    UInt64 × ControlNotify (Option (List UInt8)) :=
  (d.type, d.map (VarSlot.bytes buf))

/-- Every control message that fits its buffer survives packing and
unpacking. -/
theorem control_pack_unpack_roundTrip (g : Garbage) (capacity : UInt64) :
    (∀ cmd : ControlCmd VarField,
      sizeofControlCmd.toNat + (payload cmd.fields).length ≤
          capacity.toNat →
      ∃ p, controlCmdPack g cmd capacity = .ok p ∧
        RoundTrip (controlCmdPackedLen cmd) controlCmdUnpack
          ControlCmd.observe (cmd.type, cmd.map VarField.received) p) ∧
    (∀ notify : ControlNotify VarField,
      sizeofControlNotify.toNat + (payload notify.fields).length ≤
          capacity.toNat →
      ∃ p, controlNotifyPack g notify capacity = .ok p ∧
        RoundTrip (controlNotifyPackedLen notify) controlNotifyUnpack
          ControlNotify.observe (notify.type, notify.map VarField.received)
          p) := by
  constructor
  · intro cmd hfits
    obtain ⟨p, hpack, hpacked⟩ := controlCmdPack_packed g hfits
    refine ⟨p, hpack, ?_, ?_, ?_⟩
    · rw [controlCmdPackedLen_eq, hpacked.packedLen_eq]
    · rw [controlCmdPackedLen_eq, toNat_add_of_fits hfits, hpacked.length_eq]
    · intro trailing hlt
      obtain ⟨d, hunpack, hmap⟩ :=
        controlCmdUnpack_packed hpacked trailing hlt
      refine ⟨d, hunpack, Prod.ext ?_ hmap⟩
      have htype := congrArg ControlCmd.type hmap
      simpa [ControlCmd.observe] using htype
  · intro notify hfits
    obtain ⟨p, hpack, hpacked⟩ := controlNotifyPack_packed g hfits
    refine ⟨p, hpack, ?_, ?_, ?_⟩
    · rw [controlNotifyPackedLen_eq, hpacked.packedLen_eq]
    · rw [controlNotifyPackedLen_eq, toNat_add_of_fits hfits,
        hpacked.length_eq]
    · intro trailing hlt
      obtain ⟨d, hunpack, hmap⟩ :=
        controlNotifyUnpack_packed hpacked trailing hlt
      refine ⟨d, hunpack, Prod.ext ?_ hmap⟩
      have htype := congrArg ControlNotify.type hmap
      simpa [ControlNotify.observe] using htype

/-- A field of `n` zero bytes. -/
def zeroField (n : ℕ) (h : n < 2 ^ 64) : VarField where
  addr := 0
  data := List.replicate n 0
  length_lt := by simpa using h

/-- The round trip of a connect command with a doorbell descriptor and no
second rail, and of the answer to it. -/
theorem control_pack_unpack_roundTrip_connect :
    (∃ p, controlCmdPack ⟨0, fun _ => 0⟩
        (.ucpConnectHostDpu ⟨7, zeroField 3 (by decide),
          zeroField 0 (by decide), zeroField 2 (by decide)⟩) 277 = .ok p ∧
      RoundTrip 277 controlCmdUnpack ControlCmd.observe
        (0, .ucpConnectHostDpu ⟨7, some [0, 0, 0], some [], some [0, 0]⟩)
        p) ∧
    ∃ p, controlNotifyPack ⟨0, fun _ => 0⟩
        (.ucpConnectHostDpu ⟨7, zeroField 3 (by decide),
          zeroField 0 (by decide), zeroField 2 (by decide)⟩) 277 = .ok p ∧
      RoundTrip 69 controlNotifyUnpack ControlNotify.observe
        (0, .ucpConnectHostDpu ⟨7, some [0, 0, 0], some [], some [0, 0]⟩)
        p := by
  have h := control_pack_unpack_roundTrip ⟨0, fun _ => 0⟩ 277
  exact ⟨h.1 _ (by decide), h.2 _ (by decide)⟩

end SmartNic.Codec
