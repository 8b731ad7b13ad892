import SmartNic.Library.Bytes

/-!
# Variable-length fields of the control messages

A control message is a C struct followed by the bytes of its variable-length
fields.  On the sending side such a field is a pointer and a length; the
receiver redirects the pointer into the buffer that it received.  This module
has both kinds of field, the running write position of the pack functions and
the running read position of the unpack functions.
-/

namespace SmartNic.Codec

open SmartNic.Bytes

/-- The `doca_error_t` values that the codec returns. -/
inductive DocaError where
  | initialization
  | invalidValue
deriving DecidableEq, Repr

/-- A `void *` field and its length field on the sending side, together with
the bytes that the pointer refers to. -/
structure VarField where
  addr : UInt64
  data : List UInt8
  length_lt : data.length < 2 ^ 64
deriving Repr

/-- The value of the length field. -/
def VarField.len (f : VarField) : UInt64 := UInt64.ofNat f.data.length

theorem VarField.toNat_len (f : VarField) : f.len.toNat = f.data.length := by
  rw [VarField.len, UInt64.toNat_ofNat', Nat.mod_eq_of_lt f.length_lt]

/-- The bytes of a list of fields, back to back. -/
def payload (fields : List VarField) : List UInt8 := fields.flatMap (·.data)

/-- Where a pointer field of a received struct points: still at the sender's
address, or at an offset of the received buffer. -/
inductive Address where
  | raw (value : UInt64)
  | packed (offset : UInt64)
deriving DecidableEq, Repr

/-- A pointer field and its length field on the receiving side. -/
structure VarSlot where
  addr : Address
  len : UInt64
deriving DecidableEq, Repr

/-- The bytes that a reader of the field finds, if they lie in the received
buffer. -/
def VarSlot.bytes (buf : List UInt8) (slot : VarSlot) : Option (List UInt8) :=
  match slot.addr with
  | .raw _ => if slot.len = 0 then some [] else none
  | .packed offset =>
      if offset.toNat + slot.len.toNat ≤ buf.length
      then some (slice buf offset.toNat slot.len.toNat)
      else none

/-- The field that a struct in `buf` holds in its words `i` and `i + 1`, before
its pointer is redirected. -/
def slotAt (buf : List UInt8) (i : ℕ) : VarSlot where
  addr := .raw (word64 buf i)
  len := word64 buf (i + 1)

/-- What the receiver finds in the struct for a field of the sender. -/
def VarField.slot (f : VarField) : VarSlot where
  addr := .raw f.addr
  len := f.len

/-! ## Packing -/

/-- The state of a pack function: the bytes written so far and the value of
`*packed_cmd_len`. -/
structure Packer where
  out : List UInt8
  packedLen : UInt64
deriving Repr

/-- `rdma_serialize_next_raw` followed by `memcpy` for one field. -/
def Packer.put (p : Packer) (f : VarField) : Packer where
  out := p.out ++ f.data
  packedLen := p.packedLen + f.len

/-- The same step under `if (pack_len > 0)`. -/
def Packer.putIfNonempty (p : Packer) (f : VarField) : Packer :=
  if f.len > 0 then p.put f else p

theorem VarField.data_eq_nil_of_len_eq_zero {f : VarField}
    (h : ¬ f.len > 0) : f.data = [] := by
  have hlen := f.toNat_len
  have hzero : f.len.toNat = 0 := by
    rw [gt_iff_lt, UInt64.lt_iff_toNat_lt] at h
    simpa using h
  exact List.length_eq_zero_iff.mp (by omega)

/-- Skipping an empty field writes what writing it would. -/
@[simp]
theorem Packer.putIfNonempty_eq_put (p : Packer) (f : VarField) :
    p.putIfNonempty f = p.put f := by
  unfold Packer.putIfNonempty
  split
  · rfl
  next h =>
    have hdata := VarField.data_eq_nil_of_len_eq_zero h
    have hlen : f.len = 0 := by simp [VarField.len, hdata]
    simp [Packer.put, hdata, hlen]

/-- Write a list of fields one after the other. -/
def Packer.putAll (p : Packer) (fields : List VarField) : Packer :=
  fields.foldl Packer.put p

theorem Packer.out_putAll (p : Packer) (fields : List VarField) :
    (p.putAll fields).out = p.out ++ payload fields := by
  induction fields generalizing p with
  | nil => simp [Packer.putAll, payload]
  | cons f fields ih =>
      have hrest := ih (p.put f)
      simp only [Packer.putAll, List.foldl_cons] at hrest ⊢
      rw [hrest]
      simp [Packer.put, payload]

theorem Packer.packedLen_putAll (p : Packer) (fields : List VarField) :
    (p.putAll fields).packedLen =
      p.packedLen + UInt64.ofNat (payload fields).length := by
  induction fields generalizing p with
  | nil => simp [Packer.putAll, payload]
  | cons f fields ih =>
      have hrest := ih (p.put f)
      simp only [Packer.putAll, List.foldl_cons] at hrest ⊢
      rw [hrest]
      simp [Packer.put, payload, VarField.len, UInt64.ofNat_add,
        UInt64.add_assoc]

/-! ## Unpacking -/

/-- The state of an unpack function: `ptr`, as an offset of the packed buffer,
and `extended_mem`. -/
structure Cursor where
  ptr : UInt64
  extendedMem : UInt64
deriving DecidableEq, Repr

/-- Redirect one pointer to `ptr` and advance by the length of the field. -/
def Cursor.take (c : Cursor) (slot : VarSlot) : VarSlot × Cursor :=
  ({ slot with addr := .packed c.ptr },
    { ptr := c.ptr + slot.len, extendedMem := c.extendedMem + slot.len })

/-- The same step under `if (..._len > 0)`. -/
def Cursor.takeIfNonempty (c : Cursor) (slot : VarSlot) : VarSlot × Cursor :=
  if slot.len > 0 then c.take slot else (slot, c)

/-- The cursor stands in `buf`, which fits an address space, in front of
`rest`; `base` is the size of the fixed part. -/
structure Cursor.At (c : Cursor) (base : UInt64) (buf rest : List UInt8) :
    Prop where
  length_lt : buf.length < 2 ^ 64
  ptr_eq : c.ptr = base + c.extendedMem
  ptr_le : c.ptr.toNat ≤ buf.length
  drop_eq : buf.drop c.ptr.toNat = rest

theorem Cursor.At.length_eq {c : Cursor} {base : UInt64}
    {buf rest : List UInt8} (h : c.At base buf rest) :
    c.ptr.toNat + rest.length = buf.length := by
  have hlen := congrArg List.length h.drop_eq
  rw [List.length_drop] at hlen
  have hle := h.ptr_le
  omega

/-- A cursor in front of the bytes of a field redirects the pointer to exactly
these bytes and then stands behind them. -/
theorem Cursor.take_spec {c : Cursor} {base : UInt64}
    {buf rest : List UInt8} (f : VarField)
    (h : c.At base buf (f.data ++ rest)) :
    (c.take f.slot).1.bytes buf = some f.data ∧
      (c.take f.slot).2.At base buf rest := by
  have htotal := h.length_eq
  rw [List.length_append] at htotal
  have hbuf := h.length_lt
  have hadd : (c.ptr + f.len).toNat = c.ptr.toNat + f.data.length := by
    rw [UInt64.toNat_add, f.toNat_len, Nat.mod_eq_of_lt]
    omega
  constructor
  · have hin : c.ptr.toNat + f.data.length ≤ buf.length := by omega
    simp only [Cursor.take, VarField.slot, VarSlot.bytes, f.toNat_len,
      if_pos hin]
    rw [slice_eq_of_drop_eq h.drop_eq]
  · refine ⟨hbuf, ?_, ?_, ?_⟩
    · simp only [Cursor.take, VarField.slot, h.ptr_eq, UInt64.add_assoc]
    · simp only [Cursor.take, VarField.slot, hadd]
      omega
    · simp only [Cursor.take, VarField.slot, hadd]
      exact drop_add_of_drop_eq h.drop_eq

/-- A field that is skipped when empty is read like one that is not. -/
theorem Cursor.takeIfNonempty_spec {c : Cursor} {base : UInt64}
    {buf rest : List UInt8} (f : VarField)
    (h : c.At base buf (f.data ++ rest)) :
    (c.takeIfNonempty f.slot).1.bytes buf = some f.data ∧
      (c.takeIfNonempty f.slot).2.At base buf rest := by
  unfold Cursor.takeIfNonempty
  split
  · exact Cursor.take_spec f h
  next hpos =>
    have hdata := VarField.data_eq_nil_of_len_eq_zero hpos
    have hzero : f.len = 0 := by simp [VarField.len, hdata]
    rw [hdata, List.nil_append] at h
    refine ⟨?_, h⟩
    simp [VarField.slot, VarSlot.bytes, hzero, hdata]

end SmartNic.Codec
