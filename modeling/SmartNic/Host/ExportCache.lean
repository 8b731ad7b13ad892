import Mathlib
import SmartNic.Host.Request

/-!
# The export caches

The caches are keyed by a hash of address and length.  A command carries the
descriptors of its own buffers as long as no other buffer has the same key, and
no field that was never written as long as no entry of rail 1 was made with a
failed PCI export.
-/

namespace SmartNic.Host

open SmartNic.Codec

/-! ## Commands -/

/-- Empty with length 0, or the descriptor that was exported for the buffer. -/
def Blob.For (side : Side) (kind : Kind) (b : Buffer) (x : Blob) : Prop :=
  x = .null ∨ x = exported side kind b x.len

/-- The field was written, with such a descriptor. -/
def FieldFor (side : Side) (kind : Kind) (b : Buffer) : Field → Prop
  | none => False
  | some x => x.For side kind b

instance (side : Side) (kind : Kind) (b : Buffer) (x : Blob) :
    Decidable (x.For side kind b) :=
  inferInstanceAs (Decidable (_ ∨ _))

instance (side : Side) (kind : Kind) (b : Buffer) :
    (x : Field) → Decidable (FieldFor side kind b x)
  | none => inferInstanceAs (Decidable False)
  | some _ => inferInstanceAs (Decidable (_ ∨ _))

/-- Every descriptor field of a command is right for the buffer that the command
names, its side and its rail. -/
structure Right (cmd : UcpCollectiveMsg Field) : Prop where
  src : FieldFor .src .rdma ⟨cmd.remoteSrcBufferAddress, cmd.remoteSrcBufferLen⟩
    cmd.srcRkeyBuf
  dst : FieldFor .dst .rdma ⟨cmd.remoteDstBufferAddress, cmd.remoteDstBufferLen⟩
    cmd.dstRkeyBuf
  localCpu : FieldFor .localCpu .rdma ⟨cmd.localCpuBufferAddress, cmd.localCpuBufferLen⟩
    cmd.localCpuRkeyBuf
  localCpuFlag : FieldFor .localCpuFlag .rdma
    ⟨cmd.localCpuFlagAddress, cmd.localCpuFlagLen⟩ cmd.localCpuFlagRkeyBuf
  srcRail1 : FieldFor .srcRail1 .rdma
    ⟨cmd.remoteSrcBufferAddress, cmd.remoteSrcBufferLen⟩ cmd.srcRkeyBufRail1
  dstRail1 : FieldFor .dstRail1 .rdma
    ⟨cmd.remoteDstBufferAddress, cmd.remoteDstBufferLen⟩ cmd.dstRkeyBufRail1
  srcPci : FieldFor .src .pci ⟨cmd.remoteSrcBufferAddress, cmd.remoteSrcBufferLen⟩
    cmd.srcPciExportBuf
  dstPci : FieldFor .dst .pci ⟨cmd.remoteDstBufferAddress, cmd.remoteDstBufferLen⟩
    cmd.dstPciExportBuf
  srcPciRail1 : FieldFor .srcRail1 .pci
    ⟨cmd.remoteSrcBufferAddress, cmd.remoteSrcBufferLen⟩ cmd.srcPciExportBufRail1
  dstPciRail1 : FieldFor .dstRail1 .pci
    ⟨cmd.remoteDstBufferAddress, cmd.remoteDstBufferLen⟩ cmd.dstPciExportBufRail1

namespace Globals

/-- Every hit was on an entry of the same buffer. -/
def HitsOwn (g : Globals) : Prop := ∀ h ∈ g.hits, h.2 = some h.1

/-- No two buffers have shared an entry and every command was right. -/
structure Transparent (g : Globals) : Prop where
  hits : g.HitsOwn
  sent : ∀ cmd ∈ g.sent, Right cmd

end Globals

/-! ## The condition -/

section Condition

variable (side : Side) (b : Buffer) (e : Export) (r : Request) (o : Outcomes)
  (g : Globals)

/-- The buffer has no entry, or one of its own. -/
def Own : Prop :=
  match rkeyCacheFind (g.caches side) (makeAddrLenKey b) with
  | some entry => entry.owner = some b
  | none => True

/-- The PCI field of the buffer's entry was written, or will be if an entry is
made. -/
def PciWritten : Prop :=
  match rkeyCacheFind (g.caches side) (makeAddrLenKey b) with
  | some entry => entry.pciExport ≠ none
  | none => firstError otherCalls e = none → e.entryAllocated = true →
      e.pciStatus = none

/-- The local CPU buffer and its flag have no entry of another buffer, as far as
they are looked up. -/
def LocalsOwn : Prop :=
  r.localCpu.addr ≠ 0 →
    Own .localCpu r.localCpu g ∧
    (Exportable otherCalls .localCpu r.localCpu (o.exports .localCpu) g →
      Own .localCpuFlag r.localCpuFlag g)

/-- The entries of rail 1 are of their buffers and have their PCI fields. -/
def Rail1Safe : Prop :=
  (Own .srcRail1 r.src g ∧ PciWritten .srcRail1 r.src (o.exports .srcRail1) g) ∧
    (Own .dstRail1 r.dst g ∧ PciWritten .dstRail1 r.dst (o.exports .dstRail1) g)

/-- Every buffer that the request looks up has no entry or one of its own, and
if a command is sent, the PCI fields of rail 1 are written.  A buffer is looked
up if those before it can be exported. -/
def Safe (dualRail : Bool) : Prop :=
  FlagEntry r o g →
    Own .src r.src g ∧
    (Exportable mainCalls .src r.src (o.exports .src) g →
      Own .dst r.dst g ∧
      (Exportable mainCalls .dst r.dst (o.exports .dst) g →
        LocalsOwn r o g ∧
        (LocalsExportable r o g → dualRail = true → Rail1Safe r o g)))

end Condition

/-- One request after another; it blocks while the mutex is locked. -/
def Globals.step (dualRail : Bool) (g : Globals) (a : Request × Outcomes) :
    Option Globals :=
  if g.locked then none else some (ucpCollectiveRequestImpl dualRail a.1 a.2 g).2

/-! ## Entries -/

/-- An entry was made for some buffer.  Only the entries of rail 0 for source and
destination always have their PCI field. -/
def EntryOk (side : Side) (entry : RkeyCacheEntry) : Prop :=
  ∃ b size, entry.rkey = exported side .rdma b size ∧
    (∀ x, entry.pciExport = some x → x.For side .pci b) ∧
    (side = .src ∨ side = .dst → entry.pciExport ≠ none)

def Globals.EntriesOk (g : Globals) : Prop :=
  ∀ side, ∀ entry ∈ g.caches side, EntryOk side entry

section Entries

variable {side : Side} {b : Buffer} {e : Export} {r : Request} {o : Outcomes}
  {g g' : Globals} {entry : RkeyCacheEntry}

theorem exported_for (side : Side) (kind : Kind) (b : Buffer) (size : ℕ) :
    (exported side kind b size).For side kind b :=
  .inr rfl

theorem EntryOk.rkey_for (h : EntryOk side entry) (hown : entry.owner = some b) :
    entry.rkey.For side .rdma b := by
  obtain ⟨b', size, hrkey, -, -⟩ := h
  rw [RkeyCacheEntry.owner, hrkey] at hown
  obtain rfl : b' = b := Option.some.inj hown
  rw [hrkey]
  exact exported_for _ _ _ _

theorem EntryOk.pci_for (h : EntryOk side entry) (hown : entry.owner = some b)
    {x : Blob} (hx : entry.pciExport = some x) : x.For side .pci b := by
  obtain ⟨b', size, hrkey, hpci, -⟩ := h
  rw [RkeyCacheEntry.owner, hrkey] at hown
  obtain rfl : b' = b := Option.some.inj hown
  exact hpci x hx

theorem Globals.EntriesOk.find (h : g.EntriesOk)
    (hfind : rkeyCacheFind (g.caches side) (makeAddrLenKey b) = some entry) :
    EntryOk side entry :=
  h side entry (List.mem_of_find?_eq_some hfind)

theorem Globals.EntriesOk.insert (h : g.EntriesOk) (hentry : EntryOk side entry) :
    (g.insert side entry).EntriesOk := by
  intro other entry' hmem
  unfold Globals.insert at hmem
  by_cases hother : other = side
  · subst hother
    dsimp only at hmem
    rw [Function.update_self] at hmem
    rcases List.mem_cons.mp hmem with rfl | hmem
    · exact hentry
    · exact h other entry' hmem
  · dsimp only at hmem
    rw [Function.update_of_ne hother] at hmem
    exact h other entry' hmem

/-- A new entry is found. -/
theorem find_insert (side : Side) (b : Buffer) (g : Globals) (rkey : Blob)
    (pci : Field) :
    rkeyCacheFind ((g.insert side ⟨makeAddrLenKey b, rkey, pci⟩).caches side)
      (makeAddrLenKey b) = some ⟨makeAddrLenKey b, rkey, pci⟩ := by
  unfold Globals.insert rkeyCacheFind
  dsimp only
  rw [Function.update_self, List.find?_cons_of_pos]
  exact decide_eq_true rfl

theorem hitsOwn_hit_iff (g : Globals) (b : Buffer) (entry : RkeyCacheEntry) :
    (g.hit b entry).HitsOwn ↔ g.HitsOwn ∧ entry.owner = some b := by
  unfold Globals.HitsOwn Globals.hit
  constructor
  · intro h
    refine ⟨fun x hx => h x (List.mem_append_left _ hx), ?_⟩
    exact h (b, entry.owner) (List.mem_append_right _ (List.mem_singleton_self _))
  · rintro ⟨h, hown⟩ x hx
    rcases List.mem_append.mp hx with hx | hx
    · exact h x hx
    · obtain rfl := List.mem_singleton.mp hx
      exact hown

theorem Touches.own_iff {other : Side} (h : Touches side g g') (hother : other ≠ side) :
    Own other b g' ↔ Own other b g := by
  unfold Own
  rw [h.caches other hother]

theorem Touches.pciWritten_iff {other : Side} (h : Touches side g g')
    (hother : other ≠ side) : PciWritten other b e g' ↔ PciWritten other b e g := by
  unfold PciWritten
  rw [h.caches other hother]

end Entries

/-! ## The blocks -/

section Blocks

variable {side : Side} {b : Buffer} {e : Export} {g g' : Globals}

/-- A block only finds entries of its own buffer exactly if it did so before and
the buffer has none of another. -/
theorem exportMain_hits (side : Side) (b : Buffer) (e : Export) (g : Globals) :
    (exportMain side b e g).2.HitsOwn ↔ g.HitsOwn ∧ Own side b g := by
  unfold exportMain Own
  cases hfind : rkeyCacheFind (g.caches side) (makeAddrLenKey b) with
  | some entry => exact hitsOwn_hit_iff g b entry
  | none =>
      rw [and_iff_left trivial]
      dsimp only
      split
      · rfl
      · split
        · rfl
        · rfl

theorem exportLocal_hits (side : Side) (b : Buffer) (e : Export) (g : Globals) :
    (exportLocal side b e g).2.HitsOwn ↔ g.HitsOwn ∧ Own side b g := by
  unfold exportLocal Own
  cases hfind : rkeyCacheFind (g.caches side) (makeAddrLenKey b) with
  | some entry => exact hitsOwn_hit_iff g b entry
  | none =>
      rw [and_iff_left trivial]
      dsimp only
      split
      · rfl
      · dsimp only
        split
        · rfl
        · rfl

theorem exportRail1_hits (side : Side) (b : Buffer) (e : Export) (g : Globals) :
    (exportRail1 side b e g).2.HitsOwn ↔ g.HitsOwn ∧ Own side b g := by
  unfold exportRail1 Own
  cases hfind : rkeyCacheFind (g.caches side) (makeAddrLenKey b) with
  | some entry => exact hitsOwn_hit_iff g b entry
  | none =>
      rw [and_iff_left trivial]
      dsimp only
      split
      · rfl
      · dsimp only
        split
        · rfl
        · rfl

/-- A block sends nothing. -/
theorem Touches.transparent_of_hits {P : Prop} (h : Touches side g g')
    (hhits : g'.HitsOwn ↔ g.HitsOwn ∧ P) : g'.Transparent ↔ g.Transparent ∧ P := by
  constructor
  · rintro ⟨hown, hsent⟩
    rw [h.sent] at hsent
    exact ⟨⟨(hhits.mp hown).1, hsent⟩, (hhits.mp hown).2⟩
  · rintro ⟨⟨hown, hsent⟩, hP⟩
    rw [← h.sent] at hsent
    exact ⟨hhits.mpr ⟨hown, hP⟩, hsent⟩

theorem exportMain_transparent (side : Side) (b : Buffer) (e : Export) (g : Globals) :
    (exportMain side b e g).2.Transparent ↔ g.Transparent ∧ Own side b g :=
  (exportMain_touches side b e g).transparent_of_hits (exportMain_hits side b e g)

theorem exportLocal_transparent (side : Side) (b : Buffer) (e : Export) (g : Globals) :
    (exportLocal side b e g).2.Transparent ↔ g.Transparent ∧ Own side b g :=
  (exportLocal_touches side b e g).transparent_of_hits (exportLocal_hits side b e g)

theorem exportRail1_transparent (side : Side) (b : Buffer) (e : Export) (g : Globals) :
    (exportRail1 side b e g).2.Transparent ↔ g.Transparent ∧ Own side b g :=
  (exportRail1_touches side b e g).transparent_of_hits (exportRail1_hits side b e g)

/-- What a block of rail 0 makes for a new entry. -/
theorem entryOk_main (side : Side) (b : Buffer) (e : Export) :
    EntryOk side ⟨makeAddrLenKey b, exported side .rdma b e.size,
      some (if e.pciStatus = none then exported side .pci b e.pciSize else .null)⟩ := by
  refine ⟨b, e.size, rfl, ?_, fun _ => Option.some_ne_none _⟩
  intro x hx
  obtain rfl := Option.some.inj hx
  split
  · exact exported_for side .pci b e.pciSize
  · exact .inl rfl

theorem entryOk_local (b : Buffer) (size : ℕ) (hsrc : side ≠ .src) (hdst : side ≠ .dst) :
    EntryOk side ⟨makeAddrLenKey b, exported side .rdma b size, none⟩ := by
  refine ⟨b, size, rfl, ?_, fun h => absurd h (not_or.mpr ⟨hsrc, hdst⟩)⟩
  intro x hx
  cases hx

theorem entryOk_rail1 (b : Buffer) (e : Export) (hsrc : side ≠ .src)
    (hdst : side ≠ .dst) :
    EntryOk side ⟨makeAddrLenKey b, exported side .rdma b e.size,
      if e.pciStatus = none then some (exported side .pci b e.pciSize) else none⟩ := by
  refine ⟨b, e.size, rfl, ?_, fun h => absurd h (not_or.mpr ⟨hsrc, hdst⟩)⟩
  intro x hx
  split at hx
  · obtain rfl := Option.some.inj hx
    exact exported_for side .pci b e.pciSize
  · cases hx

theorem exportMain_entriesOk (h : g.EntriesOk) (side : Side) (b : Buffer) (e : Export) :
    (exportMain side b e g).2.EntriesOk := by
  unfold exportMain
  split
  · exact h
  · split
    · exact h
    · dsimp only
      split
      · exact h.insert (entryOk_main side b e)
      · exact h

theorem exportLocal_entriesOk (h : g.EntriesOk) (side : Side) (hsrc : side ≠ .src)
    (hdst : side ≠ .dst) (b : Buffer) (e : Export) :
    (exportLocal side b e g).2.EntriesOk := by
  unfold exportLocal
  split
  · exact h
  · split
    · exact h
    · dsimp only
      split
      · exact h.insert (entryOk_local b e.size hsrc hdst)
      · exact h

theorem exportRail1_entriesOk (h : g.EntriesOk) (side : Side) (hsrc : side ≠ .src)
    (hdst : side ≠ .dst) (b : Buffer) (e : Export) :
    (exportRail1 side b e g).2.EntriesOk := by
  unfold exportRail1
  split
  · exact h
  · split
    · exact h
    · dsimp only
      split
      · exact h.insert (entryOk_rail1 b e hsrc hdst)
      · exact h

/-- The fields that a block of rail 0 gives are right if the buffer has no entry
of another. -/
theorem exportMain_right (h : g.EntriesOk) (hside : side = .src ∨ side = .dst)
    (hown : Own side b g) {v : Option RkeyCacheEntry × Blob}
    (hv : (exportMain side b e g).1 = .ok v) :
    v.2.For side .rdma b ∧ FieldFor side .pci b (pciField v.1) := by
  unfold exportMain at hv
  unfold Own at hown
  cases hfind : rkeyCacheFind (g.caches side) (makeAddrLenKey b) with
  | some entry =>
      rw [hfind] at hv hown
      obtain rfl := Except.ok.inj hv
      have hok := h.find hfind
      refine ⟨hok.rkey_for hown, ?_⟩
      have hwritten : entry.pciExport ≠ none := by
        obtain ⟨_, _, _, _, hwritten⟩ := hok
        exact hwritten hside
      obtain ⟨x, hx⟩ := Option.ne_none_iff_exists'.mp hwritten
      show FieldFor side .pci b entry.pciExport
      rw [hx]
      exact hok.pci_for hown hx
  | none =>
      rw [hfind] at hv
      dsimp only at hv
      split at hv
      · cases hv
      · split at hv
        · obtain rfl := Except.ok.inj hv
          refine ⟨exported_for _ _ _ _, ?_⟩
          show Blob.For side .pci b _
          split
          · exact exported_for _ _ _ _
          · exact .inl rfl
        · obtain rfl := Except.ok.inj hv
          exact ⟨exported_for _ _ _ _, .inl rfl⟩

theorem exportLocal_right (h : g.EntriesOk) (hown : Own side b g) {x : Blob}
    (hx : (exportLocal side b e g).1 = .ok x) : x.For side .rdma b := by
  unfold exportLocal at hx
  unfold Own at hown
  cases hfind : rkeyCacheFind (g.caches side) (makeAddrLenKey b) with
  | some entry =>
      rw [hfind] at hx hown
      obtain rfl := Except.ok.inj hx
      exact (h.find hfind).rkey_for hown
  | none =>
      rw [hfind] at hx
      dsimp only at hx
      split at hx
      · cases hx
      · obtain rfl := Except.ok.inj hx
        exact exported_for _ _ _ _

theorem exportRail1_right (h : g.EntriesOk) (hown : Own side b g) :
    (exportRail1 side b e g).1.For side .rdma b := by
  unfold exportRail1
  unfold Own at hown
  cases hfind : rkeyCacheFind (g.caches side) (makeAddrLenKey b) with
  | some entry =>
      rw [hfind] at hown
      exact (h.find hfind).rkey_for hown
  | none =>
      dsimp only
      split
      · exact .inl rfl
      · exact exported_for _ _ _ _

/-- The PCI field of rail 1 is right exactly if it was written. -/
theorem exportRail1_pci (h : g.EntriesOk) (hown : Own side b g) :
    FieldFor side .pci b (pciRail1 true side b (exportRail1 side b e g).2) ↔
      PciWritten side b e g := by
  unfold exportRail1 PciWritten pciRail1
  unfold Own at hown
  rw [if_pos rfl]
  cases hfind : rkeyCacheFind (g.caches side) (makeAddrLenKey b) with
  | some entry =>
      rw [hfind] at hown
      have hsame : (g.hit b entry).caches = g.caches := rfl
      dsimp only
      rw [hsame, hfind]
      show FieldFor side .pci b entry.pciExport ↔ _
      cases hpci : entry.pciExport with
      | none => exact ⟨fun hfalse => hfalse.elim, fun hne => hne rfl⟩
      | some x =>
          constructor
          · intro _
            exact Option.some_ne_none x
          · intro _
            exact (h.find hfind).pci_for hown hpci
  | none =>
      dsimp only
      cases herror : firstError otherCalls e with
      | some dret =>
          dsimp only
          rw [hfind]
          constructor
          · intro _ hnone
            cases hnone
          · intro _
            exact Or.inl rfl
      | none =>
          dsimp only
          by_cases halloc : e.entryAllocated = true
          · rw [if_pos halloc, find_insert]
            show FieldFor side .pci b (if e.pciStatus = none then _ else none) ↔ _
            by_cases hpci : e.pciStatus = none
            · rw [if_pos hpci]
              exact ⟨fun _ _ _ => hpci, fun _ => exported_for _ _ _ _⟩
            · rw [if_neg hpci]
              exact ⟨fun hfalse => hfalse.elim, fun himp => hpci (himp rfl halloc)⟩
          · rw [if_neg halloc, hfind]
            constructor
            · intro _ _ hyes
              exact absurd hyes halloc
            · intro _
              exact Or.inl rfl

end Blocks

/-! ## The function -/

section Function

variable {r : Request} {o : Outcomes} {g : Globals} {dualRail : Bool}

/-- The blocks are skipped, stop after the first or run both. -/
theorem exportLocals_inv (r : Request) (o : Outcomes) (g : Globals) :
    (r.localCpu.addr = 0 ∧ exportLocals r o g = (.ok (.null, .null), g)) ∨
      (r.localCpu.addr ≠ 0 ∧
        ¬ Exportable otherCalls .localCpu r.localCpu (o.exports .localCpu) g ∧
        ∃ dret, exportLocal .localCpu r.localCpu (o.exports .localCpu) g =
            (.error dret, g) ∧ exportLocals r o g = (.error dret, g)) ∨
      (r.localCpu.addr ≠ 0 ∧
        Exportable otherCalls .localCpu r.localCpu (o.exports .localCpu) g ∧
        ∃ x g₁ y g₂,
          exportLocal .localCpu r.localCpu (o.exports .localCpu) g = (.ok x, g₁) ∧
          exportLocal .localCpuFlag r.localCpuFlag (o.exports .localCpuFlag) g₁ =
            (y, g₂) ∧
          exportLocals r o g = (y.map fun flagRkey => (x, flagRkey), g₂)) := by
  unfold exportLocals
  by_cases hzero : r.localCpu.addr = 0
  · left
    exact ⟨hzero, if_pos hzero⟩
  · right
    rw [if_neg hzero]
    rcases exportLocal_cases .localCpu r.localCpu (o.exports .localCpu) g with
      ⟨hnot, dret, heq⟩ | ⟨hyes, x, g₁, heq, -⟩
    · left
      rw [heq]
      exact ⟨hzero, hnot, dret, rfl, rfl⟩
    · right
      rw [heq]
      rcases hsecond : exportLocal .localCpuFlag r.localCpuFlag
          (o.exports .localCpuFlag) g₁ with ⟨y, g₂⟩
      refine ⟨hzero, hyes, x, g₁, y, g₂, rfl, hsecond, ?_⟩
      dsimp only
      rw [hsecond]
      cases y with
      | error dret => rfl
      | ok flagRkey => rfl

theorem exportLocals_entriesOk (h : g.EntriesOk) (r : Request) (o : Outcomes) :
    (exportLocals r o g).2.EntriesOk := by
  have hcpu := exportLocal_entriesOk h .localCpu (by decide) (by decide)
    r.localCpu (o.exports .localCpu)
  rcases exportLocals_inv r o g with ⟨-, heq⟩ | ⟨-, -, dret, -, heq⟩ |
    ⟨-, -, x, g₁, y, g₂, hfirst, hsecond, heq⟩
  · rw [heq]
    exact h
  · rw [heq]
    exact h
  · rw [hfirst] at hcpu
    have hflag := exportLocal_entriesOk hcpu .localCpuFlag (by decide)
      (by decide) r.localCpuFlag (o.exports .localCpuFlag)
    rw [hsecond] at hflag
    rw [heq]
    exact hflag

theorem exportLocals_caches (r : Request) (o : Outcomes) (g : Globals) {other : Side}
    (hcpu : other ≠ .localCpu) (hflag : other ≠ .localCpuFlag) :
    (exportLocals r o g).2.caches other = g.caches other := by
  rcases exportLocals_inv r o g with ⟨-, heq⟩ | ⟨-, -, dret, -, heq⟩ |
    ⟨-, -, x, g₁, y, g₂, hfirst, hsecond, heq⟩
  · rw [heq]
  · rw [heq]
  · have htouch := exportLocal_touches .localCpu r.localCpu (o.exports .localCpu) g
    have htouch' := exportLocal_touches .localCpuFlag r.localCpuFlag
      (o.exports .localCpuFlag) g₁
    rw [hfirst] at htouch
    rw [hsecond] at htouch'
    rw [heq]
    exact (htouch'.caches other hflag).trans (htouch.caches other hcpu)

/-- The blocks of the local CPU buffer keep the history right exactly if they find
no entry of another buffer. -/
theorem exportLocals_transparent (r : Request) (o : Outcomes) (g : Globals) :
    (exportLocals r o g).2.Transparent ↔ g.Transparent ∧ LocalsOwn r o g := by
  unfold LocalsOwn
  have hiff := exportLocal_transparent .localCpu r.localCpu (o.exports .localCpu) g
  have htouch := exportLocal_touches .localCpu r.localCpu (o.exports .localCpu) g
  rcases exportLocals_inv r o g with ⟨hzero, heq⟩ | ⟨hzero, hnot, dret, hfirst, heq⟩ |
    ⟨hzero, hyes, x, g₁, y, g₂, hfirst, hsecond, heq⟩
  · rw [heq]
    exact ⟨fun h => ⟨h, fun hne => absurd hzero hne⟩, And.left⟩
  · rw [hfirst] at hiff
    rw [heq]
    constructor
    · intro h
      exact ⟨h, fun _ => ⟨(hiff.mp h).2, fun hyes => absurd hyes hnot⟩⟩
    · exact And.left
  · have hiff' := exportLocal_transparent .localCpuFlag r.localCpuFlag
      (o.exports .localCpuFlag) g₁
    rw [hfirst] at hiff htouch
    dsimp only at hiff htouch
    rw [hsecond, hiff, htouch.own_iff (by decide), and_assoc] at hiff'
    rw [heq]
    dsimp only at hiff' ⊢
    rw [hiff']
    constructor
    · rintro ⟨h, hcpu, hflag⟩
      exact ⟨h, fun _ => ⟨hcpu, fun _ => hflag⟩⟩
    · rintro ⟨h, hown⟩
      exact ⟨h, (hown hzero).1, (hown hzero).2 hyes⟩

/-- The descriptors of the local CPU buffer are right. -/
theorem exportLocals_right (h : g.EntriesOk) (hown : LocalsOwn r o g)
    {v : Blob × Blob} {g' : Globals} (hv : exportLocals r o g = (.ok v, g')) :
    v.1.For .localCpu .rdma r.localCpu ∧
      v.2.For .localCpuFlag .rdma r.localCpuFlag := by
  rcases exportLocals_inv r o g with ⟨-, heq⟩ | ⟨-, -, dret, -, heq⟩ |
    ⟨hzero, hyes, x, g₁, y, g₂, hfirst, hsecond, heq⟩
  · rw [heq] at hv
    cases hv
    exact ⟨.inl rfl, .inl rfl⟩
  · rw [heq] at hv
    cases hv
  · have hok := exportLocal_entriesOk h .localCpu (by decide) (by decide)
      r.localCpu (o.exports .localCpu)
    have htouch := exportLocal_touches .localCpu r.localCpu (o.exports .localCpu) g
    rw [hfirst] at hok htouch
    have hown' : Own .localCpuFlag r.localCpuFlag g₁ :=
      (htouch.own_iff (by decide)).mpr ((hown hzero).2 hyes)
    rw [heq] at hv
    cases y with
    | error dret => cases hv
    | ok flagRkey =>
        cases hv
        exact ⟨exportLocal_right h (hown hzero).1 (congrArg Prod.fst hfirst),
          exportLocal_right hok hown' (congrArg Prod.fst hsecond)⟩

/-- If everything else is right, a command is right exactly if the PCI fields of
rail 1 are. -/
theorem controlCmd_right_iff {src dst : Option RkeyCacheEntry × Blob}
    {localCpu : Blob × Blob} {srcRail1 dstRail1 : Blob}
    (hsrc : src.2.For .src .rdma r.src ∧ FieldFor .src .pci r.src (pciField src.1))
    (hdst : dst.2.For .dst .rdma r.dst ∧ FieldFor .dst .pci r.dst (pciField dst.1))
    (hlocal : localCpu.1.For .localCpu .rdma r.localCpu ∧
      localCpu.2.For .localCpuFlag .rdma r.localCpuFlag)
    (hsrc₁ : srcRail1.For .srcRail1 .rdma r.src)
    (hdst₁ : dstRail1.For .dstRail1 .rdma r.dst) :
    Right (controlCmd dualRail r src dst localCpu srcRail1 dstRail1 g) ↔
      FieldFor .srcRail1 .pci r.src (pciRail1 dualRail .srcRail1 r.src g) ∧
        FieldFor .dstRail1 .pci r.dst (pciRail1 dualRail .dstRail1 r.dst g) := by
  constructor
  · intro hright
    exact ⟨hright.srcPciRail1, hright.dstPciRail1⟩
  · rintro ⟨hsrcPci, hdstPci⟩
    exact ⟨hsrc.1, hdst.1, hlocal.1, hlocal.2, hsrc₁, hdst₁, hsrc.2, hdst.2, hsrcPci,
      hdstPci⟩

theorem sendCommand_history (cmd : UcpCollectiveMsg Field) (o : Outcomes)
    (g : Globals) :
    (sendCommand cmd o g).2.sent = g.sent ++ [cmd] ∧
      (sendCommand cmd o g).2.hits = g.hits ∧
      (sendCommand cmd o g).2.caches = g.caches := by
  unfold sendCommand
  dsimp only
  split
  · exact ⟨rfl, rfl, rfl⟩
  · exact ⟨rfl, rfl, rfl⟩

theorem sendCommand_transparent (cmd : UcpCollectiveMsg Field) (o : Outcomes)
    (g : Globals) :
    (sendCommand cmd o g).2.Transparent ↔ g.Transparent ∧ Right cmd := by
  obtain ⟨hsent, hhits, -⟩ := sendCommand_history cmd o g
  have hown : (sendCommand cmd o g).2.HitsOwn ↔ g.HitsOwn := by
    unfold Globals.HitsOwn
    rw [hhits]
  constructor
  · rintro ⟨hits, hright⟩
    rw [hsent] at hright
    refine ⟨⟨hown.mp hits, ?_⟩, ?_⟩
    · intro cmd' hmem
      exact hright cmd' (List.mem_append_left _ hmem)
    · exact hright cmd (List.mem_append_right _ (List.mem_singleton_self cmd))
  · rintro ⟨⟨hits, hright⟩, hlast⟩
    refine ⟨hown.mpr hits, ?_⟩
    intro cmd' hmem
    rw [hsent] at hmem
    rcases List.mem_append.mp hmem with hmem | hmem
    · exact hright cmd' hmem
    · obtain rfl := List.mem_singleton.mp hmem
      exact hlast

theorem sendCommand_entriesOk (h : g.EntriesOk) (cmd : UcpCollectiveMsg Field)
    (o : Outcomes) : (sendCommand cmd o g).2.EntriesOk := by
  unfold Globals.EntriesOk
  rw [(sendCommand_history cmd o g).2.2]
  exact h

theorem Rail1Safe.of_caches {g' : Globals} (hsrc : g'.caches .srcRail1 = g.caches .srcRail1)
    (hdst : g'.caches .dstRail1 = g.caches .dstRail1) :
    Rail1Safe r o g' ↔ Rail1Safe r o g := by
  unfold Rail1Safe Own PciWritten
  rw [hsrc, hdst]

/-- The blocks of rail 1 and the send. -/
theorem rail1_transparent (h : g.EntriesOk) {src dst : Option RkeyCacheEntry × Blob}
    {localCpu : Blob × Blob}
    (hsrc : src.2.For .src .rdma r.src ∧ FieldFor .src .pci r.src (pciField src.1))
    (hdst : dst.2.For .dst .rdma r.dst ∧ FieldFor .dst .pci r.dst (pciField dst.1))
    (hlocal : localCpu.1.For .localCpu .rdma r.localCpu ∧
      localCpu.2.For .localCpuFlag .rdma r.localCpuFlag)
    {x₁ x₂ : Blob} {g₁ g₂ : Globals}
    (hx₁ : exportRail1 .srcRail1 r.src (o.exports .srcRail1) g = (x₁, g₁))
    (hx₂ : exportRail1 .dstRail1 r.dst (o.exports .dstRail1) g₁ = (x₂, g₂)) :
    (sendCommand (controlCmd true r src dst localCpu x₁ x₂ g₂) o g₂).2.Transparent ↔
      g.Transparent ∧ Rail1Safe r o g := by
  have htouch₁ := exportRail1_touches .srcRail1 r.src (o.exports .srcRail1) g
  have htouch₂ := exportRail1_touches .dstRail1 r.dst (o.exports .dstRail1) g₁
  have htrans₁ := exportRail1_transparent .srcRail1 r.src (o.exports .srcRail1) g
  have htrans₂ := exportRail1_transparent .dstRail1 r.dst (o.exports .dstRail1) g₁
  have hok₁ := exportRail1_entriesOk h .srcRail1 (by decide) (by decide)
    r.src (o.exports .srcRail1)
  rw [hx₁] at htouch₁ htrans₁ hok₁
  rw [hx₂] at htouch₂ htrans₂
  dsimp only at htouch₁ htouch₂ htrans₁ htrans₂ hok₁
  rw [htrans₁, htouch₁.own_iff (by decide)] at htrans₂
  rw [sendCommand_transparent, htrans₂, Rail1Safe]
  have hright : Own .srcRail1 r.src g → Own .dstRail1 r.dst g →
      (Right (controlCmd true r src dst localCpu x₁ x₂ g₂) ↔
        PciWritten .srcRail1 r.src (o.exports .srcRail1) g ∧
          PciWritten .dstRail1 r.dst (o.exports .dstRail1) g) := by
    intro hownSrc hownDst
    have hownDst₁ : Own .dstRail1 r.dst g₁ := (htouch₁.own_iff (by decide)).mpr hownDst
    have hfor₁ := exportRail1_right (e := o.exports .srcRail1) h hownSrc
    have hfor₂ := exportRail1_right (e := o.exports .dstRail1) hok₁ hownDst₁
    have hpci₁ := exportRail1_pci (e := o.exports .srcRail1) h hownSrc
    have hpci₂ := exportRail1_pci (e := o.exports .dstRail1) hok₁ hownDst₁
    rw [hx₁] at hfor₁ hpci₁
    rw [hx₂] at hfor₂ hpci₂
    have hsame : pciRail1 true .srcRail1 r.src g₂ = pciRail1 true .srcRail1 r.src g₁ := by
      unfold pciRail1
      rw [htouch₂.caches .srcRail1 (by decide)]
    rw [controlCmd_right_iff hsrc hdst hlocal hfor₁ hfor₂, hsame]
    rw [htouch₁.pciWritten_iff (by decide)] at hpci₂
    exact and_congr hpci₁ hpci₂
  constructor
  · rintro ⟨⟨⟨htrans, hownSrc⟩, hownDst⟩, hcmd⟩
    obtain ⟨hpciSrc, hpciDst⟩ := (hright hownSrc hownDst).mp hcmd
    exact ⟨htrans, ⟨hownSrc, hpciSrc⟩, hownDst, hpciDst⟩
  · rintro ⟨htrans, ⟨hownSrc, hpciSrc⟩, hownDst, hpciDst⟩
    exact ⟨⟨⟨htrans, hownSrc⟩, hownDst⟩, (hright hownSrc hownDst).mpr ⟨hpciSrc, hpciDst⟩⟩

/-- What comes after the destination. -/
theorem exportRest_transparent (h : g.EntriesOk) {src dst : Option RkeyCacheEntry × Blob}
    (hsrc : src.2.For .src .rdma r.src ∧ FieldFor .src .pci r.src (pciField src.1))
    (hdst : dst.2.For .dst .rdma r.dst ∧ FieldFor .dst .pci r.dst (pciField dst.1)) :
    (exportRest dualRail r o src dst g).2.Transparent ↔
      g.Transparent ∧ LocalsOwn r o g ∧
        (LocalsExportable r o g → dualRail = true → Rail1Safe r o g) := by
  have htrans := exportLocals_transparent r o g
  have hok := exportLocals_entriesOk h r o
  have hsafe : Rail1Safe r o (exportLocals r o g).2 ↔ Rail1Safe r o g :=
    Rail1Safe.of_caches (exportLocals_caches r o g (by decide) (by decide))
      (exportLocals_caches r o g (by decide) (by decide))
  unfold exportRest
  rcases exportLocals_cases r o g with ⟨hnot, dret, g', heq, -⟩ | ⟨hyes, v, g', heq, -⟩
  · rw [heq] at htrans ⊢
    dsimp only at htrans ⊢
    rw [htrans]
    exact ⟨fun ⟨h, hown⟩ => ⟨h, hown, fun hyes => absurd hyes hnot⟩,
      fun ⟨h, hown, _⟩ => ⟨h, hown⟩⟩
  · rw [heq] at htrans hok hsafe ⊢
    dsimp only at htrans hok hsafe ⊢
    have hlocal : LocalsOwn r o g → v.1.For .localCpu .rdma r.localCpu ∧
        v.2.For .localCpuFlag .rdma r.localCpuFlag :=
      fun hown => exportLocals_right h hown heq
    cases dualRail with
    | false =>
        rw [if_neg (by decide), sendCommand_transparent, htrans]
        constructor
        · rintro ⟨⟨hg, hown⟩, -⟩
          exact ⟨hg, hown, fun _ hdual => Bool.noConfusion hdual⟩
        · rintro ⟨hg, hown, -⟩
          refine ⟨⟨hg, hown⟩, ?_⟩
          apply (controlCmd_right_iff hsrc hdst (hlocal hown) (.inl rfl) (.inl rfl)).mpr
          exact ⟨.inl rfl, .inl rfl⟩
    | true =>
        rw [if_pos rfl]
        rcases hx₁ : exportRail1 .srcRail1 r.src (o.exports .srcRail1) g' with ⟨x₁, g₁⟩
        rcases hx₂ : exportRail1 .dstRail1 r.dst (o.exports .dstRail1) g₁ with ⟨x₂, g₂⟩
        constructor
        · intro hfinal
          have htrans₂ := exportRail1_transparent .dstRail1 r.dst (o.exports .dstRail1) g₁
          have htrans₁ := exportRail1_transparent .srcRail1 r.src (o.exports .srcRail1) g'
          rw [hx₂] at htrans₂
          rw [hx₁] at htrans₁
          have hg₂ := ((sendCommand_transparent _ o g₂).mp hfinal).1
          have hg' := (htrans₁.mp (htrans₂.mp hg₂).1).1
          obtain ⟨hg, hown⟩ := htrans.mp hg'
          have hiff := rail1_transparent hok hsrc hdst (hlocal hown) hx₁ hx₂
          exact ⟨hg, hown, fun _ _ => hsafe.mp (hiff.mp hfinal).2⟩
        · rintro ⟨hg, hown, hrail1⟩
          have hiff := rail1_transparent hok hsrc hdst (hlocal hown) hx₁ hx₂
          exact hiff.mpr ⟨htrans.mpr ⟨hg, hown⟩, hsafe.mpr (hrail1 hyes rfl)⟩

theorem exportRest_entriesOk (h : g.EntriesOk) (src dst : Option RkeyCacheEntry × Blob) :
    (exportRest dualRail r o src dst g).2.EntriesOk := by
  have hok := exportLocals_entriesOk h r o
  unfold exportRest
  rcases heq : exportLocals r o g with ⟨dret | v, g'⟩
  · rw [heq] at hok
    exact hok
  · rw [heq] at hok
    dsimp only at hok ⊢
    split
    · have hok₁ := exportRail1_entriesOk hok .srcRail1 (by decide) (by decide)
        r.src (o.exports .srcRail1)
      exact sendCommand_entriesOk (exportRail1_entriesOk hok₁ .dstRail1
        (by decide) (by decide) r.dst (o.exports .dstRail1)) _ o
    · exact sendCommand_entriesOk hok _ o

end Function

/-! ## Requests -/

section Requests

variable {r : Request} {o : Outcomes} {g : Globals} {dualRail : Bool}

/-- With a completion entry the function runs its blocks. -/
theorem ucpCollectiveRequestImpl_eq (dualRail : Bool) (r : Request) (o : Outcomes)
    (g : Globals) :
    (¬ FlagEntry r o g ∧
        ucpCollectiveRequestImpl dualRail r o g = (some .badState, g.lock.unlock)) ∨
      (FlagEntry r o g ∧ ∃ g₀ : Globals, g₀.caches = g.caches ∧ g₀.hits = g.hits ∧
        g₀.sent = g.sent ∧ g₀.locked = true ∧
        ucpCollectiveRequestImpl dualRail r o g =
          match exportMain .src r.src (o.exports .src) g₀ with
          | (.error dret, g) => (some dret, g)
          | (.ok src, g) =>
              match exportMain .dst r.dst (o.exports .dst) g with
              | (.error dret, g) => (some dret, g)
              | (.ok dst, g) => exportRest dualRail r o src dst g) := by
  unfold ucpCollectiveRequestImpl FlagEntry
  by_cases hflag : r.id ∈ g.finishFlags ∨ o.flagEntryAllocated = true
  · right
    refine ⟨hflag, { g.lock with finishFlags := if r.id ∈ g.lock.finishFlags
      then g.lock.finishFlags else r.id :: g.lock.finishFlags }, rfl, rfl, rfl, rfl, ?_⟩
    apply if_neg
    rintro ⟨hmem, halloc⟩
    rcases hflag with hin | hyes
    · exact hmem hin
    · rw [halloc] at hyes
      cases hyes
  · left
    refine ⟨hflag, if_pos ?_⟩
    rw [not_or, Bool.not_eq_true] at hflag
    exact hflag

theorem Globals.Transparent.of_eq {g' : Globals} (hsent : g'.sent = g.sent)
    (hhits : g'.hits = g.hits) : g'.Transparent ↔ g.Transparent := by
  constructor
  · rintro ⟨hown, hright⟩
    unfold Globals.HitsOwn at hown
    rw [hhits] at hown
    rw [hsent] at hright
    exact ⟨hown, hright⟩
  · rintro ⟨hown, hright⟩
    unfold Globals.HitsOwn at hown
    rw [← hhits] at hown
    rw [← hsent] at hright
    exact ⟨hown, hright⟩

/-- The condition of the blocks after the source. -/
def RestSafe (r : Request) (o : Outcomes) (g : Globals) (dualRail : Bool) : Prop :=
  LocalsOwn r o g ∧ (LocalsExportable r o g → dualRail = true → Rail1Safe r o g)

/-- A block of rail 0 does not touch what comes after it. -/
theorem Touches.restSafe_iff {side : Side} {g' : Globals} (h : Touches side g g')
    (hside : side = .src ∨ side = .dst) :
    RestSafe r o g' dualRail ↔ RestSafe r o g dualRail := by
  have hne : ∀ other, other ≠ .src → other ≠ .dst → other ≠ side := by
    rintro other hsrc hdst rfl
    exact hside.elim hsrc hdst
  unfold RestSafe LocalsOwn LocalsExportable Exportable Rail1Safe Own PciWritten
  rw [h.caches .localCpu (hne _ (by decide) (by decide)),
    h.caches .localCpuFlag (hne _ (by decide) (by decide)),
    h.caches .srcRail1 (hne _ (by decide) (by decide)),
    h.caches .dstRail1 (hne _ (by decide) (by decide))]

/-- A block of rail 0 followed by the rest of the function. -/
theorem exportMain_then (side : Side) (hside : side = .src ∨ side = .dst) (b : Buffer)
    (e : Export) (h : g.EntriesOk)
    (rest : Option RkeyCacheEntry × Blob → Globals → Option DocaError × Globals)
    {S : Globals → Prop}
    (hS : ∀ g', Touches side g g' → (S g' ↔ S g))
    (hrest : ∀ v g', g'.EntriesOk → v.2.For side .rdma b →
      FieldFor side .pci b (pciField v.1) →
      ((rest v g').2.Transparent ↔ g'.Transparent ∧ S g'))
    (hmono : ∀ v g', (rest v g').2.Transparent → g'.Transparent) :
    (match exportMain side b e g with
      | (.error dret, g) => (some dret, g)
      | (.ok v, g) => rest v g).2.Transparent ↔
      g.Transparent ∧ Own side b g ∧ (Exportable mainCalls side b e g → S g) := by
  have htrans := exportMain_transparent side b e g
  have htouch := exportMain_touches side b e g
  have hok := exportMain_entriesOk h side b e
  rcases exportMain_cases side b e g with ⟨hnot, dret, heq⟩ | ⟨hyes, v, g', heq, -⟩
  · rw [heq] at htrans ⊢
    dsimp only at htrans ⊢
    rw [htrans]
    constructor
    · rintro ⟨hg, hown⟩
      exact ⟨hg, hown, fun hyes => absurd hyes hnot⟩
    · rintro ⟨hg, hown, -⟩
      exact ⟨hg, hown⟩
  · have hright := fun hown : Own side b g =>
      exportMain_right h hside hown (congrArg Prod.fst heq)
    rw [heq] at htrans htouch hok ⊢
    dsimp only at htrans htouch hok ⊢
    constructor
    · intro hfinal
      obtain ⟨hg, hown⟩ := htrans.mp (hmono v g' hfinal)
      have hiff := hrest v g' hok (hright hown).1 (hright hown).2
      exact ⟨hg, hown, fun _ => (hS g' htouch).mp (hiff.mp hfinal).2⟩
    · rintro ⟨hg, hown, hsafe⟩
      have hiff := hrest v g' hok (hright hown).1 (hright hown).2
      exact hiff.mpr ⟨htrans.mpr ⟨hg, hown⟩, (hS g' htouch).mpr (hsafe hyes)⟩

theorem exportRest_mono (src dst : Option RkeyCacheEntry × Blob)
    (h : (exportRest dualRail r o src dst g).2.Transparent) : g.Transparent := by
  unfold exportRest at h
  have htrans := exportLocals_transparent r o g
  rcases heq : exportLocals r o g with ⟨dret | v, g'⟩
  · rw [heq] at h htrans
    exact (htrans.mp h).1
  · rw [heq] at h htrans
    dsimp only at h
    apply And.left
    apply htrans.mp
    split at h
    · have h₂ := ((sendCommand_transparent _ _ _).mp h).1
      have h₁ := ((exportRail1_transparent _ _ _ _).mp h₂).1
      exact ((exportRail1_transparent _ _ _ _).mp h₁).1
    · exact ((sendCommand_transparent _ _ _).mp h).1

/-- A request keeps the history right exactly if it is safe. -/
theorem ucpCollectiveRequestImpl_transparent (h : g.EntriesOk) (dualRail : Bool)
    (r : Request) (o : Outcomes) :
    (ucpCollectiveRequestImpl dualRail r o g).2.Transparent ↔
      g.Transparent ∧ Safe r o g dualRail := by
  unfold Safe
  rcases ucpCollectiveRequestImpl_eq dualRail r o g with ⟨hnone, heq⟩ |
    ⟨hflag, g₀, hcaches, hhits, hsent, -, heq⟩
  · have hsame : g.lock.unlock.Transparent ↔ g.Transparent :=
      Globals.Transparent.of_eq rfl rfl
    rw [heq, hsame]
    exact ⟨fun htrans => ⟨htrans, fun hflag => absurd hflag hnone⟩, And.left⟩
  · have hok₀ : g₀.EntriesOk := by
      unfold Globals.EntriesOk
      rw [hcaches]
      exact h
    have hsafe₀ : RestSafe r o g₀ dualRail ↔ RestSafe r o g dualRail := by
      unfold RestSafe LocalsOwn LocalsExportable Exportable Rail1Safe Own PciWritten
      rw [hcaches]
    have hmono : ∀ src dst (g' : Globals),
        (exportRest dualRail r o src dst g').2.Transparent → g'.Transparent :=
      fun src dst g' => exportRest_mono src dst
    rw [heq, exportMain_then .src (.inl rfl) r.src (o.exports .src) hok₀ _
      (S := fun g => Own .dst r.dst g ∧
        (Exportable mainCalls .dst r.dst (o.exports .dst) g → RestSafe r o g dualRail))]
    · rw [Globals.Transparent.of_eq hsent hhits]
      unfold Own Exportable at *
      rw [hcaches, hsafe₀]
      exact and_congr_right fun _ => ⟨fun h _ => h, fun h => h hflag⟩
    · intro g' htouch
      rw [htouch.own_iff (by decide), htouch.exportable_iff (by decide),
        htouch.restSafe_iff (.inl rfl)]
    · intro src g' hok hrdma hpci
      exact exportMain_then .dst (.inr rfl) r.dst (o.exports .dst) hok _
        (fun g'' htouch => htouch.restSafe_iff (.inr rfl))
        (fun dst g'' hok' hrdma' hpci' =>
          exportRest_transparent hok' ⟨hrdma, hpci⟩ ⟨hrdma', hpci'⟩)
        (fun dst g'' => hmono src dst g'')
    · intro src g' hfinal
      have htrans := exportMain_transparent .dst r.dst (o.exports .dst) g'
      rcases hdst : exportMain .dst r.dst (o.exports .dst) g' with ⟨dret | dst, g''⟩
      · rw [hdst] at hfinal htrans
        exact (htrans.mp hfinal).1
      · rw [hdst] at hfinal htrans
        exact (htrans.mp (hmono src dst g'' hfinal)).1

theorem ucpCollectiveRequestImpl_entriesOk (h : g.EntriesOk) (dualRail : Bool)
    (r : Request) (o : Outcomes) :
    (ucpCollectiveRequestImpl dualRail r o g).2.EntriesOk := by
  rcases ucpCollectiveRequestImpl_eq dualRail r o g with ⟨-, heq⟩ |
    ⟨-, g₀, hcaches, -, -, -, heq⟩
  · rw [heq]
    exact h
  · have hok₀ : g₀.EntriesOk := by
      unfold Globals.EntriesOk
      rw [hcaches]
      exact h
    have hok₁ := exportMain_entriesOk hok₀ .src r.src (o.exports .src)
    rw [heq]
    rcases hsrc : exportMain .src r.src (o.exports .src) g₀ with ⟨dret | src, g₁⟩
    · rw [hsrc] at hok₁
      exact hok₁
    · rw [hsrc] at hok₁
      have hok₂ := exportMain_entriesOk hok₁ .dst r.dst (o.exports .dst)
      dsimp only at hok₂ ⊢
      rcases hdst : exportMain .dst r.dst (o.exports .dst) g₁ with ⟨dret | dst, g₂⟩
      · rw [hdst] at hok₂
        exact hok₂
      · rw [hdst] at hok₂
        exact exportRest_entriesOk hok₂ src dst

end Requests

/-- In every state that a sequence of requests reaches no two buffers have shared
an entry and every command was right, exactly if every request was safe. -/
theorem transparent_iff (dualRail : Bool) (requests : List (Request × Outcomes)) :
    Machine.AllStates (Globals.step dualRail) Globals.Transparent Globals.init requests ↔
      Machine.AllSteps (Globals.step dualRail)
        (fun g a => g.locked = false → Safe a.1 a.2 g dualRail) Globals.init requests := by
  apply Machine.allStates_iff_allSteps (I := fun g => g.Transparent ∧ g.EntriesOk)
  · rintro g ⟨r, o⟩ g' hsafe hstep ⟨htrans, hok⟩
    unfold Globals.step at hstep
    split at hstep
    · cases hstep
    next hlocked =>
      obtain rfl := Option.some.inj hstep
      rw [Bool.not_eq_true] at hlocked
      exact ⟨(ucpCollectiveRequestImpl_transparent hok dualRail r o).mpr
        ⟨htrans, hsafe hlocked⟩, ucpCollectiveRequestImpl_entriesOk hok dualRail r o⟩
  · intro g hg
    exact hg.1
  · rintro g ⟨r, o⟩ ⟨-, hok⟩ hnext hlocked
    have hstep : Globals.step dualRail g (r, o) =
        some (ucpCollectiveRequestImpl dualRail r o g).2 := by
      unfold Globals.step
      rw [if_neg]
      rw [hlocked]
      decide
    exact ((ucpCollectiveRequestImpl_transparent hok dualRail r o).mp (hnext _ hstep)).2
  · refine ⟨⟨?_, ?_⟩, ?_⟩
    · intro h hmem
      cases hmem
    · intro cmd hmem
      cases hmem
    · intro side entry hmem
      cases hmem

/-- A request without a local CPU buffer. -/
def gpuRequest (src : Buffer) : Request :=
  { bufferedRequest with src := src, localCpu := ⟨0, 0⟩, localCpuFlag := ⟨0, 0⟩ }

/-- Every call succeeds, apart from the PCI export of the source on rail 1. -/
def succeed (pciStatus : Option DocaError) : Outcomes where
  flagEntryAllocated := true
  exports side := if side = .srcRail1 then { exportSucceeds with pciStatus := pciStatus }
    else exportSucceeds
  send := none

/-- The two buffers have the same key, and the second request is sent with the
descriptor of the first.  With a failed PCI export on rail 1 the field was never
written. -/
theorem not_transparent_collision_pciFails :
    (¬ Machine.AllStates (Globals.step false) Globals.Transparent Globals.init
        [(gpuRequest ⟨0x7f0000000000, 0x100000⟩, succeed none),
          (gpuRequest ⟨0x7f0000000200, 0xf8180⟩, succeed none)]) ∧
      ¬ Machine.AllStates (Globals.step true) Globals.Transparent Globals.init
        [(gpuRequest ⟨0x7f0000000000, 0x100000⟩, succeed (some (.other 7)))] := by
  constructor
  · intro h
    have hrun : (Machine.run (Globals.step false) Globals.init
        [(gpuRequest ⟨0x7f0000000000, 0x100000⟩, succeed none),
          (gpuRequest ⟨0x7f0000000200, 0xf8180⟩, succeed none)]).map
          (fun g => g.hits.head?) =
        some (some (⟨0x7f0000000200, 0xf8180⟩, some ⟨0x7f0000000000, 0x100000⟩)) := by
      decide +kernel
    obtain ⟨g, hrun, hhits⟩ := Option.map_eq_some_iff.mp hrun
    have hown := (h.last hrun).hits _ (List.mem_of_head? hhits)
    exact absurd hown (by decide)
  · intro h
    have hrun : (Machine.run (Globals.step true) Globals.init
        [(gpuRequest ⟨0x7f0000000000, 0x100000⟩, succeed (some (.other 7)))]).map
          (fun g => g.sent.map UcpCollectiveMsg.srcPciExportBufRail1) = some [none] := by
      decide +kernel
    obtain ⟨g, hrun, hsent⟩ := Option.map_eq_some_iff.mp hrun
    obtain ⟨cmd, hcmd, hfield⟩ := List.mem_map.mp
      (show (none : Field) ∈ g.sent.map UcpCollectiveMsg.srcPciExportBufRail1 by
        rw [hsent]
        exact List.mem_singleton_self _)
    have hright := ((h.last hrun).sent cmd hcmd).srcPciRail1
    rw [hfield] at hright
    exact hright

end SmartNic.Host
