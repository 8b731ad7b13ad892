import Mathlib
import SmartNic.Library.OpenAddressing

/-!
# The cache of PCI mmaps

`pci_mmap_cache_find` and `pci_mmap_cache_store` of `comch_server.c`.  Both probe
at most 64 slots from the hash of address and length.  The cache is a table with
open addressing, so a find gives what the first store that found a free slot has
put there.
-/

namespace SmartNic.RemoteMemory

open OpenAddressing

variable {Mmap : Type}

/-! ## Data -/

/-- `PCI_MMAP_CACHE_SIZE` -/
def pciMmapCacheSize : ℕ := 1 <<< 20

/-- `PCI_MMAP_CACHE_MASK` -/
def pciMmapCacheMask : ℕ := pciMmapCacheSize - 1

/-- `PCI_MMAP_CACHE_MAX_PROBE` -/
def pciMmapCacheMaxProbe : ℕ := 64

/-- `struct pci_mmap_cache_entry`; a pointer to an mmap may be `NULL`. -/
structure PciMmapCacheEntry (Mmap : Type) where
  addr : UInt64
  len : UInt64
  mmap : Option Mmap
  valid : Bool
deriving DecidableEq, Repr

abbrev PciMmapCache (Mmap : Type) := Fin pciMmapCacheSize → PciMmapCacheEntry Mmap

/-- `pci_mmap_cache_alloc`, zeroed or `NULL`. -/
def pciMmapCacheAlloc (Mmap : Type) (allocated : Bool) : Option (PciMmapCache Mmap) :=
  if allocated then some fun _ => ⟨0, 0, none, false⟩ else none

/-- `pci_mmap_cache_hash` -/
def pciMmapCacheHash (addr len : UInt64) : UInt64 :=
  (addr ^^^ (len + 0x9e3779b97f4a7c15 + (addr <<< (6 : UInt64)) +
    (addr >>> (2 : UInt64)))) &&& UInt64.ofNat pciMmapCacheMask

/-- `(idx + probe) & PCI_MMAP_CACHE_MASK` for the hash of a key. -/
def probeSlot (addr len : UInt64) (probe : ℕ) : Fin pciMmapCacheSize :=
  ⟨((pciMmapCacheHash addr len).toNat + probe) &&& pciMmapCacheMask,
    lt_of_le_of_lt Nat.and_le_right (by decide)⟩

/-! ## Operations -/

section Loops

variable (cache : PciMmapCache Mmap) (addr len : UInt64)

/-- The loop of `pci_mmap_cache_find`. -/
def findLoop : List ℕ → Option Mmap
  | [] => none
  | probe :: probes =>
      let entry := cache (probeSlot addr len probe)
      if entry.valid = false then none
      else if entry.addr = addr ∧ entry.len = len then entry.mmap
      else findLoop probes

/-- The loop of `pci_mmap_cache_store`. -/
def storeLoop (mmap : Option Mmap) : List ℕ → PciMmapCache Mmap
  | [] => cache
  | probe :: probes =>
      let entry := cache (probeSlot addr len probe)
      if entry.valid = false then
        Function.update cache (probeSlot addr len probe) ⟨addr, len, mmap, true⟩
      else if entry.addr = addr ∧ entry.len = len then cache
      else storeLoop mmap probes

end Loops

/-- `pci_mmap_cache_find` -/
def pciMmapCacheFind (cache : Option (PciMmapCache Mmap)) (addr len : UInt64) :
    Option Mmap :=
  match cache with
  | none => none
  | some cache => findLoop cache addr len (List.range pciMmapCacheMaxProbe)

/-- `pci_mmap_cache_store` -/
def pciMmapCacheStore (cache : Option (PciMmapCache Mmap)) (addr len : UInt64)
    (mmap : Option Mmap) : Option (PciMmapCache Mmap) :=
  match cache with
  | none => none
  | some cache =>
      some (storeLoop cache addr len mmap (List.range pciMmapCacheMaxProbe))

/-- The operations on a cache. -/
inductive Operation (Mmap : Type) where
  | find (addr len : UInt64)
  | store (addr len : UInt64) (mmap : Option Mmap)

def Operation.apply (cache : Option (PciMmapCache Mmap)) :
    Operation Mmap → Option (PciMmapCache Mmap)
  | .find _ _ => cache
  | .store addr len mmap => pciMmapCacheStore cache addr len mmap

/-- One operation after another. -/
def operate (cache : Option (PciMmapCache Mmap)) (ops : List (Operation Mmap)) :
    Option (PciMmapCache Mmap) :=
  ops.foldl Operation.apply cache

/-! ## Stores that succeed -/

/-- Within the limit there is a free slot and before it only other keys. -/
def FindsFreeSlot (cache : PciMmapCache Mmap) (addr len : UInt64) : Prop :=
  ∃ probe < pciMmapCacheMaxProbe,
    (cache (probeSlot addr len probe)).valid = false ∧
    ∀ earlier < probe, (cache (probeSlot addr len earlier)).valid = true ∧
      ¬ ((cache (probeSlot addr len earlier)).addr = addr ∧
        (cache (probeSlot addr len earlier)).len = len)

instance (cache : PciMmapCache Mmap) (addr len : UInt64) :
    Decidable (FindsFreeSlot cache addr len) :=
  inferInstanceAs (Decidable (∃ probe < pciMmapCacheMaxProbe, _ ∧ _))

/-- The stores of a sequence of operations that find a free slot. -/
def successfulStores (cache : Option (PciMmapCache Mmap)) :
    List (Operation Mmap) → List ((UInt64 × UInt64) × Option Mmap)
  | [] => []
  | .find _ _ :: ops => successfulStores cache ops
  | .store addr len mmap :: ops =>
      match cache with
      | none => successfulStores none ops
      | some c =>
          if FindsFreeSlot c addr len then
            ((addr, len), mmap) ::
              successfulStores (pciMmapCacheStore cache addr len mmap) ops
          else successfulStores (pciMmapCacheStore cache addr len mmap) ops

/-! ## The cache is a table -/

/-- What an entry stands for. -/
def PciMmapCacheEntry.content (e : PciMmapCacheEntry Mmap) :
    Option ((UInt64 × UInt64) × Option Mmap) :=
  if e.valid then some ((e.addr, e.len), e.mmap) else none

/-- The contents of a cache as a table. -/
def table (cache : PciMmapCache Mmap) :
    Table (Fin pciMmapCacheSize) (UInt64 × UInt64) (Option Mmap) :=
  fun i => (cache i).content

/-- The slots of a key. -/
def probes (key : UInt64 × UInt64) : List (Fin pciMmapCacheSize) :=
  (List.range pciMmapCacheMaxProbe).map (probeSlot key.1 key.2)

section Refinement

variable {cache : PciMmapCache Mmap} {addr len : UInt64} {mmap : Option Mmap}

theorem table_of_invalid {i : Fin pciMmapCacheSize} (h : (cache i).valid = false) :
    table cache i = none := by
  unfold table PciMmapCacheEntry.content
  rw [h]
  rfl

theorem table_of_valid {i : Fin pciMmapCacheSize} (h : ¬ (cache i).valid = false) :
    table cache i = some (((cache i).addr, (cache i).len), (cache i).mmap) := by
  unfold table PciMmapCacheEntry.content
  rw [Bool.not_eq_false] at h
  rw [h]
  rfl

theorem table_update (i : Fin pciMmapCacheSize) :
    table (Function.update cache i ⟨addr, len, mmap, true⟩) =
      Function.update (table cache) i (some ((addr, len), mmap)) := by
  funext j
  unfold table
  by_cases hj : j = i
  · rw [hj, Function.update_self, Function.update_self]
    rfl
  · rw [Function.update_of_ne hj, Function.update_of_ne hj]

/-- The loop of a find is a search in the table. -/
theorem findLoop_eq (ps : List ℕ) :
    findLoop cache addr len ps =
      (lookup (table cache) (addr, len) (ps.map (probeSlot addr len))).join := by
  induction ps with
  | nil => rfl
  | cons probe ps ih =>
      rw [findLoop, List.map_cons, lookup]
      split
      next hinvalid =>
        rw [table_of_invalid hinvalid]
        rfl
      next hvalid =>
        rw [table_of_valid hvalid]
        dsimp only
        by_cases hkey : (cache (probeSlot addr len probe)).addr = addr ∧
            (cache (probeSlot addr len probe)).len = len
        · rw [if_pos hkey, if_pos (Prod.ext hkey.1 hkey.2)]
          rfl
        · rw [if_neg hkey, if_neg fun h => hkey (Prod.mk.inj h)]
          exact ih

/-- The loop of a store is an insertion into the table. -/
theorem storeLoop_eq (ps : List ℕ) :
    table (storeLoop cache addr len mmap ps) =
      insert (table cache) (addr, len) mmap (ps.map (probeSlot addr len)) := by
  induction ps with
  | nil => rfl
  | cons probe ps ih =>
      rw [storeLoop, List.map_cons, OpenAddressing.insert]
      split
      next hinvalid =>
        rw [table_of_invalid hinvalid]
        exact table_update _
      next hvalid =>
        rw [table_of_valid hvalid]
        dsimp only
        by_cases hkey : (cache (probeSlot addr len probe)).addr = addr ∧
            (cache (probeSlot addr len probe)).len = len
        · rw [if_pos hkey, if_pos (Prod.ext hkey.1 hkey.2)]
        · rw [if_neg hkey, if_neg fun h => hkey (Prod.mk.inj h)]
          exact ih

theorem findsFreeSlot_iff :
    FindsFreeSlot cache addr len ↔ Free (table cache) (addr, len) (probes (addr, len)) := by
  unfold FindsFreeSlot probes
  rw [free_iff_getElem]
  simp only [List.length_map, List.length_range, List.getElem_map, List.getElem_range]
  constructor
  · rintro ⟨probe, hlt, hinvalid, hbefore⟩
    refine ⟨probe, hlt, table_of_invalid hinvalid, ?_⟩
    intro earlier hearlier
    obtain ⟨hvalid, hkey⟩ := hbefore earlier hearlier
    refine ⟨_, _, table_of_valid (by rw [hvalid]; decide), ?_⟩
    exact fun h => hkey (Prod.mk.inj h)
  · rintro ⟨probe, hlt, hnone, hbefore⟩
    have hinvalid : ∀ i, table cache i = none → (cache i).valid = false := by
      intro i hi
      by_contra hvalid
      rw [table_of_valid hvalid] at hi
      cases hi
    refine ⟨probe, hlt, hinvalid _ hnone, ?_⟩
    intro earlier hearlier
    obtain ⟨key, value, heq, hkey⟩ := hbefore earlier hearlier
    have hvalid : ¬ (cache (probeSlot addr len earlier)).valid = false := by
      intro h
      rw [table_of_invalid h] at heq
      cases heq
    rw [table_of_valid hvalid] at heq
    obtain ⟨rfl, -⟩ := Prod.mk.inj (Option.some.inj heq)
    rw [Bool.not_eq_false] at hvalid
    exact ⟨hvalid, fun h => hkey (Prod.ext h.1 h.2)⟩

/-- What the cache holds for a key. -/
def held (cache : PciMmapCache Mmap) (key : UInt64 × UInt64) : Option (Option Mmap) :=
  lookup (table cache) key (probes key)

theorem pciMmapCacheFind_eq (cache : PciMmapCache Mmap) (addr len : UInt64) :
    pciMmapCacheFind (some cache) addr len = (held cache (addr, len)).join :=
  findLoop_eq _

/-- After a store a key has what it had, or the new mmap if the store of this key
found a free slot. -/
theorem held_store (h : Reachable probes (table cache)) (key : UInt64 × UInt64) :
    held (storeLoop cache addr len mmap (List.range pciMmapCacheMaxProbe)) key =
      if FindsFreeSlot cache addr len ∧ key = (addr, len) then some mmap
      else held cache key := by
  unfold held
  rw [storeLoop_eq]
  obtain ⟨hnew, hold⟩ := h.lookup_insert (addr, len) key mmap
  rw [← findsFreeSlot_iff] at hnew hold
  split
  next hyes => exact hnew hyes
  next hnot => exact hold hnot

theorem reachable_store (h : Reachable probes (table cache)) :
    Reachable probes
      (table (storeLoop cache addr len mmap (List.range pciMmapCacheMaxProbe))) := by
  rw [storeLoop_eq]
  exact h.insert (addr, len) mmap

/-- A store that finds a free slot is of a key that is not held. -/
theorem held_of_findsFreeSlot (h : FindsFreeSlot cache addr len) :
    held cache (addr, len) = none :=
  (findsFreeSlot_iff.mp h).lookup_eq

end Refinement

/-! ## Sequences of operations -/

/-- Over any operations a key keeps what is held for it, and else gets what the
first store of it that finds a free slot brings. -/
theorem held_operate (ops : List (Operation Mmap)) {cache : PciMmapCache Mmap}
    (h : Reachable probes (table cache)) (key : UInt64 × UInt64) :
    ∃ cache', operate (some cache) ops = some cache' ∧
      Reachable probes (table cache') ∧
      held cache' key = (held cache key).or
        (((successfulStores (some cache) ops).find? fun s => s.1 = key).map Prod.snd) := by
  induction ops generalizing cache with
  | nil => exact ⟨cache, rfl, h, (Option.or_none).symm⟩
  | cons op ops ih =>
      cases op with
      | find addr len => exact ih h
      | store addr len mmap =>
          have hstored : Reachable probes
              (table (storeLoop cache addr len mmap (List.range pciMmapCacheMaxProbe))) :=
            reachable_store h
          obtain ⟨cache', hrun, hreach, hheld⟩ := ih hstored
          refine ⟨cache', hrun, hreach, ?_⟩
          rw [hheld, held_store h, successfulStores]
          by_cases hfree : FindsFreeSlot cache addr len
          · rw [if_pos hfree, List.find?_cons]
            by_cases hkey : key = (addr, len)
            · rw [if_pos ⟨hfree, hkey⟩, hkey, held_of_findsFreeSlot hfree]
              simp
            · rw [if_neg fun h => hkey h.2, decide_eq_false (Ne.symm hkey)]
              rfl
          · rw [if_neg hfree, if_neg fun h => hfree h.1]
            rfl

theorem operate_null (ops : List (Operation Mmap)) :
    operate (none : Option (PciMmapCache Mmap)) ops = none := by
  induction ops with
  | nil => rfl
  | cons op ops ih =>
      cases op with
      | find addr len => exact ih
      | store addr len mmap => exact ih

theorem successfulStores_null (ops : List (Operation Mmap)) :
    successfulStores (none : Option (PciMmapCache Mmap)) ops = [] := by
  induction ops with
  | nil => rfl
  | cons op ops ih =>
      cases op with
      | find addr len => exact ih
      | store addr len mmap => exact ih

/-- A zeroed cache is empty. -/
theorem table_zeroed :
    table (fun _ => ⟨0, 0, none, false⟩ : PciMmapCache Mmap) = fun _ => none :=
  rfl

/-- A find gives the mmap of the first store of exactly its key that found a free
slot, or `NULL` if there is none, and what it gave it gives after any later
operations. -/
theorem find_eq_first_store (Mmap : Type) (allocated : Bool)
    (before later : List (Operation Mmap)) (addr len : UInt64) :
    pciMmapCacheFind (operate (pciMmapCacheAlloc Mmap allocated) before) addr len =
        ((successfulStores (pciMmapCacheAlloc Mmap allocated) before).find? fun s =>
          s.1 = (addr, len)).bind Prod.snd ∧
      ∀ mmap,
        pciMmapCacheFind (operate (pciMmapCacheAlloc Mmap allocated) before) addr len =
            some mmap →
          pciMmapCacheFind
              (operate (pciMmapCacheAlloc Mmap allocated) (before ++ later)) addr len =
            some mmap := by
  cases allocated with
  | false =>
      have hnull : pciMmapCacheAlloc Mmap false = none := rfl
      rw [hnull, operate_null, successfulStores_null]
      refine ⟨rfl, ?_⟩
      intro mmap hfind
      cases hfind
  | true =>
      have hzeroed : pciMmapCacheAlloc Mmap true = some fun _ => ⟨0, 0, none, false⟩ := rfl
      have hreach : Reachable probes
          (table (fun _ => ⟨0, 0, none, false⟩ : PciMmapCache Mmap)) := by
        rw [table_zeroed]
        exact reachable_empty probes
      have hempty : held (fun _ => ⟨0, 0, none, false⟩ : PciMmapCache Mmap) (addr, len) =
          none := by
        cases hheld : held (fun _ => ⟨0, 0, none, false⟩ : PciMmapCache Mmap)
            (addr, len) with
        | none => rfl
        | some mmap =>
            obtain ⟨i, hi⟩ := exists_of_lookup hheld
            cases hi
      rw [hzeroed]
      obtain ⟨cache, hrun, hreach', hheld⟩ := held_operate before hreach (addr, len)
      rw [hempty, Option.none_or] at hheld
      rw [hrun, pciMmapCacheFind_eq]
      constructor
      · rw [hheld]
        cases (successfulStores (some fun _ => ⟨0, 0, none, false⟩) before).find?
            fun s => s.1 = (addr, len) with
        | none => rfl
        | some s => rfl
      · intro mmap hfind
        have hsome : held cache (addr, len) = some (some mmap) :=
          Option.join_eq_some_iff.mp hfind
        obtain ⟨cache', hrun', -, hheld'⟩ := held_operate later hreach' (addr, len)
        have hall : operate (some fun _ => ⟨0, 0, none, false⟩) (before ++ later) =
            some cache' := by
          unfold operate at hrun hrun' ⊢
          rw [List.foldl_append, hrun, hrun']
        rw [hall, pciMmapCacheFind_eq, hheld', hsome]
        rfl

end SmartNic.RemoteMemory
