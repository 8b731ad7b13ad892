import SmartNic.Library.Fabric.Knowledge

/-!
# RDMA tasks of the DPU

The `init_*_task` helpers and the RDMA contexts of `comch_server.c`, as
transfers of the fabric.  A buffer address is the buffer and an offset in it.
-/

namespace SmartNic.Collective

open SmartNic.Fabric

/-- The RDMA contexts of a rank.  A ring context stands for both ends of the
connection: `rdma_ring_send` of a rank and `rdma_ring_recv` of the next one. -/
inductive RdmaCtx where
  | rma
  | rmaRail1
  | ring
  | ringRail1
  | ringR1
  | ringR1Rail1
deriving DecidableEq, Repr

/-- The buffers of one collective: the source and the destination on the host
and the two working buffers on the DPU. -/
inductive Buffer where
  | src
  | send
  | recv
  | dst
deriving DecidableEq, Repr

abbrev Addr := Buffer × ℕ

/-- The `length` cells from an address on. -/
def cells (a : Addr) (length : ℕ) : List Addr :=
  (List.range length).map fun x => (a.1, a.2 + x)

section Tasks

variable {C : Type}

/-- Copy `length` cells. -/
def copyTask (src dst : Addr) (length : ℕ) (ctx : RdmaCtx) (pending : C) :
    Task RdmaCtx C Addr :=
  ⟨.copy ((List.range length).map fun x =>
    ((src.1, src.2 + x), (dst.1, dst.2 + x))), ctx, pending⟩

def initReadTask (localAddr remoteAddr : Addr) (length : ℕ) (ctx : RdmaCtx)
    (pending : C) : Task RdmaCtx C Addr :=
  copyTask remoteAddr localAddr length ctx pending

def initWriteTask (localAddr remoteAddr : Addr) (length : ℕ) (ctx : RdmaCtx)
    (pending : C) : Task RdmaCtx C Addr :=
  copyTask localAddr remoteAddr length ctx pending

def initRingSendTask (localAddr : Addr) (length : ℕ) (ctx : RdmaCtx)
    (pending : C) : Task RdmaCtx C Addr :=
  ⟨.send (cells localAddr length), ctx, pending⟩

def initRingRecvTask (localAddr : Addr) (length : ℕ) (ctx : RdmaCtx)
    (pending : C) : Task RdmaCtx C Addr :=
  ⟨.recv (cells localAddr length), ctx, pending⟩

/-! ## What the tasks read and write -/

theorem mem_cells {a l : Addr} {length : ℕ} :
    l ∈ cells a length ↔ ∃ x < length, l = (a.1, a.2 + x) := by
  simp only [cells, List.mem_map, List.mem_range]
  constructor
  · rintro ⟨x, hx, rfl⟩
    exact ⟨x, hx, rfl⟩
  · rintro ⟨x, hx, rfl⟩
    exact ⟨x, hx, rfl⟩

variable (a b : Addr) (length : ℕ) (ctx q : RdmaCtx) (pending : C)

@[simp]
theorem copyTask_src : (copyTask a b length ctx pending).src = cells a length := by
  simp [copyTask, Task.src, cells, Function.comp_def]

@[simp]
theorem copyTask_dst : (copyTask a b length ctx pending).dst = cells b length := by
  simp [copyTask, Task.dst, cells, Function.comp_def]

@[simp]
theorem initRingSendTask_src :
    (initRingSendTask a length ctx pending).src = cells a length := rfl

@[simp]
theorem initRingSendTask_dst :
    (initRingSendTask a length ctx pending).dst = [] := rfl

@[simp]
theorem initRingRecvTask_src :
    (initRingRecvTask a length ctx pending).src = [] := rfl

@[simp]
theorem initRingRecvTask_dst :
    (initRingRecvTask a length ctx pending).dst = cells a length := rfl

@[simp]
theorem copyTask_sendOn : (copyTask a b length ctx pending).sendOn q = none :=
  rfl

@[simp]
theorem copyTask_recvOn : (copyTask a b length ctx pending).recvOn q = none :=
  rfl

@[simp]
theorem initRingSendTask_sendOn :
    (initRingSendTask a length ctx pending).sendOn q =
      if ctx = q then some (cells a length) else none := rfl

@[simp]
theorem initRingSendTask_recvOn :
    (initRingSendTask a length ctx pending).recvOn q = none := rfl

@[simp]
theorem initRingRecvTask_sendOn :
    (initRingRecvTask a length ctx pending).sendOn q = none := rfl

@[simp]
theorem initRingRecvTask_recvOn :
    (initRingRecvTask a length ctx pending).recvOn q =
      if ctx = q then some (cells a length) else none := rfl

/-! ## Admissible tasks -/

variable {a b length ctx pending}
variable {R D A V : Type} {sys : System R Addr V D A} {fp : Footprint C Addr}
  {K : Knowledge sys fp}

/-- A copy is admitted if it carries every value to where it belongs. -/
theorem admits_copyTask
    (hreads : ∀ x < length, (a.1, a.2 + x) ∈ fp.reads pending)
    (hwrites : ∀ x < length, (b.1, b.2 + x) ∈ fp.writes pending)
    (hexp : ∀ x < length, K.exp (a.1, a.2 + x) = K.exp (b.1, b.2 + x)) :
    K.Admits (copyTask a b length ctx pending) where
  src_reads l hl := by
    rw [copyTask_src] at hl
    obtain ⟨x, hx, rfl⟩ := mem_cells.mp hl
    exact hreads x hx
  dst_writes l hl := by
    rw [copyTask_dst] at hl
    obtain ⟨x, hx, rfl⟩ := mem_cells.mp hl
    exact hwrites x hx
  copy_exp pairs hop p hp := by
    obtain rfl := Op.copy.inj hop
    obtain ⟨x, hx, rfl⟩ := List.mem_map.mp hp
    exact hexp x (List.mem_range.mp hx)

theorem admits_initRingSendTask
    (hreads : ∀ x < length, (a.1, a.2 + x) ∈ fp.reads pending) :
    K.Admits (initRingSendTask a length ctx pending) where
  src_reads l hl := by
    obtain ⟨x, hx, rfl⟩ := mem_cells.mp hl
    exact hreads x hx
  dst_writes l hl := by cases hl
  copy_exp pairs hop := by cases hop

theorem admits_initRingRecvTask
    (hwrites : ∀ x < length, (a.1, a.2 + x) ∈ fp.writes pending) :
    K.Admits (initRingRecvTask a length ctx pending) where
  src_reads l hl := by cases hl
  dst_writes l hl := by
    obtain ⟨x, hx, rfl⟩ := mem_cells.mp hl
    exact hwrites x hx
  copy_exp pairs hop := by cases hop

end Tasks

/-! ## The ring -/

variable {ws : ℕ}

/-- The next rank on the ring. -/
def nextRank (r : Fin ws) : Fin ws :=
  ⟨(r + 1) % ws, Nat.mod_lt _ (Nat.zero_lt_of_lt r.isLt)⟩

theorem nextRank_injective : Function.Injective (@nextRank ws) := by
  intro r r' h
  have hval : (r.val + 1) % ws = (r'.val + 1) % ws := congrArg Fin.val h
  have hr := r.isLt
  have hr' := r'.isLt
  refine Fin.ext ?_
  rcases Nat.lt_or_ge (r.val + 1) ws with hlt | hge
  · rcases Nat.lt_or_ge (r'.val + 1) ws with hlt' | hge'
    · rw [Nat.mod_eq_of_lt hlt, Nat.mod_eq_of_lt hlt'] at hval
      omega
    · rw [Nat.mod_eq_of_lt hlt, show r'.val + 1 = ws by omega,
        Nat.mod_self] at hval
      omega
  · rcases Nat.lt_or_ge (r'.val + 1) ws with hlt' | hge'
    · rw [Nat.mod_eq_of_lt hlt', show r.val + 1 = ws by omega,
        Nat.mod_self] at hval
      omega
    · omega

end SmartNic.Collective
