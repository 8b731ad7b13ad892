import Mathlib
import SmartNic.Library.Machine
import SmartNic.Library.Memory
import SmartNic.Library.Stream
import SmartNic.Library.TrueDivision

/-!
# The destination of a coalesced AllGather

The coordinator allocates the destination of an AllGather on the AllGather
stream and the DPU writes it at any time until the AllGather completes.  Memory
that was freed on the stream is handed out again at once, also while kernels on
the stream still have to read it.
-/

namespace SmartNic.Lifetime

open Machine Memory TrueDivision

/-! ## The GPU -/

/-- What the streams execute. -/
inductive GpuOp where
  /-- `cuStreamWaitValue32` on the flag of an AllGather. -/
  | waitValue (gather : ℕ)
  /-- `wait_stream` on the AllGather stream: so many operations of it. -/
  | waitStream (executed : ℕ)
  /-- A kernel that was enqueued when `since` AllGathers had been requested. -/
  | kernel (reads : List Block) (since : ℕ)
deriving DecidableEq, Repr

/-- What an operation reads of the memory as it was before AllGather `j`. -/
def GpuOp.readsBefore (j : ℕ) : GpuOp → List Block
  | kernel reads since => if since ≤ j then reads else []
  | _ => []

/-! ## The coordinator -/

/-- Sizes are counted in elements; parameters are named by their `ds_id`. -/
structure GatherConfig where
  worldSize : ℕ
  worldSize_pos : 0 < worldSize
  overlapComm : Bool
  useGpuFlag : Bool
  l2Prewarm : Bool
  dsNumel : ℕ → ℕ
  dsNumel_lt : ∀ param, dsNumel param < 2 ^ 53
  /-- `param.ds_tensor.ds_numel`. -/
  shardNumel : ℕ → ℕ

/-- An AllGather that has been requested. -/
structure RequestedGather where
  params : List ℕ
  destination : Block
  completed : Bool
  waited : Bool
deriving DecidableEq, Repr

structure DestinationState where
  gathers : List RequestedGather
  /-- The parameters that are `INFLIGHT`. -/
  inflight : List ℕ
  /-- The parameters that are `AVAILABLE`, with the storage of their data. -/
  available : List (ℕ × Block)
  /-- Blocks freed after `record_stream`: free once the compute stream has
  executed so many operations. -/
  recorded : List (Block × ℕ)
  allgatherStream : Stream GpuOp
  computeStream : Stream GpuOp

inductive DestinationAction where
  /-- `__all_gather_params`; the allocator finds memory at `base`. -/
  | request (params : List ℕ) (base : ℕ)
  /-- `wait` of a handle; `bases` are where the outputs of `torch.cat` are. -/
  | wait (gather : ℕ) (bases : List ℕ)
  /-- `torch.cuda.current_stream().wait_stream(self.__allgather_stream)`. -/
  | waitStream
  /-- The computation enqueues a kernel that reads parameters. -/
  | compute (params : List ℕ)
  /-- `free_param`. -/
  | freeParam (param : ℕ)
  /-- The DPU completes an AllGather. -/
  | complete (gather : ℕ)
  | executeAllgather
  | executeCompute
deriving DecidableEq, Repr

namespace DestinationState

def init : DestinationState where
  gathers := []
  inflight := []
  available := []
  recorded := []
  allgatherStream := .empty
  computeStream := .empty

/-- All operations that are enqueued and not executed. -/
def pending (s : DestinationState) : List GpuOp :=
  s.allgatherStream.pending ++ s.computeStream.pending

/-! ## Allocation -/

/-- The blocks on the AllGather stream that the allocator may not hand out. -/
def live (s : DestinationState) : List Block :=
  (s.gathers.filter fun g => !g.waited).map RequestedGather.destination ++
    s.available.map Prod.snd ++
      (s.recorded.filter fun r => s.computeStream.executed < r.2).map Prod.fst

def allocate (s : DestinationState) (base size : ℕ) : Option Block :=
  if ∀ l ∈ s.live, Block.Apart ⟨base, size⟩ l then some ⟨base, size⟩ else none

/-! ## Requests -/

/-- The parameters of a set that are `NOT_AVAILABLE`, sorted by `ds_id`. -/
def partitioned (s : DestinationState) (params : List ℕ) : List ℕ :=
  (params.dedup.filter fun param =>
    param ∉ s.inflight ∧ param ∉ s.available.map Prod.fst).insertionSort (· ≤ ·)

/-- The size of `param_buffer`, or of `flat_tensor` for several parameters. -/
def destinationSize (cfg : GatherConfig) : List ℕ → ℕ
  | [param] => ceilTrueDiv (cfg.dsNumel param) cfg.worldSize * cfg.worldSize
  | params => (params.map cfg.shardNumel).sum * cfg.worldSize

/-- The destination that a request gets. -/
def destination (cfg : GatherConfig) (s : DestinationState) (params : List ℕ)
    (base : ℕ) : Option Block :=
  if s.partitioned params = [] then none
  else s.allocate base (destinationSize cfg (s.partitioned params))

def request (cfg : GatherConfig) (s : DestinationState) (params : List ℕ)
    (base : ℕ) : Option DestinationState :=
  if s.partitioned params = [] then some s
  else (s.destination cfg params base).map fun block =>
    { s with
      gathers := s.gathers ++ [⟨s.partitioned params, block, false, false⟩]
      inflight := s.partitioned params ++ s.inflight }

/-! ## `wait` -/

/-- The parts of a parameter in the slots of the ranks, from `paramOffset` on. -/
def partsToCopy (cfg : GatherConfig) (flat : Block) (partitionSz paramOffset param : ℕ) :
    List Block :=
  (List.range cfg.worldSize).filterMap fun rank =>
    let paramStart := rank * cfg.shardNumel param
    if paramStart < cfg.dsNumel param then
      some ⟨flat.base + partitionSz * rank + paramOffset,
        min (cfg.dsNumel param - paramStart) (cfg.shardNumel param)⟩
    else none

/-- The kernels of the loop of `AllGatherCoalescedHandle.wait`: `torch.cat` for
each parameter, and the read that warms the L2 cache. -/
def catKernels (cfg : GatherConfig) (flat : Block) (partitionSz since : ℕ) :
    ℕ → List (ℕ × Block) → List GpuOp
  | _, [] => []
  | paramOffset, (param, output) :: rest =>
      .kernel (partsToCopy cfg flat partitionSz paramOffset param) since ::
        ((if cfg.l2Prewarm then [.kernel [output] since] else []) ++
          catKernels cfg flat partitionSz since (paramOffset + cfg.shardNumel param) rest)

/-- The parameters with the outputs of `torch.cat`. -/
def outputs (cfg : GatherConfig) (params bases : List ℕ) : List (ℕ × Block) :=
  List.zipWith (fun param base => (param, ⟨base, cfg.dsNumel param⟩)) params bases

/-- The outputs are allocated while the flat tensor is still live. -/
def OutputsApart (s : DestinationState) (outs : List (ℕ × Block)) : Prop :=
  (∀ out ∈ outs, ∀ l ∈ s.live, out.2.Apart l) ∧
    outs.Pairwise fun out out' => out.2.Apart out'.2

instance (s : DestinationState) (outs : List (ℕ × Block)) :
    Decidable (s.OutputsApart outs) :=
  inferInstanceAs (Decidable (_ ∧ _))

/-- With a GPU flag the stream waits; without it the call waits. -/
def waitHandle (cfg : GatherConfig) (s : DestinationState) (gather : ℕ) :
    Stream GpuOp :=
  if cfg.useGpuFlag then s.allgatherStream.push (.waitValue gather)
  else s.allgatherStream

/-- The parameters of a handle become available, its flat tensor is dropped. -/
def publish (s : DestinationState) (gather : ℕ) (data : List (ℕ × Block))
    (stream : Stream GpuOp) : DestinationState :=
  { s with
    gathers := s.gathers.modify gather fun g => { g with waited := true }
    inflight := s.inflight.filter fun param => param ∉ data.map Prod.fst
    available := data ++ s.available
    allgatherStream := stream }

def wait (cfg : GatherConfig) (s : DestinationState) (gather : ℕ) (bases : List ℕ) :
    Option DestinationState :=
  match s.gathers[gather]? with
  | none => none
  | some g =>
      if g.waited then some s
      else if cfg.useGpuFlag = false ∧ g.completed = false then none
      else
        match g.params with
        | [param] =>
            some (s.publish gather [(param, g.destination)] (s.waitHandle cfg gather))
        | params =>
            if bases.length = params.length ∧ s.OutputsApart (outputs cfg params bases)
            then some (s.publish gather (outputs cfg params bases)
              ((s.waitHandle cfg gather).pushAll
                (catKernels cfg g.destination (params.map cfg.shardNumel).sum
                  s.gathers.length 0 (outputs cfg params bases))))
            else none

/-! ## Computation -/

/-- Enqueue on the compute stream, which is the AllGather stream without
`overlap_comm`. -/
def enqueueCompute (cfg : GatherConfig) (s : DestinationState) (op : GpuOp) :
    DestinationState :=
  if cfg.overlapComm then { s with computeStream := s.computeStream.push op }
  else { s with allgatherStream := s.allgatherStream.push op }

/-- The data of a parameter. -/
def dataOf (cfg : GatherConfig) (s : DestinationState) (param : ℕ) : Option Block :=
  (s.available.find? fun d => d.1 = param).map fun d => ⟨d.2.base, cfg.dsNumel param⟩

def compute (cfg : GatherConfig) (s : DestinationState) (params : List ℕ) :
    Option DestinationState :=
  (params.mapM (s.dataOf cfg)).map fun reads =>
    s.enqueueCompute cfg (.kernel reads s.gathers.length)

/-- `record_stream` defers the release only if the current stream is not the one
of the allocation. -/
def freeParam (cfg : GatherConfig) (s : DestinationState) (param : ℕ) :
    Option DestinationState :=
  (s.available.find? fun d => d.1 = param).map fun d =>
    { s with
      available := s.available.eraseP fun d => d.1 = param
      recorded :=
        if cfg.overlapComm then (d.2, s.computeStream.issued) :: s.recorded
        else s.recorded }

/-! ## Runs -/

def complete (s : DestinationState) (gather : ℕ) : DestinationState :=
  { s with gathers := s.gathers.modify gather fun g => { g with completed := true } }

/-- An operation can be executed. -/
def ready (s : DestinationState) : GpuOp → Bool
  | .waitValue gather => s.gathers[gather]?.any fun g => g.completed
  | .waitStream executed => executed ≤ s.allgatherStream.executed
  | .kernel _ _ => true

def step (cfg : GatherConfig) (s : DestinationState) :
    DestinationAction → Option DestinationState
  | .request params base => s.request cfg params base
  | .wait gather bases => s.wait cfg gather bases
  | .waitStream =>
      if cfg.overlapComm
      then some (s.enqueueCompute cfg (.waitStream s.allgatherStream.issued))
      else some s
  | .compute params => s.compute cfg params
  | .freeParam param => s.freeParam cfg param
  | .complete gather => some (s.complete gather)
  | .executeAllgather =>
      (s.allgatherStream.execute s.ready).map fun r => { s with allgatherStream := r.2 }
  | .executeCompute =>
      (s.computeStream.execute s.ready).map fun r => { s with computeStream := r.2 }

/-- No pending operation reads what was in the destination of an incomplete
AllGather before it was requested. -/
def Isolated (s : DestinationState) : Prop :=
  ∀ (j : ℕ) (g : RequestedGather), s.gathers[j]? = some g → g.completed = false →
    ∀ op ∈ s.pending, ∀ b ∈ op.readsBefore j, b.Apart g.destination

/-- A destination is only given out when nothing pending on the AllGather stream
reads its memory. -/
def DestinationUnread (cfg : GatherConfig) (s : DestinationState) :
    DestinationAction → Prop
  | .request params base =>
      ∀ block ∈ s.destination cfg params base,
        ∀ op ∈ s.allgatherStream.pending, ∀ b ∈ op.readsBefore s.gathers.length,
          b.Apart block
  | _ => True

/-! ## The invariant -/

structure Inv (cfg : GatherConfig) (s : DestinationState) : Prop where
  isolated : s.Isolated
  /-- What the compute stream reads is the data of a parameter, or the stream
  holds back its release. -/
  held : ∀ n op, s.computeStream.Holds n op → ∀ j, ∀ b ∈ op.readsBefore j,
    (∃ d ∈ s.available, b.Within d.2) ∨ ∃ r ∈ s.recorded, n < r.2 ∧ b.Within r.1
  dsNumel_le : ∀ d ∈ s.available, cfg.dsNumel d.1 ≤ d.2.size
  dsNumel_le_destination : ∀ g ∈ s.gathers, ∀ param, g.params = [param] →
    cfg.dsNumel param ≤ g.destination.size
  oneStream : cfg.overlapComm = false → s.computeStream.pending = []

theorem inv_init (cfg : GatherConfig) : init.Inv cfg where
  isolated j g hg _ := by cases hg
  held n op hop := by cases hop.2
  dsNumel_le d hd := by cases hd
  dsNumel_le_destination g hg := by cases hg
  oneStream _ := rfl

variable {cfg : GatherConfig} {s s' : DestinationState}

/-- Isolation is kept if no AllGather is added and the new operations were
enqueued after all AllGathers. -/
theorem Isolated.mono (h : s.Isolated)
    (hgathers : ∀ (j : ℕ) (g' : RequestedGather), s'.gathers[j]? = some g' →
      g'.completed = false → ∃ g, s.gathers[j]? = some g ∧ g.completed = false ∧
        g.destination = g'.destination)
    (hops : ∀ op ∈ s'.pending, op ∈ s.pending ∨
      ∀ j < s.gathers.length, op.readsBefore j = []) : s'.Isolated := by
  intro j g' hg' hincomplete op hop b hb
  obtain ⟨g, hg, hgincomplete, heq⟩ := hgathers j g' hg' hincomplete
  rcases hops op hop with hold | hnew
  · rw [← heq]
    exact h j g hg hgincomplete op hold b hb
  · obtain ⟨hlt, -⟩ := List.getElem?_eq_some_iff.mp hg
    rw [hnew j hlt] at hb
    cases hb

theorem readsBefore_kernel (reads : List Block) {since j : ℕ} (hj : j < since) :
    (GpuOp.kernel reads since).readsBefore j = [] := if_neg (not_le.mpr hj)

/-- A gather of a modified list. -/
theorem getElem?_modify_some {gathers : List RequestedGather} {k j : ℕ}
    {f : RequestedGather → RequestedGather} {g' : RequestedGather}
    (h : (gathers.modify k f)[j]? = some g') :
    ∃ g, gathers[j]? = some g ∧ (g' = g ∨ g' = f g) := by
  rw [List.getElem?_modify] at h
  obtain ⟨g, hg, hgg'⟩ := Option.map_eq_some_iff.mp h
  refine ⟨g, hg, ?_⟩
  by_cases hk : k = j
  · rw [if_pos hk] at hgg'
    exact .inr hgg'.symm
  · rw [if_neg hk] at hgg'
    exact .inl hgg'.symm

theorem mem_modify {gathers : List RequestedGather} {k : ℕ}
    {f : RequestedGather → RequestedGather} {g' : RequestedGather}
    (h : g' ∈ gathers.modify k f) : ∃ g ∈ gathers, g' = g ∨ g' = f g := by
  obtain ⟨j, hj⟩ := List.getElem?_of_mem h
  obtain ⟨g, hg, hcases⟩ := getElem?_modify_some hj
  exact ⟨g, List.mem_of_getElem? hg, hcases⟩

/-! ## Requests -/

/-- A destination is apart from what the compute stream still reads. -/
theorem Inv.apart_compute (hinv : s.Inv cfg) {block : Block}
    (hlive : ∀ l ∈ s.live, block.Apart l) {op : GpuOp}
    (hop : op ∈ s.computeStream.pending) {j : ℕ} {b : Block}
    (hb : b ∈ op.readsBefore j) : b.Apart block := by
  obtain ⟨n, hn⟩ := Stream.exists_holds hop
  apply Block.Apart.symm
  rcases hinv.held n op hn j b hb with ⟨d, hd, hwithin⟩ | ⟨r, hr, hlt, hwithin⟩
  · apply (hlive d.2 _).within hwithin
    unfold live
    rw [List.mem_append, List.mem_append]
    exact .inl (.inr (List.mem_map_of_mem hd))
  · apply (hlive r.1 _).within hwithin
    unfold live
    rw [List.mem_append]
    refine .inr (List.mem_map_of_mem (List.mem_filter.mpr ⟨hr, ?_⟩))
    exact decide_eq_true (lt_of_le_of_lt hn.1 hlt)

theorem allocate_eq_some {base size : ℕ} {block : Block}
    (h : s.allocate base size = some block) :
    block = ⟨base, size⟩ ∧ ∀ l ∈ s.live, block.Apart l := by
  unfold allocate at h
  split at h
  · rename_i hlive
    cases h
    exact ⟨rfl, hlive⟩
  · cases h

theorem dsNumel_le_destinationSize (cfg : GatherConfig) (param : ℕ) :
    cfg.dsNumel param ≤ destinationSize cfg [param] := by
  have hpos := cfg.worldSize_pos
  unfold destinationSize
  dsimp only
  rw [ceilTrueDiv_eq (cfg.dsNumel_lt param) hpos]
  have hmod := Nat.div_add_mod (cfg.dsNumel param + (cfg.worldSize - 1)) cfg.worldSize
  have hlt := Nat.mod_lt (cfg.dsNumel param + (cfg.worldSize - 1)) hpos
  rw [Nat.mul_comm] at hmod
  omega

theorem Inv.request {params : List ℕ} {base : ℕ} (hinv : s.Inv cfg)
    (hunread : s.DestinationUnread cfg (.request params base))
    (hstep : s.request cfg params base = some s') : s'.Inv cfg := by
  unfold DestinationState.request at hstep
  split at hstep
  · cases hstep
    exact hinv
  · rename_i hne
    obtain ⟨block, hblock, rfl⟩ := Option.map_eq_some_iff.mp hstep
    have halloc := hblock
    rw [destination, if_neg hne] at halloc
    obtain ⟨hblockEq, hlive⟩ := allocate_eq_some halloc
    refine ⟨?_, hinv.held, hinv.dsNumel_le, ?_, hinv.oneStream⟩
    · intro j g hg hincomplete op hop b hb
      change (s.gathers ++ [_])[j]? = some g at hg
      change op ∈ s.pending at hop
      rcases lt_trichotomy j s.gathers.length with hlt | heq | hgt
      · rw [List.getElem?_append_left hlt] at hg
        exact hinv.isolated j g hg hincomplete op hop b hb
      · subst heq
        rw [List.getElem?_concat_length] at hg
        cases hg
        rcases List.mem_append.mp hop with hallgather | hcompute
        · exact hunread block hblock op hallgather b hb
        · exact hinv.apart_compute hlive hcompute hb
      · rw [List.getElem?_eq_none (by rw [List.length_append]; exact hgt)] at hg
        cases hg
    · intro g hg param hparam
      rcases List.mem_append.mp hg with hold | hnew
      · exact hinv.dsNumel_le_destination g hold param hparam
      · cases List.mem_singleton.mp hnew
        dsimp only at hparam ⊢
        rw [hblockEq, hparam]
        exact dsNumel_le_destinationSize cfg param

/-! ## Waits -/

theorem readsBefore_catKernels {cfg : GatherConfig} {flat : Block}
    {partitionSz since paramOffset : ℕ} {outs : List (ℕ × Block)} {op : GpuOp}
    (hop : op ∈ catKernels cfg flat partitionSz since paramOffset outs) {j : ℕ}
    (hj : j < since) : op.readsBefore j = [] := by
  induction outs generalizing paramOffset with
  | nil => cases hop
  | cons out outs ih =>
      rw [catKernels, List.mem_cons, List.mem_append] at hop
      rcases hop with rfl | hprewarm | hrest
      · exact readsBefore_kernel _ hj
      · split at hprewarm
        · cases List.mem_singleton.mp hprewarm
          exact readsBefore_kernel _ hj
        · cases hprewarm
      · exact ih hrest

theorem mem_waitHandle {gather : ℕ} {op : GpuOp}
    (hop : op ∈ (s.waitHandle cfg gather).pending) :
    op ∈ s.allgatherStream.pending ∨ op = .waitValue gather := by
  unfold waitHandle at hop
  split at hop
  · exact Stream.mem_push.mp hop
  · exact .inl hop

/-- A handle publishes data for its parameters. -/
theorem Inv.publish {gather : ℕ} {data : List (ℕ × Block)} {stream : Stream GpuOp}
    (hinv : s.Inv cfg) (hdata : ∀ d ∈ data, cfg.dsNumel d.1 ≤ d.2.size)
    (hops : ∀ op ∈ stream.pending, op ∈ s.allgatherStream.pending ∨
      ∀ j < s.gathers.length, op.readsBefore j = []) :
    (s.publish gather data stream).Inv cfg := by
  refine ⟨?_, ?_, ?_, ?_, hinv.oneStream⟩
  · apply hinv.isolated.mono
    · intro j g' hg' hincomplete
      obtain ⟨g, hg, rfl | rfl⟩ := getElem?_modify_some hg'
      · exact ⟨g', hg, hincomplete, rfl⟩
      · exact ⟨g, hg, hincomplete, rfl⟩
    · intro op hop
      rcases List.mem_append.mp hop with hallgather | hcompute
      · rcases hops op hallgather with hold | hnew
        · exact .inl (List.mem_append_left _ hold)
        · exact .inr hnew
      · exact .inl (List.mem_append_right _ hcompute)
  · intro n op hop j b hb
    rcases hinv.held n op hop j b hb with ⟨d, hd, hwithin⟩ | hrecorded
    · exact .inl ⟨d, List.mem_append_right _ hd, hwithin⟩
    · exact .inr hrecorded
  · intro d hd
    rcases List.mem_append.mp hd with hnew | hold
    · exact hdata d hnew
    · exact hinv.dsNumel_le d hold
  · intro g' hg' param hparam
    obtain ⟨g, hg, rfl | rfl⟩ := mem_modify hg'
    · exact hinv.dsNumel_le_destination g' hg param hparam
    · exact hinv.dsNumel_le_destination g hg param hparam

theorem dsNumel_le_outputs {params bases : List ℕ} {d : ℕ × Block}
    (hd : d ∈ outputs cfg params bases) : cfg.dsNumel d.1 ≤ d.2.size := by
  unfold outputs at hd
  rw [List.mem_iff_getElem] at hd
  obtain ⟨i, hi, rfl⟩ := hd
  rw [List.getElem_zipWith]

theorem Inv.wait {gather : ℕ} {bases : List ℕ} (hinv : s.Inv cfg)
    (hstep : s.wait cfg gather bases = some s') : s'.Inv cfg := by
  unfold DestinationState.wait at hstep
  split at hstep
  · cases hstep
  · rename_i g hg
    split at hstep
    · cases hstep
      exact hinv
    · split at hstep
      · cases hstep
      · split at hstep
        · rename_i param hparam
          cases hstep
          apply hinv.publish
          · intro d hd
            cases List.mem_singleton.mp hd
            exact hinv.dsNumel_le_destination g (List.mem_of_getElem? hg) param hparam
          · intro op hop
            rcases mem_waitHandle hop with hold | rfl
            · exact .inl hold
            · exact .inr fun j _ => rfl
        · split at hstep
          · cases hstep
            apply hinv.publish
            · intro d hd
              exact dsNumel_le_outputs hd
            · intro op hop
              rcases List.mem_append.mp hop with hhandle | hcat
              · rcases mem_waitHandle hhandle with hold | rfl
                · exact .inl hold
                · exact .inr fun j _ => rfl
              · exact .inr fun j hj => readsBefore_catKernels hcat hj
          · cases hstep

/-! ## Computation -/

/-- An operation of the computation reads the data of parameters. -/
theorem Inv.enqueueCompute {op : GpuOp} (hinv : s.Inv cfg)
    (hnew : ∀ j < s.gathers.length, op.readsBefore j = [])
    (hreads : ∀ j, ∀ b ∈ op.readsBefore j, ∃ d ∈ s.available, b.Within d.2) :
    (s.enqueueCompute cfg op).Inv cfg := by
  unfold DestinationState.enqueueCompute
  split
  · rename_i hoverlap
    refine ⟨?_, ?_, hinv.dsNumel_le, hinv.dsNumel_le_destination, ?_⟩
    · apply hinv.isolated.mono
      · intro j g hg hincomplete
        exact ⟨g, hg, hincomplete, rfl⟩
      · intro op' hop'
        rcases List.mem_append.mp hop' with hallgather | hcompute
        · exact .inl (List.mem_append_left _ hallgather)
        · rcases Stream.mem_push.mp hcompute with hold | rfl
          · exact .inl (List.mem_append_right _ hold)
          · exact .inr hnew
    · intro n op' hop' j b hb
      rcases hop'.of_push with hold | ⟨rfl, rfl⟩
      · exact hinv.held n op' hold j b hb
      · exact .inl (hreads j b hb)
    · intro hone
      rw [hoverlap] at hone
      cases hone
  · refine ⟨?_, hinv.held, hinv.dsNumel_le, hinv.dsNumel_le_destination, hinv.oneStream⟩
    apply hinv.isolated.mono
    · intro j g hg hincomplete
      exact ⟨g, hg, hincomplete, rfl⟩
    · intro op' hop'
      rcases List.mem_append.mp hop' with hallgather | hcompute
      · rcases Stream.mem_push.mp hallgather with hold | rfl
        · exact .inl (List.mem_append_left _ hold)
        · exact .inr hnew
      · exact .inl (List.mem_append_right _ hcompute)

theorem Inv.dataOf_within (hinv : s.Inv cfg) {param : ℕ} {b : Block}
    (hb : s.dataOf cfg param = some b) : ∃ d ∈ s.available, b.Within d.2 := by
  obtain ⟨d, hd, rfl⟩ := Option.map_eq_some_iff.mp hb
  have hparam : d.1 = param := by simpa using List.find?_some hd
  have hmem := List.mem_of_find?_eq_some hd
  refine ⟨d, hmem, le_rfl, ?_⟩
  have hle := hinv.dsNumel_le d hmem
  rw [hparam] at hle
  exact Nat.add_le_add_left hle _

theorem mem_of_mapM_eq_some {β γ : Type} {f : β → Option γ} {xs : List β} {ys : List γ}
    (h : xs.mapM f = some ys) {y : γ} (hy : y ∈ ys) : ∃ x ∈ xs, f x = some y := by
  induction xs generalizing ys with
  | nil =>
      cases h
      cases hy
  | cons x xs ih =>
      rw [List.mapM_cons] at h
      obtain ⟨z, hz, htail⟩ := Option.bind_eq_some_iff.mp h
      obtain ⟨zs, hzs, hpure⟩ := Option.bind_eq_some_iff.mp htail
      cases hpure
      rcases List.mem_cons.mp hy with rfl | hmem
      · exact ⟨x, List.mem_cons_self, hz⟩
      · obtain ⟨x', hx', hfx'⟩ := ih hzs hmem
        exact ⟨x', List.mem_cons_of_mem _ hx', hfx'⟩

theorem Inv.compute {params : List ℕ} (hinv : s.Inv cfg)
    (hstep : s.compute cfg params = some s') : s'.Inv cfg := by
  obtain ⟨reads, hreads, rfl⟩ := Option.map_eq_some_iff.mp hstep
  apply hinv.enqueueCompute
  · intro j hj
    exact readsBefore_kernel reads hj
  · intro j b hb
    unfold GpuOp.readsBefore at hb
    dsimp only at hb
    split at hb
    · obtain ⟨param, -, hparam⟩ := mem_of_mapM_eq_some hreads hb
      exact hinv.dataOf_within hparam
    · cases hb

theorem mem_eraseP_or_find? {d : ℕ × Block} {data : List (ℕ × Block)} (hd : d ∈ data)
    (p : ℕ × Block → Bool) : d ∈ data.eraseP p ∨ data.find? p = some d := by
  induction data with
  | nil => cases hd
  | cons e data ih =>
      rw [List.eraseP_cons, List.find?_cons]
      cases hp : p e with
      | true =>
          dsimp only [cond_true]
          rcases List.mem_cons.mp hd with rfl | htail
          · exact .inr rfl
          · exact .inl htail
      | false =>
          dsimp only [cond_false]
          rcases List.mem_cons.mp hd with rfl | htail
          · exact .inl List.mem_cons_self
          · rcases ih htail with herase | hfind
            · exact .inl (List.mem_cons_of_mem _ herase)
            · exact .inr hfind

theorem Inv.freeParam {param : ℕ} (hinv : s.Inv cfg)
    (hstep : s.freeParam cfg param = some s') : s'.Inv cfg := by
  obtain ⟨d, hd, rfl⟩ := Option.map_eq_some_iff.mp hstep
  refine ⟨?_, ?_, ?_, hinv.dsNumel_le_destination, hinv.oneStream⟩
  · exact hinv.isolated
  · intro n op hop j b hb
    cases hoverlap : cfg.overlapComm with
    | false =>
        have hmem := hop.mem
        change op ∈ s.computeStream.pending at hmem
        rw [hinv.oneStream hoverlap] at hmem
        cases hmem
    | true =>
        rcases hinv.held n op hop j b hb with ⟨e, he, hwithin⟩ | ⟨r, hr, hlt, hwithin⟩
        · rcases mem_eraseP_or_find? he (fun d => decide (d.1 = param)) with hkept | hfound
          · exact .inl ⟨e, hkept, hwithin⟩
          · cases hd.symm.trans hfound
            exact .inr ⟨_, List.mem_cons_self, hop.lt_issued, hwithin⟩
        · exact .inr ⟨r, List.mem_cons_of_mem _ hr, hlt, hwithin⟩
  · intro e he
    exact hinv.dsNumel_le e (List.mem_of_mem_eraseP he)

/-! ## Progress -/

theorem Inv.complete {gather : ℕ} (hinv : s.Inv cfg) : (s.complete gather).Inv cfg := by
  refine ⟨?_, hinv.held, hinv.dsNumel_le, ?_, hinv.oneStream⟩
  · apply hinv.isolated.mono
    · intro j g' hg' hincomplete
      obtain ⟨g, hg, rfl | rfl⟩ := getElem?_modify_some hg'
      · exact ⟨g', hg, hincomplete, rfl⟩
      · cases hincomplete
    · intro op hop
      exact .inl hop
  · intro g' hg' param hparam
    obtain ⟨g, hg, rfl | rfl⟩ := mem_modify hg'
    · exact hinv.dsNumel_le_destination g' hg param hparam
    · exact hinv.dsNumel_le_destination g hg param hparam

theorem Inv.executeAllgather {op : GpuOp} {stream : Stream GpuOp} (hinv : s.Inv cfg)
    (hexecute : s.allgatherStream.execute s.ready = some (op, stream)) :
    Inv cfg { s with allgatherStream := stream } := by
  obtain ⟨-, -, hpending, -⟩ := Stream.execute_eq_some hexecute
  refine ⟨?_, hinv.held, hinv.dsNumel_le, hinv.dsNumel_le_destination, hinv.oneStream⟩
  apply hinv.isolated.mono
  · intro j g hg hincomplete
    exact ⟨g, hg, hincomplete, rfl⟩
  · intro op' hop'
    left
    rcases List.mem_append.mp hop' with hallgather | hcompute
    · apply List.mem_append_left
      rw [hpending]
      exact List.mem_cons_of_mem _ hallgather
    · exact List.mem_append_right _ hcompute

theorem Inv.executeCompute {op : GpuOp} {stream : Stream GpuOp} (hinv : s.Inv cfg)
    (hexecute : s.computeStream.execute s.ready = some (op, stream)) :
    Inv cfg { s with computeStream := stream } := by
  obtain ⟨-, -, hpending, -⟩ := Stream.execute_eq_some hexecute
  refine ⟨?_, ?_, hinv.dsNumel_le, hinv.dsNumel_le_destination, ?_⟩
  · apply hinv.isolated.mono
    · intro j g hg hincomplete
      exact ⟨g, hg, hincomplete, rfl⟩
    · intro op' hop'
      left
      rcases List.mem_append.mp hop' with hallgather | hcompute
      · exact List.mem_append_left _ hallgather
      · apply List.mem_append_right
        rw [hpending]
        exact List.mem_cons_of_mem _ hcompute
  · intro n op' hop' j b hb
    exact hinv.held n op' (Stream.Holds.of_execute hexecute hop').1 j b hb
  · intro hone
    rw [hinv.oneStream hone] at hpending
    cases hpending

/-! ## Runs -/

theorem Inv.step {a : DestinationAction} (hunread : s.DestinationUnread cfg a)
    (hstep : s.step cfg a = some s') (hinv : s.Inv cfg) : s'.Inv cfg := by
  cases a with
  | request params base => exact hinv.request hunread hstep
  | wait gather bases => exact hinv.wait hstep
  | waitStream =>
      unfold DestinationState.step at hstep
      dsimp only at hstep
      split at hstep
      · cases hstep
        apply hinv.enqueueCompute
        · intro j _
          rfl
        · intro j b hb
          cases hb
      · cases hstep
        exact hinv
  | compute params => exact hinv.compute hstep
  | freeParam param => exact hinv.freeParam hstep
  | complete gather =>
      cases hstep
      exact hinv.complete
  | executeAllgather =>
      obtain ⟨⟨op, stream⟩, hexecute, rfl⟩ := Option.map_eq_some_iff.mp hstep
      exact hinv.executeAllgather hexecute
  | executeCompute =>
      obtain ⟨⟨op, stream⟩, hexecute, rfl⟩ := Option.map_eq_some_iff.mp hstep
      exact hinv.executeCompute hexecute

/-- A destination that is given out too early belongs to an incomplete AllGather
in the next state. -/
theorem destinationUnread_of_isolated {a : DestinationAction}
    (hisolated : ∀ s', s.step cfg a = some s' → s'.Isolated) :
    s.DestinationUnread cfg a := by
  cases a with
  | request params base =>
      intro block hblock op hop b hb
      have hblock : s.destination cfg params base = some block := hblock
      have hne : s.partitioned params ≠ [] := by
        intro hnil
        rw [destination, if_pos hnil] at hblock
        cases hblock
      have hstep := hisolated _ (show s.request cfg params base = some _ by
        rw [request, if_neg hne, hblock, Option.map_some])
      exact hstep s.gathers.length _ (List.getElem?_concat_length ..) rfl op
        (List.mem_append_left _ hop) b hb
  | wait | waitStream | compute | freeParam | complete | executeAllgather
  | executeCompute => trivial

/-- Destinations are isolated from the operations enqueued before if and only if
every request gets memory that nothing pending on the AllGather stream reads. -/
theorem isolated_iff (cfg : GatherConfig) (acts : List DestinationAction) :
    AllStates (step cfg) Isolated init acts ↔
      AllSteps (step cfg) (DestinationUnread cfg) init acts := by
  apply allStates_iff_allSteps (I := Inv cfg)
  · intro s a s' hunread hstep hinv
    exact hinv.step hunread hstep
  · intro s hinv
    exact hinv.isolated
  · intro s a _ hisolated
    exact destinationUnread_of_isolated hisolated
  · exact inv_init cfg

/-- Parameters of two elements on two ranks. -/
def twoRanks : GatherConfig where
  worldSize := 2
  worldSize_pos := Nat.zero_lt_two
  overlapComm := true
  useGpuFlag := true
  l2Prewarm := false
  dsNumel _ := 2
  dsNumel_lt _ := by norm_num
  shardNumel _ := 1

/-- A fetch of two parameters and the prefetch of the next two, which gets the
flat tensor that the fetch has freed. -/
def fetchPrefetch : List DestinationAction :=
  [.request [0, 1] 0, .complete 0, .wait 0 [4, 6], .waitStream, .request [2, 3] 0]

/-- The prefetch is in flight while the `torch.cat` of the fetch is pending. -/
theorem not_isolated_fetchPrefetch :
    ¬ AllStates (step twoRanks) Isolated init fetchPrefetch := by
  intro h
  have hrun : (run (step twoRanks) init fetchPrefetch).map
      (fun s => (s.gathers[1]?, s.allgatherStream.pending)) =
        some (some ⟨[2, 3], ⟨0, 4⟩, false, false⟩,
          [.waitValue 0, .kernel [⟨0, 1⟩, ⟨2, 1⟩] 1, .kernel [⟨1, 1⟩, ⟨3, 1⟩] 1]) := by
    decide +kernel
  obtain ⟨s, hs, heq⟩ := Option.map_eq_some_iff.mp hrun
  obtain ⟨hgather, hpending⟩ := Prod.mk.inj heq
  have hread : GpuOp.kernel [⟨0, 1⟩, ⟨2, 1⟩] 1 ∈ s.pending := by
    rw [pending, hpending]
    exact List.mem_append_left _ (List.mem_cons_of_mem _ List.mem_cons_self)
  have hapart := h.last hs 1 _ hgather rfl _ hread ⟨0, 1⟩ List.mem_cons_self
  exact hapart 0 Nat.one_pos 0 (by decide) rfl

end DestinationState

end SmartNic.Lifetime
