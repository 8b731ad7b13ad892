import Mathlib
import SmartNic.Lifetime.ReduceInvariant

/-!
# The input of a ReduceScatter stays final

Each action keeps the invariant: first those of the host between two calls, then
the calls up to the enqueue, then backward and the two streams.
-/

namespace SmartNic.Lifetime

open Machine Memory TrueDivision

variable {α : Type}

namespace ReduceState

variable {cfg : ReduceConfig α} {s s' : ReduceState α} {k : ℕ} {b : Block}

/-! ## Between calls -/

theorem filling_of_calm {host : Host α} (hcalm : calm host) : filling host := by
  cases host <;> trivial

theorem keeps_of_calm (hcalm : calm s.host) :
    s.Keeps cfg k b ↔
      s.pendingRs = some k ∧ ∃ t ∈ storages cfg s.partitioning, b.Within t := by
  unfold Keeps
  cases hhost : s.host with
  | idle | hook | drain | add | synchronize => exact Iff.rfl
  | avgScatter | built | enqueued =>
      rw [hhost] at hcalm
      exact hcalm.elim

/-- The host goes on and has the same gradient to add. -/
theorem Inv.setHost {host : Host α} (h : s.Inv cfg) (hcalm : calm s.host)
    (hnext : host.next = s.host.next)
    (hkeeps : ∀ k rs, s.reductions[k]? = some rs → rs.completed = false →
      Keeps cfg { s with host := host } k rs.source)
    (hbuilt : ∀ source aliased next, host ≠ .built source aliased next)
    (henqueued : ∀ source aliased k next, host ≠ .enqueued source aliased k next) :
    Inv cfg { s with host := host } where
  places :=
    { inFlat := h.places.inFlat
      outside := h.places.outside
      next := by
        dsimp only
        rw [hnext]
        exact h.places.next }
  ordered :=
    { located := h.ordered.located
      avoids := h.ordered.avoids
      fresh := by
        dsimp only
        rw [hnext]
        exact h.ordered.fresh
      reads := h.ordered.reads
      oneStream := h.ordered.oneStream }
  values _ := h.values (filling_of_calm hcalm)
  nextValues := by
    dsimp only
    rw [hnext]
    exact h.nextValues
  inFlight k rs hrs hincomplete :=
    have hflight := h.inFlight k rs hrs hincomplete
    ⟨hflight.queued, hflight.holds, hflight.pending, hkeeps k rs hrs hincomplete⟩
  built source aliased next hhost := absurd hhost (hbuilt source aliased next)
  quiet source aliased k next hhost := absurd hhost (henqueued source aliased k next)

/-- The host goes on between two calls. -/
theorem Inv.move {host : Host α} (h : s.Inv cfg) (hcalm : calm s.host)
    (hcalm' : calm host) (hnext : host.next = s.host.next) :
    Inv cfg { s with host := host } := by
  apply h.setHost hcalm hnext
  · intro k rs hrs hincomplete
    have hkeeps := (h.inFlight k rs hrs hincomplete).keeps
    exact (keeps_of_calm hcalm').mpr ((keeps_of_calm hcalm).mp hkeeps)
  · rintro source aliased next rfl
    exact hcalm'
  · rintro source aliased k next rfl
    exact hcalm'

/-- The host calls `__avg_scatter_grads` when no reduction is left. -/
theorem Inv.toAvgScatter {next : Option (Grad α)} (h : s.Inv cfg) (hcalm : calm s.host)
    (hnext : next = s.host.next) (hnone : ∀ rs ∈ s.reductions, rs.completed = true) :
    Inv cfg { s with host := .avgScatter next } := by
  refine h.setHost hcalm hnext ?_ ?_ ?_
  · intro k rs hrs hincomplete
    have hcompleted := hnone rs (List.mem_of_getElem? hrs)
    rw [hincomplete] at hcompleted
    cases hcompleted
  · intro source aliased next hhost
    cases hhost
  · intro source aliased k next hhost
    cases hhost

theorem subset_free {grads : List (Grad α)} : ∀ r ∈ s.recorded, r ∈ s.free cfg grads := by
  intro r hr
  unfold free
  split
  · exact List.mem_append_right _ hr
  · exact hr

theorem mem_free {grads : List (Grad α)} {g : Grad α} (hoverlap : cfg.overlapComm = true)
    (hg : g ∈ grads) (hown : g.own = true) :
    (g.block, s.reduceStream.issued) ∈ s.free cfg grads := by
  unfold free
  rw [if_pos hoverlap]
  apply List.mem_append_left
  exact List.mem_map_of_mem (mem_ownBlocks.mpr ⟨g, hg, hown, rfl⟩)

/-- The host waits for the pending reduction: then none is left. -/
theorem Inv.drainPending (h : s.Inv cfg) (hcalm : calm s.host)
    (hstep : s.drainPending cfg = some s') :
    s'.Inv cfg ∧ s'.host = s.host ∧ ∀ rs ∈ s'.reductions, rs.completed = true := by
  have hpending : ∀ rs ∈ s.reductions, rs.completed = false →
      ∃ k, s.pendingRs = some k ∧ s.reductions[k]? = some rs := by
    intro rs hrs hincomplete
    obtain ⟨k, hk⟩ := List.getElem?_of_mem hrs
    exact ⟨k, ((keeps_of_calm hcalm).mp (h.inFlight k rs hk hincomplete).keeps).1, hk⟩
  unfold ReduceState.drainPending at hstep
  split at hstep
  · rename_i hnone
    obtain rfl := Option.some.inj hstep
    refine ⟨h, rfl, ?_⟩
    intro rs hrs
    by_contra hincomplete
    obtain ⟨k, hk, -⟩ := hpending rs hrs (Bool.eq_false_iff.mpr hincomplete)
    rw [hnone] at hk
    cases hk
  · rename_i k hk
    split at hstep
    · rename_i hcompleted
      obtain rfl := Option.some.inj hstep
      have hdone : ∀ rs ∈ s.reductions, rs.completed = true := by
        intro rs hrs
        by_contra hincomplete
        obtain ⟨k', hk', hrs'⟩ := hpending rs hrs (Bool.eq_false_iff.mpr hincomplete)
        obtain rfl := Option.some.inj (hk.symm.trans hk')
        rw [hrs'] at hcompleted
        exact hincomplete hcompleted
      refine ⟨?_, rfl, hdone⟩
      exact
        { places := ⟨h.places.inFlat, h.places.outside, h.places.next⟩
          ordered :=
            { located := by
                intro hoverlap n op hop b hb
                rcases h.ordered.located hoverlap n op hop b hb with hbucket | ⟨r, hr, hlt⟩
                · exact .inl hbucket
                · exact .inr ⟨r, subset_free r hr, hlt⟩
              avoids := h.ordered.avoids
              fresh := h.ordered.fresh
              reads := h.ordered.reads
              oneStream := h.ordered.oneStream }
          values := h.values
          nextValues := h.nextValues
          inFlight := by
            intro k' rs hrs hincomplete
            have hcompleted' := hdone rs (List.mem_of_getElem? hrs)
            rw [hincomplete] at hcompleted'
            cases hcompleted'
          built := by
            intro source aliased next hhost
            change s.host = _ at hhost
            rw [hhost] at hcalm
            exact hcalm.elim
          quiet := h.quiet }
    · cases hstep

theorem elementsInIpgBucket_sortBucket :
    s.sortBucket.elementsInIpgBucket = s.elementsInIpgBucket := by
  apply List.Perm.sum_eq
  exact (List.perm_insertionSort _ s.bucket).map _

theorem mem_sortBucket {g : Grad α} : g ∈ s.sortBucket.bucket ↔ g ∈ s.bucket :=
  List.mem_insertionSort _

theorem Inv.sortBucket (h : s.Inv cfg) (hcalm : calm s.host) : s.sortBucket.Inv cfg where
  places :=
    { inFlat := by
        intro g hg
        rw [elementsInIpgBucket_sortBucket]
        exact h.places.inFlat g (mem_sortBucket.mp hg)
      outside := fun g hg => h.places.outside g (mem_sortBucket.mp hg)
      next := fun g hg =>
        have hnext := h.places.next g hg
        ⟨hnext.1, hnext.2.1, fun g' hg' => hnext.2.2 g' (mem_sortBucket.mp hg')⟩ }
  ordered :=
    { located := by
        intro hoverlap n op hop b hb
        rcases h.ordered.located hoverlap n op hop b hb with ⟨t, ht, hwithin⟩ | hrecorded
        · refine .inl ⟨t, ?_, hwithin⟩
          rcases List.mem_append.mp ht with hstorage | hpool
          · apply List.mem_append_left
            exact storages_mono (fun g hg => mem_sortBucket.mpr hg) hstorage
          · exact List.mem_append_right _ hpool
        · exact .inr hrecorded
      avoids := h.ordered.avoids
      fresh := h.ordered.fresh
      reads := h.ordered.reads
      oneStream := h.ordered.oneStream }
  values hfilling g hg := h.values hfilling g (mem_sortBucket.mp hg)
  nextValues := h.nextValues
  inFlight k rs hrs hincomplete :=
    have hflight := h.inFlight k rs hrs hincomplete
    ⟨hflight.queued, hflight.holds, hflight.pending,
      (keeps_of_calm (s := s.sortBucket) hcalm).mpr
        ((keeps_of_calm hcalm).mp hflight.keeps)⟩
  built source aliased next hhost := by
    change s.host = _ at hhost
    rw [hhost] at hcalm
    exact hcalm.elim
  quiet := h.quiet

theorem afterReduce_calm (next : Option (Grad α)) : calm (afterReduce next) := by
  cases next <;> trivial

theorem afterReduce_next (next : Option (Grad α)) : (afterReduce next).next = next := by
  cases next <;> rfl

theorem Inv.drain {next : Option (Grad α)} (h : s.Inv cfg) (hhost : s.host = .drain next)
    (hstep : s.drain cfg next = some s') : s'.Inv cfg := by
  have hcalm : calm s.host := by
    rw [hhost]
    trivial
  have hnext : s.host.next = next := by rw [hhost, Host.next]
  unfold ReduceState.drain at hstep
  split at hstep
  · obtain rfl := Option.some.inj hstep
    apply h.move hcalm (afterReduce_calm next)
    rw [afterReduce_next, hnext]
  · obtain ⟨s₁, hdrain, rfl⟩ := Option.map_eq_some_iff.mp hstep
    obtain ⟨h₁, hhost₁, hdone⟩ := (h.sortBucket hcalm).drainPending hcalm hdrain
    have hsame : s₁.host = s.host := hhost₁
    apply h₁.toAvgScatter _ _ hdone
    · rw [hsame]
      exact hcalm
    · rw [hsame]
      exact hnext.symm

theorem Inv.hook {grad : Grad α} (h : s.Inv cfg) (hhost : s.host = .hook grad) :
    (s.hook cfg grad).Inv cfg := by
  have hcalm : calm s.host := by
    rw [hhost]
    trivial
  unfold ReduceState.hook
  split
  · refine h.move hcalm trivial ?_
    rw [hhost]
    rfl
  · refine h.move hcalm trivial ?_
    rw [hhost]
    rfl

theorem Inv.zeroGrad (h : s.Inv cfg) (hcalm : calm s.host) :
    Inv cfg { s with kept := [] } where
  places := ⟨h.places.inFlat, h.places.outside, h.places.next⟩
  ordered :=
    ⟨h.ordered.located, h.ordered.avoids, h.ordered.fresh, h.ordered.reads,
      h.ordered.oneStream⟩
  values := h.values
  nextValues := h.nextValues
  inFlight k rs hrs hincomplete :=
    have hflight := h.inFlight k rs hrs hincomplete
    ⟨hflight.queued, hflight.holds, hflight.pending, hflight.keeps⟩
  built source aliased next hhost := by
    change s.host = _ at hhost
    rw [hhost] at hcalm
    exact hcalm.elim
  quiet := h.quiet

/-- The DPU completes a reduction: the others stay as they are. -/
theorem Inv.complete (h : s.Inv cfg) : (s.complete k).Inv cfg where
  places := ⟨h.places.inFlat, h.places.outside, h.places.next⟩
  ordered :=
    ⟨h.ordered.located, h.ordered.avoids, h.ordered.fresh, h.ordered.reads,
      h.ordered.oneStream⟩
  values := h.values
  nextValues := h.nextValues
  inFlight k' rs hrs hincomplete := by
    unfold ReduceState.complete at hrs
    dsimp only at hrs
    rw [List.getElem?_modify] at hrs
    obtain ⟨rs₀, hrs₀, hmodify⟩ := Option.map_eq_some_iff.mp hrs
    split at hmodify
    · rw [← hmodify] at hincomplete
      cases hincomplete
    · obtain rfl := hmodify
      have hflight := h.inFlight k' rs₀ hrs₀ hincomplete
      exact ⟨hflight.queued, hflight.holds, hflight.pending, hflight.keeps⟩
  built source aliased next hhost :=
    have hbuilt := h.built source aliased next hhost
    ⟨hbuilt.settled, hbuilt.kept, hbuilt.next, hbuilt.executed, hbuilt.last⟩
  quiet := h.quiet

/-! ## The two streams -/

theorem Inv.executeDefault (h : s.Inv cfg) (hstep : s.executeDefault = some s') :
    s'.Inv cfg := by
  obtain ⟨⟨kernel, stream⟩, hexecute, rfl⟩ := Option.map_eq_some_iff.mp hstep
  dsimp only
  have hsettled := settled_executeDefault hexecute
  have hholds : ∀ m w, stream.Holds m w → s.defaultStream.Holds m w :=
    fun m w hw => (Stream.Holds.of_execute hexecute hw).1
  obtain ⟨hhead, -, hpending, hexecuted⟩ := Stream.execute_eq_some hexecute
  have hmem : ∀ w ∈ stream.pending, w ∈ s.defaultStream.pending := by
    intro w hw
    rw [hpending]
    exact List.mem_cons_of_mem _ hw
  constructor
  · exact ⟨h.places.inFlat, h.places.outside, h.places.next⟩
  · constructor
    · exact h.ordered.located
    · intro op hop m w hw
      exact h.ordered.avoids op hop m w (hholds m w hw)
    · intro m w hw
      exact h.ordered.fresh m w (hholds m w hw)
    · intro w hw
      exact h.ordered.reads w (hmem w hw)
    · intro hone
      have hnil := h.ordered.oneStream hone
      rw [hpending] at hnil
      cases hnil
  · rw [hsettled]
    exact h.values
  · rw [hsettled]
    exact h.nextValues
  · intro k rs hrs hincomplete
    have hflight := h.inFlight k rs hrs hincomplete
    refine ⟨hflight.queued, ?_, fun w hw => hflight.pending w (hmem w hw), hflight.keeps⟩
    dsimp only
    rw [Kernel.load_exec_of_apart (hflight.pending kernel hhead.mem)]
    exact hflight.holds
  · intro source aliased next hhost
    have hbuilt := h.built source aliased next hhost
    refine ⟨?_, hbuilt.kept, hbuilt.next, ?_, hbuilt.last⟩
    · rw [hsettled]
      exact hbuilt.settled
    · intro hempty
      exact (hbuilt.executed hempty).trans (hexecuted ▸ Nat.le_succ _)
  · exact h.quiet

theorem Inv.executeReduce (h : s.Inv cfg) (hleft : s.InputLeft .executeReduce)
    (hstep : s.executeReduce = some s') : s'.Inv cfg := by
  obtain ⟨⟨op, stream⟩, hexecute, rfl⟩ := Option.map_eq_some_iff.mp hstep
  dsimp only
  have hholds : ∀ n op', stream.Holds n op' → s.reduceStream.Holds n op' :=
    fun n op' hop => (Stream.Holds.of_execute hexecute hop).1
  obtain ⟨hhead, hready, hpending, hexecuted⟩ := Stream.execute_eq_some hexecute
  have hready : op.after ≤ s.defaultStream.executed := of_decide_eq_true hready
  have hmem : ∀ op' ∈ stream.pending, op' ∈ s.reduceStream.pending := by
    intro op' hop
    rw [hpending]
    exact List.mem_cons_of_mem _ hop
  have hsettled := settled_executeReduce hexecute h.ordered.reads (by
    intro w hw
    obtain ⟨m, hm⟩ := Stream.exists_holds hw
    exact h.ordered.avoids op hhead.mem m w hm (hready.trans hm.1))
  constructor
  · exact ⟨h.places.inFlat, h.places.outside, h.places.next⟩
  · constructor
    · intro hoverlap n op' hop
      exact h.ordered.located hoverlap n op' (hholds n op' hop)
    · intro op' hop
      exact h.ordered.avoids op' (hmem op' hop)
    · exact h.ordered.fresh
    · exact h.ordered.reads
    · exact h.ordered.oneStream
  · rw [hsettled]
    exact h.values
  · rw [hsettled]
    exact h.nextValues
  · intro k rs hrs hincomplete
    have hflight := h.inFlight k rs hrs hincomplete
    have hapart : op.kernel.target.Apart rs.source := by
      apply hleft op _ rs (List.mem_of_getElem? hrs) hincomplete
      rw [hpending]
      rfl
    refine ⟨?_, ?_, hflight.pending, hflight.keeps⟩
    · exact hflight.queued.trans (hexecuted ▸ Nat.le_succ _)
    · dsimp only
      rw [Kernel.load_exec_of_apart hapart]
      exact hflight.holds
  · intro source aliased next hhost
    have hbuilt := h.built source aliased next hhost
    refine ⟨?_, hbuilt.kept, hbuilt.next, ?_, ?_⟩
    · rw [hsettled]
      exact hbuilt.settled
    · intro hempty
      have hlast := hbuilt.last op (by rw [hpending, hempty]; rfl)
      rw [← hlast]
      exact hready
    · intro op' hop
      apply hbuilt.last op'
      rw [hpending, List.getLast?_cons, Option.mem_def.mp hop]
      rfl
  · intro source aliased k next hhost
    have hquiet := h.quiet source aliased k next hhost
    rw [hpending] at hquiet
    cases hquiet

/-! ## Kernels of the reduce stream -/

/-- A kernel is queued on the reduce stream. -/
theorem Ordered.queueReduce {kernel : Kernel α} (h : s.Ordered cfg)
    (hlocated : cfg.overlapComm = true → ∀ b ∈ kernel.target :: kernel.reads,
      s.Located cfg s.reduceStream.issued b)
    (havoids : ∀ m w, s.defaultStream.Holds m w → s.waited ≤ m → kernel.Avoids w.target) :
    (s.queueReduce kernel).Ordered cfg where
  located := by
    intro hoverlap n op hop b hb
    rcases hop.of_push with hold | ⟨rfl, rfl⟩
    · exact h.located hoverlap n op hold b hb
    · exact hlocated hoverlap b hb
  avoids := by
    intro op hop m w hw hafter
    rcases Stream.mem_push.mp hop with hold | rfl
    · exact h.avoids op hold m w hw hafter
    · exact havoids m w hw hafter
  fresh := h.fresh
  reads := h.reads
  oneStream := h.oneStream

/-- Memory in use stays in use when more is. -/
theorem Ordered.grow (h : s.Ordered cfg) (hreduce : s'.reduceStream = s.reduceStream)
    (hdefault : s'.defaultStream = s.defaultStream) (hwaited : s'.waited = s.waited)
    (hnext : s'.host.next = s.host.next) (hbucket : ∀ g ∈ s.bucket, g ∈ s'.bucket)
    (hpool : ∀ t ∈ s.reducePool, t ∈ s'.reducePool)
    (hrecorded : ∀ r ∈ s.recorded, r ∈ s'.recorded) : s'.Ordered cfg where
  located := by
    rw [hreduce]
    intro hoverlap n op hop b hb
    rcases h.located hoverlap n op hop b hb with ⟨t, ht, hwithin⟩ | ⟨r, hr, hlt⟩
    · refine .inl ⟨t, ?_, hwithin⟩
      rcases List.mem_append.mp ht with hstorage | hmem
      · exact List.mem_append_left _ (storages_mono hbucket hstorage)
      · exact List.mem_append_right _ (hpool t hmem)
    · exact .inr ⟨r, hrecorded r hr, hlt⟩
  avoids := by
    rw [hreduce, hdefault]
    exact h.avoids
  fresh := by
    rw [hdefault, hwaited, hnext]
    exact h.fresh
  reads := by
    rw [hdefault]
    exact h.reads
  oneStream := by
    rw [hdefault]
    exact h.oneStream

/-- The reduce stream waits for the default stream. -/
theorem Ordered.wait (h : s.Ordered cfg) :
    Ordered cfg { s with waited := s.defaultStream.issued, host := .idle } where
  located := h.located
  avoids := h.avoids
  fresh _ _ hw hle := absurd hw.lt_issued (not_lt.mpr hle)
  reads := h.reads
  oneStream := h.oneStream

theorem Places.storages (h : s.Places cfg) {g : Grad α} (hg : g ∈ s.bucket) :
    ∃ t ∈ storages cfg s.bucket, g.block.Within t := by
  cases hown : g.own with
  | false => exact ⟨cfg.flatBuffer, List.mem_cons_self, (h.inFlat g hg hown).1⟩
  | true =>
      refine ⟨g.block, ?_, Block.Within.refl _⟩
      exact mem_storages.mpr (.inr ⟨g, hg, hown, rfl⟩)

theorem Places.located (h : s.Places cfg) {g : Grad α} (hg : g ∈ s.bucket)
    (hb : b.Within g.block) (n : ℕ) : s.Located cfg n b := by
  obtain ⟨t, ht, hwithin⟩ := h.storages hg
  exact .inl ⟨t, List.mem_append_left _ ht, hb.trans hwithin⟩

/-! ## From `__avg_scatter_grads` to the enqueue -/

theorem Inv.enqueueRs {source : Block} {aliased : Bool} {next : Option (Grad α)}
    (h : s.Inv cfg) (hhost : s.host = .built source aliased next)
    (hexecuted : s.reduceStream.pending = []) :
    (s.enqueueRs cfg source aliased next).Inv cfg := by
  have hnext : s.host.next = next := by rw [hhost, Host.next]
  have hbuilt := h.built source aliased next hhost
  have hpending : ∀ w ∈ s.defaultStream.pending, w.target.Apart source := by
    intro w hw
    obtain ⟨m, hm⟩ := Stream.exists_holds hw
    obtain ⟨g, hg, htarget⟩ := h.ordered.fresh m w hm ((hbuilt.executed hexecuted).trans hm.1)
    rw [htarget]
    exact hbuilt.next g hg
  have hholds : load s.mem source = load s.settled source := by
    unfold ReduceState.settled
    rw [hexecuted]
    exact (Kernel.load_execAll_of_apart hpending).symm
  constructor
  · exact ⟨h.places.inFlat, h.places.outside, hnext ▸ h.places.next⟩
  · exact h.ordered.grow rfl rfl rfl hnext.symm (fun _ => id) (fun _ => id) (fun _ => id)
  · exact False.elim
  · exact hnext ▸ h.nextValues
  · intro k rs hrs hincomplete
    unfold ReduceState.enqueueRs at hrs
    dsimp only at hrs
    rcases lt_or_ge k s.reductions.length with hlt | hge
    · rw [List.getElem?_append_left hlt] at hrs
      have hkeeps := (h.inFlight k rs hrs hincomplete).keeps
      unfold Keeps at hkeeps
      rw [hhost] at hkeeps
      exact hkeeps.elim
    · rw [List.getElem?_append_right hge] at hrs
      obtain ⟨hzero, rfl⟩ := List.getElem?_eq_some_iff.mp hrs
      rw [List.length_singleton] at hzero
      rw [List.getElem_singleton]
      refine ⟨?_, ?_, hpending, ?_⟩
      · dsimp only
        rw [Stream.issued, hexecuted]
        exact le_rfl
      · dsimp only
        change Matches (load s.mem source) _
        rw [hholds]
        exact hbuilt.settled
      · exact ⟨by omega, rfl, hbuilt.kept⟩
  · intro source aliased next hhost
    cases hhost
  · intro source aliased k next _
    exact hexecuted

theorem Inv.returnRs {source : Block} {aliased : Bool} {next : Option (Grad α)}
    (h : s.Inv cfg) (hhost : s.host = .enqueued source aliased k next)
    (hdone : aliased = true ∨ ∀ rs ∈ s.reductions[k]?, rs.completed = true) :
    (s.returnRs k next).Inv cfg := by
  have hnext : (afterReduce next).next = s.host.next := by
    rw [afterReduce_next, hhost, Host.next]
  have hquiet := h.quiet source aliased k next hhost
  have hcalm : calm (s.returnRs k next).host := afterReduce_calm next
  constructor
  · constructor
    · intro g hg
      cases hg
    · intro g hg
      cases hg
    · intro g hg
      change g ∈ (afterReduce next).next at hg
      rw [hnext] at hg
      have hg := h.places.next g hg
      exact ⟨hg.1, hg.2.1, fun g' hg' => absurd hg' List.not_mem_nil⟩
  · constructor
    · intro _ n op hop
      have hmem : op ∈ s.reduceStream.pending := hop.mem
      rw [hquiet] at hmem
      cases hmem
    · exact h.ordered.avoids
    · change ∀ m w, s.defaultStream.Holds m w → s.waited ≤ m →
        ∃ g ∈ (afterReduce next).next, w.target = g.block
      rw [hnext]
      exact h.ordered.fresh
    · exact h.ordered.reads
    · exact h.ordered.oneStream
  · intro _ g hg
    cases hg
  · change ∀ g ∈ (afterReduce next).next, load s.settled g.block = g.values
    rw [hnext]
    exact h.nextValues
  · intro k' rs hrs hincomplete
    have hflight := h.inFlight k' rs hrs hincomplete
    have hkeeps := hflight.keeps
    unfold Keeps at hkeeps
    rw [hhost] at hkeeps
    obtain ⟨rfl, -, hkept⟩ := hkeeps
    refine ⟨hflight.queued, hflight.holds, hflight.pending, (keeps_of_calm hcalm).mpr ⟨rfl, ?_⟩⟩
    apply hkept
    rcases hdone with haliased | hcompleted
    · exact haliased
    · have hcompleted := hcompleted rs hrs
      rw [hincomplete] at hcompleted
      cases hcompleted
  · intro source aliased next' hbuilt
    rw [hbuilt] at hcalm
    exact hcalm.elim
  · intro source aliased k' next' henqueued
    rw [henqueued] at hcalm
    exact hcalm.elim

/-! ## `__avg_scatter_grads` -/

/-- The last kernel that produces a source is queued. -/
theorem Inv.toBuilt {s₀ : ReduceState α} {kernel : Kernel α} {source : Block}
    {aliased : Bool} {next : Option (Grad α)} (h : s.Inv cfg)
    (hhost : s.host = .avgScatter next) (hhost₀ : s₀.host = s.host)
    (hbucket : s₀.bucket = s.bucket) (hreductions : s₀.reductions = s.reductions)
    (hordered : (s₀.queueReduce kernel).Ordered cfg)
    (hnextValues : ∀ g ∈ s.host.next, load (kernel.exec s₀.settled) g.block = g.values)
    (hsource : Matches (load (kernel.exec s₀.settled) source) (expected cfg s.bucket))
    (hkept : aliased = true → ∃ t ∈ storages cfg s.bucket, source.Within t)
    (hapart : ∀ g ∈ s.host.next, g.block.Apart source) :
    Inv cfg { s₀.queueReduce kernel with host := .built source aliased next } := by
  have hnext : s.host.next = next := by rw [hhost, Host.next]
  have hplaces := h.places
  rw [hnext] at hnextValues hapart
  have hsettled : ReduceState.settled
      { s₀.queueReduce kernel with host := .built source aliased next } =
        kernel.exec s₀.settled := settled_queueReduce kernel
  constructor
  · constructor
    · change ∀ g ∈ s₀.bucket, g.own = false → g.block.Within cfg.flatBuffer ∧
        g.block.base + g.block.size ≤ cfg.flatBase + s₀.elementsInIpgBucket
      unfold elementsInIpgBucket
      rw [hbucket]
      exact hplaces.inFlat
    · change ∀ g ∈ s₀.bucket, g.own = true → g.block.Apart cfg.flatBuffer
      rw [hbucket]
      exact hplaces.outside
    · change ∀ g ∈ next, g.own = true ∧ g.block.Apart cfg.flatBuffer ∧
        ∀ h ∈ s₀.bucket, g.block.Apart h.block
      rw [hbucket, ← hnext]
      exact hplaces.next
  · refine hordered.grow rfl rfl rfl ?_ (fun _ => id) (fun _ => id) (fun _ => id)
    change next = s₀.host.next
    rw [hhost₀, hnext]
  · exact False.elim
  · rw [hsettled]
    exact hnextValues
  · intro k rs hrs hincomplete
    change s₀.reductions[k]? = some rs at hrs
    rw [hreductions] at hrs
    have hkeeps := (h.inFlight k rs hrs hincomplete).keeps
    unfold Keeps at hkeeps
    rw [hhost] at hkeeps
    exact hkeeps.elim
  · intro source' aliased' next' hbuilt
    obtain ⟨rfl, rfl, rfl⟩ := Host.built.inj hbuilt
    constructor
    · rw [hsettled]
      change Matches _ (expected cfg s₀.bucket)
      rw [hbucket]
      exact hsource
    · change aliased = true → ∃ t ∈ storages cfg s₀.bucket, source.Within t
      rw [hbucket]
      exact hkept
    · exact hapart
    · intro hempty
      exact absurd hempty (List.append_ne_nil_of_right_ne_nil _ (List.cons_ne_nil _ _))
    · intro op hop
      change op ∈ (s₀.reduceStream.pending ++ [_]).getLast? at hop
      rw [List.getLast?_concat] at hop
      obtain rfl := Option.some.inj hop
      rfl
  · intro source aliased k next' henqueued
    cases henqueued

/-- A bucket that is a single gradient is divided where it is. -/
theorem Inv.avgScatterAliased {grad : Grad α} {next : Option (Grad α)} (h : s.Inv cfg)
    (hhost : s.host = .avgScatter next) (haliased : aliasedGrad cfg s.bucket = some grad) :
    Inv cfg { s.queueReduce (divKernel cfg.preDivide grad.block) with
      host := .built grad.block true next } := by
  have hgrad : grad ∈ s.bucket := by
    rw [mem_of_aliasedGrad haliased]
    exact List.mem_singleton_self grad
  have hvalues : load s.settled grad.block = grad.values := by
    apply h.values _ grad hgrad
    rw [hhost]
    trivial
  have hapart : ∀ g ∈ s.host.next, g.block.Apart grad.block :=
    fun g hg => (h.places.next g hg).2.2 grad hgrad
  apply h.toBuilt hhost rfl rfl rfl
  · apply h.ordered.queueReduce
    · intro _ b hb
      apply h.places.located hgrad _ _
      rcases List.mem_cons.mp hb with rfl | hread
      · exact Block.Within.refl _
      · rw [List.mem_singleton.mp hread]
        exact Block.Within.refl _
    · intro m w hw hle
      obtain ⟨g, hg, htarget⟩ := h.ordered.fresh m w hw hle
      have hsymm := (hapart g hg).symm
      rw [htarget]
      refine ⟨hsymm, ?_⟩
      intro r hr
      rw [List.mem_singleton.mp hr]
      exact hsymm
  · intro g hg
    rw [Kernel.load_exec_of_apart (hapart g hg).symm]
    exact h.nextValues g hg
  · have hload : load ((divKernel cfg.preDivide grad.block).exec s.settled) grad.block =
        (load s.settled grad.block).map cfg.preDivide :=
      Kernel.load_exec_target (k := divKernel cfg.preDivide grad.block)
    rw [hload, hvalues, expected, haliased]
    exact matches_map cfg.preDivide grad.values
  · intro _
    exact h.places.storages hgrad
  · exact hapart

theorem tensors_live {t : Block} (ht : t ∈ s.tensors cfg) : t ∈ s.live cfg :=
  List.mem_append_left _ ht

theorem Places.next_live (h : s.Places cfg) {g : Grad α} (hg : g ∈ s.host.next) :
    g.block ∈ s.live cfg := by
  apply tensors_live
  apply List.mem_cons_of_mem
  apply List.mem_append_left
  apply List.mem_append_right
  exact mem_ownBlocks.mpr ⟨g, Option.mem_toList.mpr hg, (h.next g hg).1, rfl⟩

/-- A bucket is interleaved by `torch.cat`, and its output divided. -/
theorem Inv.avgScatterCat {next : Option (Grad α)} {base : ℕ} {junk : ℕ → ℕ → ℕ → α}
    {cat : Kernel α} (h : s.Inv cfg) (hhost : s.host = .avgScatter next)
    (hcat : cat = catKernel (partitionsWithPadding cfg junk s.bucket) base)
    (hnone : aliasedGrad cfg s.bucket = none)
    (hfree : ∀ l ∈ s.live cfg, cat.target.Apart l) :
    Inv cfg { (s.queueReduce cat).queueReduce (divKernel cfg.preDivide cat.target) with
      reducePool := cat.target :: s.reducePool
      host := .built cat.target false next } := by
  have hvalues : ∀ g ∈ s.bucket, load s.settled g.block = g.values := by
    apply h.values
    rw [hhost]
    trivial
  have hapart : ∀ g ∈ s.host.next, g.block.Apart cat.target :=
    fun g hg => (hfree g.block (h.places.next_live hg)).symm
  have hreads : ∀ b ∈ cat.reads, ∃ g ∈ s.bucket, b.Within g.block := by
    rw [hcat]
    intro b hb
    exact within_of_mem_reads hb
  have hpool : Ordered cfg { s with reducePool := cat.target :: s.reducePool } :=
    h.ordered.grow rfl rfl rfl rfl (fun _ => id) (fun _ => List.mem_cons_of_mem _)
      (fun _ => id)
  have hlocated : ∀ n, Located cfg { s with reducePool := cat.target :: s.reducePool } n
      cat.target :=
    fun n => .inl ⟨cat.target, List.mem_append_right _ List.mem_cons_self,
      Block.Within.refl _⟩
  have hfirst : ({ s with reducePool := cat.target :: s.reducePool }.queueReduce cat).Ordered
      cfg := by
    apply hpool.queueReduce
    · intro _ b hb
      rcases List.mem_cons.mp hb with rfl | hread
      · exact hlocated _
      · obtain ⟨g, hg, hwithin⟩ := hreads b hread
        obtain ⟨t, ht, hgt⟩ := h.places.storages hg
        exact .inl ⟨t, List.mem_append_left _ ht, hwithin.trans hgt⟩
    · intro m w hw hle
      obtain ⟨g, hg, htarget⟩ := h.ordered.fresh m w hw hle
      rw [htarget]
      refine ⟨(hapart g hg).symm, ?_⟩
      intro r hr
      obtain ⟨g', hg', hwithin⟩ := hreads r hr
      exact (((h.places.next g hg).2.2 g' hg').within hwithin).symm
  have hsettled : ({ s with reducePool := cat.target :: s.reducePool }.queueReduce
      cat).settled = cat.exec s.settled := settled_queueReduce cat
  have hbuilt : Inv cfg { ({ s with reducePool := cat.target :: s.reducePool }.queueReduce
      cat).queueReduce (divKernel cfg.preDivide cat.target) with
        host := .built cat.target false next } := by
    refine h.toBuilt hhost ?_ ?_ ?_ ?_ ?_ ?_ ?_ hapart
    · rfl
    · rfl
    · rfl
    · apply hfirst.queueReduce
      · intro _ b hb
        rcases List.mem_cons.mp hb with rfl | hread
        · exact hlocated _
        · rw [List.mem_singleton.mp hread]
          exact hlocated _
      · intro m w hw hle
        obtain ⟨g, hg, htarget⟩ := h.ordered.fresh m w hw hle
        rw [htarget]
        refine ⟨(hapart g hg).symm, ?_⟩
        intro r hr
        rw [List.mem_singleton.mp hr]
        exact (hapart g hg).symm
    · intro g hg
      rw [hsettled, Kernel.load_exec_of_apart (k := divKernel cfg.preDivide cat.target)
        (hapart g hg).symm, Kernel.load_exec_of_apart (hapart g hg).symm]
      exact h.nextValues g hg
    · have hdiv : load ((divKernel cfg.preDivide cat.target).exec (cat.exec s.settled))
          cat.target = (load (cat.exec s.settled) cat.target).map cfg.preDivide :=
        Kernel.load_exec_target (k := divKernel cfg.preDivide cat.target)
      rw [hsettled, hdiv, Kernel.load_exec_target, expected, hnone, hcat]
      exact matches_partitionsWithPadding hvalues
    · intro haliased
      cases haliased
  exact hbuilt

theorem Inv.avgScatter {next : Option (Grad α)} {base : ℕ} {junk : ℕ → ℕ → ℕ → α}
    (h : s.Inv cfg) (hhost : s.host = .avgScatter next)
    (hstep : s.avgScatter cfg next base junk = some s') : s'.Inv cfg := by
  unfold ReduceState.avgScatter at hstep
  split at hstep
  · rename_i grad haliased
    obtain rfl := Option.some.inj hstep
    exact h.avgScatterAliased hhost haliased
  · rename_i hnone
    dsimp only at hstep
    split at hstep
    · rename_i hfree
      obtain rfl := Option.some.inj hstep
      exact h.avgScatterCat hhost rfl hnone hfree
    · cases hstep

/-! ## `__add_grad_to_ipg_bucket` -/

/-- What stays of a state whose streams get work and whose bucket grows. -/
structure Extends (s s' : ReduceState α) : Prop where
  mem_eq : s'.mem = s.mem
  partitioning_eq : s'.partitioning = s.partitioning
  pendingRs_eq : s'.pendingRs = s.pendingRs
  reductions_eq : s'.reductions = s.reductions
  executed_eq : s'.reduceStream.executed = s.reduceStream.executed

/-- Reductions in flight between calls do not see what is queued, if nothing on the
default stream writes their sources. -/
theorem InFlight.extend {rs : Reduction α} (h : s.InFlight cfg k rs) (hcalm : calm s.host)
    (hcalm' : calm s'.host) (hext : s.Extends s')
    (hpending : ∀ w ∈ s'.defaultStream.pending, w ∈ s.defaultStream.pending ∨
      w.target.Apart rs.source) : s'.InFlight cfg k rs where
  queued := by
    rw [hext.executed_eq]
    exact h.queued
  holds := by
    rw [hext.mem_eq]
    exact h.holds
  pending w hw := (hpending w hw).elim (h.pending w) id
  keeps := by
    rw [keeps_of_calm hcalm', hext.pendingRs_eq, hext.partitioning_eq]
    exact (keeps_of_calm hcalm).mp h.keeps

/-- A gradient enters the bucket, at the place it has or at the end of the flat
buffer. -/
theorem Inv.addToBucket {grad grad' : Grad α} (h : s.Inv cfg) (hhost : s.host = .add grad)
    (hhost' : s'.host = .idle) (hbucket : s'.bucket = s.bucket ++ [grad'])
    (hext : s.Extends s') (hdefault : s'.defaultStream = s.defaultStream)
    (hordered : s'.Ordered cfg)
    (hflat : grad'.own = false → grad'.block.Within cfg.flatBuffer ∧
      grad'.block.base = cfg.flatBase + s.elementsInIpgBucket)
    (hout : grad'.own = true → grad'.block.Apart cfg.flatBuffer)
    (hvalues : ∀ g ∈ s.bucket ++ [grad'], load s'.settled g.block = g.values) :
    s'.Inv cfg := by
  have hcalm : calm s.host := by
    rw [hhost]
    trivial
  have hcalm' : calm s'.host := by
    rw [hhost']
    trivial
  have helements : s'.elementsInIpgBucket = s.elementsInIpgBucket + grad'.block.size := by
    unfold elementsInIpgBucket
    rw [hbucket, List.map_append, List.sum_append, List.map_singleton, List.sum_singleton]
  constructor
  · constructor
    · rw [hbucket, helements]
      intro g hg hown
      rcases List.mem_append.mp hg with hold | hnew
      · obtain ⟨hwithin, hend⟩ := h.places.inFlat g hold hown
        exact ⟨hwithin, by omega⟩
      · obtain rfl := List.mem_singleton.mp hnew
        obtain ⟨hwithin, hbase⟩ := hflat hown
        exact ⟨hwithin, by omega⟩
    · rw [hbucket]
      intro g hg hown
      rcases List.mem_append.mp hg with hold | hnew
      · exact h.places.outside g hold hown
      · obtain rfl := List.mem_singleton.mp hnew
        exact hout hown
    · rw [hhost']
      intro g hg
      cases hg
  · exact hordered
  · rw [hbucket]
    exact fun _ => hvalues
  · rw [hhost']
    intro g hg
    cases hg
  · rw [hext.reductions_eq]
    intro k rs hrs hincomplete
    apply (h.inFlight k rs hrs hincomplete).extend hcalm hcalm' hext
    rw [hdefault]
    exact fun w hw => .inl hw
  · intro source aliased next hbuilt
    rw [hbuilt] at hhost'
    cases hhost'
  · intro source aliased k next henqueued
    rw [henqueued] at hhost'
    cases hhost'

/-- A gradient is copied to the end of the flat buffer. -/
theorem Inv.addCopied {grad : Grad α} {base : ℕ} {recorded : List (Block × ℕ)}
    (h : s.Inv cfg) (hhost : s.host = .add grad)
    (hbase : base = cfg.flatBase + s.elementsInIpgBucket)
    (hcontiguous : cfg.contiguousGradients = true)
    (hroom : s.elementsInIpgBucket + grad.block.size < cfg.reduceBucketSize)
    (hrecorded : ∀ r ∈ s.recorded, r ∈ recorded)
    (hfreed : cfg.overlapComm = true →
      (grad.block, s.reduceStream.issued + 1) ∈ recorded) :
    Inv cfg (ReduceState.queueReduce { s with
      waited := s.defaultStream.issued
      host := .idle
      bucket := s.bucket ++ [{ grad with block := ⟨base, grad.block.size⟩, own := false }]
      recorded := recorded } (copyKernel grad.block base)) := by
  have hnext : grad ∈ s.host.next := by
    rw [hhost]
    rfl
  have hwithin : Block.Within ⟨base, grad.block.size⟩ cfg.flatBuffer := by
    unfold ReduceConfig.flatBuffer
    rw [if_pos hcontiguous, hbase]
    constructor
    · exact Nat.le_add_right _ _
    · dsimp only
      omega
  have hapart : ∀ g ∈ s.bucket, Block.Apart ⟨base, grad.block.size⟩ g.block := by
    intro g hg
    cases hown : g.own with
    | false =>
        apply Block.Apart.symm
        apply Block.apart_of_le
        rw [hbase]
        exact (h.places.inFlat g hg hown).2
    | true => exact ((h.places.outside g hg hown).within hwithin).symm
  have hgrown : Ordered cfg { s with
      waited := s.defaultStream.issued
      host := .idle
      bucket := s.bucket ++ [{ grad with block := ⟨base, grad.block.size⟩, own := false }]
      recorded := recorded } :=
    h.ordered.wait.grow rfl rfl rfl rfl (fun _ => List.mem_append_left _) (fun _ => id)
      hrecorded
  refine h.addToBucket hhost rfl rfl ⟨rfl, rfl, rfl, rfl, rfl⟩ rfl ?_ ?_ ?_ ?_
  · apply hgrown.queueReduce
    · intro hoverlap b hb
      rcases List.mem_cons.mp hb with rfl | hread
      · exact .inl ⟨cfg.flatBuffer, List.mem_cons_self, hwithin⟩
      · rw [List.mem_singleton.mp hread]
        exact .inr ⟨_, hfreed hoverlap, Nat.lt_succ_self _, Block.Within.refl _⟩
    · intro m w hw hle
      exact absurd hw.lt_issued (not_lt.mpr hle)
  · exact fun _ => ⟨hwithin, hbase⟩
  · intro hown
    cases hown
  · intro g hg
    have hsettled : load (ReduceState.settled (ReduceState.queueReduce { s with
        waited := s.defaultStream.issued
        host := .idle
        bucket := s.bucket ++ [{ grad with block := ⟨base, grad.block.size⟩, own := false }]
        recorded := recorded } (copyKernel grad.block base))) g.block =
          load ((copyKernel grad.block base).exec s.settled) g.block := by
      rw [settled_queueReduce]
      rfl
    rw [hsettled]
    rcases List.mem_append.mp hg with hold | hnew
    · rw [Kernel.load_exec_of_apart (k := copyKernel grad.block base) (hapart g hold)]
      apply h.values _ g hold
      rw [hhost]
      trivial
    · rw [List.mem_singleton.mp hnew]
      have hload : load ((copyKernel grad.block base).exec s.settled)
          ⟨base, grad.block.size⟩ = load s.settled grad.block :=
        Kernel.load_exec_target (k := copyKernel grad.block base)
      exact hload.trans (h.nextValues grad hnext)

/-- A gradient stays where it is. -/
theorem Inv.addInPlace {grad : Grad α} (h : s.Inv cfg) (hhost : s.host = .add grad) :
    Inv cfg { s with
      waited := s.defaultStream.issued
      host := .idle
      bucket := s.bucket ++ [grad] } := by
  have hnext : grad ∈ s.host.next := by
    rw [hhost]
    rfl
  have hgrad := h.places.next grad hnext
  refine h.addToBucket hhost rfl rfl ⟨rfl, rfl, rfl, rfl, rfl⟩ rfl ?_ ?_ ?_ ?_
  · exact h.ordered.wait.grow rfl rfl rfl rfl (fun _ => List.mem_append_left _)
      (fun _ => id) (fun _ => id)
  · intro hown
    rw [hgrad.1] at hown
    cases hown
  · exact fun _ => hgrad.2.1
  · intro g hg
    rcases List.mem_append.mp hg with hold | hnew
    · apply h.values _ g hold
      rw [hhost]
      trivial
    · rw [List.mem_singleton.mp hnew]
      exact h.nextValues grad hnext

theorem Inv.addGrad {grad : Grad α} (h : s.Inv cfg) (hhost : s.host = .add grad) :
    (s.addGrad cfg grad).Inv cfg := by
  have hgrad := h.places.next grad (by rw [hhost]; rfl)
  unfold ReduceState.addGrad
  dsimp only
  split
  · rename_i hcopy
    let copied : ReduceState α := ReduceState.queueReduce
      { s with waited := s.defaultStream.issued, host := .idle }
      (copyKernel grad.block (cfg.flatBase + s.elementsInIpgBucket))
    have hissued : copied.reduceStream.issued = s.reduceStream.issued + 1 :=
      Stream.issued_push
    have hfreed : cfg.overlapComm = true →
        (grad.block, s.reduceStream.issued + 1) ∈ copied.free cfg [grad] := by
      intro hoverlap
      rw [← hissued]
      exact mem_free hoverlap (List.mem_singleton_self grad) hgrad.1
    have hinv := h.addCopied hhost rfl hcopy.1 hcopy.2 (subset_free (s := copied)) hfreed
    exact hinv
  · exact h.addInPlace hhost

/-! ## Backward -/

theorem allocateDefault_eq_some {base size : ℕ}
    (hallocate : s.allocateDefault cfg base size = some b) :
    b = ⟨base, size⟩ ∧ (∀ l ∈ s.live cfg, b.Apart l) ∧
      (cfg.overlapComm = true → ∀ l ∈ s.reducePool, b.Apart l) := by
  obtain ⟨hfree, hblock⟩ := Option.ite_none_right_eq_some.mp hallocate
  obtain rfl := Option.some.inj hblock
  refine ⟨rfl, fun l hl => hfree l (List.mem_append_left _ hl), ?_⟩
  intro hoverlap l hl
  apply hfree l
  rw [if_pos hoverlap]
  exact List.mem_append_right _ hl

/-- Pending kernels of the reduce stream only access memory that the allocator
does not hand out. -/
theorem Inv.avoids_allocated (h : s.Inv cfg) (hoverlap : cfg.overlapComm = true)
    (hlive : ∀ l ∈ s.live cfg, b.Apart l) (hpool : ∀ l ∈ s.reducePool, b.Apart l) :
    ∀ op ∈ s.reduceStream.pending, op.kernel.Avoids b := by
  intro op hop
  obtain ⟨n, hn⟩ := Stream.exists_holds hop
  have hall : ∀ c ∈ op.kernel.target :: op.kernel.reads, c.Apart b := by
    intro c hc
    rcases h.ordered.located hoverlap n op hn c hc with ⟨t, ht, hwithin⟩ | ⟨r, hr, hlt, hwithin⟩
    · rcases List.mem_append.mp ht with hstorage | hmem
      · exact ((hlive t (tensors_live (storages_bucket hstorage))).within hwithin).symm
      · exact ((hpool t hmem).within hwithin).symm
    · have hrecorded : r.1 ∈ s.live cfg := by
        apply List.mem_append_right
        apply List.mem_map_of_mem
        exact List.mem_filter.mpr ⟨hr, decide_eq_true (lt_of_le_of_lt hn.1 hlt)⟩
      exact ((hlive r.1 hrecorded).within hwithin).symm
  exact ⟨hall _ List.mem_cons_self, fun c hc => hall c (List.mem_cons_of_mem _ hc)⟩

theorem extends_queueDefault {kernel : Kernel α} {host : Host α} :
    s.Extends { s.queueDefault cfg kernel with host := host } := by
  unfold queueDefault
  split <;> exact ⟨rfl, rfl, rfl, rfl, rfl⟩

theorem bucket_queueDefault {kernel : Kernel α} :
    (s.queueDefault cfg kernel).bucket = s.bucket := by
  unfold queueDefault
  split <;> rfl

theorem mem_queueDefault {kernel w : Kernel α}
    (hw : w ∈ (s.queueDefault cfg kernel).defaultStream.pending) :
    w ∈ s.defaultStream.pending ∨ w = kernel := by
  unfold queueDefault at hw
  split at hw
  · exact Stream.mem_push.mp hw
  · exact .inl hw

/-- Backward queues the write of a new gradient. -/
theorem Ordered.queueDefault {kernel : Kernel α} {grad : Grad α} (h : s.Ordered cfg)
    (hidle : s.host.next = none) (hreads : kernel.reads = [])
    (htarget : kernel.target = grad.block)
    (havoids : cfg.overlapComm = true → ∀ op ∈ s.reduceStream.pending,
      op.kernel.Avoids kernel.target) :
    Ordered cfg { s.queueDefault cfg kernel with host := .hook grad } := by
  have hfresh : ∀ m w, s.defaultStream.Holds m w → ¬ s.waited ≤ m := by
    intro m w hw hle
    obtain ⟨g, hg, -⟩ := h.fresh m w hw hle
    rw [hidle] at hg
    cases hg
  unfold ReduceState.queueDefault
  split
  · rename_i hoverlap
    constructor
    · exact h.located
    · intro op hop m w hw hafter
      rcases hw.of_push with hold | ⟨-, rfl⟩
      · exact h.avoids op hop m w hold hafter
      · exact havoids hoverlap op hop
    · intro m w hw hle
      rcases hw.of_push with hold | ⟨-, rfl⟩
      · exact absurd hle (hfresh m w hold)
      · exact ⟨grad, rfl, htarget⟩
    · intro w hw
      rcases Stream.mem_push.mp hw with hold | rfl
      · exact h.reads w hold
      · exact hreads
    · intro hone
      rw [hone] at hoverlap
      cases hoverlap
  · rename_i hone
    have hempty : s.defaultStream.pending = [] := h.oneStream (Bool.eq_false_iff.mpr hone)
    constructor
    · exact fun hoverlap => absurd hoverlap hone
    · intro op _ m w hw
      have hmem := hw.mem
      change w ∈ s.defaultStream.pending at hmem
      rw [hempty] at hmem
      cases hmem
    · intro m w hw hle
      exact absurd hle (hfresh m w hw)
    · exact h.reads
    · exact fun _ => hempty

theorem Inv.backward {param base : ℕ} {values : List α} (h : s.Inv cfg)
    (hhost : s.host = .idle)
    (hnew : ∀ g ∈ s.bucket ++ s.partitioning ++ s.kept, g.param ≠ param)
    (hstep : s.backward cfg param base values = some s') : s'.Inv cfg := by
  unfold ReduceState.backward at hstep
  split at hstep
  · rename_i g hfind
    have hparam := List.find?_some hfind
    exact absurd (of_decide_eq_true hparam) (hnew g (List.mem_of_find?_eq_some hfind))
  · obtain ⟨block, hallocate, rfl⟩ := Option.map_eq_some_iff.mp hstep
    obtain ⟨rfl, hlive, hpool⟩ := allocateDefault_eq_some hallocate
    have hstorage : ∀ g ∈ s.bucket, Block.Apart ⟨base, values.length⟩ g.block := by
      intro g hg
      obtain ⟨t, ht, hwithin⟩ := h.places.storages hg
      exact (hlive t (tensors_live (storages_bucket ht))).within hwithin
    have havoids : cfg.overlapComm = true → ∀ op ∈ s.reduceStream.pending,
        op.kernel.Avoids (writeKernel base values).target :=
      fun hoverlap => h.avoids_allocated hoverlap hlive (hpool hoverlap)
    have hsettled : ReduceState.settled { s.queueDefault cfg (writeKernel base values) with
        host := .hook ⟨param, ⟨base, values.length⟩, values, true⟩ } =
          (writeKernel base values).exec s.settled :=
      settled_queueDefault rfl havoids
    have hcalm : calm s.host := by
      rw [hhost]
      trivial
    have hnone : s.host.next = none := by rw [hhost, Host.next]
    have hbucket : (s.queueDefault cfg (writeKernel base values)).bucket = s.bucket :=
      bucket_queueDefault
    have helements : (s.queueDefault cfg (writeKernel base values)).elementsInIpgBucket =
        s.elementsInIpgBucket := by
      unfold elementsInIpgBucket
      rw [hbucket]
    constructor
    · constructor
      · intro g hg hown
        have hflat := h.places.inFlat g (hbucket ▸ hg) hown
        exact ⟨hflat.1, hflat.2.trans_eq (congrArg _ helements.symm)⟩
      · intro g hg hown
        exact h.places.outside g (hbucket ▸ hg) hown
      · intro g hg
        obtain rfl := Option.some.inj hg
        refine ⟨rfl, hlive cfg.flatBuffer (tensors_live List.mem_cons_self), ?_⟩
        intro g hg
        exact hstorage g (hbucket ▸ hg)
    · exact h.ordered.queueDefault hnone rfl rfl havoids
    · rw [hsettled]
      intro _ g hg
      have hg : g ∈ s.bucket := hbucket ▸ hg
      rw [Kernel.load_exec_of_apart (k := writeKernel base values) (hstorage g hg)]
      exact h.values (filling_of_calm hcalm) g hg
    · rw [hsettled]
      intro g hg
      obtain rfl := Option.some.inj hg
      exact Kernel.load_exec_target (k := writeKernel base values)
    · intro k rs hrs hincomplete
      have hext : s.Extends { s.queueDefault cfg (writeKernel base values) with
          host := .hook ⟨param, ⟨base, values.length⟩, values, true⟩ } := extends_queueDefault
      rw [hext.reductions_eq] at hrs
      have hflight := h.inFlight k rs hrs hincomplete
      refine hflight.extend hcalm trivial hext ?_
      intro w hw
      rcases mem_queueDefault hw with hold | rfl
      · exact .inl hold
      · obtain ⟨t, ht, hwithin⟩ := hflight.keeps.tensors
        exact .inr ((hlive t (tensors_live ht)).within hwithin)
    · intro source aliased next hbuilt
      cases hbuilt
    · intro source aliased k next henqueued
      cases henqueued

/-! ## Runs -/

theorem Inv.hostStep {base : ℕ} {junk : ℕ → ℕ → ℕ → α} (h : s.Inv cfg)
    (hleft : s.InputLeft (.host base junk)) (hstep : s.hostStep cfg base junk = some s') :
    s'.Inv cfg := by
  unfold ReduceState.hostStep at hstep
  cases hhost : s.host with
  | idle =>
      rw [hhost] at hstep
      cases hstep
  | hook grad =>
      rw [hhost] at hstep
      obtain rfl := Option.some.inj hstep
      exact h.hook hhost
  | drain next =>
      rw [hhost] at hstep
      exact h.drain hhost hstep
  | avgScatter next =>
      rw [hhost] at hstep
      exact h.avgScatter hhost hstep
  | built source aliased next =>
      rw [hhost] at hstep
      obtain rfl := Option.some.inj hstep
      apply h.enqueueRs hhost
      unfold InputLeft at hleft
      rw [hhost] at hleft
      exact hleft
  | enqueued source aliased k next =>
      rw [hhost] at hstep
      obtain rfl := Option.some.inj hstep
      apply h.returnRs hhost
      unfold InputLeft at hleft
      rw [hhost] at hleft
      exact hleft
  | add grad =>
      rw [hhost] at hstep
      obtain rfl := Option.some.inj hstep
      exact h.addGrad hhost
  | synchronize =>
      rw [hhost] at hstep
      obtain ⟨-, hidle⟩ := Option.ite_none_right_eq_some.mp hstep
      obtain rfl := Option.some.inj hidle
      refine h.move ?_ trivial ?_
      · rw [hhost]
        trivial
      · rw [hhost]
        rfl

/-- A step that leaves the input of the reductions alone keeps the invariant. -/
theorem Inv.step {a : ReduceAction α} (h : s.Inv cfg) (hleft : s.InputLeft a)
    (hstep : s.step cfg a = some s') : s'.Inv cfg := by
  cases a with
  | backward param base values =>
      unfold ReduceState.step at hstep
      dsimp only at hstep
      split at hstep
      · rename_i hhost
        exact h.backward hhost hleft hstep
      · cases hstep
  | epilogue =>
      unfold ReduceState.step at hstep
      dsimp only at hstep
      split at hstep
      · rename_i hhost
        obtain rfl := Option.some.inj hstep
        refine h.move ?_ trivial ?_
        · rw [hhost]
          trivial
        · rw [hhost]
          rfl
      · cases hstep
  | host base junk => exact h.hostStep hleft hstep
  | flush =>
      unfold ReduceState.step at hstep
      dsimp only at hstep
      split at hstep
      · rename_i hhost
        refine (h.drainPending ?_ hstep).1
        rw [hhost]
        trivial
      · cases hstep
  | zeroGrad =>
      unfold ReduceState.step at hstep
      dsimp only at hstep
      split at hstep
      · rename_i hhost _ _
        obtain rfl := Option.some.inj hstep
        apply h.zeroGrad
        rw [hhost]
        trivial
      · cases hstep
  | complete k =>
      obtain rfl := Option.some.inj hstep
      exact h.complete
  | executeDefault => exact h.executeDefault hstep
  | executeReduce => exact h.executeReduce hleft hstep

/-- In every run whose steps meet the condition, what the DPU reads is final in every
state reached. -/
theorem inputFinal_of_inputLeft {mem : ℕ → α} {acts : List (ReduceAction α)}
    (hleft : AllSteps (step cfg) InputLeft (init mem) acts) :
    AllStates (step cfg) (InputFinal cfg) (init mem) acts :=
  hleft.allStates (fun _ _ _ hP hstep hs => Inv.step hs hP hstep)
    (fun _ hs => Inv.inputFinal hs) (inv_init cfg mem)

/-- Two ranks with buckets of four elements, and a division that rounds down. -/
def twoRanks : ReduceConfig ℕ where
  worldSize := 2
  rank := 0
  reduceBucketSize := 4
  contiguousGradients := true
  overlapComm := true
  flatBase := 100
  preDivide x := x / 2
  accumulate x y := x + y

/-- A padded bucket whose reduction completes within the call, and then a bucket
with a single gradient that the DPU still reads. -/
theorem inputFinal_twoBuckets :
    ∃ acts : List (ReduceAction ℕ),
      AllSteps (step twoRanks) InputLeft (init fun _ => 0) acts ∧
      (run (step twoRanks) (init fun _ => 0) acts).map (fun s => s.reductions.map
        fun rs => load s.mem rs.source) = some [[1, 2, 3, 0], [4, 5, 6, 7]] ∧
      AllStates (step twoRanks) (InputFinal twoRanks) (init fun _ => 0) acts := by
  let host (base : ℕ) : ReduceAction ℕ := .host base fun _ _ _ => 0
  let acts : List (ReduceAction ℕ) :=
    [.backward 0 0 [2, 4, 6], host 0, host 0, .backward 1 10 [8, 10, 12, 14], host 0,
      host 0, host 20, .executeDefault, .executeDefault, .executeReduce, .executeReduce,
      .executeReduce, host 0, .complete 0, host 0, host 0, .epilogue, host 0, host 0,
      .executeReduce, host 0, host 0, host 0]
  have hleft : AllSteps (step twoRanks) InputLeft (init fun _ => 0) acts := by
    decide +kernel
  exact ⟨acts, hleft, by decide +kernel, inputFinal_of_inputLeft hleft⟩

/-- The reduction of a single gradient is enqueued while its copy and its division
are pending. -/
theorem not_inputFinal_pendingKernels :
    ¬ ∀ acts : List (ReduceAction ℕ),
      AllStates (step twoRanks) (InputFinal twoRanks) (init fun _ => 0) acts := by
  intro h
  let host : ReduceAction ℕ := .host 20 fun _ _ _ => 0
  have hrun : (run (step twoRanks) (init fun _ => 0)
      [.backward 0 0 [2, 4], host, host, .epilogue, host, host, host]).map
      (fun s => (s.reductions.map fun rs => (rs.queued, rs.completed),
        s.reduceStream.executed)) = some ([(2, false)], 0) := by
    decide +kernel
  obtain ⟨s, hs, hvalues⟩ := Option.map_eq_some_iff.mp hrun
  obtain ⟨hreductions, hexecuted⟩ := Prod.mk.inj hvalues
  have hmem : (2, false) ∈ s.reductions.map fun rs => (rs.queued, rs.completed) := by
    rw [hreductions]
    exact List.mem_singleton_self _
  obtain ⟨rs, hrs, hpair⟩ := List.mem_map.mp hmem
  obtain ⟨hqueued, hincomplete⟩ := Prod.mk.inj hpair
  have hfinal := ((h _).last hs rs hrs hincomplete).1
  rw [hqueued, hexecuted] at hfinal
  exact absurd hfinal (by decide)

end ReduceState

end SmartNic.Lifetime
