import SmartNic.Library.Machine
import SmartNic.RemoteMemory.Rmem

/-!
# Isolation of remote memories

A field that a command has set holds a descriptor of the command's buffer that
its cache still holds, and so one that is alive, as long as no other command
sets it.
-/

namespace SmartNic.RemoteMemory

open SmartNic.Codec SmartNic.Collective SmartNic.Completion SmartNic.Machine
open SmartNic.OwnedCache

/-! ## The caches -/

/-- The caches are sound; what they hold is for their rail, and its key is its
buffer unless its range is unknown. -/
structure CacheOk (cache : RmemCache) : Prop where
  sound : cache.Sound
  rail : ∀ f i e, cache.slot f i = some e → e.resource.value.rail = f.2
  key : ∀ f i e, cache.slot f i = some e →
    e.key = (0, 0) ∨ e.key = e.resource.value.buffer

theorem CacheOk.empty : CacheOk .empty where
  sound := .empty
  rail _ _ _ h := by cases h
  key _ _ _ h := by cases h

theorem CacheOk.insertNew {cache : RmemCache} (h : CacheOk cache)
    (f : RmemField) (buffer : HostBuffer) (known : Bool) :
    CacheOk (cache.insertNew rmemCacheHash f (if known then buffer else (0, 0))
      ⟨buffer, f.2⟩) := by
  refine ⟨h.sound.insertNew, ?_, ?_⟩
  · intro f' i e he
    rcases Store.insertNew_slot_cases he with ⟨rfl, -, rfl⟩ | ⟨hold, -⟩
    · rfl
    · exact h.rail f' i e hold
  · intro f' i e he
    rcases Store.insertNew_slot_cases he with ⟨rfl, -, rfl⟩ | ⟨hold, -⟩
    · cases known
      · exact .inl rfl
      · exact .inr rfl
    · exact h.key f' i e hold

/-! ## The fields -/

section Fields

variable {s : State} {f f' : RmemField} {buffer : HostBuffer}
  {created : Option Bool}

/-- A valid field holds a descriptor of the buffer that is still cached. -/
def State.Right (s : State) (f : RmemField) (buffer : HostBuffer) : Prop :=
  ∀ m, s.rmem f = some m →
    s.cache.Holds f m.remoteMmap ∧ m.remoteMmap.value = ⟨buffer, f.2⟩

/-- The field is valid too. -/
def State.Has (s : State) (f : RmemField) (buffer : HostBuffer) : Prop :=
  (s.rmem f).isSome ∧ s.Right f buffer

theorem State.fetch_run : (s.fetch f buffer created).run = s.run := by
  unfold State.fetch
  split
  · rfl
  · split <;> rfl

/-- What a field gets, and what becomes of the caches. -/
theorem State.fetch_spec (h : CacheOk s.cache) (hbuffer : buffer ≠ (0, 0)) :
    CacheOk (s.fetch f buffer created).cache ∧
      (s.fetch f buffer created).Right f buffer ∧
      ∀ f', f' ≠ f → ∀ other, s.Right f' other →
        (s.fetch f buffer created).Right f' other ∧
          (s.fetch f buffer created).rmem f' = s.rmem f' := by
  unfold State.fetch
  cases hfind : rmemCacheFind s.cache f buffer with
  | some mmap =>
      refine ⟨h, ?_, ?_⟩
      · intro m hm
        dsimp only at hm ⊢
        rw [Function.update_self] at hm
        obtain rfl := Option.some.inj hm
        obtain ⟨e, he, hkey, rfl⟩ := Store.find_cases hfind
        refine ⟨⟨_, e, he, rfl⟩, ?_⟩
        have hrail := h.rail _ _ _ he
        have hrange : e.resource.value.buffer = buffer := by
          rcases h.key _ _ _ he with hzero | hsame
          · exact absurd (hkey.symm.trans hzero) hbuffer
          · exact hsame.symm.trans hkey
        rw [← hrange, ← hrail]
      · intro f' hne other hright
        have hsame : Function.update s.rmem f (some ⟨mmap, buffer⟩) f' =
            s.rmem f' := Function.update_of_ne hne _ _
        refine ⟨?_, hsame⟩
        intro m hm
        exact hright m (hsame.symm.trans hm)
  | none =>
      cases created with
      | none =>
          refine ⟨h, ?_, ?_⟩
          · intro m hm
            dsimp only at hm
            rw [Function.update_self] at hm
            cases hm
          · intro f' hne other hright
            have hsame : Function.update s.rmem f none f' = s.rmem f' :=
              Function.update_of_ne hne _ _
            refine ⟨?_, hsame⟩
            intro m hm
            exact hright m (hsame.symm.trans hm)
      | some known =>
          refine ⟨h.insertNew f buffer known, ?_, ?_⟩
          · intro m hm
            dsimp only at hm ⊢
            rw [Function.update_self] at hm
            obtain rfl := Option.some.inj hm
            exact ⟨Store.insertNew_holds, rfl⟩
          · intro f' hne other hright
            refine ⟨?_, Function.update_of_ne hne _ _⟩
            intro m hm
            dsimp only at hm
            rw [Function.update_of_ne hne] at hm
            obtain ⟨hholds, hvalue⟩ := hright m hm
            exact ⟨hholds.insertNew hne, hvalue⟩

theorem State.Right.fetch {other : HostBuffer} (h : s.Right f' other)
    (hcache : CacheOk s.cache) (hbuffer : buffer ≠ (0, 0)) (hne : f' ≠ f) :
    (s.fetch f buffer created).Right f' other :=
  ((State.fetch_spec hcache hbuffer).2.2 f' hne other h).1

theorem State.Has.fetch {other : HostBuffer} (h : s.Has f' other)
    (hcache : CacheOk s.cache) (hbuffer : buffer ≠ (0, 0)) (hne : f' ≠ f) :
    (s.fetch f buffer created).Has f' other := by
  obtain ⟨hright, hsame⟩ :=
    (State.fetch_spec hcache hbuffer).2.2 f' hne other h.2
  refine ⟨?_, hright⟩
  rw [hsame]
  exact h.1

end Fields

/-! ## The invariant -/

section Invariant

variable {cfg : Config} {s s' : State}

/-- The fields that a command has set by a stage are right. -/
def Stage.Ready (cfg : Config) (s : State) (cmd : Cmd) : Stage → Prop
  | .srcRmem | .direct => True
  | .dstRmem => s.Has (.src, .rail0) cmd.src
  | .srcRmemRail1 => s.Has (.src, .rail0) cmd.src ∧ s.Has (.dst, .rail0) cmd.dst
  | .dstRmemRail1 =>
      (s.Has (.src, .rail0) cmd.src ∧ s.Has (.dst, .rail0) cmd.dst) ∧
        s.Right (.src, .rail1) cmd.src
  | .plan => (s.Has (.src, .rail0) cmd.src ∧ s.Has (.dst, .rail0) cmd.dst) ∧
      (cfg.dualRail && cmd.srcRkeyRail1 →
        s.Right (.src, .rail1) cmd.src ∧ s.Right (.dst, .rail1) cmd.dst)
  | .tasks useDual =>
      (s.Has (.src, .rail0) cmd.src ∧ s.Has (.dst, .rail0) cmd.dst) ∧
        (useDual → 2 ≤ cmd.numPieces cfg →
          s.Has (.src, .rail1) cmd.src ∧ s.Has (.dst, .rail1) cmd.dst)

/-- The mmap of a task is of the command's buffer and still cached. -/
def RdmaTask.Kept (s : State) (cmd : Cmd) (task : RdmaTask) : Prop :=
  ∃ m, task.mmap = some m ∧ s.cache.Holds (task.side, task.rail) m ∧
    m.value = ⟨cmd.buffer task.side, task.rail⟩

structure Running.Ok (cfg : Config) (s : State) (x : Running) : Prop where
  ready : x.stage.Ready cfg s x.cmd
  kept : ∀ task ∈ x.inflight, task.Kept s x.cmd
  idle : (∀ useDual, x.stage ≠ .tasks useDual) → x.inflight = []
  buffers : x.stage ≠ .direct → x.cmd.src ≠ (0, 0) ∧ x.cmd.dst ≠ (0, 0)

structure State.Inv (cfg : Config) (s : State) : Prop where
  cache : CacheOk s.cache
  running : ∀ t x, s.run t = some x → x.Ok cfg s
  alone : ∀ t u x y, s.run t = some x → s.run u = some y →
    x.stage ≠ .direct → y.stage ≠ .direct → t = u

theorem State.Inv.init : State.init.Inv cfg where
  cache := .empty
  running _ _ h := by cases h
  alone _ _ _ _ h := by cases h

theorem State.Inv.isolated (h : s.Inv cfg) : s.Isolated := by
  intro t x hx task htask
  obtain ⟨m, hm, hholds, hvalue⟩ := (h.running t x hx).kept task htask
  exact ⟨m, hm, h.cache.sound.holds_live hholds, hvalue⟩

/-- A command that needs no remote memories does not care about them. -/
theorem Running.Ok.of_direct {x : Running} (h : x.Ok cfg s)
    (hdirect : x.stage = .direct) : x.Ok cfg s' := by
  have hnone : x.inflight = [] := h.idle fun useDual => by
    rw [hdirect]
    nofun
  constructor
  · rw [hdirect]
    trivial
  · rw [hnone]
    nofun
  · exact fun _ => hnone
  · exact fun hne => absurd hdirect hne

/-- One thread goes on while the others do nothing; those that need the fields
are not there if the fields or the caches change. -/
theorem State.Inv.setRun (h : s.Inv cfg) {t : Thread} {x : Option Running}
    (hcache : CacheOk s'.cache) (hrun : s'.run = s.run)
    (hok : ∀ y, x = some y → y.Ok cfg s')
    (hothers : s' = s ∨ ∀ u y, u ≠ t → s.run u = some y → y.stage = .direct)
    (halone : ∀ y, x = some y → y.stage ≠ .direct →
      ∀ u z, u ≠ t → s.run u = some z → z.stage = .direct) :
    (s'.setRun t x).Inv cfg := by
  have hcases : ∀ u y, (s'.setRun t x).run u = some y →
      (u = t ∧ x = some y) ∨ (u ≠ t ∧ s.run u = some y) := by
    intro u y hu
    unfold State.setRun at hu
    dsimp only at hu
    by_cases hut : u = t
    · subst hut
      rw [Function.update_self] at hu
      exact .inl ⟨rfl, hu⟩
    · rw [Function.update_of_ne hut, hrun] at hu
      exact .inr ⟨hut, hu⟩
  constructor
  · exact hcache
  · intro u y hu
    rcases hcases u y hu with ⟨-, hy⟩ | ⟨hut, hu⟩
    · obtain ⟨hready, hkept, hidle, hbuffers⟩ := hok y hy
      refine ⟨?_, hkept, hidle, hbuffers⟩
      cases hstage : y.stage <;> rw [hstage] at hready <;> exact hready
    · have hy := h.running u y hu
      rcases hothers with rfl | hdirect
      · obtain ⟨hready, hkept, hidle, hbuffers⟩ := hy
        refine ⟨?_, hkept, hidle, hbuffers⟩
        cases hstage : y.stage <;> rw [hstage] at hready <;> exact hready
      · exact hy.of_direct (hdirect u y hut hu)
  · intro u v y z hu hv hy hz
    rcases hcases u y hu with ⟨rfl, hx⟩ | ⟨hut, hu'⟩
    · rcases hcases v z hv with ⟨rfl, -⟩ | ⟨hvt, hv'⟩
      · rfl
      · exact absurd (halone y hx hy v z hvt hv') hz
    · rcases hcases v z hv with ⟨rfl, hx⟩ | ⟨hvt, hv'⟩
      · exact absurd (halone z hx hz u y hut hu') hy
      · exact h.alone u v y z hu' hv' hy hz

/-- Nobody else needs the fields while a command does. -/
theorem State.Inv.others (h : s.Inv cfg) {t u : Thread} {x y : Running}
    (hx : s.run t = some x) (hstage : x.stage ≠ .direct) (hut : u ≠ t)
    (hy : s.run u = some y) : y.stage = .direct := by
  by_contra hne
  exact hut (h.alone u t y x hy hx hne hstage)

/-! ## The actions -/

theorem State.Inv.start (h : s.Inv cfg) {t : Thread} {cmd : Cmd}
    (hexclusive : Exclusive cfg s (.start t cmd))
    (hstep : s.step cfg (.start t cmd) = some s') : s'.Inv cfg := by
  unfold State.step at hstep
  dsimp only at hstep
  split at hstep
  · cases hstep
  · obtain rfl := Option.some.inj hstep
    refine h.setRun h.cache rfl ?_ (.inl rfl) ?_
    · intro y hy
      obtain rfl := Option.some.inj hy
      refine ⟨?_, nofun, fun _ => rfl, ?_⟩
      · dsimp only
        split <;> trivial
      · intro hne
        dsimp only at hne ⊢
        split at hne
        · exact absurd rfl hne
        next hdirect => exact (hexclusive (eq_false_of_ne_true hdirect)).2
    · intro y hy hne u z _ hu
      obtain rfl := Option.some.inj hy
      dsimp only at hne
      split at hne
      · exact absurd rfl hne
      next hdirect => exact (hexclusive (eq_false_of_ne_true hdirect)).1 u z hu

/-- A thread fetches a descriptor and goes to a stage that is ready then, or
leaves. -/
theorem State.Inv.fetch (h : s.Inv cfg) {t : Thread} {x : Running}
    {f : RmemField} {buffer : HostBuffer} {created : Option Bool}
    (hx : s.run t = some x) (hstage : x.stage ≠ .direct)
    (hidle : ∀ useDual, x.stage ≠ .tasks useDual) (hbuffer : buffer ≠ (0, 0))
    (stage : Option Stage)
    (hready : ∀ k, stage = some k →
      k.Ready cfg (s.fetch f buffer created) x.cmd) :
    ((s.fetch f buffer created).setRun t
      (stage.map fun k => { x with stage := k })).Inv cfg := by
  have hok := h.running t x hx
  have hnone : x.inflight = [] := hok.idle hidle
  have hothers : ∀ u y, u ≠ t → s.run u = some y → y.stage = .direct :=
    fun u y hut hy => h.others hx hstage hut hy
  refine h.setRun (State.fetch_spec h.cache hbuffer).1 State.fetch_run ?_
    (.inr hothers) (fun _ _ _ => hothers)
  intro y hy
  obtain ⟨k, hk, rfl⟩ := Option.map_eq_some_iff.mp hy
  refine ⟨hready k hk, ?_, fun _ => hnone, fun _ => hok.buffers hstage⟩
  dsimp only
  rw [hnone]
  nofun

theorem State.Inv.setRmem (h : s.Inv cfg) {t : Thread} {created : Option Bool}
    (hstep : s.step cfg (.setRmem t created) = some s') : s'.Inv cfg := by
  unfold State.step at hstep
  dsimp only at hstep
  split at hstep
  next x hx =>
    have hok := h.running t x hx
    have hready := hok.ready
    unfold State.setNext at hstep
    cases hstage : x.stage with
    | srcRmem =>
        have hne : x.stage ≠ .direct := by rw [hstage]; nofun
        have hidle : ∀ useDual, x.stage ≠ .tasks useDual := by rw [hstage]; nofun
        obtain ⟨hsrc, -⟩ := hok.buffers hne
        rw [hstage] at hstep
        obtain rfl := Option.some.inj hstep
        dsimp only
        split
        next hvalid =>
          refine h.fetch hx hne hidle hsrc (some .dstRmem) ?_
          intro k hk
          obtain rfl := Option.some.inj hk
          exact ⟨hvalid, (State.fetch_spec h.cache hsrc).2.1⟩
        · exact h.fetch hx hne hidle hsrc none nofun
    | dstRmem =>
        have hne : x.stage ≠ .direct := by rw [hstage]; nofun
        have hidle : ∀ useDual, x.stage ≠ .tasks useDual := by rw [hstage]; nofun
        obtain ⟨-, hdst⟩ := hok.buffers hne
        rw [hstage] at hstep hready
        obtain rfl := Option.some.inj hstep
        have hsrcs : (s.fetch (.dst, .rail0) x.cmd.dst created).Has
            (.src, .rail0) x.cmd.src := hready.fetch h.cache hdst nofun
        have hdsts : (s.fetch (.dst, .rail0) x.cmd.dst created).Right
            (.dst, .rail0) x.cmd.dst := (State.fetch_spec h.cache hdst).2.1
        dsimp only
        split
        next hvalid =>
          refine h.fetch hx hne hidle hdst
            (some (if cfg.dualRail && x.cmd.srcRkeyRail1 then .srcRmemRail1
              else .plan)) ?_
          intro k hk
          obtain rfl := Option.some.inj hk
          split
          · exact ⟨hsrcs, hvalid, hdsts⟩
          next hrail1 =>
            exact ⟨⟨hsrcs, hvalid, hdsts⟩, fun hcmd => absurd hcmd hrail1⟩
        · exact h.fetch hx hne hidle hdst none nofun
    | srcRmemRail1 =>
        have hne : x.stage ≠ .direct := by rw [hstage]; nofun
        have hidle : ∀ useDual, x.stage ≠ .tasks useDual := by rw [hstage]; nofun
        obtain ⟨hsrc, -⟩ := hok.buffers hne
        rw [hstage] at hstep hready
        obtain rfl := Option.some.inj hstep
        refine h.fetch hx hne hidle hsrc (some .dstRmemRail1) ?_
        intro k hk
        obtain rfl := Option.some.inj hk
        exact ⟨⟨hready.1.fetch h.cache hsrc nofun,
          hready.2.fetch h.cache hsrc nofun⟩,
          (State.fetch_spec h.cache hsrc).2.1⟩
    | dstRmemRail1 =>
        have hne : x.stage ≠ .direct := by rw [hstage]; nofun
        have hidle : ∀ useDual, x.stage ≠ .tasks useDual := by rw [hstage]; nofun
        obtain ⟨-, hdst⟩ := hok.buffers hne
        rw [hstage] at hstep hready
        obtain rfl := Option.some.inj hstep
        have hdsts : (s.fetch (.dst, .rail1) x.cmd.dst created).Right
            (.dst, .rail1) x.cmd.dst := (State.fetch_spec h.cache hdst).2.1
        refine h.fetch hx hne hidle hdst (some .plan) ?_
        intro k hk
        obtain rfl := Option.some.inj hk
        refine ⟨⟨hready.1.1.fetch h.cache hdst nofun,
          hready.1.2.fetch h.cache hdst nofun⟩, fun _ => ?_⟩
        exact ⟨hready.2.fetch h.cache hdst nofun, hdsts⟩
    | plan => rw [hstage] at hstep; cases hstep
    | tasks useDual => rw [hstage] at hstep; cases hstep
    | direct => rw [hstage] at hstep; cases hstep
  · cases hstep

/-- Both rails are in use only if the fields of rail 1 are right. -/
theorem State.Inv.plan (h : s.Inv cfg) {t : Thread}
    (hexclusive : Exclusive cfg s (.plan t))
    (hstep : s.step cfg (.plan t) = some s') : s'.Inv cfg := by
  unfold State.step at hstep
  dsimp only at hstep
  split at hstep
  next cmd inflight hx =>
    obtain rfl := Option.some.inj hstep
    have hok := h.running t _ hx
    obtain ⟨hrail0, hrail1⟩ := hok.ready
    have hnone : inflight = [] := hok.idle nofun
    refine h.setRun h.cache rfl ?_ (.inl rfl) ?_
    · intro y hy
      obtain rfl := Option.some.inj hy
      refine ⟨⟨hrail0, ?_⟩, ?_, fun _ => hnone, fun _ => hok.buffers nofun⟩
      · intro hdual hpieces
        have hcmd : cmd.srcRkeyRail1 := hexclusive _ hx hpieces hdual
        unfold State.useDual at hdual
        simp only [Bool.and_eq_true] at hdual
        obtain ⟨⟨⟨-, hdualRail⟩, hsrc⟩, hdst⟩ := hdual
        obtain ⟨hsrcs, hdsts⟩ := hrail1 (Bool.and_eq_true_iff.mpr
          ⟨hdualRail, hcmd⟩)
        exact ⟨⟨hsrc, hsrcs⟩, hdst, hdsts⟩
      · dsimp only
        rw [hnone]
        nofun
    · intro y _ _ u z hut hu
      exact h.others hx nofun hut hu
  · cases hstep

/-- The field of a piece is right. -/
theorem Running.Ok.rmem {cmd : Cmd} {useDual : Bool} {inflight : List RdmaTask}
    (h : Running.Ok cfg s ⟨cmd, .tasks useDual, inflight⟩) {piece : ℕ}
    (hpiece : piece < cmd.numPieces cfg) (side : Side) :
    s.Has (side, pieceRail useDual piece) (cmd.buffer side) := by
  obtain ⟨hrail0, hrail1⟩ := h.ready
  unfold pieceRail
  split
  next hodd =>
    have hpieces : 2 ≤ cmd.numPieces cfg := by omega
    obtain ⟨hsrc, hdst⟩ := hrail1 hodd.1 hpieces
    cases side
    · exact hsrc
    · exact hdst
  · cases side
    · exact hrail0.1
    · exact hrail0.2

theorem State.Inv.issue (h : s.Inv cfg) {t : Thread} {side : Side} {piece : ℕ}
    (hstep : s.step cfg (.issue t side piece) = some s') : s'.Inv cfg := by
  unfold State.step at hstep
  dsimp only at hstep
  split at hstep
  next cmd useDual inflight hx =>
    split at hstep
    next hpiece =>
      obtain rfl := Option.some.inj hstep
      have hok := h.running t _ hx
      obtain ⟨hvalid, hright⟩ := hok.rmem hpiece side
      obtain ⟨m, hm⟩ := Option.isSome_iff_exists.mp hvalid
      obtain ⟨hholds, hvalue⟩ := hright m hm
      refine h.setRun h.cache rfl ?_ (.inl rfl) ?_
      · intro y hy
        obtain rfl := Option.some.inj hy
        refine ⟨hok.ready, ?_, fun hne => absurd rfl (hne useDual),
          hok.buffers⟩
        intro task htask
        rcases List.mem_append.mp htask with hold | hnew
        · exact hok.kept task hold
        · obtain rfl := List.mem_singleton.mp hnew
          exact ⟨m.remoteMmap, Option.map_eq_some_iff.mpr ⟨m, hm, rfl⟩, hholds,
            hvalue⟩
      · intro y _ _ u z hut hu
        exact h.others hx nofun hut hu
    · cases hstep
  · cases hstep

theorem State.Inv.complete (h : s.Inv cfg) {t : Thread} {i : ℕ}
    (hstep : s.step cfg (.complete t i) = some s') : s'.Inv cfg := by
  unfold State.step at hstep
  dsimp only at hstep
  split at hstep
  next x hx =>
    obtain rfl := Option.some.inj hstep
    have hok := h.running t x hx
    refine h.setRun h.cache rfl ?_ (.inl rfl) ?_
    · intro y hy
      obtain rfl := Option.some.inj hy
      refine ⟨hok.ready, ?_, ?_, hok.buffers⟩
      · intro task htask
        exact hok.kept task (List.mem_of_mem_eraseIdx htask)
      · intro hidle
        dsimp only at hidle ⊢
        rw [hok.idle hidle]
        rfl
    · intro y hy hne u z hut hu
      obtain rfl := Option.some.inj hy
      exact h.others hx hne hut hu
  · cases hstep

theorem State.Inv.finish (h : s.Inv cfg) {t : Thread}
    (hstep : s.step cfg (.finish t) = some s') : s'.Inv cfg := by
  have hgone : s' = s.setRun t none := by
    unfold State.step at hstep
    dsimp only at hstep
    split at hstep
    · exact (Option.some.inj hstep).symm
    · exact (Option.some.inj hstep).symm
    · cases hstep
  subst hgone
  exact h.setRun h.cache rfl nofun (.inl rfl) nofun

theorem State.Inv.step (h : s.Inv cfg) {a : Action} (hexclusive : Exclusive cfg s a)
    (hstep : s.step cfg a = some s') : s'.Inv cfg := by
  cases a with
  | start t cmd => exact h.start hexclusive hstep
  | setRmem t created => exact h.setRmem hstep
  | plan t => exact h.plan hexclusive hstep
  | issue t side piece => exact h.issue hstep
  | complete t i => exact h.complete hstep
  | finish t => exact h.finish hstep

theorem State.Inv.of_run (h : s.Inv cfg) {acts : List Action}
    (hexclusive : AllSteps (State.step cfg) (Exclusive cfg) s acts)
    (hrun : Machine.run (State.step cfg) s acts = some s') : s'.Inv cfg :=
  hexclusive.invariant (fun _ _ _ hP hstep hinv => hinv.step hP hstep) hrun h

end Invariant

/-! ## Runs -/

/-- Whatever the caches went through, and however the threads interleave: while
no command shares the fields with another one, and no AllGather takes fields of
rail 1 that are not its own, every task in flight uses a live descriptor of its
command's own buffer on its rail. -/
theorem remote_memory_isolated_of_exclusive (cfg : Config) (acts : List Action)
    (s : State) (hrun : run (State.step cfg) .init acts = some s)
    (hexclusive : AllSteps (State.step cfg) (Exclusive cfg) .init acts) :
    s.Isolated :=
  (State.Inv.init.of_run hexclusive hrun).isolated

/-- Two ranks with one rail. -/
def singleRail : Config where
  pieces := AllGather.defaultPieces
  worldSize := 2
  dualRail := false

/-- An AllGather between two buffers of 1 KiB. -/
def allGatherOf (src dst : UInt64) : Cmd where
  op := .allGather
  src := (src, 1024)
  dst := (dst, 1024)
  gpuDirect := false
  srcRkeyRail1 := false

/-- A command reads its source and writes its destination, and another one does
so after it. -/
def inTurn : List Action :=
  [.start .ring0 (allGatherOf 4096 8192), .setRmem .ring0 (some true),
    .setRmem .ring0 (some true), .plan .ring0, .issue .ring0 .src 0,
    .complete .ring0 0, .issue .ring0 .dst 0, .complete .ring0 0, .finish .ring0,
    .start .ring1 (allGatherOf 4096 12288), .setRmem .ring1 none,
    .setRmem .ring1 (some true), .plan .ring1, .issue .ring1 .src 0,
    .issue .ring1 .dst 0]

theorem remote_memory_isolated_of_exclusive_in_turn :
    ∃ s, run (State.step singleRail) .init inTurn = some s ∧
      (s.run .ring1).map (fun x => x.inflight.length) = some 2 ∧ s.Isolated := by
  have hend : (run (State.step singleRail) .init inTurn).map (fun s =>
      (s.run .ring1).map fun x => x.inflight.length) = some (some 2) := by
    decide +kernel
  obtain ⟨s, hrun, hlength⟩ := Option.map_eq_some_iff.mp hend
  refine ⟨s, hrun, hlength, ?_⟩
  apply remote_memory_isolated_of_exclusive singleRail inTurn s hrun
  decide +kernel

/-- While a command is about to read its source, the thread of the other ring
sets the field for a command of its own. -/
def overwritten : List Action :=
  [.start .ring0 (allGatherOf 4096 8192), .setRmem .ring0 (some true),
    .setRmem .ring0 (some true), .plan .ring0,
    .start .ring1 (allGatherOf 16384 32768), .setRmem .ring1 (some true),
    .issue .ring0 .src 0]

theorem overwritten_not_isolated :
    ∃ s, run (State.step singleRail) .init overwritten = some s ∧
      ¬ s.Isolated := by
  have hend : (run (State.step singleRail) .init overwritten).map (fun s =>
      s.run .ring0) = some (some ⟨allGatherOf 4096 8192, .tasks false,
        [⟨.src, .rail0, some ⟨2, ⟨(16384, 1024), .rail0⟩⟩⟩]⟩) := by
    decide +kernel
  obtain ⟨s, hrun, hring0⟩ := Option.map_eq_some_iff.mp hend
  refine ⟨s, hrun, ?_⟩
  intro hisolated
  obtain ⟨m, hm, -, hvalue⟩ := hisolated .ring0 _ hring0 _
    (List.mem_singleton.mpr rfl)
  obtain rfl := Option.some.inj hm
  exact absurd hvalue (by decide)

end SmartNic.RemoteMemory
