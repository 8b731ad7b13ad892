import SmartNic.Collective.StreamRun

/-!
# A command stream completes

The threads of a ring work off their commands, whatever the skew between the
ranks, and leave the host memories as if the AllGathers had run at once, one
after the other.
-/

namespace SmartNic.Collective

open SmartNic.Fabric

namespace Stream

variable {ws : ℕ} [NeZero ws] {V : Type} {cfg : PieceConfig} {cmds : ℕ → Gather ws}
  {total : ℕ} {host : Fin ws → ℕ → V} {s s' : Stream ws V} {a : StreamAction ws}

/-! ## What a step does -/

/-- The effect of a step on the threads. -/
inductive Effect (cfg : PieceConfig) (cmds : ℕ → Gather ws) (total : ℕ)
    (s s' : Stream ws V) : StreamAction ws → Prop
  /-- A rank takes a command and calls the barrier. -/
  | enter (r : Fin ws) (t : Unit)
      (hidle : s.finished r = (s.barrier r).exits.length)
      (hlt : s.finished r < total)
      (hbarrier : s.barrier.step (.at r (.enter t)) = some s'.barrier)
      (hnode : s'.node = s.node) (hfinished : s'.finished = s.finished) :
      Effect cfg cmds total s s' (.barrier (.at r (.enter t)))
  /-- A rank returns from the barrier and starts the command. -/
  | leave (r : Fin ws) (t : Unit)
      (hbarrier : s.barrier.step (.at r (.leave t)) = some s'.barrier)
      (hnode : s'.node = set s.node r ((s.node r).load
        ((cmds (s.barrier r).exits.length).program V cfg r)))
      (hfinished : s'.finished = s.finished) :
      Effect cfg cmds total s s' (.barrier (.at r (.leave t)))
  /-- Another step of the barrier. -/
  | pass (b : Barrier.Action ws Unit) (henter : ∀ r t, b ≠ .at r (.enter t))
      (hleave : ∀ r t, b ≠ .at r (.leave t))
      (hbarrier : s.barrier.step b = some s'.barrier)
      (hnode : s'.node = s.node) (hfinished : s'.finished = s.finished) :
      Effect cfg cmds total s s' (.barrier b)
  /-- A step of the AllGather. -/
  | fabric (b : Action (Fin ws) RdmaCtx Empty)
      (hstep : Fabric.step (cellSystem ws V) s.node b = some s'.node)
      (hbarrier : s'.barrier = s.barrier) (hfinished : s'.finished = s.finished) :
      Effect cfg cmds total s s' (.fabric b)
  /-- A rank has finished its command. -/
  | finish (r : Fin ws) (hlt : s.finished r < (s.barrier r).exits.length)
      (hprog : (s.node r).prog = []) (hbarrier : s'.barrier = s.barrier)
      (hnode : s'.node = s.node)
      (hfinished : s'.finished = set s.finished r (s.finished r + 1)) :
      Effect cfg cmds total s s' (.finish r)

theorem step_effect (hstep : s.step cfg cmds total a = some s') :
    Effect cfg cmds total s s' a := by
  unfold step at hstep
  split at hstep
  next r t =>
    split at hstep
    next h =>
      obtain ⟨b, hb, rfl⟩ := Option.map_eq_some_iff.mp hstep
      exact .enter r t h.1 h.2 hb rfl rfl
    · cases hstep
  next r t =>
    obtain ⟨b, hb, rfl⟩ := Option.map_eq_some_iff.mp hstep
    exact .leave r t hb rfl rfl
  next b henter hleave =>
    obtain ⟨b', hb, rfl⟩ := Option.map_eq_some_iff.mp hstep
    exact .pass b henter hleave hb rfl rfl
  next b =>
    obtain ⟨node, hnode, rfl⟩ := Option.map_eq_some_iff.mp hstep
    exact .fabric b hnode rfl rfl
  next r =>
    split at hstep
    next h =>
      obtain rfl := Option.some.inj hstep
      exact .finish r h.1 (List.isEmpty_iff.mp h.2) rfl rfl rfl
    · cases hstep

/-! ## Counts -/

/-- The commands that the ranks have taken, started and finished. -/
structure Counts (total : ℕ) (s : Stream ws V) : Prop where
  single : ∀ r, (s.barrier r).Single
  finished_le : ∀ r, s.finished r ≤ (s.barrier r).exits.length
  entries_le : ∀ r, (s.barrier r).entries.length ≤ s.finished r + 1
  entries_le_total : ∀ r, (s.barrier r).entries.length ≤ total
  calls : ∀ r f, .call f ∉ (s.node r).prog

omit [NeZero ws] in
theorem Counts.exits_le (h : s.Counts total) (r : Fin ws) :
    (s.barrier r).exits.length ≤ (s.barrier r).entries.length :=
  (Nat.le_add_right _ _).trans (h.single r).le

omit [NeZero ws] in
/-- A thread in the barrier has taken one command more than it has finished. -/
theorem Counts.inside (h : s.Counts total) {r : Fin ws}
    (hcaller : (s.barrier r).caller () ≠ .outside) :
    (s.barrier r).entries.length = (s.barrier r).exits.length + 1 ∧
      s.finished r = (s.barrier r).exits.length := by
  have hsingle := h.single r
  have hle := h.finished_le r
  have hentries := h.entries_le r
  rw [Barrier.Worker.Single, if_neg hcaller] at hsingle
  omega

omit [NeZero ws] in
theorem Counts.outside (h : s.Counts total) {r : Fin ws}
    (hcaller : (s.barrier r).caller () = .outside) :
    (s.barrier r).entries.length = (s.barrier r).exits.length := by
  have hsingle := h.single r
  rw [Barrier.Worker.Single, if_pos hcaller] at hsingle
  exact hsingle.symm

omit [NeZero ws] in
theorem Counts.init (mem : Fin ws → Cell → V) :
    (init mem : Stream ws V).Counts total where
  single _ := rfl
  finished_le _ := le_rfl
  entries_le _ := Nat.zero_le _
  entries_le_total _ := Nat.zero_le _
  calls _ _ := List.not_mem_nil

/-- A thread that enters was outside. -/
theorem outside_of_enter {b b' : Barrier.Ring ws Unit} {r : Fin ws} {t : Unit}
    (hstep : b.step (.at r (.enter t)) = some b') : (b r).caller () = .outside := by
  obtain ⟨w, hw, -⟩ := Option.map_eq_some_iff.mp hstep
  simp only [Barrier.Worker.step] at hw
  split at hw
  next hcaller => exact hcaller
  · cases hw

/-- A thread that returns was inside. -/
theorem inside_of_leave {b b' : Barrier.Ring ws Unit} {r : Fin ws} {t : Unit}
    (hstep : b.step (.at r (.leave t)) = some b') : (b r).caller () ≠ .outside := by
  obtain ⟨w, hw, -⟩ := Option.map_eq_some_iff.mp hstep
  simp only [Barrier.Worker.step] at hw
  split at hw
  next hcaller =>
    rw [hcaller]
    simp
  · cases hw

theorem Counts.step (h : s.Counts total) (hstep : s.step cfg cmds total a = some s') :
    s'.Counts total := by
  cases step_effect hstep with
  | enter r t hidle hlt hbarrier hnode hfinished =>
      have hcalls := Barrier.Ring.calls_step hbarrier
      have hout := h.outside (outside_of_enter hbarrier)
      refine ⟨Barrier.Ring.single_step h.single hbarrier, fun q => ?_, fun q => ?_,
        fun q => ?_, hnode ▸ h.calls⟩
      · have hq := h.finished_le q
        rw [hfinished, (hcalls q).2]
        omega
      · have hq := h.entries_le q
        rw [hfinished, (hcalls q).1, Barrier.Action.entersAt]
        split
        next heq =>
          subst heq
          omega
        · exact hq
      · have hq := h.entries_le_total q
        rw [(hcalls q).1, Barrier.Action.entersAt]
        split
        next heq =>
          subst heq
          omega
        · exact hq
  | leave r t hbarrier hnode hfinished =>
      have hcalls := Barrier.Ring.calls_step hbarrier
      refine ⟨Barrier.Ring.single_step h.single hbarrier, fun q => ?_, fun q => ?_,
        fun q => ?_, fun q f hf => ?_⟩
      · have hq := h.finished_le q
        rw [hfinished, (hcalls q).2]
        omega
      · rw [hfinished, (hcalls q).1]
        exact h.entries_le q
      · rw [(hcalls q).1]
        exact h.entries_le_total q
      · by_cases hq : q = r
        · rw [hnode, hq, set_same] at hf
          exact Gather.call_notMem_program _ cfg r f hf
        · rw [hnode, set_of_ne hq] at hf
          exact h.calls q f hf
  | pass b henter hleave hbarrier hnode hfinished =>
      have hcalls := Barrier.Ring.calls_step hbarrier
      refine ⟨Barrier.Ring.single_step h.single hbarrier, fun q => ?_, fun q => ?_,
        fun q => ?_, hnode ▸ h.calls⟩
      · rw [hfinished, (hcalls q).2, Barrier.Action.leavesAt_eq_zero hleave]
        exact h.finished_le q
      · rw [hfinished, (hcalls q).1, Barrier.Action.entersAt_eq_zero henter]
        exact h.entries_le q
      · rw [(hcalls q).1, Barrier.Action.entersAt_eq_zero henter]
        exact h.entries_le_total q
  | fabric b hfabric hbarrier hfinished =>
      refine ⟨hbarrier ▸ h.single, ?_, ?_, hbarrier ▸ h.entries_le_total, ?_⟩
      · rw [hbarrier, hfinished]
        exact h.finished_le
      · rw [hbarrier, hfinished]
        exact h.entries_le
      · exact ((Serves.none (cellSystem ws V)).step h.calls hfabric).1
  | finish r hlt hprog hbarrier hnode hfinished =>
      refine ⟨hbarrier ▸ h.single, fun q => ?_, fun q => ?_, hbarrier ▸ h.entries_le_total,
        hnode ▸ h.calls⟩
      · rw [hbarrier, hfinished]
        by_cases hq : q = r
        · rw [hq, set_same]
          exact hlt
        · rw [set_of_ne hq]
          exact h.finished_le q
      · rw [hbarrier, hfinished]
        by_cases hq : q = r
        · rw [hq, set_same]
          exact (h.entries_le r).trans (Nat.le_succ _)
        · rw [set_of_ne hq]
          exact h.entries_le q

/-! ## Runs without failures -/

/-- The barrier is live, and the ranks are in a round. -/
structure Inv (cfg : PieceConfig) (cmds : ℕ → Gather ws) (host : Fin ws → ℕ → V)
    (total : ℕ) (s : Stream ws V) : Prop where
  counts : s.Counts total
  live : s.barrier.Live
  round : ∃ k mem ranks, Round cfg cmds host s k mem ranks

theorem Inv.init (mem : Fin ws → Cell → V) :
    (init mem : Stream ws V).Inv cfg cmds (fun r a => mem r (.host a)) total where
  counts := .init mem
  live := .init
  round := ⟨0, _, _, .start (fun _ => rfl) (fun _ => rfl) (fun _ => ⟨rfl, rfl, rfl⟩)
    fun _ _ => rfl⟩

theorem Inv.entries_lt (h : s.Inv cfg cmds host total) (htotal : total < 2 ^ 63)
    (r : Fin ws) : (s.barrier r).entries.length < 2 ^ 63 :=
  (h.counts.entries_le_total r).trans_lt htotal

/-- A rank may start its next command once all ranks have called the barrier for
it: they have finished the commands before. -/
theorem Inv.round_of_called (h : s.Inv cfg cmds host total) {r : Fin ws}
    (hcalled : ∀ q, (s.barrier r).exits.length + 1 ≤ (s.barrier q).entries.length) :
    ∃ mem ranks, Round cfg cmds host s (s.barrier r).exits.length mem ranks := by
  obtain ⟨k, mem, ranks, hround⟩ := h.round
  rcases hround.exits_eq r with hheld | hstarted
  · rw [Held] at hheld
    rw [hheld]
    exact ⟨mem, ranks, hround⟩
  · rw [hstarted]
    refine hround.advance h.counts.finished_le fun q => ?_
    have hq := hcalled q
    have hq' := h.counts.entries_le q
    omega

theorem Inv.step (h : s.Inv cfg cmds host total) (htotal : total < 2 ^ 63)
    (ha : a.fails = false) (hstep : s.step cfg cmds total a = some s') :
    s'.Inv cfg cmds host total := by
  have hcounts := h.counts.step hstep
  have hlt := h.entries_lt htotal
  cases step_effect hstep with
  | enter r t hidle hlt' hbarrier hnode hfinished =>
      obtain ⟨k, mem, ranks, hround⟩ := h.round
      have hserial : Barrier.Serialised s.barrier (.at r (.enter t)) :=
        fun _ => outside_of_enter hbarrier
      have hexits : ∀ q, (s'.barrier q).exits.length = (s.barrier q).exits.length :=
        fun q => (Barrier.Ring.calls_step hbarrier q).2
      refine ⟨hcounts, h.live.step hlt hserial ha hbarrier, k, mem, ranks,
        hround.congr hexits hnode (fun q => by rw [hfinished]) fun q hq => ?_⟩
      rw [hfinished, hexits] at hq
      rw [hnode]
      exact hround.returned q hq
  | leave r t hbarrier hnode hfinished =>
      have hserial : Barrier.Serialised s.barrier (.at r (.leave t)) := trivial
      have hlive := h.live.step hlt hserial ha hbarrier
      have hcalls := Barrier.Ring.calls_step hbarrier
      have hinside := h.counts.inside (inside_of_leave hbarrier)
      have hexit : (s'.barrier r).exits.length = (s.barrier r).exits.length + 1 := by
        rw [(hcalls r).2, Barrier.Action.leavesAt, if_pos rfl]
      have hothers : ∀ q ≠ r,
          (s'.barrier q).exits.length = (s.barrier q).exits.length := by
        intro q hq
        rw [(hcalls q).2, (Barrier.Action.entersAt_of_ne hq _).2]
        rfl
      obtain ⟨mem, ranks, hround⟩ := h.round_of_called (r := r) fun q => by
        have hsep := hlive.inv.separated r q
        rw [hexit, (hcalls q).1] at hsep
        exact hsep
      exact ⟨hcounts, hlive, _, mem, ranks,
        hround.leave rfl hinside.2 hexit hothers hnode hfinished⟩
  | pass b henter hleave hbarrier hnode hfinished =>
      obtain ⟨k, mem, ranks, hround⟩ := h.round
      have hserial : Barrier.Serialised s.barrier b := by
        unfold Barrier.Serialised
        split
        next r t => exact absurd rfl (henter r t)
        · trivial
      have hexits : ∀ q, (s'.barrier q).exits.length = (s.barrier q).exits.length := by
        intro q
        rw [(Barrier.Ring.calls_step hbarrier q).2,
          Barrier.Action.leavesAt_eq_zero hleave]
        rfl
      refine ⟨hcounts, h.live.step hlt hserial ha hbarrier, k, mem, ranks,
        hround.congr hexits hnode (fun q => by rw [hfinished]) fun q hq => ?_⟩
      rw [hfinished, hexits] at hq
      rw [hnode]
      exact hround.returned q hq
  | fabric b hfabric hbarrier hfinished =>
      obtain ⟨k, mem, ranks, hround⟩ := h.round
      have hb : b.failsAt = none := Option.not_isSome_iff_eq_none.mp (by
        rw [show b.failsAt.isSome = false from ha]
        exact Bool.false_ne_true)
      obtain ⟨ranks', hround'⟩ := hround.fabric hb hfabric
      have hs' : s' = { s with node := s'.node } := by
        rw [← hbarrier, ← hfinished]
      rw [hs'] at hcounts ⊢
      exact ⟨hcounts, h.live, k, mem, ranks', hround'⟩
  | finish r hlt' hprog hbarrier hnode hfinished =>
      obtain ⟨k, mem, ranks, hround⟩ := h.round
      refine ⟨hcounts, hbarrier ▸ h.live, k, mem, ranks,
        hround.congr (fun q => by rw [hbarrier]) hnode (fun q => ?_) fun q hq => ?_⟩
      · rw [hfinished]
        by_cases hqr : q = r
        · rw [hqr, set_same]
          exact Nat.le_succ _
        · rw [set_of_ne hqr]
      · rw [hnode]
        by_cases hqr : q = r
        · rw [hqr]
          exact hprog
        · rw [hbarrier, hfinished, set_of_ne hqr] at hq
          exact hround.returned q hq

/-- Between two commands a rank has the host memory that the commands it has
finished leave, had they run at once. -/
theorem Inv.memory (h : s.Inv cfg cmds host total) {r : Fin ws}
    (hidle : s.finished r = (s.barrier r).exits.length) (x : ℕ) :
    (s.node r).mem (.host x) = Gather.applyFirst cmds host (s.finished r) r x := by
  obtain ⟨k, mem, ranks, hround⟩ := h.round
  rcases hround.exits_eq r with hheld | hstarted
  · have heq : s.finished r = k := hidle.trans hheld
    rw [heq]
    exact hround.held_host r hheld x
  · have hfree : ¬ s.Held k r := by
      rw [Held, hstarted]
      omega
    rw [hidle, hstarted]
    exact hround.gathered hfree (hround.returned r hidle) x

/-! ## Streams that cannot go on -/

/-- No action but failures is possible. -/
def Stuck (cfg : PieceConfig) (cmds : ℕ → Gather ws) (total : ℕ) (s : Stream ws V) :
    Prop :=
  ∀ a : StreamAction ws, a.fails = false → s.step cfg cmds total a = none

theorem Stuck.blocked (h : s.Stuck cfg cmds total) : s.barrier.Blocked := by
  intro b hb
  have hfails : b.fails = false := by
    unfold Barrier.Action.fails
    split
    · cases hb
    · rfl
  have hnone := h (.barrier b) hfails
  unfold step at hnone
  split at hnone
  next heq =>
    obtain rfl := StreamAction.barrier.inj heq
    cases hb
  next heq =>
    obtain rfl := StreamAction.barrier.inj heq
    exact Option.map_eq_none_iff.mp hnone
  next heq =>
    obtain rfl := StreamAction.barrier.inj heq
    exact Option.map_eq_none_iff.mp hnone
  next heq => cases heq
  next heq => cases heq

theorem Stuck.fabric (h : s.Stuck cfg cmds total) :
    Fabric.Stuck (cellSystem ws V) s.node := by
  intro b hb
  have hfails : (StreamAction.fabric b : StreamAction ws).fails = false := by
    rw [StreamAction.fails, hb]
    rfl
  exact Option.map_eq_none_iff.mp (h (.fabric b) hfails)

/-- A rank that is idle outside the barrier has finished all commands. -/
theorem Stuck.total_le (h : s.Stuck cfg cmds total) {r : Fin ws}
    (hidle : s.finished r = (s.barrier r).exits.length)
    (hout : (s.barrier r).caller () = .outside) : total ≤ s.finished r := by
  by_contra hlt
  have hnone := h (.barrier (.at r (.enter ()))) rfl
  rw [step, if_pos ⟨hidle, Nat.lt_of_not_le hlt⟩] at hnone
  simp [Barrier.Ring.step, Barrier.Worker.step, hout] at hnone

/-- A rank that has returned has finished its command. -/
theorem Stuck.finished (h : s.Stuck cfg cmds total) {r : Fin ws}
    (hprog : (s.node r).prog = []) : (s.barrier r).exits.length ≤ s.finished r := by
  by_contra hlt
  have hnone := h (.finish r) rfl
  rw [step, if_pos ⟨Nat.lt_of_not_le hlt, List.isEmpty_iff.mpr hprog⟩] at hnone
  cases hnone

/-- If a rank waits in the barrier, some rank is still at the command before. -/
theorem Inv.exists_running (h : s.Inv cfg cmds host total) (htotal : total < 2 ^ 63)
    (hstuck : s.Stuck cfg cmds total) {r : Fin ws}
    (hcaller : (s.barrier r).caller () ≠ .outside) :
    ∃ q, s.finished q < (s.barrier q).exits.length ∧
      (s.barrier q).entries.length < (s.barrier r).entries.length := by
  have hmissing : ∀ {q}, (s.barrier q).caller () ≠ .outside →
      ∃ q', (s.barrier q').entries.length < (s.barrier q).entries.length :=
    fun hq => h.live.exists_missing hstuck.blocked (h.entries_lt htotal) hq
  obtain ⟨m, -, hmin⟩ := Finset.exists_min_image Finset.univ
    (fun q => (s.barrier q).entries.length) ⟨r, Finset.mem_univ r⟩
  have hout : (s.barrier m).caller () = .outside := by
    by_contra hm
    obtain ⟨q, hq⟩ := hmissing hm
    exact absurd (hmin q (Finset.mem_univ q)) (Nat.not_le_of_lt hq)
  obtain ⟨q, hq⟩ := hmissing hcaller
  have hle := hmin q (Finset.mem_univ q)
  refine ⟨m, lt_of_le_of_ne (h.counts.finished_le m) fun hidle => ?_, by omega⟩
  have hfinished := hstuck.total_le hidle hout
  have hentries := h.counts.outside hout
  have hr := h.counts.entries_le_total r
  omega

/-- A stream that cannot go on has come to its end. -/
theorem Inv.finished_of_stuck (h : s.Inv cfg cmds host total) (htotal : total < 2 ^ 63)
    (hstuck : s.Stuck cfg cmds total) (r : Fin ws) : s.finished r = total := by
  obtain ⟨k, mem, ranks, hround⟩ := h.round
  have hbound : ∀ q, s.finished q ≤ total := fun q =>
    (h.counts.finished_le q).trans ((h.counts.exits_le q).trans
      (h.counts.entries_le_total q))
  by_cases hheld : ∃ q, s.Held k q
  · obtain ⟨q, hq⟩ := hheld
    rw [Held] at hq
    have hidle : s.finished q = (s.barrier q).exits.length :=
      le_antisymm (h.counts.finished_le q) (hq.trans_le (hround.le_finished q))
    have hout : (s.barrier q).caller () = .outside := by
      by_contra hcaller
      obtain ⟨q', hlt, hentries⟩ := h.exists_running htotal hstuck hcaller
      have hinside := h.counts.inside hcaller
      have hexits := h.counts.exits_le q'
      have hge := hround.le_finished q'
      omega
    have hle := hstuck.total_le hidle hout
    exact le_antisymm (hbound r) (hle.trans (by rw [hidle, hq]; exact hround.le_finished r))
  · have hfree : ∀ q, ¬ s.Held k q := fun q hq => hheld ⟨q, hq⟩
    have hstuck' : Fabric.Stuck (AllGather.ringSystem ws V) ranks :=
      hround.shadows.stuck rfl (fun q => (cmds k).place_injOn cfg q) hfree hstuck.fabric
    obtain ⟨acts, hacts, hrun⟩ := hround.reached
    have hreturned := (AllGather.completes_start cfg _ _ mem (cmds k).ring).returned acts
      ranks hacts hrun hstuck'
    have hidle : ∀ q, s.finished q = (s.barrier q).exits.length := by
      intro q
      refine le_antisymm (h.counts.finished_le q) (hstuck.finished ?_)
      rw [(hround.shadows.mirrors q (hfree q)).prog_eq, hreturned q]
      rfl
    have hout : (s.barrier r).caller () = .outside := by
      by_contra hcaller
      obtain ⟨q, hlt, -⟩ := h.exists_running htotal hstuck hcaller
      exact absurd (hidle q) hlt.ne
    exact le_antisymm (hbound r) (hstuck.total_le (hidle r) hout)

/-! ## Runs are bounded -/

/-- The steps that the commands to come bring on a rank. -/
def due (cfg : PieceConfig) (cmds : ℕ → Gather ws) (total : ℕ) (s : Stream ws V)
    (r : Fin ws) : ℕ :=
  12 * (total - (s.barrier r).entries.length) +
    ∑ k ∈ Finset.Ico (s.barrier r).exits.length total,
      AllGather.stepBound (allGatherLayout cfg ws (cmds k).len) +
    (total - s.finished r)

/-- The steps that are left of a stream, those of the calls and of the AllGather
under way included. -/
def left (cfg : PieceConfig) (cmds : ℕ → Gather ws) (total : ℕ) (s : Stream ws V) :
    ℕ :=
  s.barrier.left + totalBudget (fun _ => 0) 0 s.node + ∑ r, s.due cfg cmds total r

/-- The steps that a stream takes at most. -/
def streamBound (cfg : PieceConfig) (cmds : ℕ → Gather ws) (total : ℕ) : ℕ :=
  ws * (12 * total + ∑ k ∈ Finset.range total,
    AllGather.stepBound (allGatherLayout cfg ws (cmds k).len) + total)

omit [NeZero ws] in
theorem left_init (mem : Fin ws → Cell → V) :
    (init mem).left cfg cmds total = streamBound cfg cmds total := by
  have hbarrier : (Barrier.Ring.init : Barrier.Ring ws Unit).left = 0 := by
    simp [Barrier.Ring.left, Barrier.Worker.left, Barrier.Ring.init,
      Barrier.Worker.init, Barrier.Caller.left]
  have hbudget : totalBudget (fun _ => 0) 0 (init mem : Stream ws V).node = 0 := by
    simp [totalBudget, Node.budget, init, Node.start, price]
  have hdue : ∀ r ∈ Finset.univ, (init mem : Stream ws V).due cfg cmds total r =
      12 * total + ∑ k ∈ Finset.range total,
        AllGather.stepBound (allGatherLayout cfg ws (cmds k).len) + total := by
    intro r _
    rw [← Nat.Ico_zero_eq_range]
    rfl
  rw [left, show (init mem : Stream ws V).barrier = .init from rfl, hbarrier, hbudget,
    Finset.sum_congr rfl hdue, Finset.sum_const, Finset.card_univ, Fintype.card_fin,
    smul_eq_mul, streamBound]
  omega

omit [NeZero ws] in
/-- A step that lowers what is due on one rank. -/
theorem sum_due {r : Fin ws} {d : ℕ}
    (h : ∀ q, s'.due cfg cmds total q + (if r = q then d else 0) ≤
      s.due cfg cmds total q) :
    ∑ q, s'.due cfg cmds total q + d ≤ ∑ q, s.due cfg cmds total q := by
  calc ∑ q, s'.due cfg cmds total q + d
      = ∑ q, (s'.due cfg cmds total q + if r = q then d else 0) := by
        rw [Finset.sum_add_distrib, Finset.sum_ite_eq]
        simp
    _ ≤ ∑ q, s.due cfg cmds total q := Finset.sum_le_sum fun q _ => h q

/-- A step of the barrier is paid for by the calls that it makes. -/
theorem barrier_left {b b' : Barrier.Ring ws Unit} {a : Barrier.Action ws Unit}
    (hstep : b.step a = some b') : b'.left + 1 ≤ b.left + 12 * ∑ q, a.entersAt q := by
  have hleft := Barrier.Ring.left_step hstep
  have hcalls : b'.calls = b.calls + ∑ q, a.entersAt q := by
    rw [Barrier.Ring.calls, Barrier.Ring.calls, ← Finset.sum_add_distrib]
    exact Finset.sum_congr rfl fun q _ => (Barrier.Ring.calls_step hstep q).1
  omega

omit [NeZero ws] in
theorem price_program_le (g : Gather ws) (r : Fin ws) :
    price 0 (g.program V cfg r) ≤
      AllGather.stepBound (allGatherLayout cfg ws g.len) := by
  rw [g.program_eq, price_relocate]
  exact AllGather.price_allGatherIn_le

/-- Every step, also one that fails, uses up some of what is left. -/
theorem Counts.left_lt (h : s.Counts total) (hstep : s.step cfg cmds total a = some s') :
    s'.left cfg cmds total < s.left cfg cmds total := by
  cases step_effect hstep with
  | enter r t hidle hlt hbarrier hnode hfinished =>
      have hcalls := Barrier.Ring.calls_step hbarrier
      have hout := h.outside (outside_of_enter hbarrier)
      have hpaid := barrier_left hbarrier
      have hone : ∑ q, (Barrier.Action.at r (.enter t)).entersAt q = 1 := by
        simp [Barrier.Action.entersAt]
      have hdue : ∑ q, s'.due cfg cmds total q + 12 ≤ ∑ q, s.due cfg cmds total q := by
        refine sum_due (r := r) fun q => ?_
        rw [due, due, (hcalls q).1, (hcalls q).2, hfinished]
        simp only [Barrier.Action.entersAt, Barrier.Action.leavesAt, Nat.add_zero]
        split
        next heq =>
          subst heq
          omega
        · omega
      rw [left, left, hnode]
      omega
  | leave r t hbarrier hnode hfinished =>
      have hcalls := Barrier.Ring.calls_step hbarrier
      have hpaid := barrier_left hbarrier
      have hnone : ∑ q, (Barrier.Action.at r (.leave t)).entersAt q = 0 :=
        Finset.sum_eq_zero fun q _ => rfl
      have hinside := (h.inside (inside_of_leave hbarrier)).1
      have htotal := h.entries_le_total r
      set k := (s.barrier r).exits.length with hk
      have hprice : price 0 ((cmds k).program V cfg r) ≤
          AllGather.stepBound (allGatherLayout cfg ws (cmds k).len) :=
        price_program_le (cmds k) r
      have hbudget : totalBudget (fun _ => 0) 0 s'.node + price 0 (s.node r).prog =
          totalBudget (fun _ => 0) 0 s.node + price 0 ((cmds k).program V cfg r) := by
        have hsum := Barrier.sum_update (Node.budget (fun _ => 0) 0) s.node r
          ((s.node r).load ((cmds k).program V cfg r))
        rw [← set_eq_update, ← hnode] at hsum
        simp only [totalBudget]
        simp only [Node.budget, Node.load] at hsum ⊢
        omega
      have hdue : ∑ q, s'.due cfg cmds total q +
          AllGather.stepBound (allGatherLayout cfg ws (cmds k).len) ≤
            ∑ q, s.due cfg cmds total q := by
        refine sum_due (r := r) fun q => ?_
        rw [due, due, (hcalls q).1, (hcalls q).2, hfinished]
        simp only [Barrier.Action.entersAt, Barrier.Action.leavesAt, Nat.add_zero]
        by_cases heq : r = q
        · subst heq
          have hsum := Finset.sum_eq_sum_Ico_succ_bot (show k < total by omega)
            fun k => AllGather.stepBound (allGatherLayout cfg ws (cmds k).len)
          simp only [if_true, ← hk]
          omega
        · simp only [heq, if_false, Nat.add_zero]
          exact le_rfl
      rw [left, left]
      omega
  | pass b henter hleave hbarrier hnode hfinished =>
      have hcalls := Barrier.Ring.calls_step hbarrier
      have hpaid := barrier_left hbarrier
      have hnone : ∑ q, b.entersAt q = 0 :=
        Finset.sum_eq_zero fun q _ => Barrier.Action.entersAt_eq_zero henter q
      have hdue : ∑ q, s'.due cfg cmds total q = ∑ q, s.due cfg cmds total q := by
        refine Finset.sum_congr rfl fun q _ => ?_
        rw [due, due, (hcalls q).1, (hcalls q).2, hfinished,
          Barrier.Action.entersAt_eq_zero henter, Barrier.Action.leavesAt_eq_zero hleave]
        rfl
      rw [left, left, hnode, hdue]
      omega
  | fabric b hfabric hbarrier hfinished =>
      have hlt := ((Serves.none (cellSystem ws V)).step h.calls hfabric).2
      have hdue : ∑ q, s'.due cfg cmds total q = ∑ q, s.due cfg cmds total q :=
        Finset.sum_congr rfl fun q _ => by rw [due, due, hbarrier, hfinished]
      rw [left, left, hbarrier, hdue]
      omega
  | finish r hlt hprog hbarrier hnode hfinished =>
      have hdue : ∑ q, s'.due cfg cmds total q + 1 ≤ ∑ q, s.due cfg cmds total q := by
        refine sum_due (r := r) fun q => ?_
        rw [due, due, hbarrier, hfinished]
        split
        next heq =>
          subst heq
          have hle := h.exits_le r
          have htotal := h.entries_le_total r
          rw [set_same]
          omega
        next hne =>
          rw [set_of_ne (Ne.symm hne)]
          omega
      rw [left, left, hbarrier, hnode]
      omega

/-! ## Completion -/

omit [NeZero ws] in
/-- A rank that has finished all commands is in none. -/
theorem Counts.idle_of_finished (h : s.Counts total) {r : Fin ws}
    (hend : s.finished r = total) : s.finished r = (s.barrier r).exits.length :=
  le_antisymm (h.finished_le r)
    (((h.exits_le r).trans (h.entries_le_total r)).trans hend.ge)

theorem Counts.run (h : s.Counts total) {acts : List (StreamAction ws)}
    (hrun : Machine.run (Stream.step cfg cmds total) s acts = some s') :
    s'.Counts total ∧
      acts.length + s'.left cfg cmds total ≤ s.left cfg cmds total := by
  induction acts generalizing s with
  | nil =>
      obtain rfl := Option.some.inj hrun
      exact ⟨h, (Nat.zero_add _).le⟩
  | cons a acts ih =>
      obtain ⟨s₁, hstep, hrest⟩ := Option.bind_eq_some_iff.mp hrun
      have hlt := h.left_lt hstep
      obtain ⟨hcounts, hle⟩ := ih (h.step hstep) hrest
      refine ⟨hcounts, ?_⟩
      rw [List.length_cons]
      omega

theorem Inv.run (h : s.Inv cfg cmds host total) (htotal : total < 2 ^ 63)
    {acts : List (StreamAction ws)} (hacts : ∀ a ∈ acts, a.fails = false)
    (hrun : Machine.run (Stream.step cfg cmds total) s acts = some s') :
    s'.Inv cfg cmds host total := by
  induction acts generalizing s with
  | nil =>
      obtain rfl := Option.some.inj hrun
      exact h
  | cons a acts ih =>
      obtain ⟨s₁, hstep, hrest⟩ := Option.bind_eq_some_iff.mp hrun
      exact ih (h.step htotal (hacts a List.mem_cons_self) hstep)
        (fun b hb => hacts b (List.mem_cons_of_mem _ hb)) hrest

/-! ## Receive tasks -/

/-- A rank is in no AllGather or in that of a command, and leaves it with all its
transfers accounted for. -/
structure InCommand (cfg : PieceConfig) (cmds : ℕ → Gather ws) (total : ℕ)
    (s : Stream ws V) : Prop where
  suffix : ∀ r, (s.node r).prog = [] ∨
    ∃ k < total, (s.node r).prog <:+ (cmds k).program V cfg r
  accounted : ∀ r, ∃ transfers, Accounted transfers (s.node r)
  returned : ∀ r, s.finished r = (s.barrier r).exits.length → (s.node r).prog = []

omit [NeZero ws] in
theorem InCommand.init (mem : Fin ws → Cell → V) :
    (init mem : Stream ws V).InCommand cfg cmds total where
  suffix _ := .inl rfl
  accounted r := ⟨_, .start (.nil subset_rfl) (mem r) ()⟩
  returned _ _ := rfl

omit [NeZero ws] in
/-- A rank between two commands has nothing under way. -/
theorem InCommand.parked (h : s.InCommand cfg cmds total) {r : Fin ws}
    (hidle : s.finished r = (s.barrier r).exits.length) : (s.node r).Parked := by
  obtain ⟨transfers, haccounted⟩ := h.accounted r
  exact haccounted.parked (h.returned r hidle)

theorem InCommand.step (h : s.InCommand cfg cmds total) (hcounts : s.Counts total)
    (hstep : s.step cfg cmds total a = some s') : s'.InCommand cfg cmds total := by
  cases step_effect hstep with
  | enter r t hidle hlt hbarrier hnode hfinished =>
      refine ⟨hnode ▸ h.suffix, hnode ▸ h.accounted, fun q hq => ?_⟩
      rw [hfinished, (Barrier.Ring.calls_step hbarrier q).2] at hq
      rw [hnode]
      exact h.returned q hq
  | leave r t hbarrier hnode hfinished =>
      obtain ⟨hentries, hidle⟩ := hcounts.inside (inside_of_leave hbarrier)
      have hle := hcounts.entries_le_total r
      have hstart := (h.parked hidle).accounted
        (Gather.settles_program (cmds (s.barrier r).exits.length) cfg r)
      refine ⟨fun q => ?_, fun q => ?_, fun q hq => ?_⟩
      · rw [hnode]
        by_cases hqr : q = r
        · subst hqr
          rw [set_same]
          exact .inr ⟨_, by omega, List.suffix_refl _⟩
        · rw [set_of_ne hqr]
          exact h.suffix q
      · rw [hnode]
        by_cases hqr : q = r
        · subst hqr
          rw [set_same]
          exact ⟨_, hstart⟩
        · rw [set_of_ne hqr]
          exact h.accounted q
      · have hcalls := (Barrier.Ring.calls_step hbarrier q).2
        have hfin := hcounts.finished_le q
        rw [hfinished, hcalls] at hq
        have hqr : q ≠ r := by
          rintro rfl
          simp only [Barrier.Action.leavesAt, if_true] at hq
          omega
        rw [hnode, set_of_ne hqr]
        refine h.returned q ?_
        omega
  | pass b henter hleave hbarrier hnode hfinished =>
      refine ⟨hnode ▸ h.suffix, hnode ▸ h.accounted, fun q hq => ?_⟩
      rw [hfinished, (Barrier.Ring.calls_step hbarrier q).2,
        Barrier.Action.leavesAt_eq_zero hleave] at hq
      rw [hnode]
      exact h.returned q hq
  | fabric b hfabric hbarrier hfinished =>
      choose transfers haccounted using h.accounted
      refine ⟨fun q => ?_, fun q => ⟨_, accounted_step haccounted hfabric q⟩,
        fun q hq => ?_⟩
      · have hsuffix := step_suffix hfabric q
        rcases h.suffix q with hnil | ⟨k, hk, hprog⟩
        · rw [hnil] at hsuffix
          exact .inl (List.suffix_nil.mp hsuffix)
        · exact .inr ⟨k, hk, hsuffix.trans hprog⟩
      · have hsuffix := step_suffix hfabric q
        rw [hbarrier, hfinished] at hq
        rw [h.returned q hq] at hsuffix
        exact List.suffix_nil.mp hsuffix
  | finish r hlt hprog hbarrier hnode hfinished =>
      refine ⟨hnode ▸ h.suffix, hnode ▸ h.accounted, fun q hq => ?_⟩
      rw [hnode]
      by_cases hqr : q = r
      · rwa [hqr]
      · rw [hfinished, set_of_ne hqr, hbarrier] at hq
        exact h.returned q hq

theorem InCommand.run (h : s.InCommand cfg cmds total) (hcounts : s.Counts total)
    {acts : List (StreamAction ws)}
    (hrun : Machine.run (Stream.step cfg cmds total) s acts = some s') :
    s'.InCommand cfg cmds total :=
  (Machine.run_invariant (I := fun s => s.InCommand cfg cmds total ∧ s.Counts total)
    (fun _ _ _ hstep hI => ⟨hI.1.step hI.2 hstep, hI.2.step hstep⟩) hrun ⟨h, hcounts⟩).1

omit [NeZero ws] in
/-- No receive of a command is refused if those of each command fit. -/
theorem InCommand.hasTask (h : s.InCommand cfg cmds total)
    (hfit : ∀ k < total, ∀ r,
      (Neighbour.mk cfg ((cmds k).cmd r).args).PostsFit r ws (cmds k).len) (r : Fin ws) :
    (s.node r).prog = [] ∨
      ∃ k < total, (s.node r).HasTask numRecvTasks ((cmds k).program V cfg r) := by
  refine (h.suffix r).imp_right ?_
  rintro ⟨k, hk, hprog⟩
  refine ⟨k, hk, Node.hasTask_of_fits (fun q => ?_) hprog⟩
  rw [Gather.program, recvCount_relocate, AllGather.recvCount_collectiveAllGather,
    (cmds k).len_eq]
  exact (hfit k hk r).fits q

/-- The ranks work off fewer than `2 ^ 63` commands whose receives fit the tasks of
their contexts: no run has more steps than its bound, in none is a receive refused, and
a rank between two commands has no transfer under way;
without failures a rank between two commands has in its host memory
what the commands it has finished leave there if they run at once, one after the
other; and the run can always go on until all ranks have finished all commands,
and only then it cannot. -/
theorem commandStream_completes (cfg : PieceConfig) (cmds : ℕ → Gather ws) (total : ℕ)
    (htotal : total < 2 ^ 63)
    (hfit : ∀ k < total, ∀ r,
      (Neighbour.mk cfg ((cmds k).cmd r).args).PostsFit r ws (cmds k).len)
    (mem : Fin ws → Cell → V) :
    (∀ acts s, Machine.run (step cfg cmds total) (init mem) acts = some s →
      acts.length ≤ streamBound cfg cmds total ∧
      ∀ r, (s.finished r = (s.barrier r).exits.length → (s.node r).Parked) ∧
        ((s.node r).prog = [] ∨
          ∃ k < total, (s.node r).HasTask numRecvTasks ((cmds k).program V cfg r))) ∧
    ∀ acts s, (∀ a ∈ acts, a.fails = false) →
      Machine.run (step cfg cmds total) (init mem) acts = some s →
      (∀ r, s.finished r = (s.barrier r).exits.length → ∀ x,
        (s.node r).mem (.host x) =
          Gather.applyFirst cmds (fun r a => mem r (.host a)) (s.finished r) r x) ∧
      (s.Stuck cfg cmds total → ∀ r, s.finished r = total) ∧
      ∃ acts' s', (∀ a ∈ acts', a.fails = false) ∧
        Machine.run (step cfg cmds total) s acts' = some s' ∧
        ∀ r, s'.finished r = total ∧ ∀ x, (s'.node r).mem (.host x) =
          Gather.applyFirst cmds (fun r a => mem r (.host a)) total r x := by
  refine ⟨fun acts s hrun => ?_, fun acts s hacts hrun => ?_⟩
  · have hcounts : (init mem : Stream ws V).Counts total := .init mem
    have hle := (hcounts.run hrun).2
    rw [left_init] at hle
    have hstart : (init mem : Stream ws V).InCommand cfg cmds total := .init mem
    have hend := hstart.run hcounts hrun
    exact ⟨(Nat.le_add_right _ _).trans hle,
      fun r => ⟨hend.parked, hend.hasTask hfit r⟩⟩
  · have hstart : (init mem).Inv cfg cmds (fun r a => mem r (.host a)) total := .init mem
    have hinv := hstart.run htotal hacts hrun
    refine ⟨fun r hidle x => hinv.memory hidle x,
      fun hstuck => hinv.finished_of_stuck htotal hstuck, ?_⟩
    obtain ⟨acts', s', hacts', hrun', hinv', hblocked⟩ :=
      Machine.exists_blocked (Q := fun a : StreamAction ws => a.fails = false)
        (μ := left cfg cmds total)
        (fun s₁ a s₂ ha hstep h₁ => ⟨Inv.step h₁ htotal ha hstep,
          h₁.counts.left_lt hstep⟩) hinv
    refine ⟨acts', s', hacts', hrun', fun r => ?_⟩
    have hend := hinv'.finished_of_stuck htotal hblocked r
    refine ⟨hend, fun x => ?_⟩
    rw [← hend]
    exact hinv'.memory (hinv'.counts.idle_of_finished hend) x

/-- A rank of two that has two bytes for the other. -/
def pairCmd (r : Fin 2) : GatherCmd where
  remoteSrcBufferAddress := 4 * r.val
  remoteSrcBufferLen := 2
  remoteDstBufferAddress := 10
  remoteDstBufferLen := 3
  args := AllGather.mixedArgs r
  sendBuf := 0

theorem pairCmd_len (r : Fin 2) : (pairCmd r).workingBufferLen = 4 := by
  simp [GatherCmd.workingBufferLen, pairCmd, SIZEOF_FP16]

theorem pairCmd_ring (r r' : Fin 2) :
    AllGather.SameRing (pairCmd r).args.mode (pairCmd r').args.mode := by
  fin_cases r <;> fin_cases r' <;> exact ⟨rfl, fun _ => rfl⟩

theorem pairCmd_apart (r : Fin 2) : ∀ x < 4 / 2, ∀ y < 2 * (4 / 2),
    (pairCmd r).remoteSrcBufferAddress + x ≠ (pairCmd r).remoteDstBufferAddress + y := by
  intro x hx y hy
  have hr := r.isLt
  simp only [pairCmd]
  omega

def pairGather : Gather 2 := ⟨pairCmd, 4, pairCmd_len, pairCmd_ring, pairCmd_apart⟩

theorem commandStream_completes_pair :
    ∃ acts s, Machine.run (step AllGather.defaultPieces (fun _ => pairGather) 2)
        (init fun r x => (r, x)) acts = some s ∧
      acts.length ≤ streamBound AllGather.defaultPieces (fun _ => pairGather) 2 ∧
      ∀ r, s.finished r = 2 ∧ (s.node r).mem (.host 13) = (1, .host 5) := by
  have hfit : ∀ r, (Neighbour.mk AllGather.defaultPieces (pairCmd r).args).PostsFit r 2 4 := by
    intro r
    apply Neighbour.postsFit_of_le
    fin_cases r <;> decide
  obtain ⟨hbounded, hcompletes⟩ := commandStream_completes AllGather.defaultPieces
    (fun _ => pairGather) 2 (by decide) (fun _ _ => hfit) fun r x => (r, x)
  obtain ⟨-, -, acts, s, -, hrun, hend⟩ := hcompletes [] _ (by simp) rfl
  refine ⟨acts, s, hrun, (hbounded acts s hrun).1, fun r => ⟨(hend r).1, ?_⟩⟩
  rw [(hend r).2 13]
  revert r
  decide

end Stream

end SmartNic.Collective
