import SmartNic.Collective.RsPool

/-!
# What the thread pool guarantees

Between two tasks the pool is at rest, although some of its workers may still
have to count themselves as ready.  A submitted task leads to one completion,
and when it can be popped the whole range has been added.
-/

namespace SmartNic.Collective

open SmartNic.Fabric SmartNic.EvenSplit

/-! ## Tests on workers -/

/-- The worker has incremented `done_count` in its round. -/
def WorkerPhase.isFinished : WorkerPhase → Bool
  | .pushing | .readying | .waiting | .idle => true
  | _ => false

/-- The worker has incremented `ready_count` in its round. -/
def WorkerPhase.isReadied : WorkerPhase → Bool
  | .waiting | .idle => true
  | _ => false

def RsWorker.finished (generation : ℕ) (w : RsWorker) : Bool :=
  w.generation = generation && w.phase.isFinished

def RsWorker.readied (generation : ℕ) (w : RsWorker) : Bool :=
  w.generation = generation && w.phase.isReadied

section Invariant

variable {n : ℕ} {V : Type}

namespace RsPool

/-- The workers have worked off all tasks; some may not be ready yet. -/
structure Rested (p : RsPool n) : Prop where
  generation : ∀ t, (p.worker t).generation = p.taskGeneration
  phase : ∀ t, (p.worker t).phase = .idle ∨ (p.worker t).phase = .readying ∨
    (p.worker t).phase = .waiting ∧ t.val = 0
  ready : ∀ t, t.val = 0 → (p.worker t).phase ≠ .idle →
    p.readyCount = number fun u => (p.worker u).readied p.taskGeneration
  idle : ∀ t, t.val = 0 → (p.worker t).phase = .idle →
    ∀ u, (p.worker u).phase = .idle

/-- At rest with empty queues. -/
structure Quiet (p : RsPool n) : Prop where
  tasks : p.taskQueue = []
  completions : p.completionQueue = []
  rested : p.Rested

theorem quiet_create (n : ℕ) : (rsThreadPoolCreate n).Quiet where
  tasks := rfl
  completions := rfl
  rested :=
    { generation := fun _ => rfl
      phase := fun _ => .inl rfl
      ready := fun _ _ h => absurd rfl h
      idle := fun _ _ _ _ => rfl }

end RsPool

/-! ## A task -/

/-- The part of a task's range that worker `t` of `n` adds starts here. -/
def RsTask.part (task : RsTask) (n t : ℕ) : ℕ :=
  task.start + cut (task.stop - task.start) n t

/-- The elements before this one have been added by worker `t`. -/
def RsWorker.progress (task : RsTask) (generation : ℕ) (t : Fin n)
    (w : RsWorker) : ℕ :=
  if w.generation = generation then
    match w.phase with
    | .starting => task.part n t
    | .adding _ _ pos _ => pos
    | _ => task.part n (t + 1)
  else task.part n t

/-- Worker `t` in the round of a task, where the destination of the task held
`f` and its source holds `g`. -/
structure WorkerOk (add : V → V → V) (task : RsTask) (f g : ℕ → V)
    (generation : ℕ) (m : Addr → V) (t : Fin n) (w : RsWorker) : Prop where
  fresh : w.generation ≠ generation → w.phase = .idle
  zero : t.val = 0 → w.generation = generation ∧ w.phase ≠ .idle
  waiting : w.phase = .waiting → t.val = 0
  adding : ∀ dstBuf srcBuf pos stop, w.phase = .adding dstBuf srcBuf pos stop →
    dstBuf = task.dst ∧ srcBuf = task.src ∧ task.part n t ≤ pos ∧ pos ≤ stop ∧
      stop = task.part n (t + 1)
  memory : ∀ i, task.part n t ≤ i → i < task.part n (t + 1) →
    m (task.dst, i) =
      if i < w.progress task generation t then add (f i) (g i) else f i

namespace RsPool

/-- A task is being worked on. -/
structure Running (add : V → V → V) (task : RsTask) (f g : ℕ → V)
    (p : RsPool n) (m : Addr → V) : Prop where
  tasks : p.taskQueue = []
  completions : p.completionQueue = []
  current : p.currentTask = task
  worker : ∀ t, WorkerOk add task f g p.taskGeneration m t (p.worker t)
  done : p.doneCount = number fun t => (p.worker t).finished p.taskGeneration
  ready : p.readyCount = number fun t => (p.worker t).readied p.taskGeneration
  pushing : ∀ t, (p.worker t).phase = .pushing →
    (∀ u, (p.worker u).finished p.taskGeneration = true) ∧
      ∀ u, (p.worker u).phase = .pushing → u = t
  unpushed : (∃ t, (p.worker t).finished p.taskGeneration = false) ∨
    ∃ t, (p.worker t).phase = .pushing

/-- A task from its submission until its completion is popped. -/
inductive Serving (add : V → V → V) (task : RsTask) (f g : ℕ → V)
    (p : RsPool n) (m : Addr → V) : Prop
  | queued (tasks : p.taskQueue = [task]) (completions : p.completionQueue = [])
      (rested : p.Rested)
      (memory : ∀ i, task.start ≤ i → i < task.stop → m (task.dst, i) = f i)
  | running (h : p.Running add task f g m)
  | completed (tasks : p.taskQueue = [])
      (completions : p.completionQueue = [task.strideId]) (rested : p.Rested)
      (memory : ∀ i, task.start ≤ i → i < task.stop →
        m (task.dst, i) = add (f i) (g i))

/-! ## Steps of a pool at rest -/

section Step

variable {add : V → V → V} {tid : Fin n} {p p' : RsPool n} {m m' : Addr → V}

theorem Rested.readying (h : p.Rested)
    (hphase : (p.worker tid).phase = .readying) :
    (({ p with readyCount := p.readyCount + 1 } : RsPool n).goto tid
      (if tid.val = 0 then .waiting else .idle)).Rested := by
  constructor
  · intro t
    by_cases ht : t = tid
    · simpa [ht] using h.generation tid
    · simpa [goto_worker_of_ne _ _ ht] using h.generation t
  · intro t
    by_cases ht : t = tid
    · by_cases hzero : tid.val = 0
      · exact .inr (.inr ⟨by simp [ht, hzero], ht ▸ hzero⟩)
      · exact .inl (by simp [ht, hzero])
    · simpa [goto_worker_of_ne _ _ ht] using h.phase t
  · intro t hzero hne
    have hold : (p.worker t).phase ≠ .idle := by
      by_cases ht : t = tid
      · rw [ht, hphase]
        decide
      · rwa [goto_worker_of_ne _ _ ht] at hne
    rw [goto_readyCount, h.ready t hzero hold]
    refine (number_succ (t := tid) (fun u hu => ?_) ?_ ?_).symm
    · rw [goto_worker_of_ne _ _ hu]
      rfl
    · simp [RsWorker.readied, hphase, WorkerPhase.isReadied]
    · by_cases hzero' : tid.val = 0
      · simp [RsWorker.readied, h.generation tid, hzero', WorkerPhase.isReadied]
      · simp [RsWorker.readied, h.generation tid, hzero', WorkerPhase.isReadied]
  · intro t hzero hidle
    by_cases ht : t = tid
    · subst ht
      simp [hzero] at hidle
    · rw [goto_worker_of_ne _ _ ht] at hidle
      have hother := h.idle t hzero hidle tid
      rw [hphase] at hother
      cases hother

/-- When worker 0 has seen all workers ready, all are idle. -/
theorem Rested.waiting (h : p.Rested) (hphase : (p.worker tid).phase = .waiting)
    (hready : n ≤ p.readyCount) : (p.goto tid .idle).Rested := by
  have hzero : tid.val = 0 := by
    rcases h.phase tid with hidle | hidle | ⟨-, hzero⟩
    · rw [hphase] at hidle
      cases hidle
    · rw [hphase] at hidle
      cases hidle
    · exact hzero
  have hcount := h.ready tid hzero (by rw [hphase]; decide)
  have hall := number_eq_iff.mp (Nat.le_antisymm (number_le _) (hcount ▸ hready))
  have hidle : ∀ u, ((p.goto tid .idle).worker u).phase = .idle := by
    intro u
    by_cases hu : u = tid
    · rw [hu, goto_worker_same]
    · rw [goto_worker_of_ne _ _ hu]
      rcases h.phase u with hidle | hidle | ⟨-, hzero'⟩
      · exact hidle
      · have hreadied := hall u
        simp [RsWorker.readied, hidle, WorkerPhase.isReadied] at hreadied
      · exact absurd (Fin.ext (hzero'.trans hzero.symm)) hu
  refine ⟨fun u => ?_, fun u => .inl (hidle u),
    fun u _ hne => absurd (hidle u) hne, fun _ _ _ u => hidle u⟩
  by_cases hu : u = tid
  · simpa [hu] using h.generation tid
  · simpa [goto_worker_of_ne _ _ hu] using h.generation u

/-- A pool at rest stays so until worker 0 takes a task. -/
theorem Rested.step (h : p.Rested) (hstep : p.step add tid m = some (p', m')) :
    m' = m ∧
      ((p'.Rested ∧ p'.taskQueue = p.taskQueue ∧
          p'.completionQueue = p.completionQueue) ∨
        (tid.val = 0 ∧ (p.worker tid).phase = .idle ∧ ∃ task rest,
          p.taskQueue = task :: rest ∧ p' = p.take tid task rest)) := by
  rcases h.phase tid with hphase | hphase | ⟨hphase, hzero⟩
  · simp only [RsPool.step, hphase] at hstep
    split at hstep
    next hzero =>
      split at hstep
      · cases hstep
      next task rest hqueue =>
        simp only [Option.some.injEq, Prod.mk.injEq] at hstep
        obtain ⟨rfl, rfl⟩ := hstep
        exact ⟨rfl, .inr ⟨hzero, hphase, task, rest, hqueue, rfl⟩⟩
    · rw [if_pos (h.generation tid).symm] at hstep
      cases hstep
  · simp only [RsPool.step, hphase, Option.some.injEq, Prod.mk.injEq] at hstep
    obtain ⟨rfl, rfl⟩ := hstep
    exact ⟨rfl, .inl ⟨h.readying hphase, rfl, rfl⟩⟩
  · simp only [RsPool.step, hphase] at hstep
    split at hstep
    next hready =>
      simp only [Option.some.injEq, Prod.mk.injEq] at hstep
      obtain ⟨rfl, rfl⟩ := hstep
      exact ⟨rfl, .inl ⟨h.waiting hphase hready, rfl, rfl⟩⟩
    · cases hstep

/-- The pool stays quiet until a task is submitted. -/
theorem Quiet.step (h : p.Quiet) (hstep : p.step add tid m = some (p', m')) :
    p'.Quiet ∧ m' = m := by
  obtain ⟨hm, ⟨hrested, htasks, hcompletions⟩ | ⟨-, -, task, rest, hqueue, -⟩⟩ :=
    h.rested.step hstep
  · exact ⟨⟨htasks.trans h.tasks, hcompletions.trans h.completions, hrested⟩, hm⟩
  · rw [h.tasks] at hqueue
    cases hqueue

end Step

end RsPool

/-! ## The parts of a task -/

section Parts

variable {task : RsTask} {t u : Fin n} {i : ℕ}

theorem RsTask.start_le_part (task : RsTask) (n t : ℕ) :
    task.start ≤ task.part n t :=
  Nat.le_add_right _ _

theorem RsTask.lt_stop_of_lt_part (hi : task.part n t ≤ i)
    (hi' : i < task.part n (t + 1)) : i < task.stop := by
  have hle : cut (task.stop - task.start) n (t + 1) ≤
      cut (task.stop - task.start) n n :=
    cut_mono _ _ t.isLt
  rw [cut_self _ (Nat.zero_lt_of_lt t.isLt)] at hle
  unfold RsTask.part at hi hi'
  omega

theorem RsTask.exists_part (hn : 0 < n) (hi : task.start ≤ i)
    (hi' : i < task.stop) :
    ∃ t : Fin n, task.part n t ≤ i ∧ i < task.part n (t + 1) := by
  have hlt : i - task.start < task.stop - task.start := by omega
  obtain ⟨t, ht, hge, hlt⟩ := EvenSplit.exists_part hn hlt
  refine ⟨⟨t, ht⟩, ?_, ?_⟩
  · rw [RsTask.part]
    dsimp only
    omega
  · rw [RsTask.part]
    dsimp only
    omega

theorem RsTask.part_unique (ht : task.part n t ≤ i)
    (ht' : i < task.part n (t + 1)) (hu : task.part n u ≤ i)
    (hu' : i < task.part n (u + 1)) : t = u := by
  unfold RsTask.part at ht ht' hu hu'
  have hcut : ∀ k : ℕ, task.start + cut (task.stop - task.start) n k ≤ i →
      cut (task.stop - task.start) n k ≤ i - task.start :=
    fun _ h => Nat.le_sub_of_add_le' h
  have hcut' : ∀ k : ℕ, i < task.start + cut (task.stop - task.start) n k →
      task.start ≤ i → i - task.start < cut (task.stop - task.start) n k :=
    fun _ h hle => by omega
  have hle : task.start ≤ i := (Nat.le_add_right _ _).trans ht
  exact Fin.ext (EvenSplit.part_unique (hcut t ht) (hcut' _ ht' hle) (hcut u hu)
    (hcut' _ hu' hle))

/-- The range that a worker computes is its part. -/
theorem RsPool.range_eq (p : RsPool n) (t : Fin n) :
    p.range t = (p.currentTask.part n t, p.currentTask.part n (t + 1)) := by
  have hmin : (if t < (p.currentTask.stop - p.currentTask.start) % n
      then t.val else (p.currentTask.stop - p.currentTask.start) % n) =
      min t.val ((p.currentTask.stop - p.currentTask.start) % n) := by
    split <;> omega
  have hcut : p.currentTask.part n t = p.currentTask.start +
      t * ((p.currentTask.stop - p.currentTask.start) / n) +
      min t.val ((p.currentTask.stop - p.currentTask.start) % n) :=
    (Nat.add_assoc _ _ _).symm
  have hsucc : p.currentTask.part n (t + 1) = p.currentTask.part n t +
      ((p.currentTask.stop - p.currentTask.start) / n +
        if t < (p.currentTask.stop - p.currentTask.start) % n then 1 else 0) := by
    rw [RsTask.part, cut_succ, RsTask.part, Nat.add_assoc]
  rw [hsucc, hcut, ← hmin]
  rfl

end Parts

/-! ## Steps during a task -/

section Serve

variable {add : V → V → V} {task : RsTask} {f g : ℕ → V} {tid : Fin n}
  {p p' : RsPool n} {m m' : Addr → V}

/-- Nothing about another worker changes outside its part of memory. -/
theorem WorkerOk.frame {generation : ℕ} {t : Fin n} {w : RsWorker}
    (h : WorkerOk add task f g generation m t w)
    (hmem : ∀ i, task.part n t ≤ i → i < task.part n (t + 1) →
      m' (task.dst, i) = m (task.dst, i)) :
    WorkerOk add task f g generation m' t w where
  fresh := h.fresh
  zero := h.zero
  waiting := h.waiting
  adding := h.adding
  memory i hi hi' := (hmem i hi hi').trans (h.memory i hi hi')

namespace RsPool

/-- Worker 0 starts the round of a task. -/
theorem Rested.running (h : p.Rested) (hzero : tid.val = 0)
    (hphase : (p.worker tid).phase = .idle) (hcompletions : p.completionQueue = [])
    (hmem : ∀ i, task.start ≤ i → i < task.stop → m (task.dst, i) = f i) :
    (p.take tid task []).Running add task f g m := by
  have hsame : (p.take tid task []).worker tid =
      ⟨.starting, p.taskGeneration + 1⟩ := set_same _ _ _
  have hother : ∀ u, u ≠ tid → (p.take tid task []).worker u = p.worker u :=
    fun u hu => set_of_ne hu
  have hgeneration : ∀ u, u ≠ tid →
      (p.worker u).generation ≠ p.taskGeneration + 1 := by
    intro u _
    rw [h.generation u]
    omega
  have hmem' : ∀ t : Fin n, ∀ i, task.part n t ≤ i →
      i < task.part n (t + 1) → m (task.dst, i) = f i := by
    intro t i hi hi'
    exact hmem i ((task.start_le_part n t).trans hi)
      (RsTask.lt_stop_of_lt_part hi hi')
  have hnone : ∀ u, ((p.take tid task []).worker u).finished
        (p.taskGeneration + 1) = false ∧
      ((p.take tid task []).worker u).readied (p.taskGeneration + 1) =
        false := by
    intro u
    by_cases hu : u = tid
    · rw [hu, hsame]
      simp [RsWorker.finished, RsWorker.readied, WorkerPhase.isFinished,
        WorkerPhase.isReadied]
    · rw [hother u hu]
      simp [RsWorker.finished, RsWorker.readied, hgeneration u hu]
  refine ⟨rfl, hcompletions, rfl, fun t => ?_,
    (number_eq_zero fun u => (hnone u).1).symm,
    (number_eq_zero fun u => (hnone u).2).symm, fun t ht => ?_,
    .inl ⟨tid, (hnone tid).1⟩⟩
  · by_cases ht : t = tid
    · subst ht
      rw [hsame]
      refine ⟨fun hne => absurd rfl hne, fun _ => ⟨rfl, nofun⟩, nofun, nofun, ?_⟩
      intro i hi hi'
      have hprogress : RsWorker.progress task (p.taskGeneration + 1) t
          ⟨.starting, p.taskGeneration + 1⟩ = task.part n t := by
        simp [RsWorker.progress]
      rw [show (p.take t task []).taskGeneration = p.taskGeneration + 1 from rfl,
        hprogress, if_neg (Nat.not_lt.mpr hi)]
      exact hmem' t i hi hi'
    · rw [hother t ht]
      have hidle := h.idle tid hzero hphase t
      refine ⟨fun _ => hidle, fun hzero' => absurd
          (Fin.ext (hzero'.trans hzero.symm)) ht, fun hwait => ?_,
        fun _ _ _ _ hadd => ?_, ?_⟩
      · rw [hidle] at hwait
        cases hwait
      · rw [hidle] at hadd
        cases hadd
      · intro i hi hi'
        have hprogress : (p.worker t).progress task (p.taskGeneration + 1) t =
            task.part n t :=
          if_neg (hgeneration t ht)
        rw [show (p.take tid task []).taskGeneration = p.taskGeneration + 1
          from rfl, hprogress, if_neg (Nat.not_lt.mpr hi)]
        exact hmem' t i hi hi'
  · by_cases htid : t = tid
    · rw [htid, hsame] at ht
      cases ht
    · rw [hother t htid, h.idle tid hzero hphase t] at ht
      cases ht

/-- No completion is pushed while a worker has not finished. -/
theorem Running.not_pushing (h : p.Running add task f g m)
    (htid : (p.worker tid).finished p.taskGeneration = false) (t : Fin n) :
    (p.worker t).phase ≠ .pushing := by
  intro ht
  rw [(h.pushing t ht).1 tid] at htid
  cases htid

/-- A worker in the middle of a round has its generation. -/
theorem Running.generation_eq (h : p.Running add task f g m) (tid : Fin n)
    (hphase : (p.worker tid).phase ≠ .idle) :
    (p.worker tid).generation = p.taskGeneration := by
  by_contra hne
  exact hphase ((h.worker tid).fresh hne)

/-- A worker moves on without having finished. -/
theorem Running.advance (h : p.Running add task f g m) {w : RsWorker}
    (hold : (p.worker tid).finished p.taskGeneration = false)
    (hphase : w.phase.isFinished = false)
    (hok : WorkerOk add task f g p.taskGeneration m' tid w)
    (hmem : ∀ u, u ≠ tid → ∀ i, task.part n u ≤ i → i < task.part n (u + 1) →
      m' (task.dst, i) = m (task.dst, i)) :
    ({ p with worker := set p.worker tid w } : RsPool n).Running
      add task f g m' := by
  have hreadied : ∀ v : RsWorker, v.finished p.taskGeneration = false →
      v.readied p.taskGeneration = false := by
    intro v hv
    unfold RsWorker.finished at hv
    unfold RsWorker.readied
    cases hphase' : v.phase <;>
      simp_all [WorkerPhase.isFinished, WorkerPhase.isReadied]
  have hnew : w.finished p.taskGeneration = false := by
    rw [RsWorker.finished, hphase, Bool.and_false]
  have hfinished : ∀ u, (set p.worker tid w u).finished p.taskGeneration =
      (p.worker u).finished p.taskGeneration := by
    intro u
    by_cases hu : u = tid
    · rw [hu, set_same, hnew, hold]
    · rw [set_of_ne hu]
  have hreadied' : ∀ u, (set p.worker tid w u).readied p.taskGeneration =
      (p.worker u).readied p.taskGeneration := by
    intro u
    by_cases hu : u = tid
    · rw [hu, set_same, hreadied w hnew, hreadied _ hold]
    · rw [set_of_ne hu]
  refine ⟨h.tasks, h.completions, h.current, fun t => ?_, ?_, ?_,
    fun t ht => ?_, .inl ⟨tid, ?_⟩⟩
  · by_cases ht : t = tid
    · subst ht
      dsimp only
      rw [set_same]
      exact hok
    · dsimp only
      rw [set_of_ne ht]
      exact (h.worker t).frame (hmem t ht)
  · exact h.done.trans (congrArg number (funext fun u => (hfinished u).symm))
  · exact h.ready.trans (congrArg number (funext fun u => (hreadied' u).symm))
  · dsimp only at ht
    by_cases htid : t = tid
    · rw [htid, set_same] at ht
      rw [ht] at hphase
      cases hphase
    · rw [set_of_ne htid] at ht
      exact absurd ht (h.not_pushing hold t)
  · exact (hfinished tid).trans hold

/-- A worker counts itself as finished. -/
theorem Running.counting (h : p.Running add task f g m)
    (hphase : (p.worker tid).phase = .counting) :
    (({ p with doneCount := p.doneCount + 1 } : RsPool n).goto tid
      (if p.doneCount + 1 = n then .pushing else .readying)).Running
        add task f g m := by
  have hgeneration := h.generation_eq tid (by rw [hphase]; decide)
  have hold : (p.worker tid).finished p.taskGeneration = false := by
    simp [RsWorker.finished, hphase, WorkerPhase.isFinished]
  set next : WorkerPhase := if p.doneCount + 1 = n then .pushing else .readying
    with hnext
  have hcases : next = .pushing ∧ p.doneCount + 1 = n ∨
      next = .readying ∧ p.doneCount + 1 ≠ n := by
    by_cases hn : p.doneCount + 1 = n
    · exact .inl ⟨by rw [hnext, if_pos hn], hn⟩
    · exact .inr ⟨by rw [hnext, if_neg hn], hn⟩
  set q : RsPool n := ({ p with doneCount := p.doneCount + 1 } : RsPool n).goto
    tid next with hq
  have hsame : q.worker tid = ⟨next, p.taskGeneration⟩ := by
    rw [hq, goto_worker_same]
    exact congrArg _ hgeneration
  have hother : ∀ u, u ≠ tid → q.worker u = p.worker u :=
    fun u hu => goto_worker_of_ne _ _ hu
  have hdone : p.doneCount + 1 =
      number fun u => (q.worker u).finished p.taskGeneration := by
    rw [h.done]
    refine (number_succ (t := tid) (fun u hu => by rw [hother u hu]) hold ?_).symm
    rw [hsame]
    rcases hcases with ⟨hnext', -⟩ | ⟨hnext', -⟩ <;>
      simp [RsWorker.finished, hnext', WorkerPhase.isFinished]
  refine ⟨h.tasks, h.completions, h.current, fun t => ?_, hdone, ?_,
    fun t ht => ?_, ?_⟩
  · by_cases ht : t = tid
    · subst ht
      rw [hsame]
      refine ⟨fun hne => absurd rfl hne, fun _ => ⟨rfl, ?_⟩, ?_, ?_, ?_⟩
      · rcases hcases with ⟨hnext', -⟩ | ⟨hnext', -⟩ <;> simp [hnext']
      · rcases hcases with ⟨hnext', -⟩ | ⟨hnext', -⟩ <;> simp [hnext']
      · rcases hcases with ⟨hnext', -⟩ | ⟨hnext', -⟩ <;> simp [hnext']
      · intro i hi hi'
        have hmem := (h.worker t).memory i hi hi'
        have hprogress : RsWorker.progress task p.taskGeneration t
            ⟨next, p.taskGeneration⟩ =
              (p.worker t).progress task p.taskGeneration t := by
          rcases hcases with ⟨hnext', -⟩ | ⟨hnext', -⟩ <;>
            simp [RsWorker.progress, hnext', hphase, hgeneration]
        rw [hmem]
        exact congrArg (fun k => if i < k then add (f i) (g i) else f i)
          hprogress.symm
    · rw [hother t ht]
      exact h.worker t
  · refine h.ready.trans (congrArg number (funext fun u => ?_))
    by_cases hu : u = tid
    · rw [hu, hsame]
      rcases hcases with ⟨hnext', -⟩ | ⟨hnext', -⟩ <;>
        simp [RsWorker.readied, hnext', hphase, WorkerPhase.isReadied]
    · rw [hother u hu]
      rfl
  · have htid : t = tid := by
      by_contra hne
      rw [hother t hne] at ht
      exact h.not_pushing hold t ht
    have hn : p.doneCount + 1 = n := by
      rcases hcases with ⟨-, hn⟩ | ⟨hnext', -⟩
      · exact hn
      · rw [htid, hsame, hnext'] at ht
        cases ht
    refine ⟨number_eq_iff.mp (hdone.symm.trans hn), fun u hu => ?_⟩
    by_contra hne
    rw [hother u (htid ▸ hne)] at hu
    exact h.not_pushing hold u hu
  · rcases hcases with ⟨hnext', -⟩ | ⟨-, hn⟩
    · exact .inr ⟨tid, by rw [hsame]; exact hnext'⟩
    · by_contra hnone
      rw [not_or] at hnone
      refine hn (hdone.trans (number_eq_iff.mpr fun u => ?_))
      by_contra hu
      exact hnone.1 ⟨u, Bool.eq_false_iff.mpr hu⟩

/-- The last worker pushes the completion. -/
theorem Running.completed (h : p.Running add task f g m)
    (hphase : (p.worker tid).phase = .pushing) :
    (({ p with completionQueue := [task.strideId] } : RsPool n).goto tid
      .readying).Serving add task f g m := by
  obtain ⟨hall, hunique⟩ := h.pushing tid hphase
  have hgeneration : ∀ u, (p.worker u).generation = p.taskGeneration := by
    intro u
    have hfinished := hall u
    simp only [RsWorker.finished, Bool.and_eq_true, decide_eq_true_eq]
      at hfinished
    exact hfinished.1
  have hphases : ∀ u, u ≠ tid → (p.worker u).phase = .idle ∨
      (p.worker u).phase = .readying ∨ (p.worker u).phase = .waiting := by
    intro u hu
    have hfinished := hall u
    have hnot : (p.worker u).phase ≠ .pushing := fun hu' => hu (hunique u hu')
    cases hphase' : (p.worker u).phase <;>
      simp_all [RsWorker.finished, WorkerPhase.isFinished]
  refine .completed h.tasks rfl ⟨fun t => ?_, fun t => ?_, fun t hzero hne => ?_,
    fun t hzero hidle => ?_⟩ fun i hi hi' => ?_
  · by_cases ht : t = tid
    · simpa [ht] using hgeneration tid
    · simpa [goto_worker_of_ne _ _ ht] using hgeneration t
  · by_cases ht : t = tid
    · exact .inr (.inl (by simp [ht]))
    · rw [goto_worker_of_ne _ _ ht]
      rcases hphases t ht with hidle | hidle | hwait
      · exact .inl hidle
      · exact .inr (.inl hidle)
      · exact .inr (.inr ⟨hwait, (h.worker t).waiting hwait⟩)
  · refine h.ready.trans (congrArg number (funext fun u => ?_))
    by_cases hu : u = tid
    · subst hu
      simp [RsWorker.readied, hphase, WorkerPhase.isReadied]
    · rw [goto_worker_of_ne _ _ hu]
      rfl
  · by_cases ht : t = tid
    · rw [ht, goto_worker_same] at hidle
      cases hidle
    · rw [goto_worker_of_ne _ _ ht] at hidle
      exact absurd hidle ((h.worker t).zero hzero).2
  · obtain ⟨t, ht, ht'⟩ := RsTask.exists_part (Nat.zero_lt_of_lt tid.isLt) hi hi'
    have hprogress : (p.worker t).progress task p.taskGeneration t =
        task.part n (t + 1) := by
      rw [RsWorker.progress, if_pos (hgeneration t)]
      by_cases htid : t = tid
      · rw [htid, hphase]
      · rcases hphases t htid with hidle | hidle | hwait
        · rw [hidle]
        · rw [hidle]
        · rw [hwait]
    rw [(h.worker t).memory i ht ht', hprogress, if_pos ht']

/-- A finished worker counts itself as ready. -/
theorem Running.readying (h : p.Running add task f g m)
    (hphase : (p.worker tid).phase = .readying) :
    (({ p with readyCount := p.readyCount + 1 } : RsPool n).goto tid
      (if tid.val = 0 then .waiting else .idle)).Running add task f g m := by
  have hgeneration := h.generation_eq tid (by rw [hphase]; decide)
  set next : WorkerPhase := if tid.val = 0 then .waiting else .idle with hnext
  have hcases : next = .waiting ∧ tid.val = 0 ∨ next = .idle ∧ tid.val ≠ 0 := by
    by_cases hzero : tid.val = 0
    · exact .inl ⟨by rw [hnext, if_pos hzero], hzero⟩
    · exact .inr ⟨by rw [hnext, if_neg hzero], hzero⟩
  set q : RsPool n := ({ p with readyCount := p.readyCount + 1 } : RsPool n).goto
    tid next with hq
  have hsame : q.worker tid = ⟨next, p.taskGeneration⟩ := by
    rw [hq, goto_worker_same]
    exact congrArg _ hgeneration
  have hother : ∀ u, u ≠ tid → q.worker u = p.worker u :=
    fun u hu => goto_worker_of_ne _ _ hu
  have hfinished : ∀ u, (q.worker u).finished p.taskGeneration =
      (p.worker u).finished p.taskGeneration := by
    intro u
    by_cases hu : u = tid
    · rw [hu, hsame]
      rcases hcases with ⟨hnext', -⟩ | ⟨hnext', -⟩ <;>
        simp [RsWorker.finished, hnext', hphase, hgeneration,
          WorkerPhase.isFinished]
    · rw [hother u hu]
  have hpushing : ∀ u, (q.worker u).phase = .pushing ↔
      (p.worker u).phase = .pushing := by
    intro u
    by_cases hu : u = tid
    · rw [hu, hsame, hphase]
      rcases hcases with ⟨hnext', -⟩ | ⟨hnext', -⟩ <;> simp [hnext']
    · rw [hother u hu]
  have hready : p.readyCount + 1 =
      number fun u => (q.worker u).readied p.taskGeneration := by
    rw [h.ready]
    refine (number_succ (t := tid) (fun u hu => by rw [hother u hu]) ?_ ?_).symm
    · simp [RsWorker.readied, hphase, WorkerPhase.isReadied]
    · rw [hsame]
      rcases hcases with ⟨hnext', -⟩ | ⟨hnext', -⟩ <;>
        simp [RsWorker.readied, hnext', WorkerPhase.isReadied]
  refine ⟨h.tasks, h.completions, h.current, fun t => ?_,
    h.done.trans (congrArg number (funext fun u => (hfinished u).symm)), hready,
    fun t ht => ?_, ?_⟩
  · by_cases ht : t = tid
    · subst ht
      rw [hsame]
      refine ⟨fun hne => absurd rfl hne, fun hzero => ⟨rfl, ?_⟩, fun hwait => ?_,
        ?_, ?_⟩
      · rcases hcases with ⟨hnext', -⟩ | ⟨-, hzero'⟩
        · simp [hnext']
        · exact absurd hzero hzero'
      · rcases hcases with ⟨-, hzero⟩ | ⟨hnext', -⟩
        · exact hzero
        · rw [hnext'] at hwait
          cases hwait
      · rcases hcases with ⟨hnext', -⟩ | ⟨hnext', -⟩ <;> simp [hnext']
      · intro i hi hi'
        have hmem := (h.worker t).memory i hi hi'
        have hprogress : RsWorker.progress task p.taskGeneration t
            ⟨next, p.taskGeneration⟩ =
              (p.worker t).progress task p.taskGeneration t := by
          rcases hcases with ⟨hnext', -⟩ | ⟨hnext', -⟩ <;>
            simp [RsWorker.progress, hnext', hphase, hgeneration]
        rw [hmem]
        exact congrArg (fun k => if i < k then add (f i) (g i) else f i)
          hprogress.symm
    · rw [hother t ht]
      exact h.worker t
  · obtain ⟨hall, hunique⟩ := h.pushing t ((hpushing t).mp ht)
    exact ⟨fun u => (hfinished u).trans (hall u),
      fun u hu => hunique u ((hpushing u).mp hu)⟩
  · rcases h.unpushed with ⟨t, ht⟩ | ⟨t, ht⟩
    · exact .inl ⟨t, (hfinished t).trans ht⟩
    · exact .inr ⟨t, (hpushing t).mpr ht⟩

/-- Worker 0 cannot see all workers ready before the completion is pushed. -/
theorem Running.not_ready (h : p.Running add task f g m) :
    ¬ n ≤ p.readyCount := by
  intro hready
  have hall := number_eq_iff.mp
    (Nat.le_antisymm (number_le _) (h.ready ▸ hready))
  rcases h.unpushed with ⟨t, ht⟩ | ⟨t, ht⟩
  · have hreadied := hall t
    unfold RsWorker.finished at ht
    unfold RsWorker.readied at hreadied
    cases hphase : (p.worker t).phase <;>
      simp_all [WorkerPhase.isFinished, WorkerPhase.isReadied]
  · have hreadied := hall t
    simp [RsWorker.readied, ht, WorkerPhase.isReadied] at hreadied

/-- A worker adds the next element of its part. -/
theorem Running.adding (h : p.Running add task f g m)
    (hsrc : ∀ i, task.start ≤ i → i < task.stop →
      ∀ a, add a (m (task.src, i)) = add a (g i))
    {dstBuf srcBuf : Buffer} {pos stop : ℕ}
    (hphase : (p.worker tid).phase = .adding dstBuf srcBuf pos stop)
    (hpos : pos < stop) :
    (p.goto tid (.adding dstBuf srcBuf (pos + 1) stop)).Running add task f g
      (addElement add dstBuf srcBuf m pos) := by
  have hgeneration := h.generation_eq tid (by rw [hphase]; nofun)
  obtain ⟨rfl, rfl, hge, -, rfl⟩ := (h.worker tid).adding _ _ _ _ hphase
  have hprogress : (p.worker tid).progress task p.taskGeneration tid = pos := by
    rw [RsWorker.progress, if_pos hgeneration, hphase]
  refine h.advance (by simp [RsWorker.finished, hphase, WorkerPhase.isFinished])
    rfl ⟨fun hne => absurd hgeneration hne, fun _ => ⟨hgeneration, nofun⟩,
      nofun, ?_, fun i hi hi' => ?_⟩ fun u hu i hi hi' => ?_
  · intro dstBuf srcBuf pos' stop heq
    cases heq
    exact ⟨rfl, rfl, by omega, hpos, rfl⟩
  · have hprogress' : RsWorker.progress task p.taskGeneration tid
        ⟨.adding task.dst task.src (pos + 1) (task.part n (tid + 1)),
          (p.worker tid).generation⟩ = pos + 1 := by
      rw [RsWorker.progress, if_pos hgeneration]
    rw [hprogress', addElement]
    by_cases hi₀ : i = pos
    · subst hi₀
      have hold := (h.worker tid).memory i hi hi'
      rw [hprogress, if_neg (Nat.lt_irrefl i)] at hold
      rw [set_same, if_pos (Nat.lt_succ_self i), hold,
        hsrc i ((task.start_le_part n tid).trans hi)
          (RsTask.lt_stop_of_lt_part hi hi') (f i)]
    · rw [set_of_ne fun heq => hi₀ (Prod.mk.inj heq).2,
        (h.worker tid).memory i hi hi', hprogress]
      exact if_congr (by omega) rfl rfl
  · refine set_of_ne fun heq => hu ?_
    obtain rfl := (Prod.mk.inj heq).2
    exact RsTask.part_unique hi hi' hge hpos

/-- A step while a task is being worked on. -/
theorem Running.step (h : p.Running add task f g m)
    (hsrc : ∀ i, task.start ≤ i → i < task.stop →
      ∀ a, add a (m (task.src, i)) = add a (g i))
    (hstep : p.step add tid m = some (p', m')) :
    p'.Serving add task f g m' := by
  unfold RsPool.step at hstep
  split at hstep
  case h_1 hphase =>
    split at hstep
    next hzero => exact absurd hphase ((h.worker tid).zero hzero).2
    next hzero =>
      split at hstep
      · cases hstep
      next hne =>
        obtain ⟨rfl, rfl⟩ := Prod.mk.inj (Option.some.inj hstep)
        have hold : (p.worker tid).finished p.taskGeneration = false := by
          simp [RsWorker.finished, Ne.symm hne]
        refine .running (h.advance hold rfl ⟨fun hne' => absurd rfl hne',
          fun _ => ⟨rfl, nofun⟩, nofun, nofun, fun i hi hi' => ?_⟩
          fun _ _ _ _ _ => rfl)
        have hmem := (h.worker tid).memory i hi hi'
        rw [RsWorker.progress, if_neg (Ne.symm hne)] at hmem
        rw [hmem, RsWorker.progress, if_pos rfl]
  case h_2 hphase =>
    rw [RsPool.range_eq, h.current] at hstep
    obtain ⟨rfl, rfl⟩ := Prod.mk.inj (Option.some.inj hstep)
    have hgeneration := h.generation_eq tid (by rw [hphase]; decide)
    have hmono : task.part n tid ≤ task.part n (tid + 1) :=
      Nat.add_le_add_left (cut_mono _ _ (Nat.le_succ _)) _
    refine .running (h.advance
      (by simp [RsWorker.finished, hphase, WorkerPhase.isFinished]) rfl
      ⟨fun hne => absurd hgeneration hne, fun _ => ⟨hgeneration, nofun⟩, nofun,
        ?_, fun i hi hi' => ?_⟩ fun _ _ _ _ _ => rfl)
    · intro dstBuf srcBuf pos stop heq
      cases heq
      exact ⟨rfl, rfl, le_rfl, hmono, rfl⟩
    · have hmem := (h.worker tid).memory i hi hi'
      rw [RsWorker.progress, if_pos hgeneration, hphase] at hmem
      rw [hmem, RsWorker.progress, if_pos hgeneration]
  case h_3 dstBuf srcBuf pos stop hphase =>
    split at hstep
    next hpos =>
      obtain ⟨rfl, rfl⟩ := Prod.mk.inj (Option.some.inj hstep)
      exact .running (h.adding hsrc hphase hpos)
    next hpos =>
      obtain ⟨rfl, rfl⟩ := Prod.mk.inj (Option.some.inj hstep)
      have hgeneration := h.generation_eq tid (by rw [hphase]; nofun)
      obtain ⟨-, -, -, hle, rfl⟩ := (h.worker tid).adding _ _ _ _ hphase
      refine .running (h.advance
        (by simp [RsWorker.finished, hphase, WorkerPhase.isFinished]) rfl
        ⟨fun hne => absurd hgeneration hne, fun _ => ⟨hgeneration, nofun⟩,
          nofun, nofun, fun i hi hi' => ?_⟩ fun _ _ _ _ _ => rfl)
      have hmem := (h.worker tid).memory i hi hi'
      rw [RsWorker.progress, if_pos hgeneration, hphase] at hmem
      rw [hmem, RsWorker.progress, if_pos hgeneration]
      exact if_congr (by dsimp only; omega) rfl rfl
  case h_4 hphase =>
    obtain ⟨rfl, rfl⟩ := Prod.mk.inj (Option.some.inj hstep)
    exact .running (h.counting hphase)
  case h_5 hphase =>
    have hpush : queuePush p.completionQueue p.currentTask.strideId =
        some [task.strideId] := by
      rw [h.completions, h.current]
      rfl
    rw [hpush] at hstep
    obtain ⟨rfl, rfl⟩ := Prod.mk.inj (Option.some.inj hstep)
    exact h.completed hphase
  case h_6 hphase =>
    obtain ⟨rfl, rfl⟩ := Prod.mk.inj (Option.some.inj hstep)
    exact .running (h.readying hphase)
  case h_7 hphase =>
    rw [if_neg h.not_ready] at hstep
    cases hstep

/-- A step between the submission of a task and the pop of its completion. -/
theorem Serving.step (h : p.Serving add task f g m)
    (hsrc : ∀ i, task.start ≤ i → i < task.stop →
      ∀ a, add a (m (task.src, i)) = add a (g i))
    (hstep : p.step add tid m = some (p', m')) :
    p'.Serving add task f g m' := by
  cases h with
  | queued htasks hcompletions hrested hmem =>
      obtain ⟨rfl, ⟨hrested', htasks', hcompletions'⟩ |
        ⟨hzero, hphase, task', rest, hqueue, rfl⟩⟩ := hrested.step hstep
      · exact .queued (htasks'.trans htasks) (hcompletions'.trans hcompletions)
          hrested' hmem
      · rw [htasks, List.cons.injEq] at hqueue
        obtain ⟨rfl, rfl⟩ := hqueue
        exact .running (hrested.running hzero hphase hcompletions hmem)
  | running h => exact h.step hsrc hstep
  | completed htasks hcompletions hrested hmem =>
      obtain ⟨rfl, ⟨hrested', htasks', hcompletions'⟩ |
        ⟨-, -, task', rest, hqueue, -⟩⟩ := hrested.step hstep
      · exact .completed (htasks'.trans htasks)
          (hcompletions'.trans hcompletions) hrested' hmem
      · rw [htasks] at hqueue
        cases hqueue

/-- A worker only writes when it adds an element. -/
theorem step_memory (hstep : p.step add tid m = some (p', m')) :
    m' = m ∨ ∃ dstBuf srcBuf pos stop,
      (p.worker tid).phase = .adding dstBuf srcBuf pos stop ∧ pos < stop ∧
        m' = addElement add dstBuf srcBuf m pos := by
  unfold RsPool.step at hstep
  split at hstep
  case h_3 dstBuf srcBuf pos stop hphase =>
    split at hstep
    next hpos =>
      obtain ⟨-, rfl⟩ := Prod.mk.inj (Option.some.inj hstep)
      exact .inr ⟨dstBuf, srcBuf, pos, stop, hphase, hpos, rfl⟩
    · exact .inl (Prod.mk.inj (Option.some.inj hstep)).2.symm
  case h_5 =>
    obtain ⟨_, -, heq⟩ := Option.map_eq_some_iff.mp hstep
    exact .inl (Prod.mk.inj heq).2.symm
  all_goals
    left
    grind

/-- A worker only writes to the destination range of the task. -/
theorem Serving.step_frame (h : p.Serving add task f g m)
    (hstep : p.step add tid m = some (p', m')) {l : Addr}
    (hl : ∀ i, task.start ≤ i → i < task.stop → l ≠ (task.dst, i)) :
    m' l = m l := by
  cases h with
  | queued _ _ hrested _ => rw [(hrested.step hstep).1]
  | completed _ _ hrested _ => rw [(hrested.step hstep).1]
  | running h =>
      obtain rfl | ⟨dstBuf, srcBuf, pos, stop, hphase, hpos, rfl⟩ :=
        step_memory hstep
      · rfl
      · obtain ⟨rfl, rfl, hge, -, rfl⟩ := (h.worker tid).adding _ _ _ _ hphase
        exact set_of_ne (hl pos ((task.start_le_part n tid).trans hge)
          (RsTask.lt_stop_of_lt_part hge hpos))

/-- Whether the pool serves a task does not depend on other memory. -/
theorem Serving.congr (h : p.Serving add task f g m)
    (hmem : ∀ i, task.start ≤ i → i < task.stop →
      m' (task.dst, i) = m (task.dst, i)) :
    p.Serving add task f g m' := by
  cases h with
  | queued htasks hcompletions hrested hold =>
      exact .queued htasks hcompletions hrested fun i hi hi' =>
        (hmem i hi hi').trans (hold i hi hi')
  | completed htasks hcompletions hrested hold =>
      exact .completed htasks hcompletions hrested fun i hi hi' =>
        (hmem i hi hi').trans (hold i hi hi')
  | running h =>
      refine .running { h with worker := fun t => (h.worker t).frame ?_ }
      exact fun i hi hi' => hmem i ((task.start_le_part n t).trans hi)
        (RsTask.lt_stop_of_lt_part hi hi')

/-! ## The calls of the collective -/

/-- A quiet pool accepts a task. -/
theorem Quiet.submit (h : p.Quiet) (hrange : task.start < task.stop)
    (hmem : ∀ i, task.start ≤ i → i < task.stop → m (task.dst, i) = f i)
    (hsubmit : submitRsTask task.dst task.src task.start task.stop
      task.strideId p = some p') :
    p'.Serving add task f g m := by
  rw [submitRsTask, if_neg (Nat.not_le.mpr hrange), h.tasks] at hsubmit
  obtain ⟨queue, hpush, rfl⟩ := Option.map_eq_some_iff.mp hsubmit
  obtain rfl := Option.some.inj hpush
  exact .queued rfl h.completions
    ⟨h.rested.generation, h.rested.phase, h.rested.ready, h.rested.idle⟩ hmem

/-- When the completion can be popped the range has been added. -/
theorem Serving.poll (h : p.Serving add task f g m)
    (hpoll : pollWaitRsCompletion task.strideId p = some p') :
    p'.Quiet ∧ ∀ i, task.start ≤ i → i < task.stop →
      m (task.dst, i) = add (f i) (g i) := by
  obtain ⟨queue, hpop, rfl⟩ := Option.map_eq_some_iff.mp hpoll
  cases h with
  | queued _ hcompletions _ _ =>
      rw [hcompletions] at hpop
      cases hpop
  | running h =>
      rw [h.completions] at hpop
      cases hpop
  | completed htasks hcompletions hrested hmem =>
      rw [hcompletions, popUntil, if_pos rfl] at hpop
      obtain rfl := Option.some.inj hpop
      exact ⟨⟨htasks, rfl, hrested.generation, hrested.phase, hrested.ready,
        hrested.idle⟩, hmem⟩

end RsPool

end Serve

end Invariant

end SmartNic.Collective
