import Mathlib.Data.List.Basic
import Mathlib.Data.Set.Basic

/-!
# Programs over a fabric of asynchronous transfers

Every node runs a straight-line program that submits transfers, waits for
counters and works on its own memory.  A transfer takes effect at any time
after its submission and its completion is noticed at any time after that.
Sends meet receives in the order of their submission on one context.

Nodes, contexts, counters, locations and values are parameters, and so is a
local device that shares the memory of its node.
-/

namespace SmartNic.Fabric

/-! ## Tasks and programs -/

/-- What a transfer does to memory. -/
inductive Op (Loc : Type) where
  | copy (pairs : List (Loc × Loc))
  | send (src : List Loc)
  | recv (dst : List Loc)

/-- A transfer on a context, with the counter that its completion decrements. -/
structure Task (Q C Loc : Type) where
  op : Op Loc
  ctx : Q
  counter : C

/-- The instructions of a node.  A call is blocked while it gives `none`. -/
inductive Instr (Q C Loc V D : Type) where
  | init (counter : C) (n : ℕ)
  | submit (task : Task Q C Loc)
  | wait (counters : List C)
  | call (f : D → (Loc → V) → Option (D × (Loc → V)))

/-- The status that a finished transfer reports. -/
inductive Status where
  | success
  | error
deriving DecidableEq, Repr

/-- A node: the rest of its program, the submitted transfers that have not
taken effect in the order of their submission, the counters of those that have
but are not yet completed, and what completed transfers reported. -/
structure Node (Q C Loc V D : Type) where
  prog : List (Instr Q C Loc V D)
  pending : List (Task Q C Loc)
  done : List C
  count : C → ℤ
  mem : Loc → V
  dev : D
  log : List Status

/-- The nodes' successors on the ring and the steps of the local devices. -/
structure System (R Loc V D A : Type) where
  next : R → R
  deviceStep : A → D → (Loc → V) → Option (D × (Loc → V))

section Semantics

variable {R Q C Loc V D A : Type}

/-- A node that starts a program. -/
def Node.start (prog : List (Instr Q C Loc V D)) (mem : Loc → V) (dev : D) :
    Node Q C Loc V D :=
  { prog := prog
    pending := []
    done := []
    count := fun _ => 0
    mem := mem
    dev := dev
    log := [] }

/-! ## Lists of waiting tasks -/

/-- Remove the first entry on which `p` is defined. -/
def takeFirst (p : β → Option γ) : List β → Option (β × γ × List β)
  | [] => none
  | x :: xs =>
      match p x with
      | some y => some (x, y, xs)
      | none => (takeFirst p xs).map fun r => (r.1, r.2.1, x :: r.2.2)

/-- Remove the entry with index `i`. -/
def pick : List β → ℕ → Option (β × List β)
  | [], _ => none
  | x :: xs, 0 => some (x, xs)
  | x :: xs, i + 1 => (pick xs i).map fun r => (r.1, x :: r.2)

/-- The source of a send on context `q`. -/
def Task.sendOn [DecidableEq Q] (q : Q) (t : Task Q C Loc) :
    Option (List Loc) :=
  match t.op with
  | .send src => if t.ctx = q then some src else none
  | _ => none

/-- The destination of a receive on context `q`. -/
def Task.recvOn [DecidableEq Q] (q : Q) (t : Task Q C Loc) :
    Option (List Loc) :=
  match t.op with
  | .recv dst => if t.ctx = q then some dst else none
  | _ => none

/-- The locations that a transfer reads on its node. -/
def Task.src (t : Task Q C Loc) : List Loc :=
  match t.op with
  | .copy pairs => pairs.map Prod.fst
  | .send src => src
  | .recv _ => []

/-- The locations that a transfer writes on its node. -/
def Task.dst (t : Task Q C Loc) : List Loc :=
  match t.op with
  | .copy pairs => pairs.map Prod.snd
  | .send _ => []
  | .recv dst => dst

/-! ## Steps of one node -/

/-- Replace the value of a function at one argument. -/
def set [DecidableEq β] (f : β → γ) (x : β) (y : γ) : β → γ :=
  fun z => if z = x then y else f z

/-- Write a list of values one after the other. -/
def writeAll [DecidableEq Loc] (m : Loc → V) :
    List (Loc × V) → Loc → V
  | [] => m
  | w :: ws => writeAll (set m w.1 w.2) ws

variable [DecidableEq Q] [DecidableEq C] [DecidableEq Loc]

/-- Execute the next instruction. -/
def Node.exec (n : Node Q C Loc V D) : Option (Node Q C Loc V D) :=
  match n.prog with
  | [] => none
  | .init c k :: rest => some { n with prog := rest, count := set n.count c k }
  | .submit t :: rest =>
      some { n with prog := rest, pending := n.pending ++ [t] }
  | .wait cs :: rest =>
      if ∀ c ∈ cs, n.count c ≤ 0 then some { n with prog := rest } else none
  | .call f :: rest =>
      (f n.dev n.mem).map fun r => { n with prog := rest, dev := r.1, mem := r.2 }

/-- The next submission fails: it only decrements the counter. -/
def Node.reject (n : Node Q C Loc V D) : Option (Node Q C Loc V D) :=
  match n.prog with
  | .submit t :: rest =>
      some { n with
        prog := rest
        count := set n.count t.counter (n.count t.counter - 1)
        log := n.log ++ [.error] }
  | _ => none

/-- The copy with index `i` among the pending transfers takes effect. -/
def Node.copy (n : Node Q C Loc V D) (i : ℕ) :
    Option (Node Q C Loc V D) := do
  let (t, pending) ← pick n.pending i
  match t.op with
  | .copy pairs =>
      some { n with
        pending := pending
        done := t.counter :: n.done
        mem := writeAll n.mem (pairs.map fun p => (p.2, n.mem p.1)) }
  | _ => none

/-- The first send on a context leaves with the bytes of its source. -/
def Node.sendOut (n : Node Q C Loc V D) (q : Q) :
    Option (List V × Node Q C Loc V D) := do
  let (t, src, pending) ← takeFirst (Task.sendOn q) n.pending
  some (src.map n.mem,
    { n with pending := pending, done := t.counter :: n.done })

/-- The first receive on a context takes a payload. -/
def Node.recvIn (n : Node Q C Loc V D) (q : Q) (payload : List V) :
    Option (Node Q C Loc V D) := do
  let (t, dst, pending) ← takeFirst (Task.recvOn q) n.pending
  some { n with
    pending := pending
    done := t.counter :: n.done
    mem := writeAll n.mem (dst.zip payload) }

/-- The completion of a transfer that took effect is noticed. -/
def Node.complete (n : Node Q C Loc V D) (i : ℕ) :
    Option (Node Q C Loc V D) := do
  let (c, done) ← pick n.done i
  some { n with
    done := done
    count := set n.count c (n.count c - 1)
    log := n.log ++ [.success] }

/-- A pending transfer completes with an error: it only decrements the
counter. -/
def Node.fail (n : Node Q C Loc V D) (i : ℕ) :
    Option (Node Q C Loc V D) := do
  let (t, pending) ← pick n.pending i
  some { n with
    pending := pending
    count := set n.count t.counter (n.count t.counter - 1)
    log := n.log ++ [.error] }

/-- The local device takes a step. -/
def Node.device (sys : System R Loc V D A) (n : Node Q C Loc V D) (a : A) :
    Option (Node Q C Loc V D) :=
  (sys.deviceStep a n.dev n.mem).map fun r => { n with dev := r.1, mem := r.2 }

/-! ## Steps of the system -/

/-- The steps that the scheduler and the hardware choose from. -/
inductive Action (R Q A : Type) where
  | exec (r : R)
  | reject (r : R)
  | copy (r : R) (i : ℕ)
  | deliver (r : R) (q : Q)
  | complete (r : R) (i : ℕ)
  | fail (r : R) (i : ℕ)
  | device (r : R) (a : A)

/-- The node on which an action makes a transfer fail. -/
def Action.failsAt : Action R Q A → Option R
  | .reject r => some r
  | .fail r _ => some r
  | _ => none

variable [DecidableEq R]

/-- A send of node `r` meets the first receive of its successor. -/
def deliver (sys : System R Loc V D A) (s : R → Node Q C Loc V D) (r : R)
    (q : Q) : Option (R → Node Q C Loc V D) := do
  let (payload, n) ← (s r).sendOut q
  let s := set s r n
  let n ← (s (sys.next r)).recvIn q payload
  some (set s (sys.next r) n)

/-- One step of the system. -/
def step (sys : System R Loc V D A) (s : R → Node Q C Loc V D) :
    Action R Q A → Option (R → Node Q C Loc V D)
  | .exec r => (s r).exec.map (set s r)
  | .reject r => (s r).reject.map (set s r)
  | .copy r i => ((s r).copy i).map (set s r)
  | .deliver r q => deliver sys s r q
  | .complete r i => ((s r).complete i).map (set s r)
  | .fail r i => ((s r).fail i).map (set s r)
  | .device r a => ((s r).device sys a).map (set s r)

/-- Run a list of actions. -/
def run (sys : System R Loc V D A) (s : R → Node Q C Loc V D) :
    List (Action R Q A) → Option (R → Node Q C Loc V D)
  | [] => some s
  | a :: acts => do
      let s ← step sys s a
      run sys s acts

end Semantics

/-! ## Basic lemmas -/

theorem takeFirst_eq {p : β → Option γ} {xs ys : List β} {x : β} {y : γ}
    (h : takeFirst p xs = some (x, y, ys)) :
    p x = some y ∧ ∃ pre post, xs = pre ++ x :: post ∧ ys = pre ++ post ∧
      ∀ z ∈ pre, p z = none := by
  induction xs generalizing ys with
  | nil => simp [takeFirst] at h
  | cons z xs ih =>
      rw [takeFirst] at h
      cases hz : p z with
      | some w =>
          simp only [hz, Option.some.injEq, Prod.mk.injEq] at h
          obtain ⟨rfl, rfl, rfl⟩ := h
          exact ⟨hz, [], xs, rfl, rfl, by simp⟩
      | none =>
          simp only [hz, Option.map_eq_some_iff] at h
          obtain ⟨⟨x', y', zs⟩, htake, heq⟩ := h
          simp only [Prod.mk.injEq] at heq
          obtain ⟨rfl, rfl, rfl⟩ := heq
          obtain ⟨hx, pre, post, rfl, rfl, hpre⟩ := ih htake
          refine ⟨hx, z :: pre, post, rfl, rfl, ?_⟩
          intro w hw
          rcases List.mem_cons.mp hw with rfl | hw
          · exact hz
          · exact hpre w hw

theorem pick_eq {xs ys : List β} {x : β} {i : ℕ}
    (h : pick xs i = some (x, ys)) :
    ∃ pre post, xs = pre ++ x :: post ∧ ys = pre ++ post := by
  induction xs generalizing i ys with
  | nil => simp [pick] at h
  | cons z xs ih =>
      cases i with
      | zero =>
          simp only [pick, Option.some.injEq, Prod.mk.injEq] at h
          obtain ⟨rfl, rfl⟩ := h
          exact ⟨[], xs, rfl, rfl⟩
      | succ i =>
          simp only [pick, Option.map_eq_some_iff] at h
          obtain ⟨⟨x', zs⟩, hpick, heq⟩ := h
          simp only [Prod.mk.injEq] at heq
          obtain ⟨rfl, rfl⟩ := heq
          obtain ⟨pre, post, rfl, rfl⟩ := ih hpick
          exact ⟨z :: pre, post, rfl, rfl⟩

theorem run_append {R Q C Loc V D A : Type} [DecidableEq R] [DecidableEq Q]
    [DecidableEq C] [DecidableEq Loc] {sys : System R Loc V D A}
    {s s' : R → Node Q C Loc V D} {acts acts' : List (Action R Q A)}
    (hrun : run sys s acts = some s') :
    run sys s (acts ++ acts') = run sys s' acts' := by
  induction acts generalizing s with
  | nil =>
      cases hrun
      rfl
  | cons a acts ih =>
      obtain ⟨s₁, hstep, hrun⟩ := Option.bind_eq_some_iff.mp hrun
      rw [List.cons_append, run, hstep]
      exact ih hrun

section Memory

variable [DecidableEq β]

@[simp]
theorem set_same (f : β → γ) (x : β) (y : γ) : set f x y x = y := by
  simp [set]

theorem set_of_ne {f : β → γ} {x z : β} {y : γ} (h : z ≠ x) :
    set f x y z = f z := by
  simp [set, h]

theorem writeAll_of_notMem {m : β → γ} {ws : List (β × γ)} {l : β}
    (h : l ∉ ws.map Prod.fst) : writeAll m ws l = m l := by
  induction ws generalizing m with
  | nil => rfl
  | cons w ws ih =>
      rw [List.map_cons, List.mem_cons, not_or] at h
      rw [writeAll, ih h.2, set_of_ne h.1]

/-- Writes that agree with `e` leave the values of `e` where they write. -/
theorem writeAll_of_mem {m e : β → γ} {ws : List (β × γ)} {l : β}
    (hws : ∀ w ∈ ws, w.2 = e w.1) (h : l ∈ ws.map Prod.fst) :
    writeAll m ws l = e l := by
  induction ws generalizing m with
  | nil => simp at h
  | cons w ws ih =>
      have hrest : ∀ v ∈ ws, v.2 = e v.1 := fun v hv => hws v (by simp [hv])
      rw [writeAll]
      by_cases hin : l ∈ ws.map Prod.fst
      · exact ih hrest hin
      · have hl : l = w.1 := by
          rw [List.map_cons, List.mem_cons] at h
          exact h.resolve_right hin
        rw [writeAll_of_notMem hin, hl, set_same]
        exact hws w (by simp)

/-- Writes that agree with `e` keep a value that already agrees. -/
theorem writeAll_keeps {m e : β → γ} {ws : List (β × γ)} {l : β}
    (hws : ∀ w ∈ ws, w.2 = e w.1) (h : m l = e l) :
    writeAll m ws l = e l := by
  by_cases hin : l ∈ ws.map Prod.fst
  · exact writeAll_of_mem hws hin
  · rw [writeAll_of_notMem hin, h]

end Memory

end SmartNic.Fabric
