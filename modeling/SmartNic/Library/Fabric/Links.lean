import Mathlib.Data.List.Count
import SmartNic.Library.Fabric.Outcomes

/-!
# Links

Which end of which link each transfer of a program uses, and how far the two
ends of every link have come in a run: the `k`-th send on a context meets the
`k`-th receive of the successor.  `Paces` says of a program that it never waits
for a transfer before it has submitted the transfer with the same number at the
opposite end.
-/

namespace SmartNic.Fabric

/-! ## Ends of links -/

/-- An end of the link on a context. -/
inductive Link (Q : Type) where
  | send (q : Q)
  | recv (q : Q)
deriving DecidableEq, Repr

def Link.opposite : Link Q → Link Q
  | .send q => .recv q
  | .recv q => .send q

section Programs

variable {Q C Loc V D : Type}

/-- The end that a transfer uses; a copy uses none. -/
def Task.link (t : Task Q C Loc) : Option (Link Q) :=
  match t.op with
  | .copy _ => none
  | .send _ => some (.send t.ctx)
  | .recv _ => some (.recv t.ctx)

/-- The transfers that a program submits, in order. -/
def tasks : List (Instr Q C Loc V D) → List (Task Q C Loc)
  | [] => []
  | .submit t :: rest => t :: tasks rest
  | .init _ _ :: rest => tasks rest
  | .wait _ :: rest => tasks rest
  | .call _ :: rest => tasks rest

/-- The ends that a list of transfers uses. -/
def links (ts : List (Task Q C Loc)) : List (Link Q) :=
  ts.filterMap Task.link

theorem links_append (ts ts' : List (Task Q C Loc)) :
    links (ts ++ ts') = links ts ++ links ts' :=
  List.filterMap_append

theorem links_flatMap {β : Type} (f : β → List (Task Q C Loc)) (xs : List β) :
    links (xs.flatMap f) = xs.flatMap fun x => links (f x) :=
  List.filterMap_flatMap

theorem links_map {β : Type} {f : β → Task Q C Loc} {k : β → Link Q}
    (h : ∀ x, (f x).link = some (k x)) (xs : List β) :
    links (xs.map f) = xs.map k := by
  rw [links, List.filterMap_map, ← List.filterMap_eq_map]
  exact congrArg (List.filterMap · xs) (funext h)

theorem links_of_none {ts : List (Task Q C Loc)} (h : ∀ t ∈ ts, t.link = none) :
    links ts = [] :=
  List.filterMap_eq_nil_iff.mpr h

theorem tasks_append (prog prog' : List (Instr Q C Loc V D)) :
    tasks (prog ++ prog') = tasks prog ++ tasks prog' := by
  induction prog with
  | nil => rfl
  | cons i prog ih =>
      cases i with
      | submit t => exact congrArg (t :: ·) ih
      | init c n => exact ih
      | wait cs => exact ih
      | call f => exact ih

theorem tasks_flatMap {β : Type} (f : β → List (Instr Q C Loc V D))
    (xs : List β) : tasks (xs.flatMap f) = xs.flatMap fun x => tasks (f x) := by
  induction xs with
  | nil => rfl
  | cons x xs ih => rw [List.flatMap_cons, tasks_append, ih, List.flatMap_cons]

theorem tasks_submits (ts : List (Task Q C Loc)) :
    tasks (ts.map .submit : List (Instr Q C Loc V D)) = ts := by
  induction ts with
  | nil => rfl
  | cons t ts ih => exact congrArg (t :: ·) ih

theorem mem_tasks {t : Task Q C Loc} {prog : List (Instr Q C Loc V D)} :
    t ∈ tasks prog ↔ .submit t ∈ prog := by
  induction prog with
  | nil => simp [tasks]
  | cons i prog ih => cases i <;> simp [tasks, ih]

theorem tasks_batch (c : C) (ts : List (Task Q C Loc)) :
    tasks (batch c ts : List (Instr Q C Loc V D)) = ts :=
  tasks_submits ts

variable [DecidableEq Q]

/-- The counters of the transfers at an end, in order. -/
def countersAt (k : Link Q) (ts : List (Task Q C Loc)) : List C :=
  ts.filterMap fun t => if t.link = some k then some t.counter else none

theorem countersAt_append (k : Link Q) (ts ts' : List (Task Q C Loc)) :
    countersAt k (ts ++ ts') = countersAt k ts ++ countersAt k ts' :=
  List.filterMap_append

theorem countersAt_flatMap {β : Type} (k : Link Q) (f : β → List (Task Q C Loc))
    (xs : List β) :
    countersAt k (xs.flatMap f) = xs.flatMap fun x => countersAt k (f x) := by
  induction xs with
  | nil => rfl
  | cons x xs ih => rw [List.flatMap_cons, countersAt_append, ih, List.flatMap_cons]

theorem length_countersAt (k : Link Q) (ts : List (Task Q C Loc)) :
    (countersAt k ts).length = (links ts).count k := by
  induction ts with
  | nil => rfl
  | cons t ts ih =>
      unfold countersAt links at ih ⊢
      rw [List.filterMap_cons, List.filterMap_cons]
      cases hlink : t.link with
      | none => simpa using ih
      | some k' =>
          by_cases hk : k' = k
          · simp [hk, ih]
          · simp [hk, ih]

theorem mem_countersAt {k : Link Q} {ts : List (Task Q C Loc)} {c : C} :
    c ∈ countersAt k ts ↔ ∃ t ∈ ts, t.link = some k ∧ t.counter = c := by
  unfold countersAt
  rw [List.mem_filterMap]
  refine exists_congr fun t => and_congr_right fun _ => ?_
  by_cases hlink : t.link = some k
  · simp [hlink]
  · simp [hlink]

theorem countersAt_of_ne {k : Link Q} {ts : List (Task Q C Loc)}
    (h : ∀ t ∈ ts, t.link ≠ some k) : countersAt k ts = [] := by
  refine List.filterMap_eq_nil_iff.mpr fun t ht => ?_
  rw [if_neg (h t ht)]

theorem countersAt_cons_of_ne {k : Link Q} {t : Task Q C Loc}
    (h : t.link ≠ some k) (ts : List (Task Q C Loc)) :
    countersAt k (t :: ts) = countersAt k ts :=
  List.filterMap_cons_none (if_neg h)

theorem countersAt_cons_of_eq {k : Link Q} {t : Task Q C Loc}
    (h : t.link = some k) (ts : List (Task Q C Loc)) :
    countersAt k (t :: ts) = t.counter :: countersAt k ts :=
  List.filterMap_cons_some (if_pos h)

theorem Task.sendOn_eq_none_iff {t : Task Q C Loc} {q : Q} :
    t.sendOn q = none ↔ t.link ≠ some (.send q) := by
  unfold Task.sendOn Task.link
  cases t.op <;> simp

theorem Task.recvOn_eq_none_iff {t : Task Q C Loc} {q : Q} :
    t.recvOn q = none ↔ t.link ≠ some (.recv q) := by
  unfold Task.recvOn Task.link
  cases t.op <;> simp

theorem Task.link_of_sendOn {t : Task Q C Loc} {q : Q} {src : List Loc}
    (h : t.sendOn q = some src) : t.link = some (.send q) := by
  by_contra hlink
  rw [Task.sendOn_eq_none_iff.mpr hlink] at h
  cases h

theorem Task.link_of_recvOn {t : Task Q C Loc} {q : Q} {dst : List Loc}
    (h : t.recvOn q = some dst) : t.link = some (.recv q) := by
  by_contra hlink
  rw [Task.recvOn_eq_none_iff.mpr hlink] at h
  cases h

/-! ## Pacing -/

/-- Whenever the program waits for a counter, after the transfers of `past`,
the transfers on this counter have lower numbers at their end than there are
transfers at the opposite end. -/
def Paces (past : List (Task Q C Loc)) : List (Instr Q C Loc V D) → Prop
  | [] => True
  | .submit t :: rest => Paces (past ++ [t]) rest
  | .wait cs :: rest =>
      (∀ k : Link Q, ∀ i c, (countersAt k past)[i]? = some c → c ∈ cs →
        i < (countersAt k.opposite past).length) ∧ Paces past rest
  | .init _ _ :: rest => Paces past rest
  | .call _ :: rest => Paces past rest

theorem Paces.append {past : List (Task Q C Loc)}
    {prog prog' : List (Instr Q C Loc V D)} (h : Paces past prog)
    (h' : Paces (past ++ tasks prog) prog') : Paces past (prog ++ prog') := by
  induction prog generalizing past with
  | nil =>
      rw [tasks, List.append_nil] at h'
      exact h'
  | cons i prog ih =>
      cases i with
      | submit t =>
          change Paces (past ++ [t]) (prog ++ prog')
          refine ih h ?_
          rw [List.append_assoc]
          exact h'
      | init c n =>
          change Paces past (prog ++ prog')
          exact ih h h'
      | wait cs => exact ⟨h.1, ih h.2 h'⟩
      | call f =>
          change Paces past (prog ++ prog')
          exact ih h h'

/-- A loop keeps pace if each of its passes does. -/
theorem Paces.range {past : List (Task Q C Loc)}
    {body : ℕ → List (Instr Q C Loc V D)} (n : ℕ)
    (h : ∀ i < n,
      Paces (past ++ (List.range i).flatMap fun j => tasks (body j)) (body i)) :
    Paces past ((List.range n).flatMap body) := by
  induction n with
  | zero => trivial
  | succ n ih =>
      rw [List.range_succ, List.flatMap_append, List.flatMap_singleton]
      refine (ih fun i hi => h i (Nat.lt_succ_of_lt hi)).append ?_
      rw [tasks_flatMap]
      exact h n (Nat.lt_succ_self n)

/-- A program that does not wait keeps pace. -/
theorem Paces.of_no_wait {past : List (Task Q C Loc)}
    {prog : List (Instr Q C Loc V D)} (h : ∀ cs, .wait cs ∉ prog) :
    Paces past prog := by
  induction prog generalizing past with
  | nil => trivial
  | cons i prog ih =>
      have hrest : ∀ cs, Instr.wait cs ∉ prog :=
        fun cs hcs => h cs (List.mem_cons_of_mem _ hcs)
      cases i with
      | submit t =>
          change Paces (past ++ [t]) prog
          exact ih hrest
      | init c n =>
          change Paces past prog
          exact ih hrest
      | wait cs => exact absurd List.mem_cons_self (h cs)
      | call f =>
          change Paces past prog
          exact ih hrest

/-- The transfers of a batch may be submitted at any time. -/
theorem Paces.batch {past : List (Task Q C Loc)} (c : C)
    (ts : List (Task Q C Loc)) :
    Paces past (Fabric.batch c ts : List (Instr Q C Loc V D)) := by
  refine .of_no_wait fun cs hcs => ?_
  rcases List.mem_cons.mp hcs with heq | hmem
  · cases heq
  · obtain ⟨t, -, heq⟩ := List.mem_map.mp hmem
    cases heq

/-- A wait for counters of copies keeps pace. -/
theorem Paces.wait_of_notMem {past : List (Task Q C Loc)} {cs : List C}
    (h : ∀ t ∈ past, t.link ≠ none → t.counter ∉ cs) :
    Paces past ([.wait cs] : List (Instr Q C Loc V D)) := by
  refine ⟨fun k i c hc hcs => ?_, trivial⟩
  obtain ⟨t, ht, hlink, rfl⟩ := mem_countersAt.mp (List.mem_of_getElem? hc)
  exact absurd hcs (h t ht (by rw [hlink]; exact Option.some_ne_none k))

/-- A wait keeps pace if the transfers waited for are among the first ones at
their end, and at least as many have been submitted at the opposite end. -/
theorem Paces.wait {past : List (Task Q C Loc)} {cs : List C}
    (h : ∀ k : Link Q, ∃ first last, countersAt k past = first ++ last ∧
      (∀ c ∈ last, c ∉ cs) ∧
        first.length ≤ (countersAt k.opposite past).length) :
    Paces past ([.wait cs] : List (Instr Q C Loc V D)) := by
  refine ⟨fun k i c hc hcs => ?_, trivial⟩
  obtain ⟨first, last, hpast, hlast, hle⟩ := h k
  refine lt_of_lt_of_le ?_ hle
  by_contra hge
  rw [hpast, List.getElem?_append_right (Nat.not_lt.mp hge)] at hc
  exact hlast c (List.mem_of_getElem? hc) hcs

/-! ## Rings of steps -/

section Steps

variable {past : List (Task Q C Loc)} {total step : ℕ}

omit [DecidableEq Q] in
theorem range_split (h : step < total) :
    List.range total =
      List.range (step + 1) ++ (List.range (total - (step + 1))).map (step + 1 + ·) := by
  rw [← List.range_add]
  congr 1
  omega

/-- On a ring whose receives are all submitted ahead, the wait at the end of a
step keeps pace if each step sends as much as it receives. -/
theorem Paces.wait_step (recvs sends : ℕ → List (Task Q C Loc)) {cs : List C} (hstep : step < total)
    (hpast : ∀ k, countersAt k past = countersAt k ((List.range total).flatMap recvs) ++
      countersAt k ((List.range (step + 1)).flatMap sends))
    (hrecvs : ∀ q s, countersAt (.send q) (recvs s) = [])
    (hsends : ∀ q s, countersAt (.recv q) (sends s) = [])
    (hsame : ∀ q s, (countersAt (.send q) (sends s)).length =
      (countersAt (.recv q) (recvs s)).length)
    (hlate : ∀ s, step < s → ∀ t ∈ recvs s, t.counter ∉ cs) :
    Paces past ([.wait cs] : List (Instr Q C Loc V D)) := by
  have hsent : ∀ q, countersAt (.send q) past =
      (List.range (step + 1)).flatMap fun s => countersAt (.send q) (sends s) := by
    intro q
    rw [hpast, countersAt_flatMap, countersAt_flatMap,
      List.flatMap_eq_nil_iff.mpr fun s _ => hrecvs q s, List.nil_append]
  have hreceived : ∀ q, countersAt (.recv q) past =
      (List.range total).flatMap fun s => countersAt (.recv q) (recvs s) := by
    intro q
    rw [hpast, countersAt_flatMap, countersAt_flatMap,
      (List.flatMap_eq_nil_iff (f := fun s => countersAt (.recv q) (sends s))).mpr
        fun s _ => hsends q s, List.append_nil]
  have hlength : ∀ q, (countersAt (.send q) past).length =
      ((List.range (step + 1)).flatMap fun s =>
        countersAt (.recv q) (recvs s)).length := by
    intro q
    rw [hsent, List.length_flatMap, List.length_flatMap]
    simp only [hsame]
  refine .wait fun k => ?_
  cases k with
  | send q =>
      refine ⟨_, [], (List.append_nil _).symm, nofun, ?_⟩
      rw [hlength, Link.opposite, hreceived, range_split hstep,
        List.flatMap_append, List.length_append]
      exact Nat.le_add_right _ _
  | recv q =>
      let later := (List.range (total - (step + 1))).map (step + 1 + ·)
      refine ⟨_, later.flatMap fun s => countersAt (.recv q) (recvs s),
        (hreceived q).trans ?_, fun c hc => ?_, (hlength q).ge⟩
      · rw [range_split hstep, List.flatMap_append]
      · obtain ⟨s, hs, hc⟩ := List.mem_flatMap.mp hc
        obtain ⟨d, -, rfl⟩ := List.mem_map.mp hs
        obtain ⟨t, ht, -, rfl⟩ := mem_countersAt.mp hc
        exact hlate _ (by omega) t ht

end Steps

end Programs

end SmartNic.Fabric
