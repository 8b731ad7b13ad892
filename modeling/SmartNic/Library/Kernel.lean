import Mathlib
import SmartNic.Library.Memory

/-!
# Kernels

A kernel reads blocks of memory and writes one.  Kernels commute if neither
writes what the other reads or writes.
-/

namespace SmartNic.Memory

variable {V : Type}

/-- What a kernel writes to its target is a function of the blocks that it
reads. -/
structure Kernel (V : Type) where
  reads : List Block
  target : Block
  value : (ℕ → V) → List V
  length_value : ∀ mem, (value mem).length = target.size
  value_congr : ∀ mem mem', (∀ b ∈ reads, load mem b = load mem' b) →
    value mem = value mem'

namespace Kernel

def exec (k : Kernel V) (mem : ℕ → V) : ℕ → V := store mem k.target.base (k.value mem)

/-- Execute kernels in their order. -/
def execAll (ks : List (Kernel V)) (mem : ℕ → V) : ℕ → V :=
  ks.foldl (fun mem k => k.exec mem) mem

/-- A block has no address in common with what a kernel reads or writes. -/
def Avoids (k : Kernel V) (b : Block) : Prop :=
  k.target.Apart b ∧ ∀ r ∈ k.reads, r.Apart b

variable {k w : Kernel V} {ks : List (Kernel V)} {mem mem' : ℕ → V} {b : Block}

theorem load_exec_target : load (k.exec mem) k.target = k.value mem :=
  load_store (k.length_value mem).symm

theorem load_exec_of_apart (h : k.target.Apart b) : load (k.exec mem) b = load mem b := by
  apply load_store_of_apart
  rw [k.length_value]
  exact h

theorem exec_apply_of_notMem {i : ℕ} (hi : ∀ j < k.target.size, k.target.base + j ≠ i) :
    k.exec mem i = mem i := by
  apply store_of_notMem
  rw [k.length_value]
  exact hi

theorem exec_apply_target {i : ℕ} (hi : i < k.target.size) :
    some (k.exec mem (k.target.base + i)) = (k.value mem)[i]? := by
  have hlen : i < (k.value mem).length := by
    rw [k.length_value]
    exact hi
  rw [List.getElem?_eq_getElem hlen]
  exact congrArg some (store_add hlen)

/-- A kernel and one that reads nothing and writes elsewhere. -/
theorem exec_comm (hreads : w.reads = []) (h : k.Avoids w.target) :
    k.exec (w.exec mem) = w.exec (k.exec mem) := by
  have hk : k.value (w.exec mem) = k.value mem := by
    apply k.value_congr
    intro b hb
    exact load_exec_of_apart (h.2 b hb).symm
  have hw : w.value (k.exec mem) = w.value mem := by
    apply w.value_congr
    intro b hb
    rw [hreads] at hb
    cases hb
  funext i
  by_cases hik : ∃ j < k.target.size, k.target.base + j = i
  · obtain ⟨j, hj, rfl⟩ := hik
    have hnot : ∀ j' < w.target.size, w.target.base + j' ≠ k.target.base + j := by
      intro j' hj' heq
      exact h.1 j hj j' hj' heq.symm
    apply Option.some.inj
    rw [exec_apply_target hj, exec_apply_of_notMem hnot, exec_apply_target hj, hk]
  · have hnot : ∀ j < k.target.size, k.target.base + j ≠ i := by
      intro j hj heq
      exact hik ⟨j, hj, heq⟩
    rw [exec_apply_of_notMem hnot]
    by_cases hiw : ∃ j < w.target.size, w.target.base + j = i
    · obtain ⟨j, hj, rfl⟩ := hiw
      apply Option.some.inj
      rw [exec_apply_target hj, exec_apply_target hj, hw]
    · have hnotw : ∀ j < w.target.size, w.target.base + j ≠ i := by
        intro j hj heq
        exact hiw ⟨j, hj, heq⟩
      rw [exec_apply_of_notMem hnotw, exec_apply_of_notMem hnotw,
        exec_apply_of_notMem hnot]

theorem execAll_append (ks ks' : List (Kernel V)) (mem : ℕ → V) :
    execAll (ks ++ ks') mem = execAll ks' (execAll ks mem) :=
  List.foldl_append

theorem execAll_concat (ks : List (Kernel V)) (k : Kernel V) (mem : ℕ → V) :
    execAll (ks ++ [k]) mem = k.exec (execAll ks mem) :=
  execAll_append ks [k] mem

/-- A kernel after others that read nothing and write elsewhere. -/
theorem exec_execAll_comm (hreads : ∀ w ∈ ks, w.reads = [])
    (h : ∀ w ∈ ks, k.Avoids w.target) :
    k.exec (execAll ks mem) = execAll ks (k.exec mem) := by
  induction ks generalizing mem with
  | nil => rfl
  | cons w ks ih =>
      have htail : k.exec (execAll ks (w.exec mem)) = execAll ks (k.exec (w.exec mem)) :=
        ih (fun w' hw' => hreads w' (List.mem_cons_of_mem _ hw'))
          (fun w' hw' => h w' (List.mem_cons_of_mem _ hw'))
      rw [exec_comm (hreads w List.mem_cons_self) (h w List.mem_cons_self)] at htail
      exact htail

/-- Kernels that all avoid what another, which reads nothing, writes. -/
theorem execAll_exec_comm (hreads : w.reads = []) (h : ∀ k ∈ ks, k.Avoids w.target) :
    execAll ks (w.exec mem) = w.exec (execAll ks mem) := by
  induction ks generalizing mem with
  | nil => rfl
  | cons k ks ih =>
      change execAll ks (k.exec (w.exec mem)) = w.exec (execAll ks (k.exec mem))
      rw [exec_comm hreads (h k List.mem_cons_self)]
      exact ih fun k' hk' => h k' (List.mem_cons_of_mem _ hk')

theorem load_execAll_of_apart (h : ∀ k ∈ ks, k.target.Apart b) :
    load (execAll ks mem) b = load mem b := by
  induction ks generalizing mem with
  | nil => rfl
  | cons k ks ih =>
      change load (execAll ks (k.exec mem)) b = load mem b
      rw [ih fun k' hk' => h k' (List.mem_cons_of_mem _ hk'),
        load_exec_of_apart (h k List.mem_cons_self)]

end Kernel

end SmartNic.Memory
