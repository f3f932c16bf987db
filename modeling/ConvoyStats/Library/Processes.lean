import Mathlib.Algebra.GroupWithZero.Nat
import Mathlib.Data.List.Count
import ConvoyStats.Library.TransitionSystem

/-!
# Processes over a shared state

A process is given by what it does in one step: the shared state and its own control state
after the step, or `none` where it cannot move.  `concurrent` is the system of any number of
them.  They are started one by one, with an argument, and move in any order.

* `ConcurrentMove` is the inversion of a step: a process is started, or one process moves.
* `run_solo`: what a process can do alone it can do among others.
* `forall_mem_set`, `exists_mem_of_set`, `countP_set_add` and `sum_map_set_add` say what a move does
  to a property of all processes, of some process, to the number of processes with a property and
  to a sum over the processes.
-/

universe u v w x

namespace List

variable {P : Type w} {procs : List P} {i : ℕ} {pc pc' : P}

theorem set_getElem?_self (hi : procs[i]? = some pc) : procs.set i pc = procs := by
  obtain ⟨hlt, rfl⟩ := getElem?_eq_some_iff.mp hi
  exact set_getElem_self hlt

/-- A process after one has moved. -/
theorem getElem?_set_eq_some {j : ℕ} {q : P} (hi : procs[i]? = some pc) :
    (procs.set i pc')[j]? = some q ↔ j = i ∧ q = pc' ∨ j ≠ i ∧ procs[j]? = some q := by
  by_cases hij : j = i
  · subst hij
    rw [getElem?_set_self (getElem?_eq_some_iff.mp hi).1]
    simp [eq_comm]
  · rw [getElem?_set_ne (Ne.symm hij)]
    simp [hij]

/-- A property of all processes after one has moved. -/
theorem forall_mem_set {Q : P → Prop} (h : ∀ q ∈ procs, Q q) (hpc : Q pc') :
    ∀ q ∈ procs.set i pc', Q q := by
  intro q hq
  rcases mem_or_eq_of_mem_set hq with hq | rfl
  · exact h q hq
  · exact hpc

/-- A process with a property, before one has moved: it is there after the move, or it is the
one that moved. -/
theorem exists_mem_of_set {Q : P → Prop} (pc' : P) (hi : procs[i]? = some pc)
    (h : ∃ q ∈ procs, Q q) :
    (∃ q ∈ procs.set i pc', Q q) ∨ Q pc := by
  obtain ⟨q, hq, hQ⟩ := h
  obtain ⟨j, hj⟩ := getElem?_of_mem hq
  by_cases hij : i = j
  · subst hij
    obtain rfl := Option.some.inj (hi.symm.trans hj)
    exact .inr hQ
  · exact .inl ⟨q, mem_of_getElem? (getElem?_set_ne hij ▸ hj), hQ⟩

theorem mem_set_self_of (hi : procs[i]? = some pc) : pc' ∈ procs.set i pc' :=
  mem_set (getElem?_eq_some_iff.mp hi).1 pc'

/-- The number of processes with a property after one has moved. -/
theorem countP_set_add (q : P → Bool) (pc' : P) (hi : procs[i]? = some pc) :
    (procs.set i pc').countP q + (if q pc then 1 else 0) =
      procs.countP q + if q pc' then 1 else 0 := by
  induction procs generalizing i with
  | nil => cases hi
  | cons a procs ih =>
    cases i with
    | zero =>
      cases hi
      simp only [set_cons_zero, countP_cons]
      omega
    | succ i =>
      have := ih hi
      simp only [set_cons_succ, countP_cons]
      omega

/-- A sum over the processes after one has moved. -/
theorem sum_map_set_add (f : P → ℕ) (pc' : P) (hi : procs[i]? = some pc) :
    ((procs.set i pc').map f).sum + f pc = (procs.map f).sum + f pc' := by
  induction procs generalizing i with
  | nil => cases hi
  | cons a procs ih =>
    cases i with
    | zero =>
      cases hi
      simp only [set_cons_zero, map_cons, sum_cons]
      omega
    | succ i =>
      have := ih hi
      simp only [set_cons_succ, map_cons, sum_cons]
      omega

/-- If at most one process has a property, it is at one place. -/
theorem eq_of_countP_le_one {q : P → Bool} (h : procs.countP q ≤ 1) {j : ℕ} {qc : P}
    (hi : procs[i]? = some pc) (hj : procs[j]? = some qc) (hpc : q pc = true)
    (hqc : q qc = true) : i = j := by
  induction procs generalizing i j with
  | nil => cases hi
  | cons a procs ih =>
    rw [countP_cons] at h
    -- A process with the property behind one that has it is one too many.
    have htail : ∀ {n : ℕ} {x : P}, procs[n]? = some x → q x = true → q a = true → False := by
      intro n x hn hx ha
      have hpos := countP_pos_iff.mpr ⟨x, mem_of_getElem? hn, hx⟩
      rw [if_pos ha] at h
      omega
    rcases i with _ | i <;> rcases j with _ | j
    · rfl
    · cases hi
      exact (htail hj hqc hpc).elim
    · cases hj
      exact (htail hi hpc hqc).elim
    · rw [ih (by omega) hi hj]

end List

/-- What a process does: the control state it starts in, and its step as the process `i`. -/
structure Process (S : Type u) (A : Type v) (P : Type w) (I : Type x) where
  start : A → P
  step : (i : ℕ) → S → P → I → Option (S × P)

/-- A shared state and the control states of the processes. -/
structure Concurrent (S : Type u) (P : Type w) where
  shared : S
  procs : List P

/-- A process is started, or the process `i` moves with the input `input`. -/
inductive ConcurrentLabel (A : Type v) (I : Type x)
  | call (a : A)
  | move (i : ℕ) (input : I)

namespace Process

variable {S : Type u} {A : Type v} {P : Type w} {I : Type x}

/-- One step of the processes. -/
def concurrentStep (p : Process S A P I) (c : Concurrent S P) :
    ConcurrentLabel A I → Option (Concurrent S P)
  | .call a => some ⟨c.shared, c.procs ++ [p.start a]⟩
  | .move i input =>
    match c.procs[i]? with
    | none => none
    | some pc => (p.step i c.shared pc input).map fun r => ⟨r.1, c.procs.set i r.2⟩

/-- Any number of processes over a shared state. -/
def concurrent (p : Process S A P I) (init : S) :
    TransitionSystem (Concurrent S P) (ConcurrentLabel A I) where
  init := ⟨init, []⟩
  step := p.concurrentStep

/-- What a step does. -/
inductive ConcurrentMove (p : Process S A P I) (c : Concurrent S P) :
    ConcurrentLabel A I → Concurrent S P → Prop
  | call (a : A) : ConcurrentMove p c (.call a) ⟨c.shared, c.procs ++ [p.start a]⟩
  | move {i : ℕ} {input : I} {pc pc' : P} {s : S} (hi : c.procs[i]? = some pc)
      (hstep : p.step i c.shared pc input = some (s, pc')) :
      ConcurrentMove p c (.move i input) ⟨s, c.procs.set i pc'⟩

theorem ConcurrentMove.of_step {p : Process S A P I} {init : S} {c c' : Concurrent S P}
    {l : ConcurrentLabel A I} (h : (p.concurrent init).step c l = some c') :
    ConcurrentMove p c l c' := by
  cases l with
  | call a =>
    cases h
    exact .call a
  | move i input =>
    simp only [concurrent, concurrentStep] at h
    cases hi : c.procs[i]? with
    | none =>
      rw [hi] at h
      cases h
    | some pc =>
      rw [hi] at h
      obtain ⟨⟨s, pc'⟩, hstep, rfl⟩ := Option.map_eq_some_iff.mp h
      exact .move hi hstep

/-- The process `i` alone, on these inputs. -/
def solo (p : Process S A P I) (i : ℕ) : S × P → List I → Option (S × P)
  | r, [] => some r
  | r, input :: inputs => (p.step i r.1 r.2 input).bind fun r => solo p i r inputs

/-- What a process can do alone it can do among others. -/
theorem run_solo {p : Process S A P I} {init : S} {i : ℕ} {s s' : S} {pc pc' : P}
    {procs : List P} {inputs : List I} (hi : procs[i]? = some pc)
    (h : p.solo i (s, pc) inputs = some (s', pc')) :
    (p.concurrent init).run ⟨s, procs⟩ (inputs.map (.move i)) = some ⟨s', procs.set i pc'⟩ := by
  induction inputs generalizing s pc procs with
  | nil =>
    cases h
    rw [List.set_getElem?_self hi]
    rfl
  | cons input inputs ih =>
    obtain ⟨⟨t, qc⟩, hstep, hrest⟩ := Option.bind_eq_some_iff.mp h
    have hnext : (p.concurrent init).step ⟨s, procs⟩ (.move i input) =
        some ⟨t, procs.set i qc⟩ := by
      simp only [concurrent, concurrentStep, hi, hstep, Option.map_some]
    have hqc : (procs.set i qc)[i]? = some qc :=
      List.getElem?_set_self (List.getElem?_eq_some_iff.mp hi).1
    rw [List.map_cons, TransitionSystem.run_cons, hnext, Option.bind_some, ih hqc hrest,
      List.set_set]

end Process
