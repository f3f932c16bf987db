import Mathlib.Data.Option.Basic
import Mathlib.Data.List.Basic

/-!
# Labelled transition systems with executable steps

A system is a start state and a partial step function: `step s l` is the state
after the step named by the label `l`, or `none` where that step is not enabled.
The label carries every choice the system does not make itself (which process
moves, what the environment answers), so one list of labels determines one run
and a concrete run can be evaluated.

`Reachable T allowed` collects the states of all runs whose steps satisfy
`allowed`, a condition on the state before a step and the step's label.  A
safety property of every run is stated at `fun _ _ => True`; a property of the
runs that avoid some step is stated at the condition that excludes it.

* `Reachable.invariant` is the induction rule: a predicate that holds at the
  start and is kept by every allowed step holds in every reachable state.
* `Reachable.mono` weakens the condition.
* `Reachable.of_run` turns an evaluated run into reachability; `Reachable.of_labels` and
  `Reachable.of_labels_within` are its forms for a run from the start.
* `run_countP_le` bounds the steps one party takes by a rank.
* `Passes` is what holds at some moment of a run; `passes_of_runWithin` is the rule for it.
* `recording` writes down what each step puts out; `recording_invariant` is the
  induction rule for a state together with its record.
-/

universe u v

/-- A labelled transition system: a start state and a partial, executable step
function. -/
structure TransitionSystem (S : Type u) (L : Type v) where
  /-- The state every run starts in. -/
  init : S
  /-- The state after the step `l`, or `none` where `l` is not enabled. -/
  step : S → L → Option S

namespace TransitionSystem

variable {S : Type u} {L : Type v} (T : TransitionSystem S L)

/-- The states of the runs from `T.init` all of whose steps satisfy `allowed`. -/
inductive Reachable (allowed : S → L → Prop) : S → Prop
  | init : Reachable allowed T.init
  | step {s s' : S} {l : L} :
      Reachable allowed s → allowed s l → T.step s l = some s' → Reachable allowed s'

/-- The states of all runs. -/
abbrev Reach : S → Prop := T.Reachable fun _ _ => True

/-- Execute a list of labels, stopping with `none` at the first step that is not
enabled. -/
def run : S → List L → Option S
  | s, [] => some s
  | s, l :: ls => (T.step s l).bind fun s' => run s' ls

/-- Execute a list of labels and also check `allowed` before every step. -/
def runWithin (allowed : S → L → Bool) : S → List L → Option S
  | s, [] => some s
  | s, l :: ls =>
    if allowed s l then (T.step s l).bind fun s' => runWithin allowed s' ls else none

variable {T}

@[simp] theorem run_nil (s : S) : T.run s [] = some s := rfl

theorem run_cons (s : S) (l : L) (ls : List L) :
    T.run s (l :: ls) = (T.step s l).bind fun s' => T.run s' ls := rfl

variable {check : S → L → Bool} {s s' : S} {ls : List L}

/-- A checked run is a run. -/
theorem run_of_runWithin (h : T.runWithin check s ls = some s') : T.run s ls = some s' := by
  induction ls generalizing s with
  | nil => exact h
  | cons l ls ih =>
    rw [runWithin] at h
    split at h
    · rw [Option.bind_eq_some_iff] at h
      obtain ⟨t, ht, hrest⟩ := h
      rw [run_cons, ht]
      exact ih hrest
    · cases h

/-- **The ranking rule.**  If a property is kept by every step, and a rank goes down
at the steps of one party and up at none, then that party takes no more steps than
its rank allows, whatever the others do. -/
theorem run_countP_le (I : S → Prop) (rank : S → ℕ) (own : L → Bool)
    (hkeep : ∀ s l s', I s → T.step s l = some s' → I s')
    (hown : ∀ s l s', I s → T.step s l = some s' → own l = true → rank s' < rank s)
    (hother : ∀ s l s', I s → T.step s l = some s' → own l = false → rank s' ≤ rank s) (h : I s)
    (hrun : T.run s ls = some s') : I s' ∧ ls.countP own + rank s' ≤ rank s := by
  induction ls generalizing s with
  | nil =>
    cases hrun
    exact ⟨h, by simp⟩
  | cons l ls ih =>
    rw [run_cons, Option.bind_eq_some_iff] at hrun
    obtain ⟨t, ht, hrest⟩ := hrun
    obtain ⟨hI, hle⟩ := ih (hkeep s l t h ht) hrest
    refine ⟨hI, ?_⟩
    cases hl : own l with
    | false =>
      have := hother s l t h ht hl
      rw [List.countP_cons_of_neg (by simp [hl])]
      omega
    | true =>
      have := hown s l t h ht hl
      rw [List.countP_cons_of_pos hl]
      omega

/-! ### Moments of a run -/

variable (T) in
/-- Some state of the run, the first and the last included, has the property. -/
def Passes (P : S → Prop) : S → List L → Prop
  | s, [] => P s
  | s, l :: ls => P s ∨ ∃ s' ∈ T.step s l, Passes P s' ls

instance (P : S → Prop) [DecidablePred P] : ∀ (s : S) (ls : List L), Decidable (T.Passes P s ls)
  | s, [] => inferInstanceAs (Decidable (P s))
  | s, l :: ls =>
    have := fun s' => instDecidablePassesOfDecidablePred P s' ls
    inferInstanceAs (Decidable (P s ∨ ∃ s' ∈ T.step s l, T.Passes P s' ls))

/-- **The rule of the moment.**  What every step from a state without `P` keeps is lost only in a
run that passes through a state with `P`. -/
theorem passes_of_runWithin {P Q : S → Prop}
    (hkeep : ∀ s l s', Q s → ¬ P s → check s l = true → T.step s l = some s' → Q s') (hQ : Q s)
    (hrun : T.runWithin check s ls = some s') (hend : ¬ Q s') : T.Passes P s ls := by
  induction ls generalizing s with
  | nil =>
    cases hrun
    exact absurd hQ hend
  | cons l ls ih =>
    rw [runWithin] at hrun
    split at hrun
    · rename_i hl
      obtain ⟨t, ht, hrest⟩ := Option.bind_eq_some_iff.mp hrun
      by_cases hP : P s
      · exact .inl hP
      · exact .inr ⟨t, ht, ih (hkeep s l t hQ hP hl ht) hrest⟩
    · cases hrun

namespace Reachable

variable {allowed weaker : S → L → Prop} {s s' : S}

/-- **The invariant rule.**  What holds at the start and is kept by every allowed
step from a reachable state holds in every reachable state. -/
theorem invariant {I : S → Prop} (h0 : I T.init)
    (hstep : ∀ s l s', T.Reachable allowed s → I s → allowed s l →
      T.step s l = some s' → I s')
    (h : T.Reachable allowed s) : I s := by
  induction h with
  | init => exact h0
  | step hr ha hs ih => exact hstep _ _ _ hr ih ha hs

/-- A run within a condition is a run within every weaker one. -/
theorem mono (hle : ∀ s l, allowed s l → weaker s l) (h : T.Reachable allowed s) :
    T.Reachable weaker s := by
  induction h with
  | init => exact .init
  | step _ ha hs ih => exact .step ih (hle _ _ ha) hs

/-- Every restricted run is a run. -/
theorem reach (h : T.Reachable allowed s) : T.Reach s :=
  h.mono fun _ _ _ => trivial

/-- Extending a reachable state by an evaluated run. -/
theorem of_run (h : T.Reach s) (hrun : T.run s ls = some s') : T.Reach s' := by
  induction ls generalizing s with
  | nil =>
    cases hrun
    exact h
  | cons l ls ih =>
    rw [run_cons, Option.bind_eq_some_iff] at hrun
    obtain ⟨t, ht, hrest⟩ := hrun
    exact ih (.step h trivial ht) hrest

/-- Extending a state reachable within a decidable condition by an evaluated,
checked run. -/
theorem of_runWithin (h : T.Reachable (fun s l => check s l = true) s)
    (hrun : T.runWithin check s ls = some s') : T.Reachable (fun s l => check s l = true) s' := by
  induction ls generalizing s with
  | nil =>
    cases hrun
    exact h
  | cons l ls ih =>
    rw [runWithin] at hrun
    split at hrun
    · rename_i hl
      rw [Option.bind_eq_some_iff] at hrun
      obtain ⟨t, ht, hrest⟩ := hrun
      exact ih (.step h hl ht) hrest
    · cases hrun

/-- A state that an evaluated run ends in. -/
theorem of_labels (ls : List L) (hrun : T.run T.init ls = some s) : T.Reach s :=
  of_run .init hrun

/-- A state that an evaluated run within a condition ends in. -/
theorem of_labels_within (allowed : S → L → Prop) [∀ s l, Decidable (allowed s l)] (ls : List L)
    (hrun : T.runWithin (fun s l => decide (allowed s l)) T.init ls = some s) :
    T.Reachable allowed s :=
  (of_runWithin .init hrun).mono fun _ _ => of_decide_eq_true

end Reachable

/-! ### Outputs -/

variable {O : Type*}

/-- The system with a record of what each of its steps puts out. -/
def recording (T : TransitionSystem S L) (out : S → L → List O) :
    TransitionSystem (S × List O) L where
  init := (T.init, [])
  step := fun (s, outs) l => (T.step s l).map fun s' => (s', outs ++ out s l)

/-- **The invariant rule with a record.** -/
theorem recording_invariant {out : S → L → List O} {I : S → List O → Prop} (h0 : I T.init [])
    (hstep : ∀ s outs l s', T.Reach s → I s outs → T.step s l = some s' → I s' (outs ++ out s l))
    {outs : List O} (h : (T.recording out).Reach (s, outs)) : T.Reach s ∧ I s outs := by
  refine h.invariant (I := fun p => T.Reach p.1 ∧ I p.1 p.2) ⟨.init, h0⟩ ?_
  rintro ⟨s, outs⟩ l ⟨s', outs'⟩ - ⟨hreach, hI⟩ - hs
  obtain ⟨t, ht, heq⟩ := Option.map_eq_some_iff.mp hs
  cases heq
  exact ⟨.step hreach trivial ht, hstep s outs l _ hreach hI ht⟩

end TransitionSystem
