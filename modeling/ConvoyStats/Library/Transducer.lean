import Mathlib.Data.List.Forall2
import Mathlib.Data.Option.Basic

/-!
# Transducers over keyed inputs

A transducer reads its inputs one after the other, changes its state and gives one output
for each, or refuses an input and stops.  `Keyed` says that its state has a component for
every key and that an input only touches the component of its own key.  Such a transducer
is many small ones side by side: seen from one key, its run is the run of the small one on
the inputs of that key (`Keyed.run_some`), and if it stops then one of the small ones does
(`Keyed.run_none`).
-/

universe u v w z t

namespace Transducer

open List

variable {S : Type u} {X : Type v} {Y : Type w} {K : Type z} {V : Type t}

/-- Feed the inputs one after the other, collecting the outputs. -/
def run (step : S → X → Option (S × Y)) : S → List X → Option (S × List Y)
  | s, [] => some (s, [])
  | s, x :: xs => (step s x).bind fun r => (run step r.1 xs).map fun rest => (rest.1, r.2 :: rest.2)

variable {step : S → X → Option (S × Y)}

@[simp] theorem run_nil (s : S) : run step s [] = some (s, []) := rfl

theorem run_cons (s : S) (x : X) (xs : List X) :
    run step s (x :: xs) =
      (step s x).bind fun r => (run step r.1 xs).map fun rest => (rest.1, r.2 :: rest.2) := rfl

theorem run_append (s : S) (xs xs' : List X) :
    run step s (xs ++ xs') =
      (run step s xs).bind fun r =>
        (run step r.1 xs').map fun rest => (rest.1, r.2 ++ rest.2) := by
  induction xs generalizing s with
  | nil => simp
  | cons x xs ih =>
    rw [cons_append, run_cons, run_cons]
    cases step s x with
    | none => rfl
    | some r =>
      simp only [Option.bind_some, ih]
      cases run step r.1 xs with
      | none => rfl
      | some rest => simp [Function.comp_def]

variable {s s' : S} {xs : List X} {ys : List Y}

theorem run_cons_some {x : X} (h : run step s (x :: xs) = some (s', ys)) :
    ∃ t y ys', step s x = some (t, y) ∧ run step t xs = some (s', ys') ∧ ys = y :: ys' := by
  rw [run_cons, Option.bind_eq_some_iff] at h
  obtain ⟨⟨t, y⟩, hstep, hmap⟩ := h
  obtain ⟨⟨t', ys'⟩, hrest, heq⟩ := Option.map_eq_some_iff.mp hmap
  cases heq
  exact ⟨t, y, ys', hstep, hrest, rfl⟩

/-- **The invariant rule**, for the states and for what the outputs have to do with the inputs. -/
theorem run_forall₂ {I : S → Prop} {R : X → Y → Prop} (h0 : I s)
    (hstep : ∀ x ∈ xs, ∀ y ∈ ys, ∀ t t', I t → step t x = some (t', y) → I t' ∧ R x y)
    (h : run step s xs = some (s', ys)) : I s' ∧ Forall₂ R xs ys := by
  induction xs generalizing s ys with
  | nil =>
    cases h
    exact ⟨h0, .nil⟩
  | cons x xs ih =>
    obtain ⟨t, y, ys, hx, hrest, rfl⟩ := run_cons_some h
    obtain ⟨ht, hy⟩ := hstep x mem_cons_self y mem_cons_self s t h0 hx
    obtain ⟨hs', hys⟩ := ih ht (fun x' hx' y' hy' =>
      hstep x' (mem_cons_of_mem _ hx') y' (mem_cons_of_mem _ hy')) hrest
    exact ⟨hs', .cons hy hys⟩

/-- There is one output for each input. -/
theorem run_length (h : run step s xs = some (s', ys)) : ys.length = xs.length :=
  (run_forall₂ (I := fun _ => True) (R := fun _ _ => True) trivial
    (fun _ _ _ _ _ _ _ _ => ⟨trivial, trivial⟩) h).2.length_eq.symm

/-- A run is cut in two where its inputs and outputs are. -/
theorem run_split {xs' : List X} {ys' : List Y} (h : run step s (xs ++ xs') = some (s', ys ++ ys'))
    (hlength : ys.length = xs.length) :
    ∃ t, run step s xs = some (t, ys) ∧ run step t xs' = some (s', ys') := by
  rw [run_append, Option.bind_eq_some_iff] at h
  obtain ⟨⟨t, zs⟩, hfirst, hmap⟩ := h
  obtain ⟨⟨t', zs'⟩, hsecond, heq⟩ := Option.map_eq_some_iff.mp hmap
  simp only [Prod.mk.injEq] at heq
  obtain ⟨rfl, houts⟩ := heq
  obtain ⟨rfl, rfl⟩ := append_inj houts ((run_length hfirst).trans hlength.symm)
  exact ⟨t, hfirst, hsecond⟩

theorem run_singleton {x : X} {y : Y} :
    run step s [x] = some (s', [y]) ↔ step s x = some (s', y) := by
  rw [run_cons]
  cases step s x with
  | none => simp
  | some r => simp [Prod.ext_iff]

/-- **The invariant rule**, for what the states have to do with the inputs read. -/
theorem run_invariant {I : List X → S → Prop} (h0 : I [] s)
    (hstep : ∀ xs x y t t', I xs t → step t x = some (t', y) → I (xs ++ [x]) t')
    (h : run step s xs = some (s', ys)) : I xs s' := by
  have hgeneral : ∀ (xs' before : List X) (t : S) (ys : List Y), I before t →
      run step t xs' = some (s', ys) → I (before ++ xs') s' := by
    intro xs'
    induction xs' with
    | nil =>
      intro before t ys ht hrun
      cases hrun
      rwa [append_nil]
    | cons x xs' ih =>
      intro before t ys ht hrun
      obtain ⟨t', y, ys', hx, hrest, -⟩ := run_cons_some hrun
      rw [append_cons]
      exact ih (before ++ [x]) t' _ (hstep before x y t t' ht hx) hrest
  exact hgeneral xs [] s ys h0 h

/-- **The simulation rule.**  If related states answer every input alike and stay related, then so
do runs. -/
theorem run_simulation {T : Type*} {step' : T → X → Option (T × Y)} {R : S → T → Prop}
    (hstep : ∀ s t x, R s t →
      ∃ s' t' y, step s x = some (s', y) ∧ step' t x = some (t', y) ∧ R s' t')
    {t : T} (h : R s t) (xs : List X) :
    ∃ s' t' ys, run step s xs = some (s', ys) ∧ run step' t xs = some (t', ys) ∧ R s' t' := by
  induction xs generalizing s t with
  | nil => exact ⟨s, t, [], rfl, rfl, h⟩
  | cons x xs ih =>
    obtain ⟨s₁, t₁, y, hs, ht, h₁⟩ := hstep s t x h
    obtain ⟨s', t', ys, hs', ht', h'⟩ := ih h₁
    exact ⟨s', t', y :: ys, by rw [run_cons, hs, Option.bind_some, hs', Option.map_some],
      by rw [run_cons, ht, Option.bind_some, ht', Option.map_some], h'⟩

/-- The outputs of a run, from an invariant of its states. -/
theorem forall_outputs {I : S → Prop} {Q : Y → Prop} (h0 : I s)
    (hstep : ∀ x ∈ xs, ∀ y t t', I t → step t x = some (t', y) → I t' ∧ Q y)
    (h : run step s xs = some (s', ys)) : ∀ y ∈ ys, Q y := by
  have hall := (run_forall₂ (R := fun _ y => Q y) h0 (fun x hx y _ => hstep x hx y) h).2
  intro y hy
  obtain ⟨i, hi, rfl⟩ := mem_iff_getElem.mp hy
  exact hall.get (hall.length_eq ▸ hi) hi

/-- A transducer that reads and writes the same things under other names. -/
theorem run_map {X' : Type*} {Y' : Type*} {step' : S → X' → Option (S × Y')} (f : X → X')
    (g : Y → Y') (h : ∀ s x, step' s (f x) = (step s x).map fun r => (r.1, g r.2)) (s : S)
    (xs : List X) :
    run step' s (xs.map f) = (run step s xs).map fun r => (r.1, r.2.map g) := by
  induction xs generalizing s with
  | nil => rfl
  | cons x xs ih =>
    rw [map_cons, run_cons, run_cons, h]
    cases step s x with
    | none => rfl
    | some r => simp [ih, Function.comp_def]

/-- A transducer that gives its inputs back. -/
theorem run_out_eq {step : S → X → Option (S × X)} (h : ∀ s x r, step s x = some r → r.2 = x)
    {ys : List X} (hrun : run step s xs = some (s', ys)) : ys = xs := by
  have hsame := (run_forall₂ (I := fun _ => True) (R := (· = ·)) trivial
    (fun x _ y _ t t' _ hstep => ⟨trivial, (h t x _ hstep).symm⟩) hrun).2
  rw [forall₂_eq_eq_eq] at hsame
  exact hsame.symm

/-- The state is made of components `get s k`, and an input touches the component of its
key, by `small`. -/
structure Keyed (key : X → K) (keyOut : Y → K) (get : S → K → V)
    (step : S → X → Option (S × Y)) (small : K → V → X → Option (V × Y)) [DecidableEq K] :
    Prop where
  split : ∀ s x, (step s x).map (fun r => (get r.1, r.2)) =
    (small (key x) (get s (key x)) x).map fun r => (Function.update (get s) (key x) r.1, r.2)
  out : ∀ {k v x r}, small k v x = some r → key x = k → keyOut r.2 = k

namespace Keyed

variable [DecidableEq K] {key : X → K} {keyOut : Y → K} {get : S → K → V}
variable {small : K → V → X → Option (V × Y)}

variable {s : S}

variable (h : Keyed key keyOut get step small)
include h

/-- One input, from its own key and from the others. -/
theorem step_some {x : X} {y : Y}
    (hstep : step s x = some (s', y)) :
    (∃ v, small (key x) (get s (key x)) x = some (v, y) ∧ get s' (key x) = v) ∧
      keyOut y = key x ∧ ∀ k, k ≠ key x → get s' k = get s k := by
  have hsplit := h.split s x
  rw [hstep, Option.map_some] at hsplit
  obtain ⟨⟨v, y'⟩, hsmall, heq⟩ := Option.map_eq_some_iff.mp hsplit.symm
  obtain ⟨hget, rfl⟩ := Prod.mk.injEq .. ▸ heq
  refine ⟨⟨v, hsmall, ?_⟩, h.out hsmall rfl, fun k hk => ?_⟩
  · rw [← hget, Function.update_self]
  · rw [← hget, Function.update_of_ne hk]

/-- **The run from one key.** -/
theorem run_some (hrun : run step s xs = some (s', ys))
    (k : K) :
    run (small k) (get s k) (xs.filter (key · = k)) =
      some (get s' k, ys.filter (keyOut · = k)) := by
  induction xs generalizing s ys with
  | nil =>
    cases hrun
    rfl
  | cons x xs ih =>
    obtain ⟨s₁, y, ys', hstep, hrest, rfl⟩ := run_cons_some hrun
    obtain ⟨⟨v, hsmall, hget⟩, hout, hother⟩ := h.step_some hstep
    by_cases hk : key x = k
    · subst hk
      rw [filter_cons_of_pos (by simp), filter_cons_of_pos (by simpa using hout),
        run_cons, hsmall, Option.bind_some, ← hget, ih hrest]
      rfl
    · have hk' : keyOut y ≠ k := fun hy => hk (hout.symm.trans hy)
      rw [filter_cons_of_neg (by simpa using hk), filter_cons_of_neg (by simpa using hk'),
        ← hother k (Ne.symm hk), ih hrest]

/-- **A run that stops is stopped at one key.** -/
theorem run_none (hrun : run step s xs = none) :
    ∃ k, run (small k) (get s k) (xs.filter (key · = k)) = none := by
  induction xs generalizing s with
  | nil => cases hrun
  | cons x xs ih =>
    rw [run_cons] at hrun
    cases hstep : step s x with
    | none =>
      have hsplit := h.split s x
      rw [hstep, Option.map_none] at hsplit
      refine ⟨key x, ?_⟩
      rw [filter_cons_of_pos (by simp), run_cons,
        Option.map_eq_none_iff.mp hsplit.symm, Option.bind_none]
    | some r =>
      rw [hstep, Option.bind_some, Option.map_eq_none_iff] at hrun
      obtain ⟨k, hk⟩ := ih hrun
      obtain ⟨⟨v, hsmall, hget⟩, -, hother⟩ := h.step_some hstep
      refine ⟨k, ?_⟩
      by_cases hx : key x = k
      · subst hx
        rw [filter_cons_of_pos (by simp), run_cons, hsmall, Option.bind_some, ← hget, hk]
        rfl
      · rw [filter_cons_of_neg (by simpa using hx), ← hother k (Ne.symm hx), hk]

end Keyed

end Transducer
