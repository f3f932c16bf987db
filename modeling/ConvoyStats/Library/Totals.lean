import Mathlib.Algebra.Order.BigOperators.Group.Finset
import Mathlib.Data.Set.Card

/-!
# Running totals over a changing set

A counter that is raised by the weight of an item when the item enters a set and lowered by
it when it leaves is the sum of the weights of the members, provided nothing enters twice
and only members leave.  `Totals P w total` says that `total` is that sum for the set of the
items with `P`, which is thereby finite; `gain` and `lose` are the two ways it changes.
-/

universe u v

/-- `P` holds of finitely many items and `total` is the sum of their weights. -/
def Totals {α : Type u} {M : Type v} [AddCommMonoid M] (P : α → Prop) (w : α → M) (total : M) :
    Prop :=
  ∃ members : Finset α, (∀ a, a ∈ members ↔ P a) ∧ total = ∑ a ∈ members, w a

namespace Totals

variable {α : Type u} {P Q : α → Prop}

section Monoid

variable {M : Type v} [AddCommMonoid M] {w w' : α → M} {total total' : M}

theorem of_empty (h : ∀ a, ¬ P a) : Totals P w 0 :=
  ⟨∅, fun a => iff_of_false (Finset.notMem_empty a) (h a), Finset.sum_empty.symm⟩

/-- The same set with the same weights. -/
theorem congr (h : Totals P w total) (hPQ : ∀ a, Q a ↔ P a) (hw : ∀ a, P a → w' a = w a) :
    Totals Q w' total := by
  obtain ⟨members, hmem, htotal⟩ := h
  refine ⟨members, fun a => (hmem a).trans (hPQ a).symm, ?_⟩
  rw [htotal]
  exact Finset.sum_congr rfl fun a ha => (hw a ((hmem a).mp ha)).symm

/-- An item enters. -/
theorem gain [DecidableEq α] (h : Totals P w total) {b : α} (hb : ¬ P b)
    (hPQ : ∀ a, Q a ↔ P a ∨ a = b) (htotal : total' = total + w b) : Totals Q w total' := by
  obtain ⟨members, hmem, hsum⟩ := h
  refine ⟨insert b members, fun a => ?_, ?_⟩
  · rw [Finset.mem_insert, hmem, hPQ, or_comm]
  · rw [Finset.sum_insert (mt (hmem b).mp hb), ← hsum, htotal, add_comm]

end Monoid

section Group

variable {M : Type v} [AddCommGroup M] {w : α → M} {total total' : M}

/-- An item leaves. -/
theorem lose [DecidableEq α] (h : Totals P w total) {b : α} (hb : P b)
    (hPQ : ∀ a, Q a ↔ P a ∧ a ≠ b) (htotal : total' = total - w b) : Totals Q w total' := by
  obtain ⟨members, hmem, hsum⟩ := h
  refine ⟨members.erase b, fun a => ?_, ?_⟩
  · rw [Finset.mem_erase, hmem, hPQ, and_comm]
  · rw [htotal, hsum, ← Finset.add_sum_erase _ _ ((hmem b).mpr hb), add_sub_cancel_left]

end Group

theorem nonneg {M : Type v} [AddCommMonoid M] [PartialOrder M] [IsOrderedAddMonoid M]
    {w : α → M} {total : M} (h : Totals P w total) (hw : ∀ a, 0 ≤ w a) : 0 ≤ total := by
  obtain ⟨members, -, rfl⟩ := h
  exact Finset.sum_nonneg fun a _ => hw a

/-- With weight one the total is the number of members. -/
theorem ncard {total : ℕ} (h : Totals P (fun _ => 1) total) : {a | P a}.ncard = total := by
  obtain ⟨members, hmem, rfl⟩ := h
  rw [← Finset.card_eq_sum_ones, ← Set.ncard_coe_finset]
  exact congrArg Set.ncard (Set.ext fun a => (hmem a).symm)

end Totals
