import Mathlib.Data.List.Basic
import Mathlib.Order.Nat

/-!
# Binary search

The search of a half-open interval for the first index at which a predicate holds.  On a
monotone predicate it finds what a linear search finds (`search_eq_findIdx`).
-/

namespace BinarySearch

/-- The interval `[i, j)` is halved until it is empty.  Every round makes it shorter, so its
length bounds the rounds. -/
def loop (f : ℕ → Bool) : (fuel : ℕ) → (i j : ℕ) → ℕ
  | 0, i, _ => i
  | fuel + 1, i, j =>
    if i < j then
      let h := (i + j) / 2
      if f h then loop f fuel i h else loop f fuel (h + 1) j
    else i

/-- The first index below `n` at which `f` holds, or `n`. -/
def search (n : ℕ) (f : ℕ → Bool) : ℕ := loop f n 0 n

/-- The invariant of the loop: `f` fails before `i` and holds from `j` on.  At the end the two
meet. -/
theorem loop_spec {f : ℕ → Bool} {n fuel i j : ℕ}
    (hmono : ∀ a b, a ≤ b → b < n → f a = true → f b = true) (hij : i ≤ j) (hjn : j ≤ n)
    (hfuel : j - i ≤ fuel) (hbefore : ∀ k < i, f k = false)
    (hafter : ∀ k, j ≤ k → k < n → f k = true) :
    loop f fuel i j ≤ n ∧ (∀ k < loop f fuel i j, f k = false) ∧
      ∀ k, loop f fuel i j ≤ k → k < n → f k = true := by
  induction fuel generalizing i j with
  | zero =>
    obtain rfl : i = j := by omega
    exact ⟨hjn, hbefore, hafter⟩
  | succ fuel ih =>
    rw [loop]
    split
    · rename_i hlt
      dsimp only
      split
      · rename_i hf
        refine ih (by omega) (by omega) (by omega) hbefore fun k hk hkn => ?_
        exact hmono _ k hk hkn hf
      · rename_i hf
        refine ih (by omega) hjn (by omega) (fun k hk => ?_) hafter
        by_contra htrue
        exact hf (hmono k _ (by omega) (by omega) (by simpa using htrue))
    · obtain rfl : i = j := by omega
      exact ⟨hjn, hbefore, hafter⟩

/-- **On a monotone predicate the search is linear search.** -/
theorem search_eq_findIdx {α : Type*} (l : List α) (p : α → Bool) (f : ℕ → Bool)
    (hf : ∀ i (hi : i < l.length), f i = p l[i])
    (hmono : ∀ a b, a ≤ b → b < l.length → f a = true → f b = true) :
    search l.length f = l.findIdx p := by
  obtain ⟨hle, hbefore, hafter⟩ : search l.length f ≤ l.length ∧
      (∀ k < search l.length f, f k = false) ∧
      ∀ k, search l.length f ≤ k → k < l.length → f k = true :=
    loop_spec hmono (Nat.zero_le _) (Nat.le_refl _) (Nat.sub_le ..)
      (fun k hk => absurd hk (by omega))
      (fun k hk hkn => absurd hkn (by omega))
  refine le_antisymm ?_ ?_
  · by_contra hlt
    rw [not_le] at hlt
    have hfound : l.findIdx p < l.length := lt_of_lt_of_le hlt hle
    have htrue := List.findIdx_getElem (w := hfound)
    rw [← hf _ hfound, hbefore _ hlt] at htrue
    cases htrue
  · by_contra hlt
    rw [not_le] at hlt
    have hsearch : search l.length f < l.length := lt_of_lt_of_le hlt List.findIdx_le_length
    have hfalse := List.not_of_lt_findIdx hlt
    rw [← hf _ hsearch, hafter _ le_rfl hsearch] at hfalse
    cases hfalse

end BinarySearch
