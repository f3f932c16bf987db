import Mathlib.Data.Multiset.MapFold
import Mathlib.Tactic.Ring
import Mathlib.Tactic.Linarith

/-!
# Coarsening integer indexes

Bucket indexes at one resolution become indexes at a resolution `d` times halved by
an arithmetic shift, `i >>> d`; `coarsen` does so to a multiset of indexes.  `Fits size d m` says
that the indexes of `m` span at most `size` buckets after `d` halvings, and `LeastDrop` picks the
least number of halvings, out of those there is room for, at which a property holds.

`LeastDrop.restart` is what makes an incremental search exact: a search for a
stronger property may start from the result of the search for a weaker one, since
the stronger one fails wherever the weaker one does.
-/

namespace Coarsening

variable {size : ℤ} {d e : ℕ} {m n : Multiset ℤ}

theorem shiftRight_mono {i j : ℤ} (h : i ≤ j) (d : ℕ) : i >>> d ≤ j >>> d := by
  rw [Int.shiftRight_eq_div_pow, Int.shiftRight_eq_div_pow]
  exact Int.ediv_le_ediv (by positivity) h

/-- Halving brings indexes no further apart. -/
theorem shiftRight_one_sub_le {i j : ℤ} (h : j ≤ i) :
    (i >>> (1 : ℕ)) - (j >>> (1 : ℕ)) ≤ i - j := by
  rw [Int.shiftRight_eq_div_pow, Int.shiftRight_eq_div_pow]
  omega

/-- The indexes of `m` after `d` halvings of the resolution. -/
def coarsen (d : ℕ) (m : Multiset ℤ) : Multiset ℤ := m.map fun i : ℤ => i >>> d

@[simp] theorem coarsen_empty : coarsen d 0 = 0 := rfl

@[simp] theorem coarsen_zero : coarsen 0 m = m := by simp [coarsen]

@[simp] theorem coarsen_eq_zero : coarsen d m = 0 ↔ m = 0 := Multiset.map_eq_zero

theorem coarsen_add : coarsen d (m + n) = coarsen d m + coarsen d n := Multiset.map_add ..

theorem coarsen_coarsen : coarsen e (coarsen d m) = coarsen (d + e) m := by
  simp only [coarsen, Multiset.map_map, Function.comp_def, Int.shiftRight_add]

theorem coarsen_replicate (k : ℕ) (i : ℤ) :
    coarsen d (Multiset.replicate k i) = Multiset.replicate k (i >>> d) :=
  Multiset.map_replicate ..

theorem mem_coarsen {j : ℤ} : j ∈ coarsen d m ↔ ∃ i ∈ m, i >>> d = j := Multiset.mem_map

/-- The indexes of `m` span at most `size` buckets after `d` halvings. -/
def Fits (size : ℤ) (d : ℕ) (m : Multiset ℤ) : Prop :=
  ∀ i ∈ m, ∀ j ∈ m, (i >>> d) - (j >>> d) < size

namespace Fits

@[simp] theorem zero : Fits size d 0 := nofun

theorem subset (h : Fits size d n) (hsub : m ⊆ n) : Fits size d m :=
  fun i hi j hj => h i (hsub hi) j (hsub hj)

theorem succ (hsize : 0 < size) (h : Fits size d m) : Fits size (d + 1) m := by
  intro i hi j hj
  rw [Int.shiftRight_add, Int.shiftRight_add]
  rcases le_total (j >>> d) (i >>> d) with hle | hle
  · exact (shiftRight_one_sub_le hle).trans_lt (h i hi j hj)
  · have := shiftRight_mono hle 1
    omega

theorem mono (hsize : 0 < size) (h : Fits size d m) (hle : d ≤ e) : Fits size e m := by
  induction e, hle using Nat.le_induction with
  | base => exact h
  | succ e _ ih => exact ih.succ hsize

/-- Spans of indexes that have been coarsened before. -/
theorem coarsen : Fits size d (coarsen e m) ↔ Fits size (e + d) m := by
  simp only [Fits, mem_coarsen, forall_exists_index, and_imp, forall_apply_eq_imp_iff₂,
    Int.shiftRight_add]

end Fits

/-- The least of the drops up to `room` at which `P` holds, or `room` where none does. -/
structure LeastDrop (room : ℕ) (P : ℕ → Prop) (d : ℕ) : Prop where
  le : d ≤ room
  holds : d = room ∨ P d
  least : ∀ e < d, ¬ P e

namespace LeastDrop

variable {room c : ℕ} {P Q : ℕ → Prop}

theorem unique (h : LeastDrop room P d) (h' : LeastDrop room P e) : d = e := by
  rcases Nat.lt_trichotomy d e with hlt | heq | hlt
  · rcases h.holds with hd | hP
    · have := h'.le
      omega
    · exact absurd hP (h'.least d hlt)
  · exact heq
  · rcases h'.holds with he | hP
    · have := h.le
      omega
    · exact absurd hP (h.least e hlt)

theorem congr (h : LeastDrop room P d) (hPQ : ∀ e ≤ room, P e ↔ Q e) : LeastDrop room Q d where
  le := h.le
  holds := h.holds.imp_right (hPQ d h.le).mp
  least := fun e he hQ => h.least e he ((hPQ e (he.le.trans h.le)).mpr hQ)

/-- **A search may start late**, past drops at which the property fails. -/
theorem restart (hle : d ≤ room) (hnot : ∀ e < d, ¬ P e)
    (h : LeastDrop (room - d) (fun e => P (d + e)) c) : LeastDrop room P (d + c) where
  le := by
    have := h.le
    omega
  holds := by
    rcases h.holds with hc | hP
    · left
      omega
    · exact .inr hP
  least := by
    intro e he hP
    rcases Nat.lt_or_ge e d with hlt | hge
    · exact hnot e hlt hP
    · refine h.least (e - d) (by omega) ?_
      rwa [Nat.add_sub_cancel' hge]

end LeastDrop

end Coarsening
