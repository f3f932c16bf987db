import Mathlib.Data.List.Perm.Basic
import Mathlib.Data.List.Flatten

/-!
# Piles

Things are put on one of several piles, and whole piles are written out, one after the other.
Whatever the order, nothing is lost and nothing is written twice: `all` is, up to the order, what
has been put (`all_put`, `all_take`).
-/

universe u

/-- Piles of things, and the things that have been written. -/
structure Piles (α : Type u) where
  piles : List (List α)
  written : List α

namespace Piles

open List

variable {α : Type u}

/-- `n` empty piles. -/
def empty (n : ℕ) : Piles α := ⟨replicate n [], []⟩

variable (p : Piles α) (k : ℕ)

/-- What is on the pile `k`. -/
def pile : List α := p.piles[k]?.getD []

/-- Put a thing on the pile `k`. -/
def put (a : α) : Piles α := { p with piles := p.piles.modify k (· ++ [a]) }

/-- Write the pile `k`. -/
def take : Piles α := ⟨p.piles.modify k fun _ => [], p.written ++ p.pile k⟩

/-- Everything that has been put. -/
def all : List α := p.written ++ p.piles.flatten

variable {p k} {j : ℕ} {a b : α}

@[simp] theorem pile_empty (n : ℕ) : (empty n : Piles α).pile k = [] := by
  simp only [pile, empty, getElem?_replicate]
  split <;> rfl

@[simp] theorem all_empty (n : ℕ) : (empty n : Piles α).all = [] := by
  simp [all, empty]

@[simp] theorem length_put : (p.put k a).piles.length = p.piles.length := length_modify ..

@[simp] theorem length_take : (p.take k).piles.length = p.piles.length := length_modify ..

@[simp] theorem written_put : (p.put k a).written = p.written := rfl

theorem written_take : (p.take k).written = p.written ++ p.pile k := rfl

theorem pile_put_self (hk : k < p.piles.length) : (p.put k a).pile k = p.pile k ++ [a] := by
  simp [pile, put, hk]

theorem pile_put_of_ne (h : j ≠ k) : (p.put k a).pile j = p.pile j := by
  simp [pile, put, h.symm]

@[simp] theorem pile_take_self : (p.take k).pile k = [] := by
  simp only [pile, take, getElem?_modify]
  cases p.piles[k]? <;> simp

theorem pile_take_of_ne (h : j ≠ k) : (p.take k).pile j = p.pile j := by
  simp [pile, take, h.symm]

theorem lt_length_of_pile (h : p.pile k ≠ []) : k < p.piles.length := by
  by_contra hlt
  rw [pile, getElem?_eq_none (Nat.le_of_not_lt hlt)] at h
  exact h rfl

/-- **Putting adds the thing.** -/
theorem all_put (hk : k < p.piles.length) : ((p.put k a).all).Perm (a :: p.all) := by
  have hflat : ∀ (ps : List (List α)) (k : ℕ), k < ps.length →
      ((ps.modify k (· ++ [a])).flatten).Perm (a :: ps.flatten) := by
    intro ps
    induction ps with
    | nil => intro k hk; cases hk
    | cons x ps ih =>
      intro k hk
      cases k with
      | zero =>
        simp only [modify_zero_cons, flatten_cons]
        exact (perm_append_comm.append_right _)
      | succ k =>
        simp only [modify_succ_cons, flatten_cons]
        exact ((ih k (Nat.lt_of_succ_lt_succ hk)).append_left x).trans perm_middle
  exact ((hflat p.piles k hk).append_left p.written).trans perm_middle

/-- **Writing keeps everything.** -/
theorem all_take : ((p.take k).all).Perm p.all := by
  have hflat : ∀ (ps : List (List α)) (k : ℕ),
      (ps[k]?.getD [] ++ (ps.modify k fun _ => []).flatten).Perm ps.flatten := by
    intro ps
    induction ps with
    | nil => intro k; simp
    | cons x ps ih =>
      intro k
      cases k with
      | zero => simp
      | succ k =>
        simp only [getElem?_cons_succ, modify_succ_cons, flatten_cons]
        refine List.Perm.trans ?_ ((ih k).append_left x)
        rw [← append_assoc, ← append_assoc]
        exact perm_append_comm.append_right _
  rw [all, written_take, append_assoc]
  exact (hflat p.piles k).append_left p.written

theorem mem_all_put (hk : k < p.piles.length) : b ∈ (p.put k a).all ↔ b = a ∨ b ∈ p.all := by
  rw [(all_put hk).mem_iff, mem_cons]

theorem mem_all_take : b ∈ (p.take k).all ↔ b ∈ p.all := all_take.mem_iff

theorem mem_all_of_written (h : b ∈ p.written) : b ∈ p.all := mem_append_left _ h

theorem mem_written_take (h : b ∈ p.written) : b ∈ (p.take k).written := mem_append_left _ h

/-- A thing that was written or on the pile `j` still is. -/
theorem placed_take (h : b ∈ p.written ∨ b ∈ p.pile j) :
    b ∈ (p.take k).written ∨ b ∈ (p.take k).pile j := by
  rcases h with h | h
  · exact .inl (mem_written_take h)
  · by_cases hjk : j = k
    · subst hjk
      exact .inl (mem_append_right _ h)
    · rw [pile_take_of_ne hjk]
      exact .inr h

theorem placed_put (h : b ∈ p.written ∨ b ∈ p.pile j) :
    b ∈ (p.put k a).written ∨ b ∈ (p.put k a).pile j := by
  refine h.imp_right fun h => ?_
  by_cases hjk : j = k
  · subst hjk
    rw [pile_put_self (lt_length_of_pile (ne_nil_of_mem h))]
    exact mem_append_left _ h
  · rwa [pile_put_of_ne hjk]

end Piles
