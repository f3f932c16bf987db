import Mathlib.Data.List.Basic

/-!
# Bounded queues

A first-in first-out queue that never has more than `n` items.  What does not fit is refused, or
takes the place of the oldest item; both are counted.
-/

universe u

/-- A queue of at most `n` items. -/
structure BoundedQueue (α : Type u) (n : ℕ) where
  /-- The oldest item first. -/
  items : List α
  /-- The number of refused and of evicted items. -/
  dropped : ℕ
  length_le : items.length ≤ n

namespace BoundedQueue

variable {α : Type u} {n : ℕ}

def empty : BoundedQueue α n := ⟨[], 0, Nat.zero_le n⟩

def Full (q : BoundedQueue α n) : Prop := q.items.length = n

instance (q : BoundedQueue α n) : Decidable q.Full := inferInstanceAs (Decidable (_ = _))

theorem length_lt (q : BoundedQueue α n) (h : ¬ q.Full) : q.items.length < n :=
  Nat.lt_of_le_of_ne q.length_le h

/-- Append an item to a queue that is not full. -/
def append (q : BoundedQueue α n) (x : α) (h : ¬ q.Full) : BoundedQueue α n :=
  ⟨q.items ++ [x], q.dropped, by rw [List.length_append]; exact q.length_lt h⟩

/-- Count an item that was refused. -/
def refuse (q : BoundedQueue α n) : BoundedQueue α n := { q with dropped := q.dropped + 1 }

/-- Append an item in the place of the oldest. -/
def displace (q : BoundedQueue α n) (x : α) : BoundedQueue α n :=
  ⟨(q.items ++ [x]).tail, q.dropped + 1, by
    rw [List.length_tail, List.length_append]
    exact q.length_le⟩

/-- Remove the `k` oldest items. -/
def remove (q : BoundedQueue α n) (k : ℕ) : BoundedQueue α n :=
  ⟨q.items.drop k, q.dropped, by
    rw [List.length_drop]
    exact Nat.le_trans (Nat.sub_le ..) q.length_le⟩

theorem remove_remove (q : BoundedQueue α n) (j k : ℕ) :
    (q.remove j).remove k = q.remove (j + k) := by
  simp only [remove, List.drop_drop]

theorem remove_eq_self (q : BoundedQueue α n) {k : ℕ} (h : q.items = []) : q.remove k = q := by
  obtain ⟨items, dropped, hle⟩ := q
  obtain rfl := h
  simp only [remove, List.drop_nil]

end BoundedQueue
