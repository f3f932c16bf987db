import Mathlib.Logic.Function.Basic

/-!
# Families changed at one place

A step of one process of many changes the family of their states at one place.  What is to be
shown of all members afterwards is shown of the new one, and is known of the others: the two
cases are `update_cases`.  Often not even the new member is to be looked at, since the step
does not touch the field in question (`congr_of_update`).
-/

namespace Function

variable {α β γ : Type*} [DecidableEq α] {f g : α → β} {a : α} {v : β}

/-- A member of a family changed at `a` is the new one, or is as it was. -/
theorem update_cases (h : g = update f a v) (b : α) : b = a ∧ g b = v ∨ b ≠ a ∧ g b = f b := by
  by_cases hb : b = a
  · exact .inl ⟨hb, by rw [h, hb, update_self]⟩
  · exact .inr ⟨hb, by rw [h, update_of_ne hb]⟩

/-- What the new member has of the one it replaces, all have as they had it. -/
theorem congr_of_update (p : β → γ) (h : g = update f a v) (hp : p v = p (f a)) (b : α) :
    p (g b) = p (f b) := by
  rcases update_cases h b with ⟨rfl, hb⟩ | ⟨-, hb⟩
  · rw [hb, hp]
  · rw [hb]

end Function
