import Mathlib.Data.List.Induction

/-!
# The order of the entries of a log

`l.Precedes a b` says that some occurrence of `a` comes before some occurrence of
`b` in `l`.  A log only grows at its end, so the order of two entries is settled
when the second one is written.
-/

universe u

namespace List

variable {α : Type u} {l l' : List α} {a b c : α}

/-- `a` occurs in `l` before an occurrence of `b`. -/
def Precedes (l : List α) (a b : α) : Prop := [a, b] <+ l

instance [DecidableEq α] : Decidable (l.Precedes a b) :=
  inferInstanceAs (Decidable ([a, b] <+ l))

/-- An entry of a log that has grown by one is the new one, or was there. -/
theorem concat_eq_append_cons {before after : List α} (h : l ++ [c] = before ++ a :: after) :
    (after = [] ∧ l = before ∧ c = a) ∨
      ∃ after', after = after' ++ [c] ∧ l = before ++ a :: after' := by
  rcases eq_nil_or_concat after with rfl | ⟨after', last, rfl⟩
  · obtain ⟨rfl, hlast⟩ := append_inj' h rfl
    exact .inl ⟨rfl, rfl, singleton_inj.mp hlast⟩
  · rw [concat_eq_append, ← cons_append, ← append_assoc] at h
    obtain ⟨hl, hlast⟩ := append_inj' h rfl
    exact .inr ⟨after', by rw [concat_eq_append, singleton_inj.mp hlast], hl⟩

theorem Precedes.left_mem (h : l.Precedes a b) : a ∈ l := h.subset (by simp)

theorem Precedes.right_mem (h : l.Precedes a b) : b ∈ l := h.subset (by simp)

/-- Order survives growth. -/
theorem Precedes.mono (h : l.Precedes a b) (hl : l <+: l') : l'.Precedes a b :=
  Sublist.trans h hl.sublist

/-- What is added comes after what was there. -/
theorem precedes_append (ha : a ∈ l) (hb : b ∈ l') : (l ++ l').Precedes a b :=
  Sublist.append (singleton_sublist.mpr ha) (singleton_sublist.mpr hb)

/-- The order of two entries after one more is written. -/
theorem precedes_append_singleton :
    (l ++ [c]).Precedes a b ↔ l.Precedes a b ∨ a ∈ l ∧ b = c := by
  rw [Precedes, Precedes]
  constructor
  · intro h
    rw [sublist_append_iff] at h
    obtain ⟨l₁, l₂, heq, h₁, h₂⟩ := h
    match l₁, l₂, heq with
    | [], _, rfl =>
      have := h₂.length_le
      simp at this
    | [_], [_], rfl =>
      simp only [singleton_sublist, mem_singleton] at h₁ h₂
      exact .inr ⟨h₁, h₂⟩
    | [_, _], [], rfl => exact .inl h₁
  · rintro (h | ⟨ha, rfl⟩)
    · exact h.trans (sublist_append_left _ _)
    · exact Sublist.append (singleton_sublist.mpr ha) (Sublist.refl _)

/-- An order whose second entry is not new was there before. -/
theorem Precedes.of_append {events : List α} (h : (l ++ events).Precedes a b)
    (hb : b ∉ events) : l.Precedes a b := by
  induction events using List.reverseRecOn with
  | nil => simpa using h
  | append_singleton events e ih =>
    rw [← List.append_assoc, precedes_append_singleton] at h
    simp only [mem_append, mem_singleton, not_or] at hb
    exact ih (h.resolve_right fun hlast => hb.2 hlast.2) hb.1

end List
