import Mathlib.Data.List.Basic

/-!
# Lists with an index

Programs keep a list and, beside it, a map from keys to positions, so that the entry of a
key is found without a search.  `IndexedBy key index l` says that the map is right:
`index k` is the position of the entry with the key `k`.  Entries may have no key.  Since
a key has one position it has at most one entry (`IndexedBy.split`).
-/

universe u v

namespace List

variable {E : Type u} {K : Type v} {key : E → Option K} {index : K → Option ℕ} {l : List E}

/-- The entries of a list with one more at its end. -/
theorem getElem?_concat_eq_some {e x : E} {i : ℕ} :
    (l ++ [e])[i]? = some x ↔ l[i]? = some x ∨ i = l.length ∧ x = e := by
  rcases Nat.lt_trichotomy i l.length with hlt | rfl | hgt
  · rw [getElem?_append_left hlt]
    simp [Nat.ne_of_lt hlt]
  · simp [eq_comm]
  · rw [getElem?_eq_none_iff.mpr (Nat.le_of_lt hgt),
      getElem?_eq_none_iff.mpr (by rw [length_append]; exact hgt)]
    simp [Nat.ne_of_gt hgt]

/-- An entry changed in place. -/
theorem modify_append_cons (before after : List E) (x : E) (f : E → E) :
    (before ++ x :: after).modify before.length f = before ++ f x :: after := by
  induction before with
  | nil => rfl
  | cons y before ih => rw [cons_append, length_cons, modify_succ_cons, ih, cons_append]

/-- `index` gives the position of every key that occurs in `l`. -/
def IndexedBy (key : E → Option K) (index : K → Option ℕ) (l : List E) : Prop :=
  ∀ k i, index k = some i ↔ ∃ e, l[i]? = some e ∧ key e = some k

namespace IndexedBy

theorem nil : IndexedBy key (fun _ => none) [] := by
  intro k i
  simp

variable (h : IndexedBy key index l)
include h

theorem eq_none_iff (k : K) :
    index k = none ↔ ∀ e ∈ l, key e ≠ some k := by
  constructor
  · intro hnone e he hk
    obtain ⟨i, hi⟩ := mem_iff_getElem?.mp he
    rw [(h k i).mpr ⟨e, hi, hk⟩] at hnone
    cases hnone
  · intro hno
    by_contra hsome
    obtain ⟨i, hi⟩ := Option.ne_none_iff_exists'.mp hsome
    obtain ⟨e, he, hk⟩ := (h k i).mp hi
    exact hno e (mem_of_getElem? he) hk

/-- **A key has one entry.** -/
theorem split {k : K} {i : ℕ} (hi : index k = some i) :
    ∃ before e after, l = before ++ e :: after ∧ before.length = i ∧ key e = some k ∧
      (∀ x ∈ before, key x ≠ some k) ∧ ∀ x ∈ after, key x ≠ some k := by
  obtain ⟨e, he, hk⟩ := (h k i).mp hi
  obtain ⟨hlt, hget⟩ := getElem?_eq_some_iff.mp he
  have hl : l = l.take i ++ e :: l.drop (i + 1) := by
    rw [← hget, getElem_cons_drop, take_append_drop]
  -- another entry with this key would have another position
  have hother : ∀ j x, l[j]? = some x → key x = some k → j = i := by
    intro j x hx hkx
    have := (h k j).mpr ⟨x, hx, hkx⟩
    rw [hi] at this
    exact (Option.some.inj this).symm
  refine ⟨l.take i, e, l.drop (i + 1), hl, length_take_of_le (Nat.le_of_lt hlt), hk, ?_, ?_⟩
  · intro x hx hkx
    obtain ⟨j, hj⟩ := mem_iff_getElem?.mp hx
    have hji : j < i := by
      have := (getElem?_eq_some_iff.mp hj).1
      rw [length_take] at this
      omega
    rw [getElem?_take_of_lt hji] at hj
    exact Nat.ne_of_lt hji (hother j x hj hkx)
  · intro x hx hkx
    obtain ⟨j, hj⟩ := mem_iff_getElem?.mp hx
    rw [getElem?_drop] at hj
    have := hother _ x hj hkx
    omega

/-- An entry without a key at the end. -/
theorem push_none {e : E} (he : key e = none) :
    IndexedBy key index (l ++ [e]) := by
  intro k i
  rw [h k i]
  constructor
  · rintro ⟨x, hx, hk⟩
    exact ⟨x, getElem?_concat_eq_some.mpr (.inl hx), hk⟩
  · rintro ⟨x, hx, hk⟩
    rcases getElem?_concat_eq_some.mp hx with hx | ⟨-, rfl⟩
    · exact ⟨x, hx, hk⟩
    · rw [he] at hk
      cases hk

/-- An entry with a new key at the end. -/
theorem push [DecidableEq K] {e : E} {k : K} (hnew : index k = none)
    (he : key e = some k) :
    IndexedBy key (Function.update index k (some l.length)) (l ++ [e]) := by
  intro k' i
  by_cases hk : k' = k
  · subst hk
    rw [Function.update_self]
    constructor
    · intro hi
      cases hi
      exact ⟨e, getElem?_concat_eq_some.mpr (.inr ⟨rfl, rfl⟩), he⟩
    · rintro ⟨x, hx, hkx⟩
      rcases getElem?_concat_eq_some.mp hx with hx | ⟨rfl, -⟩
      · exact absurd hkx ((h.eq_none_iff k').mp hnew x (mem_of_getElem? hx))
      · rfl
  · rw [Function.update_of_ne hk, h k' i]
    constructor
    · rintro ⟨x, hx, hkx⟩
      exact ⟨x, getElem?_concat_eq_some.mpr (.inl hx), hkx⟩
    · rintro ⟨x, hx, hkx⟩
      rcases getElem?_concat_eq_some.mp hx with hx | ⟨-, rfl⟩
      · exact ⟨x, hx, hkx⟩
      · rw [he] at hkx
        exact absurd (Option.some.inj hkx).symm hk

/-- An entry changed in place, with its key kept. -/
theorem set {i : ℕ} {e e' : E} (hi : l[i]? = some e)
    (hkey : key e' = key e) : IndexedBy key index (l.set i e') := by
  intro k j
  rw [h k j]
  have hlt := (getElem?_eq_some_iff.mp hi).1
  by_cases hj : i = j
  · subst hj
    rw [getElem?_set_self hlt, hi]
    simp [hkey]
  · rw [getElem?_set_ne hj]

/-- **The entry of a key changed by `f`, and made where it is missing.** -/
theorem upsert [DecidableEq K] {k : K} {e : E} {f : E → E}
    (he : key e = some k) (hf : ∀ x, key (f x) = key x) :
    IndexedBy key (Function.update index k (some ((index k).getD l.length)))
        ((if (index k).isNone then l ++ [e] else l).modify ((index k).getD l.length) f) ∧
      ∀ k', ((if (index k).isNone then l ++ [e] else l).modify ((index k).getD l.length) f).filter
          (key · = some k') =
        if k' = k then [f ((l.filter (key · = some k)).head?.getD e)]
        else l.filter (key · = some k') := by
  cases hk : index k with
  | none =>
    have hnil : l.filter (key · = some k) = [] := by
      rw [filter_eq_nil_iff]
      intro x hx
      simpa using (h.eq_none_iff k).mp hk x hx
    have hl : (l ++ [e]).modify l.length f = l ++ [f e] := modify_append_cons l [] e f
    simp only [Option.isNone_none, if_true, Option.getD_none, hl, hnil]
    refine ⟨h.push hk ((hf e).trans he), fun k' => ?_⟩
    rw [filter_append]
    by_cases hk' : k' = k
    · subst hk'
      simp [hnil, hf, he]
    · simp [hf, he, hk', Ne.symm hk']
  | some i =>
    obtain ⟨before, x, after, rfl, rfl, hx, hbefore, hafter⟩ := h.split hk
    have hget : (before ++ x :: after)[before.length]? = some x := by simp
    have hset : (before ++ x :: after).set before.length (f x) = before ++ f x :: after := by simp
    have hsame : Function.update index k (some before.length) = index := by
      rw [← hk, Function.update_eq_self]
    have hnil : ∀ l' : List E, (∀ y ∈ l', key y ≠ some k) → l'.filter (key · = some k) = [] := by
      intro l' hl'
      rw [filter_eq_nil_iff]
      intro y hy
      simpa using hl' y hy
    simp only [Option.isNone_some, Bool.false_eq_true, if_false, Option.getD_some,
      modify_append_cons, hsame]
    refine ⟨hset ▸ h.set hget (hf x), fun k' => ?_⟩
    rw [filter_append, filter_append, filter_append, filter_cons, filter_cons, filter_cons, hf,
      hx, hnil before hbefore, hnil after hafter]
    by_cases hk' : k' = k
    · subst hk'
      simp [hnil before hbefore, hnil after hafter]
    · simp [hk', Ne.symm hk']

end IndexedBy

end List
