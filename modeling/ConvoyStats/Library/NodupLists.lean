import Mathlib.Data.List.Sort

/-!
# Keys read off a list

A log is read through partial functions: `l.filterMap f` is the list of keys its
entries carry.  Where those keys do not repeat, a key determines its entry, and
two logs with the same keys have the same length and are sorted into the same list.
`nodup_flatMap_of_fibers` joins logs kept apart by a key.  The last part is about lists related
entry by entry.
-/

universe u v w

namespace List

variable {α : Type u} {β : Type v}

variable {l : List α} {a : α} {b : β}

/-- Where the keys of a list do not repeat, a key determines its entry. -/
theorem eq_of_nodup_filterMap {f : α → Option β} (h : (l.filterMap f).Nodup) {a' : α} (ha : a ∈ l)
    (ha' : a' ∈ l) (hb : f a = some b) (hb' : f a' = some b) : a = a' := by
  induction l with
  | nil => cases ha
  | cons x l ih =>
    -- the key of the head does not occur in the tail
    have hfresh : ∀ {y : α}, y ∈ l → f x = some b → f y ≠ some b := by
      intro y hy hx hyb
      rw [filterMap_cons_some hx, nodup_cons] at h
      exact h.1 (mem_filterMap.mpr ⟨y, hy, hyb⟩)
    have htail : (l.filterMap f).Nodup := by
      cases hx : f x with
      | none => rwa [filterMap_cons_none hx] at h
      | some c =>
        rw [filterMap_cons_some hx, nodup_cons] at h
        exact h.2
    rcases mem_cons.mp ha with rfl | hmem <;> rcases mem_cons.mp ha' with rfl | hmem'
    · rfl
    · exact absurd hb' (hfresh hmem' hb)
    · exact absurd hb (hfresh hmem hb')
    · exact ih htail hmem hmem'

/-- Reading one entry of a list without repetitions. -/
theorem filterMap_ite_eq [DecidableEq α] (h : l.Nodup) (a : α) (v : Option β) :
    (l.filterMap fun x => if x = a then v else none) = if a ∈ l then v.toList else [] := by
  induction l with
  | nil => rfl
  | cons x l ih =>
    obtain ⟨hx, hl⟩ := nodup_cons.mp h
    by_cases hxa : x = a
    · subst hxa
      cases v with
      | none => simp
      | some b => simp [ih hl, hx]
    · simp [hxa, Ne.symm hxa, ih hl]

/-- A reading that agrees with another wherever it reads something reads a
sublist of its keys. -/
theorem filterMap_sublist_filterMap {f g : α → Option β}
    (hfg : ∀ a b, f a = some b → g a = some b) (l : List α) :
    (l.filterMap f).Sublist (l.filterMap g) := by
  induction l with
  | nil => exact .slnil
  | cons x l ih =>
    cases hf : f x with
    | some b =>
      rw [filterMap_cons_some hf, filterMap_cons_some (hfg x b hf)]
      exact ih.cons_cons b
    | none =>
      rw [filterMap_cons_none hf]
      cases hg : g x with
      | none => rwa [filterMap_cons_none hg]
      | some b =>
        rw [filterMap_cons_some hg]
        exact ih.cons b

/-- Keys with the same members, none repeated, are equally many. -/
theorem length_eq_of_nodup_of_mem_iff {l' : List α} (h : l.Nodup) (h' : l'.Nodup)
    (hmem : ∀ a, a ∈ l ↔ a ∈ l') : l.length = l'.length :=
  ((perm_ext_iff_of_nodup h h').mpr hmem).length_eq

/-- Strictly sorted lists with the same members are the same. -/
theorem eq_of_pairwise_of_mem_iff {r : α → α → Prop} (hasymm : ∀ a b, r a b → ¬ r b a) {l' : List α}
    (h : l.Pairwise r) (h' : l'.Pairwise r) (hmem : ∀ a, a ∈ l ↔ a ∈ l') : l = l' := by
  have hnodup : ∀ {m : List α}, m.Pairwise r → m.Nodup := by
    intro m hm
    refine hm.imp fun {a b} hab heq => ?_
    subst heq
    exact hasymm _ _ hab hab
  refine Perm.eq_of_pairwise ?_ h h' ((perm_ext_iff_of_nodup (hnodup h) (hnodup h')).mpr hmem)
  intro a b _ _ hab hba
  exact absurd hba (hasymm a b hab)

/-- Sorting by an order that tells the elements apart forgets in which order they came. -/
theorem insertionSort_eq_of_perm {le : α → α → Prop} [DecidableRel le] [Std.Total le] [IsTrans α le]
    {l₁ l₂ : List α} (hperm : l₁.Perm l₂) (hanti : ∀ a ∈ l₁, ∀ b ∈ l₁, le a b → le b a → a = b) :
    l₁.insertionSort le = l₂.insertionSort le := by
  have hsorted := (perm_insertionSort le l₁).trans
    (hperm.trans (perm_insertionSort le l₂).symm)
  refine Perm.eq_of_pairwise ?_ (pairwise_insertionSort le l₁) (pairwise_insertionSort le l₂)
    hsorted
  intro a b ha hb
  exact hanti a ((perm_insertionSort le l₁).mem_iff.mp ha) b
    (hperm.mem_iff.mpr ((perm_insertionSort le l₂).mem_iff.mp hb))

/-- Lists tagged with keys, put one after the other, repeat nothing if those of one
key do not and those of different keys are disjoint. -/
theorem nodup_flatMap_of_fibers {κ : Type w} [DecidableEq κ] (key : α → κ) {f : α → List β}
    (hsame : ∀ k, ((l.filter fun a => key a = k).flatMap f).Nodup)
    (hdiff : ∀ a ∈ l, ∀ a' ∈ l, key a ≠ key a' → ∀ b ∈ f a, b ∉ f a') : (l.flatMap f).Nodup := by
  induction l with
  | nil => exact nodup_nil
  | cons x l ih =>
    have hx := hsame (key x)
    rw [filter_cons_of_pos (by simp), flatMap_cons] at hx
    have htail : (l.flatMap f).Nodup := by
      refine ih (fun k => ?_) fun a ha a' ha' =>
        hdiff a (mem_cons_of_mem _ ha) a' (mem_cons_of_mem _ ha')
      have hk := hsame k
      rw [filter_cons] at hk
      split at hk
      · rw [flatMap_cons] at hk
        exact hk.of_append_right
      · exact hk
    rw [flatMap_cons]
    refine hx.of_append_left.append htail fun b hb hrest => ?_
    obtain ⟨a, ha, hba⟩ := mem_flatMap.mp hrest
    by_cases hkey : key x = key a
    · exact disjoint_of_nodup_append hx hb
        (mem_flatMap.mpr ⟨a, mem_filter.mpr ⟨ha, by simp [hkey]⟩, hba⟩)
    · exact hdiff x mem_cons_self a (mem_cons_of_mem _ ha) hkey b hb hba

section Related

variable {γ : Type w} {R : α → β → Prop} {l : List α} {l' : List β}

theorem Forall₂.exists_right_of_mem (h : Forall₂ R l l') (ha : a ∈ l) : ∃ b ∈ l', R a b := by
  induction h with
  | nil => cases ha
  | cons hr _ ih =>
    rcases mem_cons.mp ha with rfl | hmem
    · exact ⟨_, mem_cons_self, hr⟩
    · obtain ⟨b, hb, hrb⟩ := ih hmem
      exact ⟨b, mem_cons_of_mem _ hb, hrb⟩

theorem Forall₂.exists_left_of_mem (h : Forall₂ R l l') (hb : b ∈ l') : ∃ a ∈ l, R a b := by
  induction h with
  | nil => cases hb
  | cons hr _ ih =>
    rcases mem_cons.mp hb with rfl | hmem
    · exact ⟨_, mem_cons_self, hr⟩
    · obtain ⟨a, ha, hra⟩ := ih hmem
      exact ⟨a, mem_cons_of_mem _ ha, hra⟩

/-- Distinct entries that determine their left partners have distinct ones. -/
theorem Forall₂.nodup_right (h : Forall₂ R l l') (hl : l.Nodup)
    (hleft : ∀ a a' b, R a b → R a' b → a = a') : l'.Nodup := by
  induction h with
  | nil => exact nodup_nil
  | cons hr hrest ih =>
    rw [nodup_cons] at hl ⊢
    refine ⟨fun hmem => ?_, ih hl.2⟩
    obtain ⟨a, ha, hra⟩ := hrest.exists_left_of_mem hmem
    exact hl.1 (hleft _ _ _ hr hra ▸ ha)

/-- Choose, entry by entry, what the relation says exists. -/
theorem Forall₂.exists_choice {S : α → γ → β → Prop}
    (h : Forall₂ (fun a b => ∃ c, S a c b) l l') :
    ∃ cs : List (γ × β), l' = cs.map Prod.snd ∧ Forall₂ (fun a c => S a c.1 c.2) l cs := by
  induction h with
  | nil => exact ⟨[], rfl, .nil⟩
  | cons hr _ ih =>
    obtain ⟨c, hc⟩ := hr
    obtain ⟨cs, rfl, hcs⟩ := ih
    exact ⟨(c, _) :: cs, rfl, .cons hc hcs⟩

end Related

end List
