import Mathlib.Data.List.Dedup
import Mathlib.Data.List.Perm.Subperm
import Mathlib.Data.List.Sort

/-!
# Sets by key

Items with keys, as a list that is sorted by key with each key once (`SortedBy`).  `canonical` makes
one of any list: it sorts stably and keeps the last of the items with one key.  It is described by
`last?`, which finds the last item with a key:

* `mem_canonical`: its items are the last ones of their keys;
* `canonical_congr`: lists with the same last items have one canonical form, whatever their order;
* `mem_keys_take_canonical`: its first `n` keys are the `n` smallest;
* `take_canonical_append_take`: if the first `n` of `l ++ l'` are put behind `l` once more, they are
  the first `n` again, and `length_canonical_append_take` says when as many are left over.
-/

universe u v

namespace Keyed

open List

variable {α : Type u} {K : Type v} (key : α → K)

/-- Sorted by key, each key once. -/
def SortedBy [LT K] (l : List α) : Prop := l.Pairwise fun a b => key a < key b

/-- The last item with a key. -/
def last? [DecidableEq K] (l : List α) (k : K) : Option α := (l.filter fun a => key a = k).getLast?

/-- Of neighbours with one key the last. -/
def keepLast [DecidableEq K] : List α → List α
  | [] => []
  | [a] => [a]
  | a :: b :: rest => if key a = key b then keepLast (b :: rest) else a :: keepLast (b :: rest)

/-- The items sorted by key, the last of those with one key. -/
def canonical [LE K] [DecidableLE K] [DecidableEq K] (l : List α) : List α :=
  keepLast key (l.insertionSort fun a b => key a ≤ key b)

/-! ### The last item with a key -/

section Last

variable {key} [DecidableEq K] {l : List α} {a : α} {k : K}

theorem last?_append (l l' : List α) (k : K) :
    last? key (l ++ l') k = (last? key l' k).or (last? key l k) := by
  rw [last?, filter_append, getLast?_append]
  rfl

theorem last?_cons (a : α) (l : List α) (k : K) :
    last? key (a :: l) k = (last? key l k).or (if key a = k then some a else none) := by
  rw [← singleton_append, last?_append]
  congr 1
  by_cases h : key a = k <;> simp [last?, h]

theorem last?_map {f : α → α} (hf : ∀ a, key (f a) = key a) (l : List α) (k : K) :
    last? key (l.map f) k = (last? key l k).map f := by
  rw [last?, filter_map, getLast?_map]
  simp only [Function.comp_def, hf]
  rfl

/-- Where only other keys are left out the last item stays. -/
theorem last?_filter {p : α → Bool} (hp : ∀ a, key a = k → p a = true) (l : List α) :
    last? key (l.filter p) k = last? key l k := by
  rw [last?, filter_filter, last?]
  congr 1
  refine filter_congr fun a _ => ?_
  by_cases ha : key a = k <;> simp [ha, hp]

theorem mem_of_last? (h : last? key l k = some a) : a ∈ l ∧ key a = k := by
  obtain ⟨hmem, hkey⟩ := mem_filter.mp (mem_of_getLast? h)
  exact ⟨hmem, of_decide_eq_true hkey⟩

theorem last?_isSome : (last? key l k).isSome ↔ k ∈ l.map key := by
  rw [last?, getLast?_isSome, mem_map]
  constructor
  · intro h
    obtain ⟨a, ha⟩ := exists_mem_of_ne_nil _ h
    obtain ⟨hmem, hkey⟩ := mem_filter.mp ha
    exact ⟨a, hmem, of_decide_eq_true hkey⟩
  · rintro ⟨a, hmem, hkey⟩
    exact ne_nil_of_mem (mem_filter.mpr ⟨hmem, decide_eq_true hkey⟩)

theorem last?_eq_none : last? key l k = none ↔ k ∉ l.map key := by
  rw [← last?_isSome, Option.not_isSome_iff_eq_none]

/-- Dropping the earlier of two neighbours with one key loses no last item. -/
theorem last?_keepLast (l : List α) (k : K) : last? key (keepLast key l) k = last? key l k := by
  fun_induction keepLast key l with
  | case1 => rfl
  | case2 a => rfl
  | case3 a b rest hkey ih =>
    rw [ih, last?_cons a]
    by_cases hk : key a = k
    · have hsome : (last? key (b :: rest) k).isSome := by
        rw [last?_isSome, map_cons, ← hkey, hk]
        exact mem_cons_self
      rw [Option.or_of_isSome hsome]
    · rw [if_neg hk, Option.or_none]
  | case4 a b rest hkey ih => rw [last?_cons, ih, ← last?_cons]

theorem mem_of_mem_keepLast (h : a ∈ keepLast key l) : a ∈ l := by
  fun_induction keepLast key l with
  | case1 => exact h
  | case2 b => exact h
  | case3 b c rest hkey ih => exact mem_cons_of_mem b (ih h)
  | case4 b c rest hkey ih =>
    rcases mem_cons.mp h with rfl | h
    · exact mem_cons_self
    · exact mem_cons_of_mem b (ih h)

end Last

/-! ### Sorted lists -/

section Sorted

variable {key} [LT K] {l l' : List α} {a b : α} {k : K}

/-- The items after the first `n` have greater keys. -/
theorem SortedBy.lt_of_mem_drop {n : ℕ} (h : SortedBy key l) (ha : a ∈ l.take n)
    (hb : b ∈ l.drop n) : key a < key b := by
  rw [SortedBy, ← take_append_drop n l, pairwise_append] at h
  exact h.2.2 a ha b hb

variable [Std.Asymm fun a b : K => a < b]

theorem SortedBy.keys_nodup (h : SortedBy key l) : (l.map key).Nodup := by
  refine pairwise_map.mpr (h.imp fun {a b} hlt heq => ?_)
  rw [heq] at hlt
  exact Std.Asymm.asymm _ _ hlt hlt

/-- A key determines its item. -/
theorem SortedBy.eq_of_key (h : SortedBy key l) (ha : a ∈ l) (hb : b ∈ l) (hkey : key a = key b) :
    a = b := inj_on_of_nodup_map h.keys_nodup ha hb hkey

/-- Sorted lists with the same items are equal. -/
theorem SortedBy.ext (h : SortedBy key l) (h' : SortedBy key l') (hmem : ∀ a, a ∈ l ↔ a ∈ l') :
    l = l' := by
  have hperm : l.Perm l' :=
    (perm_ext_iff_of_nodup (.of_map _ h.keys_nodup) (.of_map _ h'.keys_nodup)).mpr hmem
  refine hperm.eq_of_pairwise (fun a b _ _ hab hba => ?_) h h'
  exact absurd hba (Std.Asymm.asymm _ _ hab)

theorem last?_of_sortedBy [DecidableEq K] (h : SortedBy key l) :
    last? key l k = some a ↔ a ∈ l ∧ key a = k := by
  constructor
  · exact mem_of_last?
  · rintro ⟨ha, rfl⟩
    have hsome : (last? key l (key a)).isSome := last?_isSome.mpr (mem_map_of_mem ha)
    obtain ⟨b, hb⟩ := Option.isSome_iff_exists.mp hsome
    obtain ⟨hmem, hkey⟩ := mem_of_last? hb
    rw [hb, h.eq_of_key hmem ha hkey]

/-- **The first `n` keys are the `n` smallest.** -/
theorem SortedBy.mem_keys_take [DecidableLT K] (h : SortedBy key l) (n : ℕ) :
    k ∈ (l.take n).map key ↔ k ∈ l.map key ∧ (l.map key).countP (· < k) < n := by
  induction l generalizing n with
  | nil => simp
  | cons a l ih =>
    obtain ⟨hlt, hl⟩ := pairwise_cons.mp h
    cases n with
    | zero => simp
    | succ n =>
      rw [take_succ_cons, map_cons, map_cons, mem_cons, mem_cons,
        ih hl n, countP_cons]
      by_cases hk : k = key a
      · -- Nothing is smaller than the first key.
        subst hk
        have hnone : (l.map key).countP (· < key a) = 0 := by
          rw [countP_eq_zero]
          intro k hk
          obtain ⟨b, hb, rfl⟩ := mem_map.mp hk
          simpa using Std.Asymm.asymm _ _ (hlt b hb)
        have hself : ¬ key a < key a := fun hlt => Std.Asymm.asymm _ _ hlt hlt
        simp [hnone, hself]
      · simp only [hk, false_or]
        refine and_congr_right fun hmem => ?_
        obtain ⟨b, hb, rfl⟩ := mem_map.mp hmem
        rw [if_pos (decide_eq_true (hlt b hb))]
        exact Nat.add_lt_add_iff_right.symm

end Sorted

/-! ### The stable sort -/

section Stability

variable {key} [LE K] [DecidableLE K] [DecidableEq K] [Std.IsLinearOrder K] {k : K}

/-- **The sort is stable**: it keeps the order of the items with one key. -/
theorem filter_insertionSort (l : List α) (k : K) :
    ((l.insertionSort fun a b => key a ≤ key b).filter fun a => key a = k) =
      l.filter fun a => key a = k := by
  have hle : (l.filter fun a => key a = k).Pairwise fun a b => key a ≤ key b := by
    refine pairwise_of_forall_mem_list fun a ha b hb => ?_
    have hka : key a = k := of_decide_eq_true (mem_filter.mp ha).2
    have hkb : key b = k := of_decide_eq_true (mem_filter.mp hb).2
    rw [hka, hkb]
    exact Std.le_refl k
  have hsub : (l.filter fun a => key a = k).Sublist (l.insertionSort fun a b => key a ≤ key b) :=
    sublist_insertionSort hle filter_sublist
  have hfilter := hsub.filter fun a => decide (key a = k)
  rw [filter_filter] at hfilter
  simp only [Bool.and_self] at hfilter
  exact (hfilter.eq_of_length ((perm_insertionSort _ l).filter _).length_eq.symm).symm

theorem last?_canonical (l : List α) (k : K) : last? key (canonical key l) k = last? key l k := by
  rw [canonical, last?_keepLast, last?, filter_insertionSort]
  rfl

theorem mem_keys_canonical {l : List α} : k ∈ (canonical key l).map key ↔ k ∈ l.map key := by
  rw [← last?_isSome, last?_canonical, last?_isSome]

theorem mem_keys_canonical_filter {l : List α} {ks : List K} :
    k ∈ (canonical key (l.filter fun a => key a ∉ ks)).map key ↔ k ∈ l.map key ∧ k ∉ ks := by
  rw [mem_keys_canonical, mem_map, mem_map]
  constructor
  · rintro ⟨a, ha, rfl⟩
    obtain ⟨hmem, hnot⟩ := mem_filter.mp ha
    exact ⟨⟨a, hmem, rfl⟩, of_decide_eq_true hnot⟩
  · rintro ⟨⟨a, hmem, rfl⟩, hnot⟩
    exact ⟨a, mem_filter.mpr ⟨hmem, decide_eq_true hnot⟩, rfl⟩

end Stability

/-! ### The canonical form -/

section Canonical

variable {key} [LE K] [LT K] [DecidableEq K] [Std.IsLinearOrder K] [Std.LawfulOrderLT K]
  {l l' : List α} {a : α} {k : K}

theorem sortedBy_keepLast (h : l.Pairwise fun a b => key a ≤ key b) :
    SortedBy key (keepLast key l) := by
  fun_induction keepLast key l with
  | case1 => exact .nil
  | case2 a => exact pairwise_singleton _ a
  | case3 a b rest hkey ih => exact ih h.tail
  | case4 a b rest hkey ih =>
    obtain ⟨hle, htail⟩ := pairwise_cons.mp h
    refine pairwise_cons.mpr ⟨fun c hc => ?_, ih htail⟩
    have hab : key a < key b := Std.lt_of_le_of_ne (hle b mem_cons_self) hkey
    rcases mem_cons.mp (mem_of_mem_keepLast hc) with rfl | hmem
    · exact hab
    · exact Std.lt_of_lt_of_le hab (rel_of_pairwise_cons htail hmem)

variable [DecidableLE K]

theorem sortedBy_canonical (l : List α) : SortedBy key (canonical key l) := by
  have : Std.Total fun a b : α => key a ≤ key b := ⟨fun _ _ => Std.le_total⟩
  have : IsTrans α fun a b => key a ≤ key b := ⟨fun _ _ _ => Std.le_trans⟩
  exact sortedBy_keepLast (pairwise_insertionSort _ l)

/-- **The items of the canonical form** are the last ones of their keys. -/
theorem mem_canonical : a ∈ canonical key l ↔ last? key l (key a) = some a := by
  rw [← last?_canonical, last?_of_sortedBy (sortedBy_canonical l)]
  exact (and_iff_left rfl).symm

/-- Lists with the same last items have one canonical form. -/
theorem canonical_congr (h : ∀ k, last? key l k = last? key l' k) :
    canonical key l = canonical key l' := by
  refine (sortedBy_canonical l).ext (sortedBy_canonical l') fun a => ?_
  rw [mem_canonical, mem_canonical, h]

theorem canonical_eq_self (h : SortedBy key l) : canonical key l = l := by
  refine (sortedBy_canonical l).ext h fun a => ?_
  rw [mem_canonical, last?_of_sortedBy h]
  exact and_iff_left rfl

/-- A change of the items that keeps their keys commutes with the canonical form. -/
theorem canonical_map {f : α → α} (hf : ∀ a, key (f a) = key a) (l : List α) :
    canonical key (l.map f) = (canonical key l).map f := by
  have hsorted : SortedBy key ((canonical key l).map f) := by
    refine pairwise_map.mpr ((sortedBy_canonical l).imp fun hlt => ?_)
    rwa [hf, hf]
  refine (sortedBy_canonical _).ext hsorted fun a => ?_
  rw [mem_canonical, last?_map hf, Option.map_eq_some_iff, mem_map]
  refine exists_congr fun b => and_congr_left ?_
  rintro rfl
  rw [hf, mem_canonical]

/-- **A sorted list stays as it is** if what stands before it only adds greater keys. -/
theorem canonical_append_of_lt (hl' : SortedBy key l')
    (hlt : ∀ a ∈ l, key a ∉ l'.map key → ∀ b ∈ l', key b < key a) :
    canonical key (l ++ l') = l' ++ canonical key (l.filter fun a => key a ∉ l'.map key) := by
  have hsorted : SortedBy key (l' ++ canonical key (l.filter fun a => key a ∉ l'.map key)) := by
    refine pairwise_append.mpr ⟨hl', sortedBy_canonical _, fun b hb a ha => ?_⟩
    obtain ⟨hmem, hnot⟩ := mem_filter.mp (mem_of_last? (mem_canonical.mp ha)).1
    exact hlt a hmem (of_decide_eq_true hnot) b hb
  refine (sortedBy_canonical _).ext hsorted fun a => ?_
  rw [mem_canonical, last?_append, mem_append, mem_canonical]
  by_cases hkey : key a ∈ l'.map key
  · have hnone : last? key (l.filter fun a => key a ∉ l'.map key) (key a) = none := by
      rw [last?_eq_none]
      rintro hmem
      obtain ⟨b, hb, hba⟩ := mem_map.mp hmem
      exact of_decide_eq_true (mem_filter.mp hb).2 (hba ▸ hkey)
    rw [Option.or_of_isSome (last?_isSome.mpr hkey), last?_of_sortedBy hl', hnone]
    simp
  · have hkept : last? key (l.filter fun a => key a ∉ l'.map key) (key a) = last? key l (key a) :=
      last?_filter (fun b hb => decide_eq_true (hb ▸ hkey)) l
    have hnot : a ∉ l' := fun hmem => hkey (mem_map_of_mem hmem)
    rw [last?_eq_none.mpr hkey, Option.none_or, hkept]
    simp [hnot]

/-- **The first `n` keys of the canonical form** are the `n` smallest of the list. -/
theorem mem_keys_take_canonical [DecidableLT K] (l : List α) (n : ℕ) :
    k ∈ ((canonical key l).take n).map key ↔
      k ∈ l.map key ∧ (l.map key).dedup.countP (· < k) < n := by
  have hperm : ((canonical key l).map key).Perm (l.map key).dedup := by
    refine (perm_ext_iff_of_nodup (sortedBy_canonical l).keys_nodup (nodup_dedup _)).mpr ?_
    intro k
    rw [mem_keys_canonical, mem_dedup]
  rw [(sortedBy_canonical l).mem_keys_take, mem_keys_canonical, hperm.countP_eq]

/-! ### Adding again to what was kept -/

theorem mem_keys_drop_canonical {n : ℕ} : k ∈ ((canonical key l).drop n).map key ↔
    k ∈ l.map key ∧ k ∉ ((canonical key l).take n).map key := by
  have hsplit : (canonical key l).map key =
      ((canonical key l).take n).map key ++ ((canonical key l).drop n).map key := by
    rw [← map_append, take_append_drop]
  have hnodup : ((canonical key l).map key).Nodup := (sortedBy_canonical l).keys_nodup
  rw [hsplit, nodup_append'] at hnodup
  rw [← mem_keys_canonical (l := l), hsplit, mem_append]
  constructor
  · intro hk
    exact ⟨.inr hk, fun hkept => hnodup.2.2 hkept hk⟩
  · rintro ⟨hk, hnot⟩
    exact hk.resolve_left hnot

variable (key) in
/-- The items of `l` whose keys are not among the first `n` of `l ++ l'`. -/
def following (l l' : List α) (n : ℕ) : List α :=
  canonical key (l.filter fun a => key a ∉ ((canonical key (l ++ l')).take n).map key)

/-- What was kept of `l ++ l'` stays where `l` is put in front of it again, and the other keys of
`l` follow. -/
theorem canonical_append_take (l l' : List α) (n : ℕ) :
    canonical key (l ++ (canonical key (l ++ l')).take n) =
      (canonical key (l ++ l')).take n ++ following key l l' n := by
  have hsorted : SortedBy key (canonical key (l ++ l')) := sortedBy_canonical _
  refine canonical_append_of_lt (hsorted.sublist (take_sublist _ _)) fun a ha hnot b hb => ?_
  have hlost : key a ∈ ((canonical key (l ++ l')).drop n).map key :=
    mem_keys_drop_canonical.mpr ⟨mem_map_of_mem (mem_append_left l' ha), hnot⟩
  obtain ⟨c, hc, hkey⟩ := mem_map.mp hlost
  rw [← hkey]
  exact hsorted.lt_of_mem_drop hb hc

/-- The keys that follow are among those that were not kept. -/
theorem keys_following_subset (l l' : List α) (n : ℕ) :
    (following key l l' n).map key ⊆ ((canonical key (l ++ l')).drop n).map key := by
  intro k hk
  obtain ⟨hmem, hnot⟩ := mem_keys_canonical_filter.mp hk
  rw [mem_keys_drop_canonical, map_append]
  exact ⟨mem_append_left _ hmem, hnot⟩

/-- Keys follow only where `n` were kept. -/
theorem length_take_of_following {n : ℕ} (h : following key l l' n ≠ []) :
    ((canonical key (l ++ l')).take n).length = n := by
  obtain ⟨a, ha⟩ := exists_mem_of_ne_nil _ h
  have hlost := keys_following_subset l l' n (mem_map_of_mem ha)
  rw [length_take, Nat.min_eq_left]
  by_contra hshort
  rw [drop_of_length_le (Nat.le_of_not_le hshort)] at hlost
  cases hlost

/-- **What was kept is kept again.** -/
theorem take_canonical_append_take (l l' : List α) (n : ℕ) :
    (canonical key (l ++ (canonical key (l ++ l')).take n)).take n =
      (canonical key (l ++ l')).take n := by
  rw [canonical_append_take]
  by_cases h : following key l l' n = []
  · rw [h, append_nil, take_take, Nat.min_self]
  · rw [take_append_of_le_length (Nat.le_of_eq (length_take_of_following h).symm), take_take,
      Nat.min_self]

theorem length_canonical_append_take_sub (l l' : List α) (n : ℕ) :
    (canonical key (l ++ (canonical key (l ++ l')).take n)).length - n =
      (following key l l' n).length := by
  rw [canonical_append_take, length_append]
  by_cases h : following key l l' n = []
  · rw [h, length_nil, Nat.add_zero]
    exact Nat.sub_eq_zero_of_le (length_take_le _ _)
  · rw [length_take_of_following h, Nat.add_sub_cancel_left]

/-- **As many keys are lost again** if those of `l'` that were not kept are keys of `l`, and only
then. -/
theorem length_canonical_append_take (l l' : List α) (n : ℕ) :
    (canonical key (l ++ (canonical key (l ++ l')).take n)).length - n =
        (canonical key (l ++ l')).length - n ↔
      ∀ a ∈ l', key a ∈ l.map key ∨ key a ∈ ((canonical key (l ++ l')).take n).map key := by
  have hsub : (following key l l' n).map key ⊆ ((canonical key (l ++ l')).drop n).map key :=
    keys_following_subset l l' n
  have hnodup : ((following key l l' n).map key).Nodup := (sortedBy_canonical _).keys_nodup
  have hnodup' : (((canonical key (l ++ l')).drop n).map key).Nodup := by
    rw [map_drop]
    exact (sortedBy_canonical (l ++ l')).keys_nodup.sublist (drop_sublist _ _)
  have hlost : (canonical key (l ++ l')).length - n =
      (((canonical key (l ++ l')).drop n).map key).length := by
    rw [length_map, length_drop]
  rw [length_canonical_append_take_sub, hlost, ← length_map key]
  constructor
  · intro hlength a ha
    by_contra hnone
    push Not at hnone
    have hmem : key a ∈ ((canonical key (l ++ l')).drop n).map key :=
      mem_keys_drop_canonical.mpr ⟨mem_map_of_mem (mem_append_right l ha), hnone.2⟩
    have hperm := (subperm_of_subset hnodup hsub).perm_of_length_le (Nat.le_of_eq hlength.symm)
    exact hnone.1 (mem_keys_canonical_filter.mp (hperm.mem_iff.mpr hmem)).1
  · intro hkeys
    refine List.Perm.length_eq ((perm_ext_iff_of_nodup hnodup hnodup').mpr fun k => ?_)
    refine ⟨fun hk => hsub hk, fun hk => ?_⟩
    obtain ⟨hmem, hnot⟩ := mem_keys_drop_canonical.mp hk
    refine mem_keys_canonical_filter.mpr ⟨?_, hnot⟩
    rw [map_append, mem_append] at hmem
    rcases hmem with hmem | hmem
    · exact hmem
    · obtain ⟨a, ha, rfl⟩ := mem_map.mp hmem
      exact (hkeys a ha).resolve_right hnot

end Canonical

end Keyed
