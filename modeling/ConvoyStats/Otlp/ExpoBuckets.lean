import Mathlib.Algebra.Order.Group.Multiset
import Mathlib.Data.List.GetD
import ConvoyStats.Otlp.Exponential

/-!
# What a range of buckets holds

A range of buckets stands for a multiset of bucket indexes, one occurrence for every
observation.  `Represents b m` says that `b` holds exactly `m` and nothing else: its
first and last counts are not zero, so that `b` is determined by `m`
(`Represents.unique`).  Adding to a range adds to the multiset, and lowering its scale
coarsens it.

The loops over the counts of a range are all taken by `foldl_contents`.
-/

namespace ConvoyStats.Otlp

open Coarsening List

/-- The indexes of the buckets from `offset` on, each as often as it is counted. -/
def bucketContents : ℤ → List ℕ → Multiset ℤ
  | _, [] => 0
  | offset, c :: counts => Multiset.replicate c offset + bucketContents (offset + 1) counts

theorem count_bucketContents (offset : ℤ) (counts : List ℕ) (i : ℤ) :
    (bucketContents offset counts).count i =
      if offset ≤ i then counts.getD (i - offset).toNat 0 else 0 := by
  induction counts generalizing offset with
  | nil => simp [bucketContents]
  | cons c counts ih =>
    rw [bucketContents, Multiset.count_add, ih, Multiset.count_replicate]
    rcases lt_trichotomy offset i with hlt | rfl | hgt
    · -- past the first bucket
      have hsucc : (i - offset).toNat = (i - (offset + 1)).toNat + 1 := by omega
      rw [if_neg hlt.ne, if_pos (by omega), if_pos hlt.le, hsucc, getD_cons_succ, zero_add]
    · simp
    · rw [if_neg hgt.ne', if_neg (by omega), if_neg (by omega)]

/-- **A loop over the counts of a range.**  What a step does with `c` observations of the
bucket `offset + i`, the loop does with all of them. -/
theorem foldl_contents {α : Type*} (I : α → Multiset ℤ → Prop) (f : α → ℕ × ℕ → α)
    (offset : ℤ) (counts : List ℕ)
    (hstep : ∀ a m c (i : ℕ), i < counts.length → I a m →
      I (f a (c, i)) (m + Multiset.replicate c (offset + i)))
    {a : α} {m : Multiset ℤ} (h : I a m) :
    I (counts.zipIdx.foldl f a) (m + bucketContents offset counts) := by
  -- the loop from the `n`-th bucket on
  have hloop : ∀ (rest : List ℕ) (n : ℕ) (a : α) (m : Multiset ℤ),
      n + rest.length ≤ counts.length → I a m →
      I ((rest.zipIdx n).foldl f a) (m + bucketContents (offset + n) rest) := by
    intro rest
    induction rest with
    | nil =>
      intro n a m _ h
      simpa [bucketContents] using h
    | cons c rest ih =>
      intro n a m hn h
      rw [length_cons] at hn
      have := ih (n + 1) _ _ (by omega) (hstep a m c n (by omega) h)
      rw [bucketContents, ← add_assoc]
      simpa [add_assoc] using this
  simpa using hloop counts 0 a m (by omega) h

theorem getD_modify_add (counts : List ℕ) (i j c : ℕ) :
    (counts.modify i (· + c)).getD j 0 =
      counts.getD j 0 + if i = j ∧ j < counts.length then c else 0 := by
  rw [getD_eq_getElem?_getD, getD_eq_getElem?_getD, getElem?_modify]
  rcases Nat.lt_or_ge j counts.length with hj | hj
  · by_cases hij : i = j <;> simp [hij, hj]
  · simp [hj]

namespace ExpoBuckets

/-- The count of the bucket with index `i`. -/
def countAt (b : ExpoBuckets) (i : ℤ) : ℕ :=
  if b.offset ≤ i then b.counts.getD (i - b.offset).toNat 0 else 0

theorem count_contents (b : ExpoBuckets) (i : ℤ) :
    (bucketContents b.offset b.counts).count i = b.countAt i :=
  count_bucketContents ..

/-- A bucket outside the range is not counted. -/
theorem mem_range_of_countAt_ne_zero {b : ExpoBuckets} {i : ℤ} (h : b.countAt i ≠ 0) :
    b.offset ≤ i ∧ i ≤ b.offset + b.counts.length - 1 := by
  unfold countAt at h
  split at h
  · rename_i hle
    refine ⟨hle, ?_⟩
    by_contra hgt
    exact h (getD_eq_default _ _ (by omega))
  · exact absurd rfl h

theorem countAt_grow (b : ExpoBuckets) (index i : ℤ) :
    (b.grow index).countAt i = b.countAt i := by
  unfold grow
  split_ifs with hnil hlow hhigh
  · simp only [countAt, hnil, getD_nil]
    rcases Nat.eq_zero_or_pos (i - index).toNat with h | h
    · simp [h]
    · rw [getD_eq_default _ _ h]
      simp
  · -- zeros in front of the range
    simp only [countAt]
    by_cases hi : b.offset ≤ i
    · have hle : (replicate (b.offset - index).toNat 0 : List ℕ).length ≤
          (i - index).toNat := by
        rw [length_replicate]
        omega
      rw [if_pos (by omega), if_pos hi, getD_append_right _ _ _ _ hle,
        length_replicate]
      congr 1
      omega
    · rw [if_neg hi]
      split_ifs with hle
      · have hlt : (i - index).toNat <
            (replicate (b.offset - index).toNat 0 : List ℕ).length := by
          rw [length_replicate]
          omega
        rw [getD_append _ _ _ _ hlt, getD_replicate]
        rw [length_replicate] at hlt
        exact hlt
      · rfl
  · -- zeros behind it
    simp only [countAt]
    split_ifs with hi
    · rcases Nat.lt_or_ge (i - b.offset).toNat b.counts.length with hlt | hge
      · exact getD_append _ _ _ _ hlt
      · rw [getD_append_right _ _ _ _ hge, getD_eq_default _ _ hge]
        rcases Nat.lt_or_ge ((i - b.offset).toNat - b.counts.length)
            (index - b.offset - b.counts.length + 1).toNat with h | h
        · exact getD_replicate _ h
        · exact getD_eq_default _ _ (by simpa using h)
    · rfl
  · rfl

/-- The grown range reaches from the lower to the higher end. -/
theorem grow_range (b : ExpoBuckets) (index : ℤ) :
    (b.grow index).offset = (if b.counts = [] then index else min b.offset index) ∧
      (b.grow index).offset + (b.grow index).counts.length - 1 =
        if b.counts = [] then index else max (b.offset + b.counts.length - 1) index := by
  have hpos : b.counts ≠ [] → 0 < b.counts.length := length_pos_of_ne_nil
  unfold grow
  split_ifs with hnil hlow hhigh
  · simp
  · have := hpos hnil
    simp only [length_append, length_replicate]
    push_cast
    omega
  · have := hpos hnil
    simp only [length_append, length_replicate]
    push_cast
    omega
  · have := hpos hnil
    omega

theorem add_offset (b : ExpoBuckets) (index : ℤ) (c : ℕ) :
    (b.add index c).offset = (b.grow index).offset := rfl

theorem add_length (b : ExpoBuckets) (index : ℤ) (c : ℕ) :
    (b.add index c).counts.length = (b.grow index).counts.length := by
  simp [add]

theorem countAt_add (b : ExpoBuckets) (index i : ℤ) (c : ℕ) :
    (b.add index c).countAt i = b.countAt i + if i = index then c else 0 := by
  have hrange := b.grow_range index
  have hin : (b.grow index).offset ≤ index ∧
      index ≤ (b.grow index).offset + (b.grow index).counts.length - 1 := by
    rw [hrange.2, hrange.1]
    split_ifs <;> omega
  rw [← countAt_grow b index i]
  simp only [add, countAt, getD_modify_add]
  split_ifs <;> omega

/-- **A range holds exactly the indexes of `m`**, with no zero counts at its ends. -/
structure Represents (b : ExpoBuckets) (m : Multiset ℤ) : Prop where
  count : ∀ i, b.countAt i = m.count i
  empty : m = 0 → b = .empty
  ends : m ≠ 0 → b.counts ≠ [] ∧ b.offset ∈ m ∧ b.offset + b.counts.length - 1 ∈ m

namespace Represents

variable {b b' : ExpoBuckets} {m : Multiset ℤ}

theorem init : Represents .empty 0 where
  count := fun i => by simp [countAt, ExpoBuckets.empty]
  empty := fun _ => rfl
  ends := fun h => absurd rfl h

variable (h : b.Represents m)
include h

theorem counts_eq_nil : b.counts = [] ↔ m = 0 := by
  refine ⟨fun hnil => ?_, fun hm => by rw [h.empty hm]; rfl⟩
  by_contra hm
  exact (h.ends hm).1 hnil

theorem contents : bucketContents b.offset b.counts = m :=
  Multiset.ext.mpr fun i => (b.count_contents i).trans (h.count i)

/-- The indexes lie in the range. -/
theorem mem_range {i : ℤ} (hi : i ∈ m) :
    b.offset ≤ i ∧ i ≤ b.offset + b.counts.length - 1 := by
  refine mem_range_of_countAt_ne_zero ?_
  rw [h.count]
  exact (Multiset.count_pos.mpr hi).ne'

/-- **A multiset is held by one range.** -/
theorem unique (h' : b'.Represents m) : b = b' := by
  by_cases hm : m = 0
  · rw [h.empty hm, h'.empty hm]
  obtain ⟨hne, hfirst, hlast⟩ := h.ends hm
  obtain ⟨hne', hfirst', hlast'⟩ := h'.ends hm
  have hoffset : b.offset = b'.offset :=
    le_antisymm (h.mem_range hfirst').1 (h'.mem_range hfirst).1
  have hlength : b.counts.length = b'.counts.length := by
    have h1 := (h.mem_range hlast').2
    have h2 := (h'.mem_range hlast).2
    omega
  have hcounts : b.counts = b'.counts := by
    refine ext_getElem hlength fun n hn hn' => ?_
    have heq : b.countAt (b.offset + n) = b'.countAt (b.offset + n) :=
      (h.count _).trans (h'.count _).symm
    simp only [countAt, ← hoffset] at heq
    rw [if_pos (by omega), if_pos (by omega), add_sub_cancel_left, Int.toNat_natCast,
      getD_eq_getElem _ _ hn, getD_eq_getElem _ _ hn'] at heq
    exact heq
  cases b
  cases b'
  simp_all

/-- Counting into a bucket. -/
theorem add (index : ℤ) {c : ℕ} (hc : 0 < c) :
    (b.add index c).Represents (m + Multiset.replicate c index) where
  count := by
    intro i
    rw [countAt_add, h.count, Multiset.count_add, Multiset.count_replicate]
    simp only [eq_comm]
  empty := by
    intro hzero
    have := congrArg Multiset.card hzero
    simp at this
    omega
  ends := by
    intro _
    have hmem : index ∈ Multiset.replicate c index := Multiset.mem_replicate.mpr ⟨hc.ne', rfl⟩
    obtain ⟨hoffset, hlast⟩ := b.grow_range index
    refine ⟨?_, ?_, ?_⟩
    · intro hnil
      have hlen := congrArg List.length hnil
      rw [add_length, length_nil] at hlen
      rw [hoffset, hlen] at hlast
      split_ifs at hlast <;> omega
    · rw [add_offset, hoffset, Multiset.mem_add]
      split_ifs with hnil
      · exact .inr hmem
      · rcases min_choice b.offset index with hmin | hmin <;> rw [hmin]
        · exact .inl (h.ends fun hm => hnil (h.counts_eq_nil.mpr hm)).2.1
        · exact .inr hmem
    · rw [add_offset, add_length, hlast, Multiset.mem_add]
      split_ifs with hnil
      · exact .inr hmem
      · rcases max_choice (b.offset + b.counts.length - 1) index with hmax | hmax <;> rw [hmax]
        · exact .inl (h.ends fun hm => hnil (h.counts_eq_nil.mpr hm)).2.2
        · exact .inr hmem

/-- **Lowering the scale coarsens the indexes.** -/
theorem downscale (d : ℕ) : (b.downscale d).Represents (coarsen d m) := by
  by_cases hm : m = 0
  · have hnil := h.counts_eq_nil.mpr hm
    rw [ExpoBuckets.downscale, if_pos hnil, h.empty hm, hm]
    exact init
  obtain ⟨hne, hfirst, hlast⟩ := h.ends hm
  have hspan : b.offset >>> d ≤ (b.offset + b.counts.length - 1) >>> d :=
    shiftRight_mono (h.mem_range hlast).1 d
  rw [ExpoBuckets.downscale, if_neg hne]
  -- the loop: the counts so far are those of the buckets so far
  have hloop := foldl_contents
    (fun counts m => counts.length =
        ((b.offset + b.counts.length - 1) >>> d - b.offset >>> d + 1).toNat ∧
      ∀ i, ExpoBuckets.countAt ⟨b.offset >>> d, counts⟩ i = (coarsen d m).count i)
    (fun counts (p : ℕ × ℕ) =>
      counts.modify ((b.offset + (p.2 : ℕ)) >>> d - b.offset >>> d).toNat (· + p.1))
    b.offset b.counts ?_
    (a := replicate
      ((b.offset + b.counts.length - 1) >>> d - b.offset >>> d + 1).toNat 0) (m := 0) ?_
  · rw [zero_add, h.contents] at hloop
    refine ⟨hloop.2, fun hzero => absurd (coarsen_eq_zero.mp hzero) hm, fun _ => ⟨?_, ?_, ?_⟩⟩
    · refine ne_nil_of_length_pos ?_
      rw [hloop.1]
      omega
    · exact mem_coarsen.mpr ⟨_, hfirst, rfl⟩
    · refine mem_coarsen.mpr ⟨_, hlast, ?_⟩
      rw [hloop.1]
      dsimp only
      omega
  · rintro counts m' c i hi ⟨hlen, hcount⟩
    refine ⟨by rw [length_modify, hlen], fun j => ?_⟩
    have hlow : b.offset >>> d ≤ (b.offset + (i : ℕ)) >>> d := shiftRight_mono (by omega) d
    have hhigh : (b.offset + (i : ℕ)) >>> d ≤ (b.offset + b.counts.length - 1) >>> d :=
      shiftRight_mono (by omega) d
    rw [coarsen_add, coarsen_replicate, Multiset.count_add, ← hcount, Multiset.count_replicate]
    simp only [countAt, getD_modify_add, hlen]
    split_ifs <;> omega
  · refine ⟨length_replicate, fun i => ?_⟩
    simp only [countAt, coarsen_empty, Multiset.count_zero]
    split_ifs
    · rcases Nat.lt_or_ge (i - b.offset >>> d).toNat
        ((b.offset + b.counts.length - 1) >>> d - b.offset >>> d + 1).toNat with hlt | hge
      · exact getD_replicate _ hlt
      · exact getD_eq_default _ _ (by simpa using hge)
    · rfl

end Represents

end ExpoBuckets

end ConvoyStats.Otlp
