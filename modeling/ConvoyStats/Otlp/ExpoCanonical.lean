import Mathlib.Algebra.BigOperators.Group.Multiset.Basic
import ConvoyStats.Otlp.ExpoBuckets

/-!
# The canonical form of an exponential histogram

However observations arrive, a histogram ends at the same scale with the same buckets.
`Canonical` is the reason: of the indexes of its observations at the scale it started
from, the histogram has dropped by the least number of steps at which both ranges fit,
and its ranges hold the indexes coarsened by that drop.  One lemma, `Canonical.addCount`,
covers recording, replaying a data point and merging, since all of them only count into
buckets.
-/

namespace ConvoyStats.Otlp

open Coarsening Function

/-! ### The drop -/

/-- **The loop of `scaleChange` finds the least drop at which the range fits.** -/
theorem scaleChangeLoop_leastDrop (size : ℤ) (room : ℕ) (low high : ℤ) :
    LeastDrop room (fun e => (high >>> e) - (low >>> e) < size)
      (scaleChangeLoop size room low high) := by
  induction room generalizing low high with
  | zero => exact ⟨le_rfl, .inl rfl, nofun⟩
  | succ room ih =>
    rw [scaleChangeLoop]
    split
    · rename_i hwide
      obtain ⟨hle, hholds, hleast⟩ := ih (low >>> (1 : ℕ)) (high >>> (1 : ℕ))
      simp only [← Int.shiftRight_add, Nat.add_comm 1] at hholds hleast
      refine ⟨by omega, hholds.imp_left (by omega), fun e he => ?_⟩
      cases e with
      | zero => simpa using hwide
      | succ e => exact hleast e (by omega)
    · rename_i hfits
      refine ⟨Nat.zero_le _, .inr ?_, nofun⟩
      simpa using hfits

namespace ExpoHistogram

@[simp] theorem range_setRange (h : ExpoHistogram) (side side' : Side) (b : ExpoBuckets) :
    (h.setRange side b).range side' = if side' = side then b else h.range side' := by
  cases side <;> cases side' <;> rfl

@[simp] theorem range_lower (h : ExpoHistogram) (change : ℕ) (side : Side) :
    (h.lower change).range side = (h.range side).downscale change := by
  cases side <;> rfl

/-- Two histograms with the same scale and the same ranges. -/
structure SameBuckets (h h' : ExpoHistogram) : Prop where
  scale : h'.scale = h.scale
  range : ∀ side, h'.range side = h.range side

/-- The fields counting into a bucket leaves alone. -/
structure SameTotals (h h' : ExpoHistogram) : Prop where
  maxSize : h'.maxSize = h.maxSize
  count : h'.count = h.count
  zeroCount : h'.zeroCount = h.zeroCount
  sum : h'.sum = h.sum
  min : h'.min = h.min
  max : h'.max = h.max

theorem SameTotals.refl (h : ExpoHistogram) : h.SameTotals h := ⟨rfl, rfl, rfl, rfl, rfl, rfl⟩

theorem SameTotals.trans {h h' h'' : ExpoHistogram} (a : h.SameTotals h')
    (b : h'.SameTotals h'') : h.SameTotals h'' :=
  ⟨b.1.trans a.1, b.2.trans a.2, b.3.trans a.3, b.4.trans a.4, b.5.trans a.5, b.6.trans a.6⟩

theorem eq_of_same {h h' : ExpoHistogram} (ht : h.SameTotals h') (hb : h.SameBuckets h') :
    h' = h := by
  have hpos := hb.range .positive
  have hneg := hb.range .negative
  cases h
  cases h'
  simp only [ExpoHistogram.mk.injEq]
  exact ⟨ht.maxSize, hb.scale, ht.count, ht.zeroCount, ht.sum, ht.min, ht.max, hpos, hneg⟩

theorem sameTotals_addCount (h : ExpoHistogram) (side : Side) (index : ℤ) (c : ℕ) :
    h.SameTotals (h.addCount side index c) := by
  unfold addCount
  dsimp only
  split_ifs <;> cases side <;> exact ⟨rfl, rfl, rfl, rfl, rfl, rfl⟩

/-! ### The form -/

/-- **The canonical form**: `m` are the indexes of the observations at the scale `start`,
and `d` is the least drop from there at which both ranges fit. -/
structure Canonical (h : ExpoHistogram) (start : ℤ) (m : Side → Multiset ℤ) (d : ℕ) : Prop where
  start_le : expoMinScale ≤ start
  size_pos : 0 < h.maxSize
  drop : LeastDrop (start - expoMinScale).toNat (fun e => ∀ side, Fits h.maxSize e (m side)) d
  scale : h.scale = start - d
  held : ∀ side, (h.range side).Represents (coarsen d (m side))

namespace Canonical

variable {h h' : ExpoHistogram} {start : ℤ} {m : Side → Multiset ℤ} {d d' : ℕ}

variable (hc : h.Canonical start m d)
include hc

/-- The scale and the ranges are determined by the indexes. -/
theorem unique (hc' : h'.Canonical start m d')
    (hsize : h'.maxSize = h.maxSize) : h.SameBuckets h' := by
  obtain rfl : d = d' := hc.drop.unique (hsize ▸ hc'.drop)
  exact ⟨hc'.scale.trans hc.scale.symm, fun side => (hc'.held side).unique (hc.held side)⟩

/-- The form says nothing about the counters. -/
theorem congr (hsize : h'.maxSize = h.maxSize)
    (hb : h.SameBuckets h') : h'.Canonical start m d where
  start_le := hc.start_le
  size_pos := hsize ▸ hc.size_pos
  drop := hsize ▸ hc.drop
  scale := hb.scale.trans hc.scale
  held := fun side => hb.range side ▸ hc.held side

theorem scale_ge : expoMinScale ≤ h.scale := by
  have hle := hc.drop.le
  have hstart := hc.start_le
  rw [hc.scale]
  omega

/-- The range of a side, widened by the bucket of `i`, from end to end. -/
theorem fits_iff {side : Side} (hne : (h.range side).counts ≠ [])
    (i : ℤ) {c : ℕ} (hcount : 0 < c) (e : ℕ) :
    Fits h.maxSize (d + e) (m side + Multiset.replicate c i) ↔
      (Max.max ((h.range side).offset + (h.range side).counts.length - 1) (i >>> d)) >>> e -
        (Min.min (h.range side).offset (i >>> d)) >>> e < h.maxSize := by
  have hheld := hc.held side
  have hm : coarsen d (m side) ≠ 0 := fun h0 => hne (hheld.counts_eq_nil.mpr h0)
  obtain ⟨-, hfirst, hlast⟩ := hheld.ends hm
  have hmem : i >>> d ∈ Multiset.replicate c (i >>> d) :=
    Multiset.mem_replicate.mpr ⟨hcount.ne', rfl⟩
  rw [← Fits.coarsen, coarsen_add, coarsen_replicate]
  constructor
  · intro hfits
    refine hfits _ (Multiset.mem_add.mpr ?_) _ (Multiset.mem_add.mpr ?_)
    · rcases max_choice ((h.range side).offset + (h.range side).counts.length - 1) (i >>> d)
        with hmax | hmax <;> rw [hmax]
      · exact .inl hlast
      · exact .inr hmem
    · rcases min_choice (h.range side).offset (i >>> d) with hmin | hmin <;> rw [hmin]
      · exact .inl hfirst
      · exact .inr hmem
  · intro hlt a ha b hb
    -- every index lies between the two ends
    have hends : ∀ x ∈ coarsen d (m side) + Multiset.replicate c (i >>> d),
        Min.min (h.range side).offset (i >>> d) ≤ x ∧
          x ≤ Max.max ((h.range side).offset + (h.range side).counts.length - 1) (i >>> d) := by
      intro x hx
      rcases Multiset.mem_add.mp hx with hx | hx
      · obtain ⟨hlow, hhigh⟩ := hheld.mem_range hx
        exact ⟨min_le_of_left_le hlow, le_max_of_le_left hhigh⟩
      · rw [Multiset.eq_of_mem_replicate hx]
        exact ⟨min_le_right _ _, le_max_right _ _⟩
    have hhigh := shiftRight_mono (hends a ha).2 e
    have hlow := shiftRight_mono (hends b hb).1 e
    omega

/-- What `scaleChange` finds for `c` observations of the index `i` at the start scale. -/
theorem scaleChange_leastDrop (side : Side) (i : ℤ) {c : ℕ}
    (hcount : 0 < c) :
    LeastDrop (h.scale - expoMinScale).toNat
      (fun e => Fits h.maxSize (d + e) (m side + Multiset.replicate c i))
      (h.scaleChange (h.range side) (i >>> d)) := by
  unfold scaleChange
  split
  · rename_i hnil
    -- one index fits anywhere
    have hm : m side = 0 := coarsen_eq_zero.mp ((hc.held side).counts_eq_nil.mp hnil)
    refine ⟨Nat.zero_le _, .inr ?_, nofun⟩
    rw [hm, zero_add]
    intro a ha b hb
    rw [Multiset.eq_of_mem_replicate ha, Multiset.eq_of_mem_replicate hb, sub_self]
    exact hc.size_pos
  · rename_i hne
    exact (scaleChangeLoop_leastDrop ..).congr fun e _ => (hc.fits_iff hne i hcount e).symm

/-- The scale and the ranges after counting. -/
theorem addCount_result (side : Side) (i : ℤ) {c : ℕ}
    (hcount : 0 < c) :
    (h.addCount side (i >>> d) c).scale = h.scale - h.scaleChange (h.range side) (i >>> d) ∧
      ∀ side', ((h.addCount side (i >>> d) c).range side').Represents
        (coarsen (d + h.scaleChange (h.range side) (i >>> d))
          (update m side (m side + Multiset.replicate c i) side')) := by
  generalize hchange : h.scaleChange (h.range side) (i >>> d) = change
  -- the side that is counted into, and the other one
  have hsides : ∀ (b : Side → ExpoBuckets) (e : ℕ) (side' : Side),
      (∀ side', (b side').Represents (coarsen (d + e) (m side'))) →
      (if side' = side then (b side).add ((i >>> d) >>> e) c else b side').Represents
        (coarsen (d + e) (update m side (m side + Multiset.replicate c i) side')) := by
    intro b e side' hb
    by_cases hside : side' = side
    · subst hside
      rw [if_pos rfl, update_self, coarsen_add, coarsen_replicate, Int.shiftRight_add]
      exact (hb side').add _ hcount
    · rw [if_neg hside, update_of_ne hside]
      exact hb side'
  simp only [ExpoHistogram.addCount, if_neg hcount.ne', hchange]
  split
  · refine ⟨by cases side <;> rfl, fun side' => ?_⟩
    rw [range_setRange]
    refine hsides (fun side' => (h.lower change).range side') change side' fun side' => ?_
    rw [range_lower, ← coarsen_coarsen]
    exact (hc.held side').downscale change
  · obtain rfl : change = 0 := by omega
    refine ⟨by cases side <;> simp [setRange], fun side' => ?_⟩
    rw [range_setRange]
    simpa only [Int.shiftRight_zero] using hsides (fun side' => h.range side') 0 side' hc.held

/-- **Counting into a bucket keeps the canonical form.** -/
theorem addCount (side : Side) (i : ℤ) {c : ℕ} (hcount : 0 < c) :
    ∃ d', (h.addCount side (i >>> d) c).Canonical start
      (update m side (m side + Multiset.replicate c i)) d' := by
  have hsize := (h.sameTotals_addCount side (i >>> d) c).maxSize
  obtain ⟨hscale, hheld⟩ := hc.addCount_result side i hcount
  have hsub : ∀ side', m side' ⊆
      update m side (m side + Multiset.replicate c i) side' := by
    intro side'
    by_cases hside : side' = side
    · subst hside
      rw [update_self]
      exact Multiset.subset_of_le (Multiset.le_add_right _ _)
    · rw [update_of_ne hside]
      exact Multiset.Subset.refl _
  refine ⟨_, hc.start_le, hsize ▸ hc.size_pos, ?_, ?_, hheld⟩
  · rw [hsize]
    refine LeastDrop.restart hc.drop.le (fun e he hfits => ?_) ?_
    · exact hc.drop.least e he fun side' => (hfits side').subset (hsub side')
    · have hroom : (start - expoMinScale).toNat - d = (h.scale - expoMinScale).toNat := by
        rw [hc.scale]
        omega
      have hchange := hc.scaleChange_leastDrop side i hcount
      rw [hroom]
      rcases hc.drop.holds with hd | hfit
      · -- no room is left
        have hle := hchange.le
        exact ⟨hle, .inl (by omega), fun e he => by omega⟩
      refine hchange.congr fun e he => ⟨fun hfits side' => ?_, fun hfits => ?_⟩
      · by_cases hside : side' = side
        · subst hside
          rwa [update_self]
        · -- the other side has fitted before
          rw [update_of_ne hside]
          exact (hfit side').mono hc.size_pos (by omega)
      · have := hfits side
        rwa [update_self] at this
  · rw [hscale, hc.scale]
    push_cast
    ring

/-- **Replaying a range keeps the canonical form**: the buckets of `src`, whose indexes
are at `srcScale`, are counted with their indexes at the start scale. -/
theorem replay (dst : Side) (src : ExpoBuckets) {srcScale : ℤ}
    (hsrc : start ≤ srcScale) :
    (∃ d', (h.replay dst src srcScale).Canonical start (update m dst (m dst +
        coarsen (srcScale - start).toNat (bucketContents src.offset src.counts))) d') ∧
      h.SameTotals (h.replay dst src srcScale) := by
  unfold ExpoHistogram.replay
  have hloop := foldl_contents
    (fun a n => (∃ d', ExpoHistogram.Canonical a start
        (update m dst (m dst + coarsen (srcScale - start).toNat n)) d') ∧
      h.SameTotals a)
    (fun a (p : ℕ × ℕ) => if p.1 = 0 then a
      else a.addCount dst ((src.offset + (p.2 : ℕ)) >>> (srcScale - a.scale).toNat) p.1)
    src.offset src.counts ?_ (a := h) (m := 0) ⟨⟨d, by simpa using hc⟩, .refl h⟩
  · rwa [zero_add] at hloop
  · rintro a n c i - ⟨⟨d', ha⟩, htotals⟩
    by_cases hzero : c = 0
    · subst hzero
      simpa using ⟨⟨d', ha⟩, htotals⟩
    dsimp only
    rw [if_neg hzero]
    refine ⟨?_, htotals.trans (a.sameTotals_addCount ..)⟩
    -- the shift to the scale reached so far goes by way of the start scale
    have hshift : (srcScale - a.scale).toNat = (srcScale - start).toNat + d' := by
      have := ha.scale
      omega
    rw [hshift, Int.shiftRight_add]
    obtain ⟨d'', hnew⟩ := ha.addCount dst ((src.offset + (i : ℕ)) >>> (srcScale - start).toNat)
      (Nat.pos_of_ne_zero hzero)
    refine ⟨d'', ?_⟩
    rw [coarsen_add, coarsen_replicate, ← add_assoc]
    simpa only [update_self, update_idem] using hnew

end Canonical

/-- The loop of `expoHistogramFromPoint` replays the range of the data point. -/
theorem replayBucket_eq (h : ExpoHistogram) (dst : Side) (src : ExponentialBucket)
    (srcScale : ℤ) :
    h.replayBucket dst src srcScale = h.replay dst ⟨src.offset, src.counts⟩ srcScale := by
  unfold replayBucket replay
  congr 1
  funext a p
  by_cases hzero : p.1 = 0 <;> simp [hzero, addCount]

/-- The clamped start scale of a new histogram. -/
theorem newExpoHistogram_scale_range (maxSize maxScale : ℤ) :
    expoMinScale ≤ (newExpoHistogram maxSize maxScale).scale ∧
      (newExpoHistogram maxSize maxScale).scale ≤ expoMaxScale := by
  simp only [newExpoHistogram, expoMinScale, expoMaxScale]
  omega

/-- A scale within the limits is not clamped. -/
theorem newExpoHistogram_scale_of_range (maxSize : ℤ) {scale : ℤ} (hge : expoMinScale ≤ scale)
    (hle : scale ≤ expoMaxScale) : (newExpoHistogram maxSize scale).scale = scale := by
  simp only [newExpoHistogram]
  omega

theorem canonical_new (maxSize maxScale : ℤ) :
    (newExpoHistogram maxSize maxScale).Canonical (newExpoHistogram maxSize maxScale).scale
      (fun _ => 0) 0 where
  start_le := (newExpoHistogram_scale_range maxSize maxScale).1
  size_pos := by
    simp only [newExpoHistogram, expoMinSize]
    omega
  drop := ⟨Nat.zero_le _, .inr fun _ => .zero, nofun⟩
  scale := by simp
  held := by
    intro side
    cases side <;> exact .init

end ExpoHistogram

end ConvoyStats.Otlp
