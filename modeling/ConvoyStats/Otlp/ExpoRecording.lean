import ConvoyStats.Otlp.ExpoCanonical

/-!
# What an exponential histogram has recorded

`Records index start vs h` says that `h`, started at the scale `start`, has recorded
the values `vs`, in whatever order: its buckets are the canonical ones and its counters,
sum and extrema are those of `vs`.  It determines `h` (`Records.unique`), so that what
recording, merging and data points come to is read off from the values alone.

Of the index function only `ShiftsWithScale` is used.
-/

namespace ConvoyStats.Otlp

open Coarsening

/-- Lowering the scale by `k` shifts the index by `k`. -/
def ShiftsWithScale (index : ℚ → ℤ → ℤ) : Prop :=
  ∀ (v : ℚ) (s : ℤ) (k : ℕ), 0 < v → s ≤ expoMaxScale → expoMinScale ≤ s - k →
    index v s >>> k = index v (s - k)

theorem shiftsWithScale_expoIndex (log2 : ℚ → ℚ) : ShiftsWithScale (expoIndex log2) :=
  fun v s k _ _ _ => expoIndex_shiftRight v s k

/-- The bucket indexes of the positive values and of the magnitudes of the negative ones. -/
def indexes (index : ℚ → ℤ → ℤ) (vs : Multiset ℚ) (scale : ℤ) : Side → Multiset ℤ
  | .positive => (vs.filter (0 < ·)).map fun v => index v scale
  | .negative => (vs.filter (· < 0)).map fun v => index (-v) scale

/-- At `scale` the positive values span at most `size` buckets, and so do the negative
ones. -/
def Spans (index : ℚ → ℤ → ℤ) (size : ℤ) (vs : Multiset ℚ) (scale : ℤ) : Prop :=
  (∀ v ∈ vs, ∀ w ∈ vs, 0 < v → 0 < w → index v scale - index w scale < size) ∧
    ∀ v ∈ vs, ∀ w ∈ vs, v < 0 → w < 0 → index (-v) scale - index (-w) scale < size

section

variable {index : ℚ → ℤ → ℤ} {vs ws : Multiset ℚ} {start size : ℤ}

theorem indexes_add (index : ℚ → ℤ → ℤ) (vs ws : Multiset ℚ) (scale : ℤ) (side : Side) :
    indexes index (vs + ws) scale side =
      indexes index vs scale side + indexes index ws scale side := by
  cases side <;> simp [indexes]

theorem indexes_zero (index : ℚ → ℤ → ℤ) (scale : ℤ) : indexes index 0 scale = fun _ => 0 := by
  funext side
  cases side <;> rfl

/-- Coarsened indexes are the indexes at the lower scale. -/
theorem coarsen_indexes (hindex : ShiftsWithScale index) (hstart : start ≤ expoMaxScale) {k : ℕ}
    (hk : expoMinScale ≤ start - k) (side : Side) :
    coarsen k (indexes index vs start side) = indexes index vs (start - k) side := by
  cases side with
  | positive =>
    simp only [indexes, coarsen, Multiset.map_map, Function.comp_def]
    refine Multiset.map_congr rfl fun v hv => ?_
    exact hindex v start k (Multiset.mem_filter.mp hv).2 hstart hk
  | negative =>
    simp only [indexes, coarsen, Multiset.map_map, Function.comp_def]
    refine Multiset.map_congr rfl fun v hv => ?_
    exact hindex (-v) start k (neg_pos.mpr (Multiset.mem_filter.mp hv).2) hstart hk

theorem fits_indexes_iff_spans (hindex : ShiftsWithScale index) (hstart : start ≤ expoMaxScale)
    {k : ℕ} (hk : expoMinScale ≤ start - k) :
    (∀ side, Fits size k (indexes index vs start side)) ↔ Spans index size vs (start - k) := by
  have hshift : ∀ side, Fits size k (indexes index vs start side) ↔
      Fits size 0 (indexes index vs (start - k) side) := by
    intro side
    rw [← coarsen_indexes hindex hstart hk, Fits.coarsen, Nat.add_zero]
  have hsides : ∀ P : Side → Prop, (∀ side, P side) ↔ P .positive ∧ P .negative :=
    fun P => ⟨fun h => ⟨h _, h _⟩, fun h side => by cases side; exacts [h.1, h.2]⟩
  rw [hsides, hshift, hshift, Spans]
  simp only [Fits, indexes, Multiset.mem_map, Multiset.mem_filter, Int.shiftRight_zero]
  constructor
  · intro h
    exact ⟨fun v hv w hw hv0 hw0 => h.1 _ ⟨v, ⟨hv, hv0⟩, rfl⟩ _ ⟨w, ⟨hw, hw0⟩, rfl⟩,
      fun v hv w hw hv0 hw0 => h.2 _ ⟨v, ⟨hv, hv0⟩, rfl⟩ _ ⟨w, ⟨hw, hw0⟩, rfl⟩⟩
  · rintro ⟨hpos, hneg⟩
    constructor
    · rintro _ ⟨v, ⟨hv, hv0⟩, rfl⟩ _ ⟨w, ⟨hw, hw0⟩, rfl⟩
      exact hpos v hv w hw hv0 hw0
    · rintro _ ⟨v, ⟨hv, hv0⟩, rfl⟩ _ ⟨w, ⟨hw, hw0⟩, rfl⟩
      exact hneg v hv w hw hv0 hw0

/-- More values, or less room, are harder to fit. -/
theorem Spans.mono {scale size' : ℤ} (h : Spans index size' ws scale) (hsub : vs ⊆ ws)
    (hsize : size' ≤ size) : Spans index size vs scale :=
  ⟨fun v hv w hw hv0 hw0 => (h.1 v (hsub hv) w (hsub hw) hv0 hw0).trans_le hsize,
    fun v hv w hw hv0 hw0 => (h.2 v (hsub hv) w (hsub hw) hv0 hw0).trans_le hsize⟩

end

/-! ### Extrema -/

/-- `low` and `high` are the extrema of `vs`, or both zero where there is no value. -/
structure Extrema (vs : Multiset ℚ) (low high : ℚ) : Prop where
  bounds : vs ≠ 0 → IsLeast {v | v ∈ vs} low ∧ IsGreatest {v | v ∈ vs} high
  blank : vs = 0 → low = 0 ∧ high = 0

namespace Extrema

variable {vs ws : Multiset ℚ} {low high low' high' : ℚ}

theorem zero : Extrema 0 0 0 := ⟨fun h => absurd rfl h, fun _ => ⟨rfl, rfl⟩⟩

theorem singleton (v : ℚ) : Extrema {v} v v :=
  ⟨fun _ => ⟨by simp [IsLeast, lowerBounds], by simp [IsGreatest, upperBounds]⟩,
    fun h => absurd h (Multiset.singleton_ne_zero v)⟩

theorem unique (h : Extrema vs low high) (h' : Extrema vs low' high') :
    low = low' ∧ high = high' := by
  by_cases hvs : vs = 0
  · rw [(h.blank hvs).1, (h.blank hvs).2, (h'.blank hvs).1, (h'.blank hvs).2]
    exact ⟨rfl, rfl⟩
  · exact ⟨(h.bounds hvs).1.unique (h'.bounds hvs).1, (h.bounds hvs).2.unique (h'.bounds hvs).2⟩

/-- The extrema of more values, compared as the histograms compare them. -/
theorem add (h : Extrema vs low high) (h' : Extrema ws low' high') (hws : ws ≠ 0) :
    Extrema (vs + ws) (if vs = 0 ∨ low' < low then low' else low)
      (if vs = 0 ∨ high < high' then high' else high) := by
  obtain ⟨hlow', hhigh'⟩ := h'.bounds hws
  refine ⟨fun _ => ?_, fun hzero => absurd (Multiset.le_zero.mp ?_) hws⟩
  rotate_left
  · rw [← hzero]
    exact Multiset.le_add_left ws vs
  by_cases hvs : vs = 0
  · subst hvs
    simpa using h'.bounds hws
  obtain ⟨hlow, hhigh⟩ := h.bounds hvs
  have hunion : {v | v ∈ vs + ws} = {v | v ∈ vs} ∪ {v | v ∈ ws} := by
    ext v
    simp
  have hmin : (if vs = 0 ∨ low' < low then low' else low) = low ⊓ low' := by
    simp only [hvs, false_or, min_def]
    split_ifs <;> linarith
  have hmax : (if vs = 0 ∨ high < high' then high' else high) = high ⊔ high' := by
    simp only [hvs, false_or, max_def]
    split_ifs <;> linarith
  rw [hunion, hmin, hmax]
  exact ⟨hlow.union hlow', hhigh.union hhigh'⟩

end Extrema

/-! ### Recording -/

/-- **The histogram has recorded `vs`**, from the scale `start` on. -/
structure Records (index : ℚ → ℤ → ℤ) (start : ℤ) (vs : Multiset ℚ) (h : ExpoHistogram) :
    Prop where
  start_le : start ≤ expoMaxScale
  canonical : ∃ d, h.Canonical start (indexes index vs start) d
  count : h.count = vs.card
  zeroCount : h.zeroCount = vs.count 0
  sum : h.sum = vs.sum
  extrema : Extrema vs h.min h.max

namespace Records

variable {index : ℚ → ℤ → ℤ} {start : ℤ} {vs ws : Multiset ℚ} {h h' : ExpoHistogram}

theorem new (index : ℚ → ℤ → ℤ) (maxSize maxScale : ℤ) :
    Records index (newExpoHistogram maxSize maxScale).scale 0
      (newExpoHistogram maxSize maxScale) where
  start_le := (ExpoHistogram.newExpoHistogram_scale_range maxSize maxScale).2
  canonical := ⟨0, by rw [indexes_zero]; exact ExpoHistogram.canonical_new maxSize maxScale⟩
  count := rfl
  zeroCount := rfl
  sum := rfl
  extrema := .zero

variable (hr : Records index start vs h)
include hr

/-- **A histogram is determined by what it has recorded.** -/
theorem unique (hr' : Records index start vs h')
    (hsize : h'.maxSize = h.maxSize) : h' = h := by
  obtain ⟨d, hc⟩ := hr.canonical
  obtain ⟨d', hc'⟩ := hr'.canonical
  obtain ⟨hmin, hmax⟩ := hr'.extrema.unique hr.extrema
  exact ExpoHistogram.eq_of_same ⟨hsize, hr'.count.trans hr.count.symm,
    hr'.zeroCount.trans hr.zeroCount.symm, hr'.sum.trans hr.sum.symm, hmin, hmax⟩
    (hc.unique hc' hsize)

variable (hindex : ShiftsWithScale index)
include hindex

/-- The ranges hold the indexes at the scale the histogram has come to. -/
theorem held (side : Side) :
    (h.range side).Represents (indexes index vs h.scale side) := by
  obtain ⟨d, hc⟩ := hr.canonical
  have hge := hc.scale_ge
  rw [hc.scale] at hge
  rw [hc.scale, ← coarsen_indexes hindex hr.start_le hge]
  exact hc.held side

/-- **The scale is the largest one at which the values fit**, if there is one. -/
theorem scale_spec :
    expoMinScale ≤ h.scale ∧ h.scale ≤ start ∧
      (h.scale = expoMinScale ∨ Spans index h.maxSize vs h.scale) ∧
      ∀ s, h.scale < s → s ≤ start → ¬ Spans index h.maxSize vs s := by
  obtain ⟨d, hc⟩ := hr.canonical
  have hge := hc.scale_ge
  have hstart := hc.start_le
  have hscale := hc.scale
  refine ⟨hge, by omega, ?_, fun s hlt hle hspans => ?_⟩
  · rcases hc.drop.holds with hd | hfits
    · left
      omega
    · right
      rw [hscale] at hge ⊢
      exact (fits_indexes_iff_spans hindex hr.start_le hge).mp hfits
  · have hs : start - ((start - s).toNat : ℤ) = s := by omega
    refine hc.drop.least (start - s).toNat (by omega) ?_
    refine (fits_indexes_iff_spans hindex hr.start_le (by omega)).mpr ?_
    rwa [hs]

/-- Counting `m` on one side, with the totals of the new value in place. -/
theorem recordBucket (v m : ℚ)
    (side : Side) (hm : 0 < m) (hcount : h'.count = h.count + 1)
    (hzero : h'.zeroCount = h.zeroCount)
    (hv : v ≠ 0) (hsum : h'.sum = h.sum + v) (hsize : h'.maxSize = h.maxSize)
    (hextrema : Extrema (vs + {v}) h'.min h'.max) (hbuckets : h.SameBuckets h')
    (hindexes : ∀ scale, indexes index {v} scale =
      Function.update (fun _ => 0) side {index m scale}) :
    Records index start (vs + {v}) (h'.recordBucket index side m) := by
  obtain ⟨d, hc⟩ := hr.canonical
  have hc' := hc.congr hsize hbuckets
  have hge := hc'.scale_ge
  have hat : index m h'.scale = index m start >>> d := by
    rw [hc'.scale] at hge ⊢
    exact (hindex m start d hm hr.start_le hge).symm
  have htotals := h'.sameTotals_addCount side (index m h'.scale) 1
  unfold ExpoHistogram.recordBucket
  refine ⟨hr.start_le, ?_, ?_, ?_, ?_, ?_⟩
  · obtain ⟨d', hnew⟩ := hc'.addCount side (index m start) Nat.one_pos
    refine ⟨d', ?_⟩
    have hm' : indexes index (vs + {v}) start = Function.update (indexes index vs start) side
        (indexes index vs start side + Multiset.replicate 1 (index m start)) := by
      funext side'
      rw [indexes_add, hindexes]
      by_cases hside : side' = side
      · subst hside
        simp
      · simp [hside]
    rw [hat, hm']
    exact hnew
  · rw [htotals.count, hcount, hr.count, Multiset.card_add, Multiset.card_singleton]
  · rw [htotals.zeroCount, hzero, hr.zeroCount, Multiset.count_add,
      Multiset.count_singleton, if_neg (Ne.symm hv), Nat.add_zero]
  · rw [htotals.sum, hsum, hr.sum, Multiset.sum_add, Multiset.sum_singleton]
  · rw [htotals.min, htotals.max]
    exact hextrema

/-- **Recording one more value.** -/
theorem record (v : ℚ) :
    Records index start (vs + {v}) (h.record index v) := by
  have hextrema := hr.extrema.add (.singleton v) (Multiset.singleton_ne_zero v)
  have hblank : vs = 0 ↔ h.count = 0 := by rw [hr.count, Multiset.card_eq_zero]
  simp only [hblank] at hextrema
  unfold ExpoHistogram.record
  rcases lt_trichotomy 0 v with hpos | rfl | hneg
  · simp only [if_pos hpos]
    refine hr.recordBucket hindex v v .positive hpos rfl rfl hpos.ne' rfl rfl hextrema
      ⟨rfl, fun side => by cases side <;> rfl⟩ fun scale => ?_
    funext side
    cases side <;> simp [indexes, Multiset.filter_singleton, hpos, not_lt_of_gt hpos]
  · simp only [lt_irrefl, if_false]
    obtain ⟨d, hc⟩ := hr.canonical
    refine ⟨hr.start_le, ⟨d, ?_⟩, ?_, ?_, ?_, hextrema⟩
    · have hm : indexes index (vs + {0}) start = indexes index vs start := by
        funext side
        rw [indexes_add]
        cases side <;> simp [indexes]
      rw [hm]
      exact hc.congr rfl ⟨rfl, fun side => by cases side <;> rfl⟩
    · simp [hr.count]
    · simp [hr.zeroCount]
    · simp [hr.sum]
  · simp only [if_neg (not_lt_of_gt hneg), if_pos hneg]
    refine hr.recordBucket hindex v (-v) .negative (neg_pos.mpr hneg) rfl rfl hneg.ne rfl rfl
      hextrema ⟨rfl, fun side => by cases side <;> rfl⟩ fun scale => ?_
    funext side
    cases side <;> simp [indexes, Multiset.filter_singleton, hneg, not_lt_of_gt hneg]

/-- Recording a list of values, one after the other. -/
theorem foldl_record
    (values : List ℚ) :
    Records index start (vs + values) (values.foldl (ExpoHistogram.record index) h) := by
  induction values generalizing vs h with
  | nil => simpa using hr
  | cons v values ih =>
    have := ih (hr.record hindex v)
    rw [add_assoc, Multiset.singleton_add, Multiset.cons_coe] at this
    exact this

end Records

/-! ### The canonical form -/

/-- The histogram that records `values`, in this order. -/
def recordAll (index : ℚ → ℤ → ℤ) (maxSize maxScale : ℤ) (values : List ℚ) : ExpoHistogram :=
  values.foldl (ExpoHistogram.record index) (newExpoHistogram maxSize maxScale)

theorem records_recordAll {index : ℚ → ℤ → ℤ} (hindex : ShiftsWithScale index)
    (maxSize maxScale : ℤ) (values : List ℚ) :
    Records index (newExpoHistogram maxSize maxScale).scale values
      (recordAll index maxSize maxScale values) := by
  have := (Records.new index maxSize maxScale).foldl_record hindex values
  rwa [zero_add] at this

theorem record_maxSize (index : ℚ → ℤ → ℤ) (h : ExpoHistogram) (v : ℚ) :
    (h.record index v).maxSize = h.maxSize := by
  unfold ExpoHistogram.record ExpoHistogram.recordBucket
  dsimp only
  split
  · exact (ExpoHistogram.sameTotals_addCount ..).maxSize
  split
  · exact (ExpoHistogram.sameTotals_addCount ..).maxSize
  · rfl

theorem recordAll_maxSize (index : ℚ → ℤ → ℤ) (maxSize maxScale : ℤ) (values : List ℚ) :
    (recordAll index maxSize maxScale values).maxSize = max maxSize expoMinSize := by
  unfold recordAll
  generalize hh : newExpoHistogram maxSize maxScale = h
  have hsize : h.maxSize = max maxSize expoMinSize := by rw [← hh]; rfl
  clear hh
  induction values generalizing h with
  | nil => exact hsize
  | cons v values ih => exact ih _ ((record_maxSize index h v).trans hsize)

/-- The point of recorded values has their count, sum and extrema. -/
theorem snapshot_recordAll_totals {index : ℚ → ℤ → ℤ} (hindex : ShiftsWithScale index)
    (maxSize maxScale : ℤ) {values : List ℚ} (hne : values ≠ []) :
    let point := (recordAll index maxSize maxScale values).snapshot
    point.count = values.length ∧ point.sum = values.sum ∧ ∃ low high,
      point.min = some low ∧ point.max = some high ∧
        IsLeast {v | v ∈ values} low ∧ IsGreatest {v | v ∈ values} high := by
  have hr := records_recordAll hindex maxSize maxScale values
  have hcount : (recordAll index maxSize maxScale values).count = values.length := by
    rw [hr.count, Multiset.coe_card]
  have hpos : 0 < (recordAll index maxSize maxScale values).count := by
    rw [hcount]
    exact List.length_pos_of_ne_nil hne
  obtain ⟨hlow, hhigh⟩ := hr.extrema.bounds (by simpa using hne)
  refine ⟨hcount, hr.sum.trans (Multiset.sum_coe values), _, _, if_pos hpos, if_pos hpos, ?_, ?_⟩
  · simpa using hlow
  · simpa using hhigh

/-- **The canonical form of an exponential histogram.**  Recording finitely many values
in any order gives the same histogram, and its scale is the largest one from `-10` up to
the clamped `maxScale` at which the positive and the negative values each span at most
`maxSize` buckets, or `-10` where there is none.  The index function is only assumed to
shift with the scale. -/
theorem exponential_canonical_form (index : ℚ → ℤ → ℤ) (hindex : ShiftsWithScale index)
    (maxSize maxScale : ℤ) (values values' : List ℚ) (hperm : values.Perm values') :
    recordAll index maxSize maxScale values' = recordAll index maxSize maxScale values ∧
      let h := recordAll index maxSize maxScale values
      let start := min (max maxScale (-10)) 20
      let size := max maxSize 2
      (-10 ≤ h.scale ∧ h.scale ≤ start ∧ Spans index size values h.scale ∧
        ∀ s, h.scale < s → s ≤ start → ¬ Spans index size values s) ∨
      (h.scale = -10 ∧ ∀ s, -10 ≤ s → s ≤ start → ¬ Spans index size values s) := by
  have hr := records_recordAll hindex maxSize maxScale values
  have hr' := records_recordAll hindex maxSize maxScale values'
  have hsize := recordAll_maxSize index maxSize maxScale values
  constructor
  · refine hr.unique ?_ ((recordAll_maxSize ..).trans hsize.symm)
    rwa [Multiset.coe_eq_coe.mpr hperm]
  · obtain ⟨hge, hle, hholds, hgreatest⟩ := hr.scale_spec hindex
    rw [hsize] at hholds hgreatest
    dsimp only
    by_cases hspans : Spans index (max maxSize 2) values
        (recordAll index maxSize maxScale values).scale
    · exact .inl ⟨hge, hle, hspans, hgreatest⟩
    · have hmin := hholds.resolve_right hspans
      refine .inr ⟨hmin, fun s hs hstart hspans' => ?_⟩
      rcases hs.eq_or_lt with rfl | hlt
      · rw [hmin] at hspans
        exact hspans hspans'
      · exact hgreatest s (by rw [hmin]; exact hlt) hstart hspans'

/-- Two values three buckets apart at scale zero, in either order. -/
theorem exponential_canonical_form_three_buckets :
    recordAll (expoIndex fun _ => 0) 2 0 [1 / 2, -1, 4] =
        recordAll (expoIndex fun _ => 0) 2 0 [4, 1 / 2, -1] ∧
      (recordAll (expoIndex fun _ => 0) 2 0 [4, 1 / 2, -1]).scale = -1 := by
  refine ⟨(exponential_canonical_form _ (shiftsWithScale_expoIndex _) 2 0 [4, 1 / 2, -1]
    [1 / 2, -1, 4] ?_).1, by decide +kernel⟩
  decide +kernel

end ConvoyStats.Otlp
