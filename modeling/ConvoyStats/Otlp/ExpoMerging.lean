import ConvoyStats.Otlp.ExpoRecording
import ConvoyStats.Otlp.Accumulator

/-!
# Merging exponential histograms

Replaying buckets into a histogram is recording the values behind them, as long as the
source is not coarser than the scale the destination started from.  A merge therefore
records the values of both sources, and it makes no difference whether its scale is
counted from the sources' scales or from the scales these started from: any scale in
between has already been found too fine for one of them (`Records.raise`).

Data points lose nothing either, so that a running total kept as data points is what
recording everything at once gives.
-/

namespace ConvoyStats.Otlp

open Coarsening List

namespace Records

variable {index : ℚ → ℤ → ℤ} {start start' startA startB : ℤ} {vs ws va vb : Multiset ℚ}
variable {h src a b : ExpoHistogram}

section

variable (hr : Records index start vs h)
include hr

theorem start_ge : expoMinScale ≤ start := by
  obtain ⟨d, hc⟩ := hr.canonical
  exact hc.start_le

/-- The scale of the histogram may be taken for its start. -/
theorem atScale (hindex : ShiftsWithScale index) :
    Records index h.scale vs h := by
  obtain ⟨hge, hle, hholds, -⟩ := hr.scale_spec hindex
  have hmax := hle.trans hr.start_le
  obtain ⟨d, hc⟩ := hr.canonical
  refine ⟨hmax, ⟨0, hge, hc.size_pos, ⟨Nat.zero_le _, ?_, nofun⟩, by simp, fun side => ?_⟩,
    hr.count, hr.zeroCount, hr.sum, hr.extrema⟩
  · refine hholds.imp (fun hmin => ?_) fun hspans => ?_
    · rw [hmin, sub_self]
      rfl
    · refine (fits_indexes_iff_spans hindex hmax (by simpa using hge)).mpr ?_
      simpa using hspans
  · rw [coarsen_zero]
    exact hr.held hindex side

/-- **The start may be raised** past scales at which the values do not fit. -/
theorem raise (hindex : ShiftsWithScale index)
    (hle : start ≤ start') (hmax : start' ≤ expoMaxScale)
    (hnot : ∀ s, start < s → s ≤ start' → ¬ Spans index h.maxSize vs s) :
    Records index start' vs h := by
  obtain ⟨d, hc⟩ := hr.canonical
  have hge := hc.start_le
  obtain ⟨k, rfl⟩ : ∃ k : ℕ, start' = start + k := ⟨(start' - start).toNat, by omega⟩
  have hshift : ∀ side, coarsen k (indexes index vs (start + k) side) =
      indexes index vs start side := by
    intro side
    rw [coarsen_indexes hindex hmax (by omega), Int.add_sub_cancel]
  refine ⟨hmax, ⟨k + d, hge.trans hle, hc.size_pos, ?_, ?_, fun side => ?_⟩,
    hr.count, hr.zeroCount, hr.sum, hr.extrema⟩
  · refine LeastDrop.restart (by omega) (fun e he hfits => ?_) ?_
    · refine hnot (start + k - e) (by omega) (by omega) ?_
      exact (fits_indexes_iff_spans hindex hmax (by omega)).mp hfits
    · have hroom : (start + k - expoMinScale).toNat - k = (start - expoMinScale).toNat := by omega
      rw [hroom]
      refine hc.drop.congr fun e _ => forall_congr' fun side => ?_
      rw [← hshift side, Fits.coarsen]
  · rw [hc.scale]
    push_cast
    ring
  · rw [← coarsen_coarsen, hshift]
    exact hc.held side

/-- Both ranges of `src` replayed: their values are recorded as far as the buckets go. -/
theorem replay_both (hsrc : Records index startA ws src)
    (hindex : ShiftsWithScale index) (hle : start ≤ src.scale) :
    (∃ d, ((h.replay .positive src.positive src.scale).replay .negative src.negative
        src.scale).Canonical start (indexes index (vs + ws) start) d) ∧
      h.SameTotals ((h.replay .positive src.positive src.scale).replay .negative src.negative
        src.scale) := by
  obtain ⟨d, hc⟩ := hr.canonical
  obtain ⟨⟨d₁, hc₁⟩, htotals₁⟩ := hc.replay .positive src.positive hle
  obtain ⟨⟨d₂, hc₂⟩, htotals₂⟩ := hc₁.replay .negative src.negative hle
  refine ⟨⟨d₂, ?_⟩, htotals₁.trans htotals₂⟩
  have hmax := (hsrc.scale_spec hindex).2.1.trans hsrc.start_le
  have hcontents : ∀ side, coarsen (src.scale - start).toNat
      (bucketContents (src.range side).offset (src.range side).counts) =
        indexes index ws start side := by
    intro side
    have hk : src.scale - ((src.scale - start).toNat : ℤ) = start := by omega
    rw [(hsrc.held hindex side).contents,
      coarsen_indexes hindex hmax (by rw [hk]; exact hr.start_ge), hk]
  have hnew : indexes index (vs + ws) start = fun side =>
      indexes index vs start side + indexes index ws start side :=
    funext fun side => indexes_add ..
  rw [hnew]
  convert hc₂ using 1
  funext side
  cases side with
  | positive => simp [← hcontents .positive, ExpoHistogram.range]
  | negative => simp [← hcontents .negative, ExpoHistogram.range]

/-- **Absorbing a histogram is recording its values.** -/
theorem absorb (hsrc : Records index startA ws src)
    (hindex : ShiftsWithScale index) (hle : start ≤ src.scale) :
    Records index start (vs + ws) (h.absorb src) ∧ (h.absorb src).maxSize = h.maxSize := by
  obtain ⟨⟨d, hc⟩, htotals⟩ := hr.replay_both hsrc hindex hle
  unfold ExpoHistogram.absorb
  dsimp only
  generalize (h.replay .positive src.positive src.scale).replay .negative src.negative
    src.scale = h' at hc htotals ⊢
  have hsum : h'.sum + src.sum = (vs + ws).sum := by
    rw [htotals.sum, hr.sum, hsrc.sum, Multiset.sum_add]
  have hcount : h'.count + src.count = (vs + ws).card := by
    rw [htotals.count, hr.count, hsrc.count, Multiset.card_add]
  have hzero : h'.zeroCount + src.zeroCount = (vs + ws).count 0 := by
    rw [htotals.zeroCount, hr.zeroCount, hsrc.zeroCount, Multiset.count_add]
  split
  · rename_i hpos
    have hws : ws ≠ 0 := by
      rintro rfl
      rw [hsrc.count] at hpos
      exact absurd hpos (lt_irrefl _)
    have hextrema := hr.extrema.add hsrc.extrema hws
    have hblank : vs = 0 ↔ h'.count + src.count = src.count := by
      rw [htotals.count, hr.count, Nat.add_eq_right, Multiset.card_eq_zero]
    simp only [hblank] at hextrema
    rw [← htotals.min, ← htotals.max] at hextrema
    exact ⟨⟨hr.start_le, ⟨d, hc.congr rfl ⟨rfl, fun side => by cases side <;> rfl⟩⟩, hcount, hzero,
      hsum, hextrema⟩, htotals.maxSize⟩
  · rename_i hpos
    have hws : ws = 0 := by
      rw [hsrc.count] at hpos
      exact Multiset.card_eq_zero.mp (by omega)
    refine ⟨⟨hr.start_le, ⟨d, hc.congr rfl ⟨rfl, fun side => by cases side <;> rfl⟩⟩, hcount,
      hzero, hsum, ?_⟩, htotals.maxSize⟩
    rw [hws, add_zero]
    change Extrema vs h'.min h'.max
    rw [htotals.min, htotals.max]
    exact hr.extrema

end

section

variable (ha : Records index startA va a)
include ha

variable (hb : Records index startB vb b)
include hb

section

variable (hindex : ShiftsWithScale index)
include hindex

/-- **Merging is recording**, from the coarser of the two scales on. -/
theorem merge_atScale :
    Records index (min a.scale b.scale) (va + vb) (mergeExpo a b) ∧
      (mergeExpo a b).maxSize = max (min a.maxSize b.maxSize) expoMinSize := by
  obtain ⟨hage, hale, -, -⟩ := ha.scale_spec hindex
  obtain ⟨hbge, hble, -, -⟩ := hb.scale_spec hindex
  have hnew := Records.new index (min a.maxSize b.maxSize) (min a.scale b.scale)
  have hamax := ha.start_le
  have hbmax := hb.start_le
  rw [ExpoHistogram.newExpoHistogram_scale_of_range _ (le_min hage hbge) (by omega)] at hnew
  obtain ⟨hra, hsizeA⟩ := hnew.absorb ha hindex (min_le_left _ _)
  obtain ⟨hrb, hsizeB⟩ := hra.absorb hb hindex (min_le_right _ _)
  rw [zero_add] at hrb
  exact ⟨hrb, hsizeB.trans hsizeA⟩

/-- **Merging is recording**, from the coarser of the two start scales on. -/
theorem merge
    (hsizeA : expoMinSize ≤ a.maxSize)
    (hsizeB : expoMinSize ≤ b.maxSize) :
    Records index (min startA startB) (va + vb) (mergeExpo a b) ∧
      (mergeExpo a b).maxSize = min a.maxSize b.maxSize := by
  obtain ⟨hr, hsize⟩ := ha.merge_atScale hb hindex
  rw [max_eq_left (le_min hsizeA hsizeB)] at hsize
  obtain ⟨-, hale, -, hanot⟩ := ha.scale_spec hindex
  obtain ⟨-, hble, -, hbnot⟩ := hb.scale_spec hindex
  refine ⟨hr.raise hindex (min_le_min hale hble) ((min_le_left _ _).trans ha.start_le) ?_, hsize⟩
  intro s hlt hle hspans
  rw [hsize] at hspans
  -- the scale is too fine for the source that is coarser
  rcases min_lt_iff.mp hlt with has | hbs
  · refine hanot s has (hle.trans (min_le_left _ _)) (hspans.mono ?_ (min_le_left _ _))
    exact Multiset.subset_of_le (Multiset.le_add_right _ _)
  · refine hbnot s hbs (hle.trans (min_le_right _ _)) (hspans.mono ?_ (min_le_right _ _))
    exact Multiset.subset_of_le (Multiset.le_add_left _ _)

theorem mergeExpo_comm
    (hsizeA : expoMinSize ≤ a.maxSize)
    (hsizeB : expoMinSize ≤ b.maxSize) : mergeExpo a b = mergeExpo b a := by
  obtain ⟨hab, hsizeAB⟩ := ha.merge hb hindex hsizeA hsizeB
  obtain ⟨hba, hsizeBA⟩ := hb.merge ha hindex hsizeB hsizeA
  rw [min_comm, add_comm] at hab
  exact hba.unique hab (by rw [hsizeAB, hsizeBA, min_comm])

end

theorem mergeExpo_assoc {startC : ℤ} {vc : Multiset ℚ} {c : ExpoHistogram}
    (hc : Records index startC vc c) (hindex : ShiftsWithScale index)
    (hsizeA : expoMinSize ≤ a.maxSize) (hsizeB : expoMinSize ≤ b.maxSize)
    (hsizeC : expoMinSize ≤ c.maxSize) :
    mergeExpo (mergeExpo a b) c = mergeExpo a (mergeExpo b c) := by
  obtain ⟨hab, hsizeAB⟩ := ha.merge hb hindex hsizeA hsizeB
  obtain ⟨hbc, hsizeBC⟩ := hb.merge hc hindex hsizeB hsizeC
  obtain ⟨hleft, hsizeLeft⟩ := hab.merge hc hindex (hsizeAB ▸ le_min hsizeA hsizeB) hsizeC
  obtain ⟨hright, hsizeRight⟩ := ha.merge hbc hindex hsizeA (hsizeBC ▸ le_min hsizeB hsizeC)
  rw [min_assoc, add_assoc] at hleft
  exact hright.unique hleft (by rw [hsizeLeft, hsizeRight, hsizeAB, hsizeBC, min_assoc])

end

/-! ### Data points -/

/-- **A histogram rebuilt from a data point has recorded the same values**, if the offsets are
within `int32`. -/
theorem fromPoint (hr : Records index start vs h) (hindex : ShiftsWithScale index) (maxSize : ℤ)
    (hoffset : ∀ side, bucketOffset (h.range side).offset = (h.range side).offset) :
    Records index h.scale vs (expoHistogramFromPoint h.snapshot maxSize) ∧
      (expoHistogramFromPoint h.snapshot maxSize).maxSize = max maxSize expoMinSize := by
  obtain ⟨hge, hle, -, -⟩ := hr.scale_spec hindex
  have hmax := hle.trans hr.start_le
  have hscale := ExpoHistogram.newExpoHistogram_scale_of_range maxSize hge hmax
  have hnew := Records.new index maxSize h.scale
  rw [hscale] at hnew
  obtain ⟨⟨d, hc⟩, htotals⟩ := hnew.replay_both hr hindex le_rfl
  rw [zero_add] at hc
  have hranges : ∀ side, (⟨bucketOffset (h.range side).offset, (h.range side).counts⟩ :
      ExpoBuckets) = h.range side := fun side => by rw [hoffset]
  have hpos := hranges .positive
  have hneg := hranges .negative
  simp only [ExpoHistogram.range] at hpos hneg
  unfold expoHistogramFromPoint
  simp only [ExpoHistogram.snapshot, ExpoBuckets.snapshot, ExpoHistogram.replayBucket_eq, hscale,
    hpos, hneg]
  generalize ((newExpoHistogram maxSize h.scale).replay .positive h.positive h.scale).replay
    .negative h.negative h.scale = h' at hc htotals ⊢
  have hcanonical : ∀ h'' : ExpoHistogram, h''.maxSize = h'.maxSize → h'.SameBuckets h'' →
      ∃ d, h''.Canonical h.scale (indexes index vs h.scale) d :=
    fun _ hsize hbuckets => ⟨d, hc.congr hsize hbuckets⟩
  by_cases hpos : 0 < h.count
  · simp only [if_pos hpos, Option.getD_some]
    exact ⟨⟨hmax, hcanonical _ rfl ⟨rfl, fun side => by cases side <;> rfl⟩, hr.count,
      hr.zeroCount, hr.sum, hr.extrema⟩, htotals.maxSize⟩
  · simp only [if_neg hpos]
    have hvs : vs = 0 := by
      rw [hr.count] at hpos
      exact Multiset.card_eq_zero.mp (by omega)
    refine ⟨⟨hmax, hcanonical _ rfl ⟨rfl, fun side => by cases side <;> rfl⟩, hr.count,
      hr.zeroCount, hr.sum, ?_⟩, htotals.maxSize⟩
    change Extrema vs h'.min h'.max
    rw [hvs, htotals.min, htotals.max]
    exact .zero

/-- **A histogram is rebuilt from its data point**, if its offsets are within `int32`. -/
theorem fromPoint_snapshot (hr : Records index start vs h) (hindex : ShiftsWithScale index)
    {maxSize : ℤ} (hsize : h.maxSize = max maxSize expoMinSize)
    (hoffset : ∀ side, bucketOffset (h.range side).offset = (h.range side).offset) :
    expoHistogramFromPoint h.snapshot maxSize = h := by
  obtain ⟨hr', hsize'⟩ := hr.fromPoint hindex maxSize hoffset
  exact (hr.atScale hindex).unique hr' (hsize'.trans hsize.symm)

end Records

/-- An index is that of the magnitude of a value. -/
theorem exists_of_mem_indexes {index : ℚ → ℤ → ℤ} {vs : Multiset ℚ} {scale : ℤ} {side : Side}
    {i : ℤ}
    (hi : i ∈ indexes index vs scale side) (hfinite : ∀ v ∈ vs, FiniteDouble v) :
    ∃ m, FiniteDouble m ∧ 0 < m ∧ index m scale = i := by
  cases side with
  | positive =>
    obtain ⟨v, hv, rfl⟩ := Multiset.mem_map.mp hi
    obtain ⟨hmem, hpos⟩ := Multiset.mem_filter.mp hv
    exact ⟨v, hfinite v hmem, hpos, rfl⟩
  | negative =>
    obtain ⟨v, hv, rfl⟩ := Multiset.mem_map.mp hi
    obtain ⟨hmem, hneg⟩ := Multiset.mem_filter.mp hv
    exact ⟨-v, (hfinite v hmem).neg, neg_pos.mpr hneg, rfl⟩

/-- The offsets of what finite doubles are recorded into are within `int32`. -/
theorem bucketOffset_range {log2 : ℚ → ℚ} {start : ℤ} {vs : Multiset ℚ} {h : ExpoHistogram}
    (hr : Records (expoIndex log2) start vs h) (hfinite : ∀ v ∈ vs, FiniteDouble v) (side : Side) :
    bucketOffset (h.range side).offset = (h.range side).offset := by
  have hindex := shiftsWithScale_expoIndex log2
  have hscale : h.scale ≤ 20 := (hr.scale_spec hindex).2.1.trans hr.start_le
  have hheld := hr.held hindex side
  unfold bucketOffset
  by_cases hblank : indexes (expoIndex log2) vs h.scale side = 0
  · rw [hheld.empty hblank]
    rfl
  · obtain ⟨m, hm, hpos, hoffset⟩ := exists_of_mem_indexes (hheld.ends hblank).2.1 hfinite
    have hrange : _ ≤ expoIndex log2 m h.scale ∧ _ := expoIndex_range hm hpos hscale
    rw [if_neg (by omega)]

/-- Adding up data points: the point of `vs` on top of the total of `ws`. -/
theorem addExponential_snapshot {AttributeSet : Type} {log2 : ℚ → ℚ} (maxSize maxScale : ℤ)
    {vs ws : List ℚ} (hvs : ∀ v ∈ vs, FiniteDouble v) (hws : ∀ v ∈ ws, FiniteDouble v)
    {point total : DataPoint AttributeSet ExpoValues}
    (hpoint : point.value = (recordAll (expoIndex log2) maxSize maxScale vs).snapshot)
    (htotal : total.value = (recordAll (expoIndex log2) maxSize maxScale ws).snapshot) :
    (addExponential point total maxSize).value =
      (recordAll (expoIndex log2) maxSize maxScale (ws ++ vs)).snapshot := by
  have hindex := shiftsWithScale_expoIndex log2
  have hr := records_recordAll hindex maxSize maxScale
  have hsize := recordAll_maxSize (expoIndex log2) maxSize maxScale
  have hbig : expoMinSize ≤ max maxSize expoMinSize := le_max_right _ _
  obtain ⟨hmerged, hmergedSize⟩ := (hr ws).merge (hr vs) hindex (by rw [hsize]; exact hbig)
    (by rw [hsize]; exact hbig)
  rw [min_self, Multiset.coe_add] at hmerged
  rw [hsize, hsize, min_self] at hmergedSize
  simp only [addExponential, hpoint, htotal]
  rw [(hr vs).fromPoint_snapshot hindex (hsize vs) (bucketOffset_range (hr vs) hvs),
    (hr ws).fromPoint_snapshot hindex (hsize ws) (bucketOffset_range (hr ws) hws),
    (hr (ws ++ vs)).unique hmerged (hmergedSize.trans (hsize _).symm)]

/-- Adding up the data points of intervals, one after the other. -/
theorem foldl_addExponential {AttributeSet : Type} {log2 : ℚ → ℚ} (maxSize maxScale : ℤ)
    (intervals : List (List ℚ × DataPoint AttributeSet ExpoValues)) {values : List ℚ}
    {total : DataPoint AttributeSet ExpoValues} (hvalues : ∀ v ∈ values, FiniteDouble v)
    (hfinite : ∀ interval ∈ intervals, ∀ v ∈ interval.1, FiniteDouble v)
    (htotal : total.value = (recordAll (expoIndex log2) maxSize maxScale values).snapshot)
    (hpoints : ∀ interval ∈ intervals,
      interval.2.value = (recordAll (expoIndex log2) maxSize maxScale interval.1).snapshot) :
    (intervals.foldl (fun total interval => addExponential interval.2 total maxSize) total).value =
      (recordAll (expoIndex log2) maxSize maxScale
        (values ++ intervals.flatMap (·.1))).snapshot := by
  induction intervals generalizing values total with
  | nil => simpa using htotal
  | cons interval intervals ih =>
    have hnew := hfinite interval mem_cons_self
    have hsum := addExponential_snapshot maxSize maxScale hnew hvalues
      (hpoints interval mem_cons_self) htotal
    rw [foldl_cons, flatMap_cons, ← append_assoc]
    refine ih (fun v hv => ?_) (fun i hi => hfinite i (mem_cons_of_mem _ hi)) hsum
      fun i hi => hpoints i (mem_cons_of_mem _ hi)
    rcases mem_append.mp hv with hv | hv
    · exact hvalues v hv
    · exact hnew v hv

/-- **Merging exponential histograms is recording all of their observations**, so that
it is commutative and associative, and the total kept by adding up the data points of any
intervals is the point of all observations. -/
theorem exponential_merge_is_recording (AttributeSet : Type) (log2 : ℚ → ℚ) :
    (∀ sizeA scaleA valuesA sizeB scaleB valuesB,
      let recorded := recordAll (expoIndex log2)
      let a := recorded sizeA scaleA valuesA
      let b := recorded sizeB scaleB valuesB
      mergeExpo a b =
          recorded (min a.maxSize b.maxSize) (min a.scale b.scale) (valuesA ++ valuesB) ∧
        mergeExpo a b = mergeExpo b a ∧
        ∀ sizeC scaleC valuesC,
          let c := recorded sizeC scaleC valuesC
          mergeExpo (mergeExpo a b) c = mergeExpo a (mergeExpo b c)) ∧
    ∀ (maxSize maxScale : ℤ) (first : List ℚ) (firstPoint : DataPoint AttributeSet ExpoValues)
      (intervals : List (List ℚ × DataPoint AttributeSet ExpoValues)),
      (∀ v ∈ first, FiniteDouble v) →
      (∀ interval ∈ intervals, ∀ v ∈ interval.1, FiniteDouble v) →
      firstPoint.value = (recordAll (expoIndex log2) maxSize maxScale first).snapshot →
      (∀ interval ∈ intervals,
        interval.2.value = (recordAll (expoIndex log2) maxSize maxScale interval.1).snapshot) →
      (intervals.foldl (fun total interval => addExponential interval.2 total maxSize)
          firstPoint).value =
        (recordAll (expoIndex log2) maxSize maxScale
          (first ++ intervals.flatMap (·.1))).snapshot := by
  have hindex := shiftsWithScale_expoIndex log2
  have hr := records_recordAll hindex
  have hsize := recordAll_maxSize (expoIndex log2)
  have hbig :
      ∀ size scale values, expoMinSize ≤ (recordAll (expoIndex log2) size scale values).maxSize :=
    fun size scale values => by rw [hsize]; exact le_max_right _ _
  dsimp only
  refine ⟨fun sizeA scaleA valuesA sizeB scaleB valuesB => ⟨?_, ?_, ?_⟩, ?_⟩
  · have ha := hr sizeA scaleA valuesA
    have hb := hr sizeB scaleB valuesB
    obtain ⟨hmerged, hmergedSize⟩ := ha.merge_atScale hb hindex
    refine (hr _ _ _).unique ?_ (hmergedSize.trans (hsize _ _ _).symm)
    rw [ExpoHistogram.newExpoHistogram_scale_of_range _ hmerged.start_ge hmerged.start_le,
      ← Multiset.coe_add]
    exact hmerged
  · exact (hr sizeA scaleA valuesA).mergeExpo_comm (hr sizeB scaleB valuesB) hindex
      (hbig _ _ _) (hbig _ _ _)
  · intro sizeC scaleC valuesC
    exact (hr sizeA scaleA valuesA).mergeExpo_assoc (hr sizeB scaleB valuesB)
      (hr sizeC scaleC valuesC) hindex (hbig _ _ _) (hbig _ _ _) (hbig _ _ _)
  · intro maxSize maxScale first firstPoint intervals hfirst hfinite hpoint hpoints
    exact foldl_addExponential maxSize maxScale intervals hfirst hfinite hpoint hpoints

/-- Three intervals, the second of which lowers the scale. -/
theorem exponential_merge_is_recording_three_intervals :
    let recorded := recordAll (expoIndex fun _ => 0) 2 0
    let point : List ℚ → DataPoint Unit ExpoValues := fun vs =>
      ⟨(), 0, 0, (recorded vs).snapshot, []⟩
    (addExponential (point [-1]) (addExponential (point [4, 1 / 2]) (point [1]) 2) 2).value =
        (recorded [1, 4, 1 / 2, -1]).snapshot ∧
      (recorded [1, 4, 1 / 2, -1]).scale = -1 := by
  refine ⟨?_, by decide +kernel⟩
  have h := (exponential_merge_is_recording Unit fun _ => 0).2 2 0 [1]
    ⟨(), 0, 0, (recordAll (expoIndex fun _ => 0) 2 0 [1]).snapshot, []⟩
    [([4, 1 / 2], ⟨(), 0, 0, (recordAll (expoIndex fun _ => 0) 2 0 [4, 1 / 2]).snapshot, []⟩),
      ([-1], ⟨(), 0, 0, (recordAll (expoIndex fun _ => 0) 2 0 [-1]).snapshot, []⟩)]
  refine h (by decide +kernel) (by decide +kernel) rfl ?_
  intro interval hmem
  rcases mem_pair.mp hmem with rfl | rfl <;> rfl

end ConvoyStats.Otlp
