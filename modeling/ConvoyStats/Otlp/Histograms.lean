import ConvoyStats.Otlp.ExpoRecording
import ConvoyStats.Otlp.ConvertView

/-!
# What a histogram point says about its observations

`HistogramOf bounds vs h`: the explicit histogram `h` is that of the values `vs`.  It is
kept by one more observation and by `addHistogram`, which gives the histogram of both.
The data point that a batch has for a histogram series is that of its observations there
(`explicitPoint_spec`, `exponentialPoint_spec`).
-/

namespace ConvoyStats.Otlp

open List Models

/-- **The explicit histogram of the values `vs`.** -/
structure HistogramOf (bounds : List ℚ) (vs : List Float64) (h : HistogramValues) : Prop where
  count : h.count = vs.length
  bounds_eq : h.bounds = bounds
  bucketCounts : h.bucketCounts =
    (range (bounds.length + 1)).map fun i => vs.countP (bucketOf bounds · = i)
  sum : h.sum = vs.sum
  extrema : ∀ qs : List ℚ, vs = qs.map .finite → ∃ low high,
    h.min = some (.finite low) ∧ h.max = some (.finite high) ∧
      IsLeast {q | q ∈ qs} low ∧ IsGreatest {q | q ∈ qs} high

namespace HistogramOf

variable {bounds : List ℚ} {vs ws : List Float64} {h previous : HistogramValues}

theorem length_bucketCounts (hh : HistogramOf bounds vs h) :
    h.bucketCounts.length = bounds.length + 1 := by
  rw [hh.bucketCounts, length_map, length_range]

/-- The histogram of one value. -/
theorem first (bounds : List ℚ) (v : Float64) :
    HistogramOf bounds [v] (HistogramValues.observe bounds
      ⟨0, bounds, replicate (bounds.length + 1) 0, some v, some v, .finite 0⟩ v) where
  count := rfl
  bounds_eq := rfl
  bucketCounts := by
    refine ext_getElem (by simp [HistogramValues.observe]) fun i hi hi' => ?_
    simp only [HistogramValues.observe, getElem_modify, getElem_replicate,
      getElem_map, getElem_range, countP_singleton, decide_eq_true_eq]
  sum := by
    rw [HistogramValues.observe, sum_singleton]
    exact zero_add v
  extrema := by
    intro qs hqs
    obtain ⟨q, rfl, rfl⟩ : ∃ q, qs = [q] ∧ v = .finite q := by
      cases qs with
      | nil => cases hqs
      | cons q qs =>
        obtain ⟨hv, hnil⟩ := cons_eq_cons.mp hqs
        exact ⟨q, by rw [map_eq_nil_iff.mp hnil.symm], hv⟩
    refine ⟨q, q, by simp [HistogramValues.observe], by simp [HistogramValues.observe], ?_, ?_⟩
    · exact ⟨mem_singleton_self q, fun r hr => (mem_singleton.mp hr).ge⟩
    · exact ⟨mem_singleton_self q, fun r hr => (mem_singleton.mp hr).le⟩

/-- The least of two lists. -/
theorem isLeast_append {qs rs : List ℚ} {low low' : ℚ} (hlow : IsLeast {q | q ∈ qs} low)
    (hlow' : IsLeast {q | q ∈ rs} low') :
    IsLeast {q | q ∈ qs ++ rs} (min low low') := by
  have hset : {q | q ∈ qs ++ rs} = {q | q ∈ qs} ∪ {q | q ∈ rs} := by
    ext q
    simp
  rw [hset]
  exact hlow.union hlow'

/-- The greatest of two lists. -/
theorem isGreatest_append {qs rs : List ℚ} {high high' : ℚ}
    (hhigh : IsGreatest {q | q ∈ qs} high) (hhigh' : IsGreatest {q | q ∈ rs} high') :
    IsGreatest {q | q ∈ qs ++ rs} (max high high') := by
  have hset : {q | q ∈ qs ++ rs} = {q | q ∈ qs} ∪ {q | q ∈ rs} := by
    ext q
    simp
  rw [hset]
  exact hhigh.union hhigh'

/-- **One more observation.** -/
theorem observe (hh : HistogramOf bounds vs h) (v : Float64) :
    HistogramOf bounds (vs ++ [v]) (h.observe bounds v) where
  count := by rw [HistogramValues.observe, hh.count, length_append, length_singleton]
  bounds_eq := hh.bounds_eq
  bucketCounts := by
    have hlength := hh.length_bucketCounts
    refine ext_getElem (by simp [HistogramValues.observe, hlength]) fun i hi hi' => ?_
    simp only [HistogramValues.observe, hh.bucketCounts, getElem_modify, getElem_map,
      getElem_range, countP_append, countP_singleton, decide_eq_true_eq]
    split <;> rfl
  sum := by rw [HistogramValues.observe, hh.sum, sum_append, sum_singleton]
  extrema := by
    intro qs hqs
    obtain ⟨qs, rs, rfl, hvs, hv⟩ := map_eq_append_iff.mp hqs.symm
    obtain ⟨q, rfl, rfl⟩ := map_eq_singleton_iff.mp hv
    obtain ⟨low, high, hmin, hmax, hlow, hhigh⟩ := hh.extrema qs hvs.symm
    have hq : IsLeast {r | r ∈ [q]} q ∧ IsGreatest {r | r ∈ [q]} q := by
      simp [IsLeast, IsGreatest, lowerBounds, upperBounds]
    refine ⟨min low q, max high q, ?_, ?_, isLeast_append hlow hq.1, isGreatest_append hhigh hq.2⟩
    · rcases lt_or_ge q low with hlt | hle
      · simp [HistogramValues.observe, hmin, hlt, min_eq_right hlt.le]
      · simp [HistogramValues.observe, hmin, not_lt.mpr hle, min_eq_left hle]
    · rcases lt_or_ge high q with hlt | hle
      · simp [HistogramValues.observe, hmax, hlt, max_eq_right hlt.le]
      · simp [HistogramValues.observe, hmax, not_lt.mpr hle, max_eq_left hle]

/-- **`addHistogram` gives the histogram of both.** -/
theorem add (hh : HistogramOf bounds vs h) (hprevious : HistogramOf bounds ws previous) :
    ∃ total, addHistogram h previous = some total ∧ HistogramOf bounds (ws ++ vs) total := by
  have hlength := hh.length_bucketCounts.trans hprevious.length_bucketCounts.symm
  rw [addHistogram, if_pos hlength.le]
  refine ⟨_, rfl, ?_, hh.bounds_eq, ?_, ?_, ?_⟩
  · rw [length_append, hh.count, hprevious.count, add_comm]
  · dsimp only
    rw [hh.bucketCounts, hprevious.bucketCounts, zipWith_map, zipWith_self]
    refine map_congr_left fun i _ => ?_
    rw [countP_append, add_comm]
  · dsimp only
    rw [hh.sum, hprevious.sum, sum_append, add_comm]
  · intro qs hqs
    obtain ⟨qs, rs, rfl, hws, hvs⟩ := map_eq_append_iff.mp hqs.symm
    obtain ⟨low, high, hmin, hmax, hlow, hhigh⟩ := hprevious.extrema qs hws.symm
    obtain ⟨low', high', hmin', hmax', hlow', hhigh'⟩ := hh.extrema rs hvs.symm
    refine ⟨min low low', max high high', ?_, ?_, isLeast_append hlow hlow',
      isGreatest_append hhigh hhigh'⟩
    · rcases lt_or_ge low low' with hlt | hle
      · simp [hmin, hmin', hlt, min_eq_left hlt.le]
      · simp [hmin, hmin', not_lt.mpr hle, min_eq_right hle]
    · rcases lt_or_ge high' high with hlt | hle
      · simp [hmax, hmax', hlt, max_eq_left hlt.le]
      · simp [hmax, hmax', not_lt.mpr hle, max_eq_right hle]

end HistogramOf

/-! ### The data point of a batch -/

section

variable {KeyValue AttributeSet Distinct : Type}

/-- The value of an observation that is finite. -/
def finiteValue (m : Metric KeyValue) : Option ℚ :=
  match m.value with
  | .finite q => some q
  | _ => none

theorem finiteValue_of_eq {m : Metric KeyValue} {v : ℚ} (h : m.value = .finite v) :
    finiteValue m = some v := by
  rw [finiteValue, h]

variable {observations : List (Metric KeyValue)}

/-- Where all values are finite, none is left out. -/
theorem map_value_of_finite (h : ∀ m ∈ observations, ∃ v, m.value = .finite v) :
    observations.map (·.value) = (observations.filterMap finiteValue).map .finite := by
  induction observations with
  | nil => rfl
  | cons m observations ih =>
    obtain ⟨v, hv⟩ := h m mem_cons_self
    rw [map_cons, filterMap_cons_some (finiteValue_of_eq hv), map_cons, hv,
      ih fun m' hm' => h m' (mem_cons_of_mem _ hm')]

/-- The time of a data point covers its observations and is one of theirs, if it is set. -/
structure CoversTimes (observations : List (Metric KeyValue)) (time : Time) : Prop where
  covers : ∀ m ∈ observations, m.timestamp ≤ time
  unset_or_mem : time = 0 ∨ ∃ m ∈ observations, time = m.timestamp

/-- One more observation. -/
theorem CoversTimes.push {time : Time} (h : CoversTimes observations time) (m : Metric KeyValue) :
    CoversTimes (observations ++ [m]) (if time < m.timestamp then m.timestamp else time) where
  covers := by
    intro m' hm'
    split
    · rename_i hlater
      rcases mem_append.mp hm' with hm' | hm'
      · exact (h.covers m' hm').trans hlater.le
      · rw [mem_singleton.mp hm']
    · rename_i hlater
      rcases mem_append.mp hm' with hm' | hm'
      · exact h.covers m' hm'
      · rw [mem_singleton.mp hm']
        exact not_lt.mp hlater
  unset_or_mem := by
    split
    · exact .inr ⟨m, mem_append_right _ (mem_singleton_self m), rfl⟩
    · refine h.unset_or_mem.imp_right fun ⟨m', hm', htime⟩ => ⟨m', ?_, htime⟩
      exact mem_append_left _ hm'

variable (sdk : Sdk KeyValue AttributeSet Distinct) (config : OTLPConfig)

/-- The points of a series with explicit buckets while its observations are gathered. -/
theorem observeSeries_foldl {name : String} (observations : List (Metric KeyValue))
    (hne : observations ≠ []) (hname : ∀ m ∈ observations, m.name = name) :
    ∃ point, observations.foldl (observeSeries sdk config) [] = [point] ∧
      HistogramOf (config.bounds name) (observations.map (·.value)) point.value ∧
      CoversTimes observations point.time := by
  induction observations using reverseRecOn with
  | nil => exact absurd rfl hne
  | append_singleton observations m ih =>
    have hm : m.name = name := hname m (by simp)
    rw [foldl_append, foldl_cons, foldl_nil, map_append, map_singleton]
    by_cases hnil : observations = []
    · subst hnil
      refine ⟨_, rfl, ?_, ?_⟩
      · subst hm
        exact .first _ _
      · have htime : CoversTimes [m] m.timestamp :=
          ⟨fun m' hm' => by rw [mem_singleton.mp hm'],
            .inr ⟨m, mem_singleton_self m, rfl⟩⟩
        simpa [observeHistogram, newHistogramPoint] using htime
    · obtain ⟨point, hpoint, hvalue, htime⟩ :=
        ih hnil fun m' hm' => hname m' (mem_append_left _ hm')
      rw [hpoint]
      refine ⟨_, rfl, ?_, htime.push m⟩
      subst hm
      exact hvalue.observe m.value

/-- **The data point of an explicit histogram series in a batch.** -/
theorem explicitPoint_spec {name : String} (hne : observations ≠ [])
    (hname : ∀ m ∈ observations, m.name = name) :
    ∃ point, explicitPoint sdk config observations = [point] ∧
      HistogramOf (config.bounds name) (observations.map (·.value)) point.value ∧
      CoversTimes observations point.time := by
  obtain ⟨point, hpoint, hvalue, htime⟩ := observeSeries_foldl sdk config observations hne hname
  rw [explicitPoint, hpoint]
  exact ⟨_, rfl, hvalue, htime⟩

/-- The series with exponential buckets while its observations are gathered. -/
theorem recordSeries_foldl (settings : OTLPExponentialHistogram)
    (observations : List (Metric KeyValue)) (hne : observations ≠ []) :
    ∃ series, observations.foldl (recordSeries sdk settings) none = some series ∧
      series.histogram = recordAll (expoIndex sdk.log2) settings.maxSize settings.maxScale
        (observations.filterMap finiteValue) ∧
      CoversTimes observations series.time := by
  induction observations using reverseRecOn with
  | nil => exact absurd rfl hne
  | append_singleton observations m ih =>
    rw [foldl_append, foldl_cons, foldl_nil, filterMap_append]
    -- the series the observation is recorded in
    obtain ⟨series, hseries, hhistogram, htime⟩ : ∃ series : ExpoSeries AttributeSet,
        recordSeries sdk settings (observations.foldl (recordSeries sdk settings) none) m =
          some (series.record sdk m) ∧
        series.histogram = recordAll (expoIndex sdk.log2) settings.maxSize settings.maxScale
          (observations.filterMap finiteValue) ∧
        (CoversTimes observations series.time) := by
      by_cases hnil : observations = []
      · subst hnil
        exact ⟨_, rfl, rfl, nofun, .inl rfl⟩
      · obtain ⟨series, hseries, hhistogram, htime⟩ := ih hnil
        exact ⟨series, by rw [hseries]; rfl, hhistogram, htime⟩
    refine ⟨_, hseries, ?_, htime.push m⟩
    rw [ExpoSeries.record, hhistogram, recordAll, recordAll, foldl_append]
    cases hvalue : m.value <;> simp [finiteValue, hvalue, ExpoHistogram.recordValue]

/-- **The data point of an exponential histogram series in a batch.** -/
theorem exponentialPoint_spec (settings : OTLPExponentialHistogram) (hne : observations ≠ []) :
    ∃ point, exponentialPoint sdk settings observations = [point] ∧
      point.value = (recordAll (expoIndex sdk.log2) settings.maxSize settings.maxScale
        (observations.filterMap finiteValue)).snapshot ∧
      CoversTimes observations point.time := by
  obtain ⟨series, hseries, hhistogram, htime⟩ :=
    recordSeries_foldl sdk settings observations hne
  refine ⟨series.point, ?_, ?_, htime⟩
  · rw [exponentialPoint, hseries]
    rfl
  · rw [ExpoSeries.point, hhistogram]

end

end ConvoyStats.Otlp
