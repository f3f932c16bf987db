import ConvoyStats.Library.NodupLists
import ConvoyStats.Otlp.SeriesExport

/-!
# One series of a batch

What a batch is turned into, seen from one series.  The observations of a counter or gauge
series become its data points one by one; those of a histogram series become one data
point, `explicitPoint` or `exponentialPoint` of all of them in order.
-/

namespace ConvoyStats.Otlp

open Function List Models

variable {KeyValue AttributeSet Distinct : Type} [DecidableEq Distinct]
variable (sdk : Sdk KeyValue AttributeSet Distinct) (config : OTLPConfig)

/-! ### Explicit histograms -/

/-- The data points of a series among those of its name. -/
def ofSeries {V : Type} (key : HistogramKey Distinct) (points : List (DataPoint AttributeSet V)) :
    List (DataPoint AttributeSet V) :=
  points.filter (sdk.equivalent ·.attributes = key.attributes)

/-- The metrics that `explicitHistograms` gathers for a series. -/
def explicitObservations (key : HistogramKey Distinct) (metrics : List (Metric KeyValue)) :
    List (Metric KeyValue) :=
  metrics.filter fun m =>
    m.type = .histogram ∧ config.usesExponential m.name = false ∧ keyOf sdk m = key

/-- The data points of a series after one more of its observations. -/
def observeSeries (points : List (DataPoint AttributeSet HistogramValues)) (m : Metric KeyValue) :
    List (DataPoint AttributeSet HistogramValues) :=
  [observeHistogram config m (points.head?.getD (newHistogramPoint sdk config m))]

/-- The exemplars of a series after one more of its observations. -/
def offerSeries (slots : Option BucketExemplars) (m : Metric KeyValue) : Option BucketExemplars :=
  offerBucket slots (bucketOf (config.bounds m.name) m.value) ((config.bounds m.name).length + 1) m

/-- The indexes of `explicitHistograms` are right, name by name. -/
def ExplicitIndexed (s : ExplicitHistograms AttributeSet Distinct) : Prop :=
  ∀ name, ((s.histograms name).getD []).IndexedBy (fun p => some (sdk.equivalent p.attributes))
    fun d => s.histogramIndexes ⟨name, d⟩

variable {m : Metric KeyValue}

/-- An observation in a histogram, as an entry of the list of its name. -/
theorem explicitStep_eq (s : ExplicitHistograms AttributeSet Distinct) (htype : m.type = .histogram)
    (hexplicit : config.usesExponential m.name = false) :
    explicitStep sdk config s m =
      let points := (s.histograms m.name).getD []
      let index := (s.histogramIndexes (keyOf sdk m)).getD points.length
      { histograms := update s.histograms m.name
          (some ((if (s.histogramIndexes (keyOf sdk m)).isNone then
            points ++ [newHistogramPoint sdk config m] else points).modify index
              (observeHistogram config m)))
        histogramIndexes := update s.histogramIndexes (keyOf sdk m) (some index)
        exemplars := update s.exemplars (keyOf sdk m)
          (offerSeries config (s.exemplars (keyOf sdk m)) m) } := by
  simp [explicitStep, htype, hexplicit, offerSeries]

/-- One observation, from its own series and from the others. -/
theorem explicitStep_view {s : ExplicitHistograms AttributeSet Distinct} (h : ExplicitIndexed sdk s)
    (htype : m.type = .histogram) (hexplicit : config.usesExponential m.name = false) :
    ExplicitIndexed sdk (explicitStep sdk config s m) ∧
      ∀ key, ofSeries sdk key (((explicitStep sdk config s m).histograms key.name).getD []) =
          (if keyOf sdk m = key then
            observeSeries sdk config (ofSeries sdk key ((s.histograms key.name).getD [])) m
          else ofSeries sdk key ((s.histograms key.name).getD [])) ∧
        (explicitStep sdk config s m).exemplars key =
          if keyOf sdk m = key then offerSeries config (s.exemplars key) m
          else s.exemplars key := by
  obtain ⟨hindexed, hfilter⟩ := (h m.name).upsert (k := sdk.equivalent (sdk.newSet m.attributes))
    (e := newHistogramPoint sdk config m) (f := observeHistogram config m) rfl fun _ => rfl
  rw [explicitStep_eq sdk config s htype hexplicit]
  refine ⟨fun name => ?_, fun key => ⟨?_, ?_⟩⟩
  · by_cases hname : name = m.name
    · subst hname
      have hindex : ∀ i, (fun d => update s.histogramIndexes (keyOf sdk m) i ⟨m.name, d⟩) =
          update (fun d => s.histogramIndexes ⟨m.name, d⟩)
            (sdk.equivalent (sdk.newSet m.attributes)) i := by
        intro i
        funext d
        by_cases hd : d = sdk.equivalent (sdk.newSet m.attributes)
        · subst hd
          simp [keyOf]
        · have hkey : (⟨m.name, d⟩ : HistogramKey Distinct) ≠ keyOf sdk m := by simp [keyOf, hd]
          rw [update_of_ne hkey, update_of_ne hd]
      simp only [update_self, Option.getD_some, hindex]
      exact hindexed
    · have hindex : ∀ i, (fun d => update s.histogramIndexes (keyOf sdk m) i ⟨name, d⟩) =
          fun d => s.histogramIndexes ⟨name, d⟩ := by
        intro i
        funext d
        have hkey : (⟨name, d⟩ : HistogramKey Distinct) ≠ keyOf sdk m := by simp [keyOf, hname]
        rw [update_of_ne hkey]
      simp only [update_of_ne hname, hindex]
      exact h name
  · obtain ⟨name, d⟩ := key
    by_cases hname : name = m.name
    · subst hname
      have hd := hfilter d
      simp only [Option.some.injEq] at hd
      have hkey : keyOf sdk m = ⟨m.name, d⟩ ↔ d = sdk.equivalent (sdk.newSet m.attributes) := by
        simp [keyOf, eq_comm]
      simp only [ofSeries, update_self, Option.getD_some, hkey]
      refine hd.trans ?_
      split
      · rename_i heq
        subst heq
        rfl
      · rfl
    · have hkey : keyOf sdk m ≠ ⟨name, d⟩ := by simp [keyOf, Ne.symm hname]
      simp only [update_of_ne hname, if_neg hkey]
  · by_cases hkey : keyOf sdk m = key
    · subst hkey
      simp
    · simp [hkey, update_of_ne (Ne.symm hkey)]

/-- The loop of `explicitHistograms`, series by series. -/
theorem explicitStep_foldl_view (metrics : List (Metric KeyValue))
    {s : ExplicitHistograms AttributeSet Distinct} (h : ExplicitIndexed sdk s)
    (key : HistogramKey Distinct) :
    ofSeries sdk key (((metrics.foldl (explicitStep sdk config) s).histograms key.name).getD []) =
        (explicitObservations sdk config key metrics).foldl (observeSeries sdk config)
          (ofSeries sdk key ((s.histograms key.name).getD [])) ∧
      (metrics.foldl (explicitStep sdk config) s).exemplars key =
        (explicitObservations sdk config key metrics).foldl (offerSeries config)
          (s.exemplars key) := by
  induction metrics generalizing s with
  | nil => exact ⟨rfl, rfl⟩
  | cons m metrics ih =>
    rw [foldl_cons, explicitObservations, filter_cons]
    by_cases hm : m.type = .histogram ∧ config.usesExponential m.name = false
    · obtain ⟨hindexed, hview⟩ := explicitStep_view sdk config h hm.1 hm.2
      obtain ⟨hpoints, hexemplars⟩ := ih hindexed
      rw [hpoints, hexemplars, (hview key).1, (hview key).2]
      by_cases hkey : keyOf sdk m = key
      · simp [hm, hkey, explicitObservations]
      · simp [hkey, explicitObservations]
    · have hskip : explicitStep sdk config s m = s := by
        unfold explicitStep
        rw [if_pos]
        by_contra hno
        simp only [not_or, not_not, Bool.not_eq_true] at hno
        exact hm hno
      have hm' : ¬ (m.type = .histogram ∧ config.usesExponential m.name = false ∧
          keyOf sdk m = key) := fun hall => hm ⟨hall.1, hall.2.1⟩
      rw [hskip]
      simpa [hm', explicitObservations] using ih h

/-- The data point of a histogram series with its observations in order, or none. -/
def explicitPoint (observations : List (Metric KeyValue)) :
    List (DataPoint AttributeSet HistogramValues) :=
  (observations.foldl (observeSeries sdk config) []).map fun point =>
    { point with
      exemplars := point.exemplars ++
        ((observations.foldl (offerSeries config) none).getD []).filterMap id }

/-- **The explicit histograms of a batch, series by series.** -/
theorem explicitHistograms_view (metrics : List (Metric KeyValue)) (key : HistogramKey Distinct) :
    ofSeries sdk key ((explicitHistograms sdk config metrics key.name).getD []) =
      explicitPoint sdk config (explicitObservations sdk config key metrics) := by
  have hinit : ExplicitIndexed sdk
      (⟨fun _ => none, fun _ => none, fun _ => none⟩ : ExplicitHistograms AttributeSet Distinct) :=
    fun _ => .nil
  obtain ⟨hpoints, hexemplars⟩ := explicitStep_foldl_view sdk config metrics hinit key
  simp only [explicitHistograms, explicitPoint]
  generalize metrics.foldl (explicitStep sdk config) ⟨fun _ => none, fun _ => none, fun _ => none⟩ =
    s at hpoints hexemplars ⊢
  -- attaching exemplars keeps the points apart
  have hattach : ∀ points : List (DataPoint AttributeSet HistogramValues),
      ofSeries sdk key (attach sdk key.name s.exemplars points) =
        (ofSeries sdk key points).map fun point =>
          { point with
            exemplars := point.exemplars ++ ((s.exemplars key).getD []).filterMap id } := by
    intro points
    rw [ofSeries, attach, filter_map, ofSeries]
    refine map_congr_left fun point hpoint => ?_
    have hd : sdk.equivalent point.attributes = key.attributes := by
      simpa using (mem_filter.mp hpoint).2
    rw [hd]
  have hgetD : ((s.histograms key.name).map (attach sdk key.name s.exemplars)).getD [] =
      attach sdk key.name s.exemplars ((s.histograms key.name).getD []) := by
    cases s.histograms key.name <;> rfl
  rw [hgetD, hattach, hpoints, hexemplars]
  rfl

/-! ### Exponential histograms -/

/-- The metrics that `exponentialHistograms` gathers for a series. -/
def exponentialObservations (key : HistogramKey Distinct) (metrics : List (Metric KeyValue)) :
    List (Metric KeyValue) :=
  metrics.filter fun m =>
    m.type = .histogram ∧ config.usesExponential m.name = true ∧ keyOf sdk m = key

/-- A series after one more of its observations. -/
def recordSeries (settings : OTLPExponentialHistogram) (series : Option (ExpoSeries AttributeSet))
    (m : Metric KeyValue) : Option (ExpoSeries AttributeSet) :=
  some ((series.getD
    (newExpoSeries (sdk.newSet m.attributes) settings.maxSize settings.maxScale)).record sdk m)

/-- The two maps of `exponentialHistograms` agree. -/
structure ExponentialIndexed (s : ExponentialHistograms AttributeSet Distinct) : Prop where
  nodup : ∀ name, (s.seriesByName name).Nodup
  listed : ∀ name key, key ∈ s.seriesByName name ↔ key.name = name ∧ (s.seriesByKey key).isSome
  attributes : ∀ key series, s.seriesByKey key = some series →
    sdk.equivalent series.attributes = key.attributes

/-- One observation, from its own series and from the others. -/
theorem exponentialStep_view (settings : OTLPExponentialHistogram)
    {s : ExponentialHistograms AttributeSet Distinct} (h : ExponentialIndexed sdk s)
    (htype : m.type = .histogram) (hexponential : config.usesExponential m.name = true) :
    ExponentialIndexed sdk (exponentialStep sdk config settings s m) ∧
      ∀ key, (exponentialStep sdk config settings s m).seriesByKey key =
        if keyOf sdk m = key then recordSeries sdk settings (s.seriesByKey key) m
        else s.seriesByKey key := by
  have hname : (keyOf sdk m).name = m.name := rfl
  simp only [exponentialStep, htype, hexponential, ne_eq, not_true_eq_false, Bool.not_true,
    Bool.false_eq_true, or_self, if_false]
  refine ⟨⟨fun name => ?_, fun name key => ?_, fun key series hseries => ?_⟩, fun key => ?_⟩
  · dsimp only
    split
    · rename_i hnone
      by_cases hn : name = m.name
      · subst hn
        rw [update_self, nodup_append]
        refine ⟨h.nodup _, nodup_singleton _, fun k hk k' hk' heq => ?_⟩
        rw [mem_singleton.mp hk'] at heq
        rw [heq, h.listed, Option.isSome_iff_ne_none, Option.isNone_iff_eq_none.mp hnone] at hk
        exact hk.2 rfl
      · rw [update_of_ne hn]
        exact h.nodup name
    · exact h.nodup name
  · dsimp only
    by_cases hkey : key = keyOf sdk m
    · subst hkey
      simp only [update_self, Option.isSome_some, and_true, hname]
      split
      · by_cases hn : name = m.name
        · subst hn
          simp
        · rw [update_of_ne hn, h.listed]
          simp [Ne.symm hn, hname]
      · rename_i hsome
        rw [h.listed, hname]
        simp only [Option.isNone_iff_eq_none, ← ne_eq, ← Option.isSome_iff_ne_none] at hsome
        simp [hsome]
    · rw [update_of_ne hkey, ← h.listed]
      split
      · by_cases hn : name = m.name
        · subst hn
          simp [hkey]
        · rw [update_of_ne hn]
      · rfl
  · dsimp only at hseries
    by_cases hkey : key = keyOf sdk m
    · subst hkey
      rw [update_self] at hseries
      cases hseries
      simp only [ExpoSeries.record]
      cases hold : s.seriesByKey (keyOf sdk m) with
      | none => rfl
      | some old => exact h.attributes _ _ hold
    · rw [update_of_ne hkey] at hseries
      exact h.attributes _ _ hseries
  · by_cases hkey : keyOf sdk m = key
    · subst hkey
      simp [recordSeries]
    · simp [hkey, update_of_ne (Ne.symm hkey)]

omit [DecidableEq Distinct] in
theorem ExponentialIndexed.init : ExponentialIndexed sdk
    (⟨fun _ => [], fun _ => none⟩ : ExponentialHistograms AttributeSet Distinct) :=
  ⟨fun _ => nodup_nil, by simp, nofun⟩

/-- The loop of `exponentialHistograms`, series by series. -/
theorem exponentialStep_foldl_view (settings : OTLPExponentialHistogram)
    (metrics : List (Metric KeyValue)) {s : ExponentialHistograms AttributeSet Distinct}
    (h : ExponentialIndexed sdk s) :
    ExponentialIndexed sdk (metrics.foldl (exponentialStep sdk config settings) s) ∧
      ∀ key, (metrics.foldl (exponentialStep sdk config settings) s).seriesByKey key =
        (exponentialObservations sdk config key metrics).foldl (recordSeries sdk settings)
          (s.seriesByKey key) := by
  induction metrics generalizing s with
  | nil => exact ⟨h, fun _ => rfl⟩
  | cons m metrics ih =>
    rw [foldl_cons]
    by_cases hm : m.type = .histogram ∧ config.usesExponential m.name = true
    · obtain ⟨hindexed, hview⟩ := exponentialStep_view sdk config settings h hm.1 hm.2
      obtain ⟨hindexed', hseries⟩ := ih hindexed
      refine ⟨hindexed', fun key => ?_⟩
      rw [hseries, hview, exponentialObservations, exponentialObservations, filter_cons]
      by_cases hkey : keyOf sdk m = key
      · simp [hm, hkey]
      · simp [hkey]
    · have hskip : exponentialStep sdk config settings s m = s := by
        unfold exponentialStep
        rw [if_pos]
        by_contra hno
        simp only [not_or, not_not, Bool.not_eq_true, Bool.not_eq_false'] at hno
        exact hm hno
      rw [hskip]
      obtain ⟨hindexed, hseries⟩ := ih h
      refine ⟨hindexed, fun key => ?_⟩
      have hm' : ¬ (m.type = .histogram ∧ config.usesExponential m.name = true ∧
          keyOf sdk m = key) := fun hall => hm ⟨hall.1, hall.2.1⟩
      rw [hseries, exponentialObservations, exponentialObservations, filter_cons]
      simp [hm']

/-- The data point of an exponential histogram series with its observations in order, or
none. -/
def exponentialPoint (settings : OTLPExponentialHistogram) (observations : List (Metric KeyValue)) :
    List (DataPoint AttributeSet ExpoValues) :=
  (observations.foldl (recordSeries sdk settings) none).toList.map (·.point)

variable {settings : OTLPExponentialHistogram}

/-- **The exponential histograms of a batch, series by series.** -/
theorem exponentialHistograms_view (hsettings : config.exponentialHistogram = some settings)
    (metrics : List (Metric KeyValue)) (key : HistogramKey Distinct) :
    ofSeries sdk key ((exponentialHistograms sdk config metrics key.name).getD []) =
      exponentialPoint sdk settings.resolved (exponentialObservations sdk config key metrics) := by
  obtain ⟨hindexed, hseries⟩ :=
    exponentialStep_foldl_view sdk config settings.resolved metrics (.init sdk)
  simp only [exponentialHistograms, hsettings, exponentialPoint]
  rw [← hseries key]
  generalize metrics.foldl (exponentialStep sdk config settings.resolved)
    ⟨fun _ => [], fun _ => none⟩ = s at hindexed ⊢
  have hgetD : (if s.seriesByName key.name = [] then none
      else some ((s.seriesByName key.name).filterMap fun k => (s.seriesByKey k).map (·.point))).getD
        [] = (s.seriesByName key.name).filterMap fun k => (s.seriesByKey k).map (·.point) := by
    split
    · rename_i hnil
      rw [hnil]
      rfl
    · rfl
  rw [hgetD, ofSeries, filter_filterMap]
  have hone : ∀ k ∈ s.seriesByName key.name,
      ((s.seriesByKey k).map (·.point)).filter
          (fun point => sdk.equivalent point.attributes = key.attributes) =
        if k = key then (s.seriesByKey key).map (·.point) else none := by
    intro k hk
    obtain ⟨hname, hsome⟩ := (hindexed.listed _ _).mp hk
    obtain ⟨series, hseries⟩ := Option.isSome_iff_exists.mp hsome
    have hattributes : sdk.equivalent series.point.attributes = k.attributes :=
      hindexed.attributes k series hseries
    by_cases hkey : k = key
    · subst hkey
      simp [hseries, hattributes]
    · have hne : k.attributes ≠ key.attributes := by
        intro heq
        cases k
        cases key
        simp_all
      simp [hkey, hseries, hattributes, hne]
  rw [filterMap_congr hone, filterMap_ite_eq (hindexed.nodup _)]
  split
  · cases s.seriesByKey key <;> rfl
  · rename_i hno
    rw [hindexed.listed, not_and] at hno
    have hnone : s.seriesByKey key = none := by
      have := hno rfl
      simpa using this
    rw [hnone]
    rfl

/-! ### The batch -/

/-- The observations of a series in a batch. -/
def observationsOf (key : HistogramKey Distinct) (metrics : List (Metric KeyValue)) :
    List (Metric KeyValue) :=
  metrics.filter (keyOf sdk · = key)

/-- The type of the metrics that become points of the kind. -/
def SeriesKind.type : SeriesKind → MetricType
  | .sum => .counter
  | .gauge => .gauge
  | .histogram | .exponential => .histogram

/-- The data point of an observation that is not gathered with others. -/
def plainPoint (type : MetricType) (m : Metric KeyValue) : Option (SeriesPoint AttributeSet) :=
  match type with
  | .counter => some (.sum ⟨sdk.newSet m.attributes, 0, m.timestamp, m.value, exemplarOf m⟩)
  | .gauge => some (.gauge ⟨sdk.newSet m.attributes, 0, m.timestamp, m.value, []⟩)
  | .histogram | .unknown => none

/-- The histogram data points of a name. -/
def histogramData (histograms : String → Option (List (DataPoint AttributeSet HistogramValues)))
    (exponential : String → Option (List (DataPoint AttributeSet ExpoValues))) (name : String) :
    List (SeriesPoint AttributeSet) :=
  match exponential name with
  | some points => points.map .exponential
  | none => ((histograms name).getD []).map .histogram

omit [DecidableEq Distinct] in
theorem histogramData_type
    {histograms : String → Option (List (DataPoint AttributeSet HistogramValues))}
    {exponential : String → Option (List (DataPoint AttributeSet ExpoValues))} {name : String}
    {point : SeriesPoint AttributeSet} (h : point ∈ histogramData histograms exponential name) :
    point.kind.type = .histogram := by
  unfold histogramData at h
  split at h
  · obtain ⟨p, -, rfl⟩ := mem_map.mp h
    rfl
  · obtain ⟨p, -, rfl⟩ := mem_map.mp h
    rfl

/-- The data points of a series in what one metric adds to the batch. -/
theorem convert_cons_view
    {histograms : String → Option (List (DataPoint AttributeSet HistogramValues))}
    {exponential : String → Option (List (DataPoint AttributeSet ExpoValues))}
    (key : HistogramKey Distinct) (added : List String) (m : Metric KeyValue)
    (metrics : List (Metric KeyValue)) :
    seriesPoints sdk key (convert sdk config histograms exponential added (m :: metrics)) =
      (match m.type with
        | .counter =>
          if keyOf sdk m = key then
            [.sum ⟨sdk.newSet m.attributes, 0, m.timestamp, m.value, exemplarOf m⟩] else []
        | .gauge =>
          if keyOf sdk m = key then
            [.gauge ⟨sdk.newSet m.attributes, 0, m.timestamp, m.value, []⟩] else []
        | .histogram =>
          if m.name = key.name ∧ m.name ∉ added then
            (histogramData histograms exponential key.name).filter
              fun point => sdk.equivalent point.attributes = key.attributes
          else []
        | .unknown => []) ++
      seriesPoints sdk key (convert sdk config histograms exponential
        (if m.type = .histogram then m.name :: added else added) metrics) := by
  have hkey : keyOf sdk m = key ↔
      m.name = key.name ∧ sdk.equivalent (sdk.newSet m.attributes) = key.attributes := by
    cases key
    simp [keyOf]
  rw [convert]
  cases htype : m.type with
  | counter | gauge =>
    simp only [aggregationOf, htype, hkey]
    rw [seriesPoints_cons, seriesPoints_singleton]
    by_cases hname : m.name = key.name <;>
      by_cases hd : sdk.equivalent (sdk.newSet m.attributes) = key.attributes <;>
        simp [hname, hd, Aggregation.points, SeriesPoint.attributes]
  | histogram =>
    by_cases hadded : m.name ∈ added
    · simp [aggregationOf, htype, hadded]
    · simp only [aggregationOf, htype, hadded, if_false, not_false_eq_true, and_true, if_true]
      cases hexpo : exponential m.name with
      | some points | none =>
        dsimp only
        rw [seriesPoints_cons, seriesPoints_singleton]
        congr 1
        split
        · rename_i hname
          rw [histogramData, ← hname, hexpo]
          rfl
        · rfl
  | unknown => simp [aggregationOf, htype]

section

variable {histograms : String → Option (List (DataPoint AttributeSet HistogramValues))}
variable {exponential : String → Option (List (DataPoint AttributeSet ExpoValues))}
variable {key : HistogramKey Distinct}

/-- The counter or gauge points of a series. -/
theorem convert_plain_view {type : MetricType} (htype : type ≠ .histogram) (added : List String)
    (metrics : List (Metric KeyValue)) :
    (seriesPoints sdk key (convert sdk config histograms exponential added metrics)).filter
        (·.kind.type = type) =
      ((observationsOf sdk key metrics).filter (·.type = type)).filterMap
        (plainPoint sdk type) := by
  induction metrics generalizing added with
  | nil => rfl
  | cons m metrics ih =>
    have hnone : ∀ P : SeriesPoint AttributeSet → Bool,
        ((histogramData histograms exponential key.name).filter P).filter (·.kind.type = type) =
          [] := by
      intro P
      refine filter_eq_nil_iff.mpr fun point hpoint => ?_
      rw [histogramData_type (mem_filter.mp hpoint).1]
      simpa using htype.symm
    rw [convert_cons_view, filter_append, ih, observationsOf, observationsOf, filter_cons]
    cases hm : m.type with
    | histogram =>
      dsimp only
      split <;> by_cases hkey : keyOf sdk m = key <;> simp [hkey, hm, hnone, htype.symm]
    | counter | gauge | unknown =>
      by_cases hkey : keyOf sdk m = key <;> cases type <;>
        simp [hkey, hm, filterMap_cons, plainPoint, SeriesPoint.kind, SeriesKind.type]

/-- The histogram points of a series. -/
theorem convert_histogram_view (added : List String) (metrics : List (Metric KeyValue)) :
    (seriesPoints sdk key (convert sdk config histograms exponential added metrics)).filter
        (·.kind.type = .histogram) =
      if key.name ∉ added ∧ ∃ m ∈ metrics, m.type = .histogram ∧ m.name = key.name then
        (histogramData histograms exponential key.name).filter
          fun point => sdk.equivalent point.attributes = key.attributes
      else [] := by
  induction metrics generalizing added with
  | nil => simp [convert, seriesPoints, pointsOf, allPoints]
  | cons m metrics ih =>
    have hall : ∀ P : SeriesPoint AttributeSet → Bool,
        ((histogramData histograms exponential key.name).filter P).filter
          (·.kind.type = .histogram) =
        (histogramData histograms exponential key.name).filter P := by
      intro P
      refine filter_eq_self.mpr fun point hpoint => decide_eq_true ?_
      exact histogramData_type (mem_filter.mp hpoint).1
    rw [convert_cons_view, filter_append, ih]
    cases htype : m.type with
    | histogram =>
      by_cases hname : m.name = key.name
      · by_cases hadded : key.name ∈ added
        · simp [htype, hname, hadded]
        · simpa [htype, hname, hadded] using hall _
      · simp [hname, Ne.symm hname]
    | counter | gauge =>
      dsimp only
      split <;> simp [htype, SeriesPoint.kind, SeriesKind.type]
    | unknown => simp [htype]

end

variable (key : HistogramKey Distinct) (metrics : List (Metric KeyValue))

/-- The data points of a series, made points of any kind. -/
theorem filter_map_ofSeries {V : Type} (tag : DataPoint AttributeSet V → SeriesPoint AttributeSet)
    (htag : ∀ point, (tag point).attributes = point.attributes)
    (points : List (DataPoint AttributeSet V)) :
    (points.map tag).filter (fun point => sdk.equivalent point.attributes = key.attributes) =
      (ofSeries sdk key points).map tag := by
  rw [ofSeries, filter_map]
  congr 2
  funext point
  simp [htag]

/-- The metrics that are gathered for a series are its histograms. -/
theorem filter_histograms {exponential : Bool}
    (huses : config.usesExponential key.name = exponential) :
    metrics.filter (fun m => m.type = .histogram ∧ config.usesExponential m.name = exponential ∧
      keyOf sdk m = key) = (observationsOf sdk key metrics).filter (·.type = .histogram) := by
  rw [observationsOf, filter_filter]
  refine filter_congr fun m _ => ?_
  by_cases hkey : keyOf sdk m = key
  · have hm : config.usesExponential m.name = exponential := by
      rw [← huses, ← hkey]
      rfl
    simp [hkey, hm]
  · simp [hkey]

/-- Nothing is gathered for a series that has buckets of the other kind. -/
theorem filter_histograms_eq_nil {exponential : Bool}
    (huses : config.usesExponential key.name ≠ exponential) :
    metrics.filter (fun m => m.type = .histogram ∧ config.usesExponential m.name = exponential ∧
      keyOf sdk m = key) = [] := by
  rw [filter_eq_nil_iff]
  rintro m - hm
  obtain ⟨-, huses', rfl⟩ := of_decide_eq_true hm
  exact huses huses'

/-- A name with explicit buckets has no exponential histogram. -/
theorem exponentialHistograms_eq_none {name : String}
    (hexplicit : config.usesExponential name = false) :
    exponentialHistograms sdk config metrics name = none := by
  unfold exponentialHistograms
  cases config.exponentialHistogram with
  | none => rfl
  | some settings =>
    obtain ⟨hindexed, hseries⟩ :=
      exponentialStep_foldl_view sdk config settings.resolved metrics (.init sdk)
    dsimp only
    rw [if_pos]
    rw [eq_nil_iff_forall_not_mem]
    intro k hk
    obtain ⟨hname, hsome⟩ := (hindexed.listed _ _).mp hk
    rw [hseries, exponentialObservations,
      filter_histograms_eq_nil sdk config k metrics (by simp [hname, hexplicit])] at hsome
    cases hsome

/-! ### The data points of a type -/

/-- The data points that observations of one type become. -/
def typePoints (name : String) (type : MetricType) (observations : List (Metric KeyValue)) :
    List (SeriesPoint AttributeSet) :=
  match type with
  | .histogram =>
    match config.exponentialHistogram with
    | some settings =>
      if config.usesExponential name then
        (exponentialPoint sdk settings.resolved observations).map .exponential
      else (explicitPoint sdk config observations).map .histogram
    | none => (explicitPoint sdk config observations).map .histogram
  | type => observations.filterMap (plainPoint sdk type)

omit [DecidableEq Distinct] in
/-- Observations of a histogram become exponential data points or explicit ones. -/
theorem typePoints_histogram (name : String) (observations : List (Metric KeyValue)) :
    (∃ settings, config.exponentialHistogram = some settings ∧
      config.usesExponential name = true ∧
      typePoints sdk config name .histogram observations =
        (exponentialPoint sdk settings.resolved observations).map .exponential) ∨
    (config.usesExponential name = false ∧
      typePoints sdk config name .histogram observations =
        (explicitPoint sdk config observations).map .histogram) := by
  unfold typePoints
  cases hsettings : config.exponentialHistogram with
  | none => exact .inr ⟨by simp [OTLPConfig.usesExponential, hsettings], rfl⟩
  | some settings =>
    cases huses : config.usesExponential name with
    | false => exact .inr ⟨rfl, rfl⟩
    | true => exact .inl ⟨settings, rfl, rfl, rfl⟩

omit [DecidableEq Distinct] in
theorem typePoints_nil (name : String) (type : MetricType) :
    typePoints sdk config name type ([] : List (Metric KeyValue)) = [] := by
  cases type with
  | counter | gauge | unknown => rfl
  | histogram =>
    rcases typePoints_histogram sdk config name [] with ⟨_, -, -, hpoints⟩ | ⟨-, hpoints⟩ <;>
      exact hpoints

variable {sdk config} in
omit [DecidableEq Distinct] in
/-- They are points of the type. -/
theorem typePoints_type {name : String} {type : MetricType} {observations : List (Metric KeyValue)}
    {point : SeriesPoint AttributeSet} (h : point ∈ typePoints sdk config name type observations) :
    point.kind.type = type := by
  cases type with
  | counter | gauge | unknown =>
    obtain ⟨m, -, hm⟩ := mem_filterMap.mp h
    cases hm <;> rfl
  | histogram =>
    rcases typePoints_histogram sdk config name observations with
      ⟨settings, -, -, hpoints⟩ | ⟨-, hpoints⟩
    · rw [hpoints] at h
      obtain ⟨p, -, rfl⟩ := mem_map.mp h
      rfl
    · rw [hpoints] at h
      obtain ⟨p, -, rfl⟩ := mem_map.mp h
      rfl

/-- The histogram data points of a series are those of its histograms. -/
theorem histogramData_view :
    (histogramData (explicitHistograms sdk config metrics)
      (exponentialHistograms sdk config metrics)
        key.name).filter (fun point => sdk.equivalent point.attributes = key.attributes) =
      typePoints sdk config key.name .histogram
        ((observationsOf sdk key metrics).filter (·.type = .histogram)) := by
  have hexplicit := explicitHistograms_view sdk config metrics key
  rw [histogramData]
  rcases typePoints_histogram sdk config key.name
      ((observationsOf sdk key metrics).filter (·.type = .histogram)) with
    ⟨settings, hsettings, huses, hpoints⟩ | ⟨huses, hpoints⟩
  · have hview := exponentialHistograms_view sdk config hsettings metrics key
    rw [exponentialObservations, filter_histograms sdk config key metrics huses] at hview
    rw [hpoints]
    cases hexpo : exponentialHistograms sdk config metrics key.name with
    | some points =>
      rw [hexpo] at hview
      dsimp only
      rw [filter_map_ofSeries sdk key .exponential fun _ => rfl, ← hview]
      rfl
    | none =>
      rw [explicitObservations,
        filter_histograms_eq_nil sdk config key metrics (by simp [huses])] at hexplicit
      rw [hexpo] at hview
      dsimp only
      rw [filter_map_ofSeries sdk key .histogram fun _ => rfl, hexplicit, ← hview]
      rfl
  · rw [explicitObservations, filter_histograms sdk config key metrics huses] at hexplicit
    rw [hpoints, exponentialHistograms_eq_none sdk config metrics huses]
    dsimp only
    rw [filter_map_ofSeries sdk key .histogram fun _ => rfl, hexplicit]

variable {key metrics}

/-- The data points of a series are those in the data of the batch. -/
theorem map_incoming :
    (incoming sdk config key metrics).map (·.2) =
      seriesPoints sdk key (toResourceMetrics sdk config metrics) := rfl

/-- **The data points of a series that are of a type** are those that its observations of the
type become. -/
theorem incoming_type (type : MetricType) :
    ((incoming sdk config key metrics).map (·.2)).filter (·.kind.type = type) =
      typePoints sdk config key.name type
        ((observationsOf sdk key metrics).filter (·.type = type)) := by
  rw [map_incoming, toResourceMetrics]
  cases type with
  | counter | gauge | unknown => exact convert_plain_view sdk config (by simp) [] metrics
  | histogram =>
    rw [convert_histogram_view, histogramData_view]
    split
    · rfl
    · rename_i hno
      have hnil : (observationsOf sdk key metrics).filter (·.type = .histogram) = [] := by
        rw [observationsOf, filter_filter, filter_eq_nil_iff]
        intro m hm hall
        obtain ⟨htype, hkey⟩ : m.type = .histogram ∧ keyOf sdk m = key := by simpa using hall
        exact hno ⟨not_mem_nil, m, hm, htype, congrArg HistogramKey.name hkey⟩
      rw [hnil, typePoints_nil]

variable {sdk config} in
/-- A data point comes from an observation of its type, a histogram in explicit buckets from one
whose name has them. -/
theorem exists_observation {point : SeriesPoint AttributeSet}
    (h : point ∈ (incoming sdk config key metrics).map (·.2)) :
    (∃ m ∈ observationsOf sdk key metrics, m.type = point.kind.type) ∧
      (point.kind = .histogram → config.usesExponential key.name = false) := by
  have hmem : point ∈ ((incoming sdk config key metrics).map (·.2)).filter
      (·.kind.type = point.kind.type) := mem_filter.mpr ⟨h, decide_eq_true rfl⟩
  rw [incoming_type] at hmem
  generalize hobservations : (observationsOf sdk key metrics).filter
    (·.type = point.kind.type) = observations at hmem
  constructor
  · have hne : observations ≠ [] := by
      rintro rfl
      rw [typePoints_nil] at hmem
      cases hmem
    obtain ⟨m, hm⟩ := exists_mem_of_ne_nil _ hne
    obtain ⟨hm, htype⟩ := mem_filter.mp (hobservations ▸ hm)
    exact ⟨m, hm, of_decide_eq_true htype⟩
  · intro hkind
    rw [hkind] at hmem
    rcases typePoints_histogram sdk config key.name observations with
      ⟨settings, -, -, hpoints⟩ | ⟨huses, -⟩
    · obtain ⟨p, -, rfl⟩ := mem_map.mp (hpoints ▸ hmem)
      cases hkind
    · exact huses

/-! ### A series of one type -/

variable (key metrics) in
/-- The metrics of the series are all of the type. -/
def Typed (type : MetricType) : Prop := ∀ m ∈ metrics, keyOf sdk m = key → m.type = type

variable {type : MetricType}

/-- **The data points of a series of one type.** -/
theorem incoming_typed (htyped : Typed sdk key metrics type) :
    (incoming sdk config key metrics).map (·.2) =
      typePoints sdk config key.name type (observationsOf sdk key metrics) := by
  have hobservations : ∀ m ∈ observationsOf sdk key metrics, m.type = type := by
    intro m hm
    obtain ⟨hm, hkey⟩ := mem_filter.mp hm
    exact htyped m hm (of_decide_eq_true hkey)
  have hpoints : ∀ point ∈ (incoming sdk config key metrics).map (·.2),
      point.kind.type = type := by
    intro point hpoint
    obtain ⟨m, hm, hkind⟩ := (exists_observation hpoint).1
    exact hkind.symm.trans (hobservations m hm)
  have hview : ((incoming sdk config key metrics).map (·.2)).filter (·.kind.type = type) = _ :=
    incoming_type sdk config type
  rwa [filter_eq_self.mpr fun point hpoint => decide_eq_true (hpoints point hpoint),
    filter_eq_self.mpr fun m hm => decide_eq_true (hobservations m hm)] at hview

end ConvoyStats.Otlp
