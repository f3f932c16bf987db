import Mathlib.Data.List.Sort
import ConvoyStats.Otlp.Metricdata

/-!
# From metrics to OTLP data

`toResourceMetricsWithConfig` and what it is made of: `explicitHistograms`,
`exponentialHistograms` and the exemplars of `exemplar.go`.  Observations of one batch
become one sum or gauge data point each, while those of a histogram are gathered by name
and attribute set first.

Maps that are only looked up are functions.  A series of `seriesByName` is the one that
`seriesByKey` holds under its key.
-/

namespace ConvoyStats.Otlp

open Models

variable {KeyValue AttributeSet Distinct : Type} [DecidableEq Distinct]
variable (sdk : Sdk KeyValue AttributeSet Distinct) (config : OTLPConfig)

/-- The key of the series of a metric. -/
def keyOf (m : Metric KeyValue) : HistogramKey Distinct :=
  ⟨m.name, sdk.equivalent (sdk.newSet m.attributes)⟩

/-! ### Exemplars -/

/-- `exemplarOf`. -/
def exemplarOf (m : Metric KeyValue) : List Exemplar :=
  if m.hasExemplar then [⟨m.timestamp, m.value, m.traceID, m.spanID⟩] else []

/-- The exemplars of a histogram point by bucket; a slot whose trace id is not set is
`none`. -/
abbrev BucketExemplars := List (Option Exemplar)

/-- `bucketExemplars.offer`, on the slots of one key. -/
def offerBucket (slots : Option BucketExemplars) (bucket buckets : ℕ) (m : Metric KeyValue) :
    Option BucketExemplars :=
  match exemplarOf m with
  | [] => slots
  | exemplar :: _ =>
    let slots := slots.getD (List.replicate buckets none)
    some (slots.modify bucket fun slot =>
      match slot with
      | none => some exemplar
      | some held => if m.timestamp < held.time then some held else some exemplar)

/-- `newestExemplars`. -/
structure NewestExemplars where
  limit : ℕ
  kept : List Exemplar

namespace NewestExemplars

/-- The position of the oldest exemplar kept, the first one of several. -/
def oldest (kept : List Exemplar) : ℕ :=
  (List.range kept.length).foldl
    (fun oldest i =>
      if (kept[i]?.map (·.time)).getD 0 < (kept[oldest]?.map (·.time)).getD 0 then i else oldest) 0

/-- `newestExemplars.offer`. -/
def offer (e : NewestExemplars) (m : Metric KeyValue) : NewestExemplars :=
  match exemplarOf m with
  | [] => e
  | exemplar :: _ =>
    if e.kept.length < e.limit then { e with kept := e.kept ++ [exemplar] }
    else
      { e with
        kept := e.kept.modify (oldest e.kept) fun held =>
          if m.timestamp < held.time then held else exemplar }

/-- `newestExemplars.sorted`: oldest first, stable. -/
def sorted (e : NewestExemplars) : List Exemplar := e.kept.insertionSort (·.time ≤ ·.time)

end NewestExemplars

/-! ### Explicit histograms -/

/-- The maps of `explicitHistograms`; a histogram is the list of its data points. -/
structure ExplicitHistograms (AttributeSet Distinct : Type) where
  histograms : String → Option (List (DataPoint AttributeSet HistogramValues))
  histogramIndexes : HistogramKey Distinct → Option ℕ
  exemplars : HistogramKey Distinct → Option BucketExemplars

/-- The data point a series starts with. -/
def newHistogramPoint (m : Metric KeyValue) : DataPoint AttributeSet HistogramValues where
  attributes := sdk.newSet m.attributes
  startTime := 0
  time := m.timestamp
  value :=
    { count := 0
      bounds := config.bounds m.name
      bucketCounts := List.replicate ((config.bounds m.name).length + 1) 0
      min := some m.value
      max := some m.value
      sum := .finite 0 }
  exemplars := []

/-- One more observation in a histogram. -/
def HistogramValues.observe (bounds : List ℚ) (h : HistogramValues) (v : Float64) :
    HistogramValues where
  count := h.count + 1
  bounds := h.bounds
  bucketCounts := h.bucketCounts.modify (bucketOf bounds v) (· + 1)
  min := if v < h.min.getD (.finite 0) then some v else h.min
  max := if h.max.getD (.finite 0) < v then some v else h.max
  sum := h.sum + v

/-- One more observation in a data point. -/
def observeHistogram (m : Metric KeyValue) (point : DataPoint AttributeSet HistogramValues) :
    DataPoint AttributeSet HistogramValues :=
  { point with
    value := point.value.observe (config.bounds m.name) m.value
    time := if point.time < m.timestamp then m.timestamp else point.time }

/-- One round of the loop of `explicitHistograms`. -/
def explicitStep (s : ExplicitHistograms AttributeSet Distinct) (m : Metric KeyValue) :
    ExplicitHistograms AttributeSet Distinct :=
  if m.type ≠ .histogram ∨ config.usesExponential m.name then s
  else
    let key := keyOf sdk m
    let points := (s.histograms m.name).getD []
    let index := (s.histogramIndexes key).getD points.length
    let points :=
      if (s.histogramIndexes key).isNone then points ++ [newHistogramPoint sdk config m] else points
    { histograms := Function.update s.histograms m.name
        (some (points.modify index (observeHistogram config m)))
      histogramIndexes := Function.update s.histogramIndexes key (some index)
      exemplars := Function.update s.exemplars key
        (offerBucket (s.exemplars key) (bucketOf (config.bounds m.name) m.value)
          ((config.bounds m.name).length + 1) m) }

/-- `bucketExemplars.attach`, on the data points of one name.  A key with exemplars has one
data point, the one with that key. -/
def attach (name : String) (exemplars : HistogramKey Distinct → Option BucketExemplars)
    (points : List (DataPoint AttributeSet HistogramValues)) :
    List (DataPoint AttributeSet HistogramValues) :=
  points.map fun point =>
    { point with
      exemplars := point.exemplars ++
        ((exemplars ⟨name, sdk.equivalent point.attributes⟩).getD []).filterMap id }

/-- `explicitHistograms`. -/
def explicitHistograms (metrics : List (Metric KeyValue)) :
    String → Option (List (DataPoint AttributeSet HistogramValues)) :=
  let s := metrics.foldl (explicitStep sdk config) ⟨fun _ => none, fun _ => none, fun _ => none⟩
  fun name => (s.histograms name).map (attach sdk name s.exemplars)

/-! ### Exponential histograms -/

/-- `expoSeries`. -/
structure ExpoSeries (AttributeSet : Type) where
  attributes : AttributeSet
  time : Time
  histogram : ExpoHistogram
  exemplars : NewestExemplars

/-- `newExpoSeries`. -/
def newExpoSeries (attributes : AttributeSet) (maxSize maxScale : ℤ) : ExpoSeries AttributeSet where
  attributes := attributes
  time := 0
  histogram := newExpoHistogram maxSize maxScale
  exemplars := ⟨(min (newExpoHistogram maxSize maxScale).maxSize 20).toNat, []⟩

/-- `record`: values that are not finite have no bucket. -/
def ExpoHistogram.recordValue (h : ExpoHistogram) : Float64 → ExpoHistogram
  | .finite v => h.record (expoIndex sdk.log2) v
  | _ => h

/-- `expoSeries.record`. -/
def ExpoSeries.record (s : ExpoSeries AttributeSet) (m : Metric KeyValue) :
    ExpoSeries AttributeSet where
  attributes := s.attributes
  time := if s.time < m.timestamp then m.timestamp else s.time
  histogram := s.histogram.recordValue sdk m.value
  exemplars := s.exemplars.offer m

/-- `expoSeries.point`. -/
def ExpoSeries.point (s : ExpoSeries AttributeSet) : DataPoint AttributeSet ExpoValues where
  attributes := s.attributes
  startTime := 0
  time := s.time
  value := s.histogram.snapshot
  exemplars := s.exemplars.sorted

/-- The maps of `exponentialHistograms`. -/
structure ExponentialHistograms (AttributeSet Distinct : Type) where
  seriesByName : String → List (HistogramKey Distinct)
  seriesByKey : HistogramKey Distinct → Option (ExpoSeries AttributeSet)

/-- One round of the loop of `exponentialHistograms`. -/
def exponentialStep (settings : OTLPExponentialHistogram)
    (s : ExponentialHistograms AttributeSet Distinct) (m : Metric KeyValue) :
    ExponentialHistograms AttributeSet Distinct :=
  if m.type ≠ .histogram ∨ !config.usesExponential m.name then s
  else
    let key := keyOf sdk m
    let series := (s.seriesByKey key).getD
      (newExpoSeries (sdk.newSet m.attributes) settings.maxSize settings.maxScale)
    { seriesByName :=
        if (s.seriesByKey key).isNone then
          Function.update s.seriesByName m.name (s.seriesByName m.name ++ [key])
        else s.seriesByName
      seriesByKey := Function.update s.seriesByKey key (some (series.record sdk m)) }

/-- `exponentialHistograms`; a name is in the map where it has a series. -/
def exponentialHistograms (metrics : List (Metric KeyValue)) :
    String → Option (List (DataPoint AttributeSet ExpoValues)) :=
  match config.exponentialHistogram with
  | none => fun _ => none
  | some h =>
    let s := metrics.foldl (exponentialStep sdk config h.resolved) ⟨fun _ => [], fun _ => none⟩
    fun name =>
      if s.seriesByName name = [] then none
      else some ((s.seriesByName name).filterMap fun key => (s.seriesByKey key).map (·.point))

/-! ### The batch -/

/-- The data of one metric, or `none` where it adds nothing. -/
def aggregationOf (histograms : String → Option (List (DataPoint AttributeSet HistogramValues)))
    (exponential : String → Option (List (DataPoint AttributeSet ExpoValues)))
    (addedHistograms : List String) (m : Metric KeyValue) : Option (Aggregation AttributeSet) :=
  match m.type with
  | .counter =>
    some (.sum config.metricTemporality true
      [⟨sdk.newSet m.attributes, 0, m.timestamp, m.value, exemplarOf m⟩])
  | .gauge => some (.gauge [⟨sdk.newSet m.attributes, 0, m.timestamp, m.value, []⟩])
  | .histogram =>
    if m.name ∈ addedHistograms then none
    else
      match exponential m.name with
      | some points => some (.exponentialHistogram config.metricTemporality points)
      | none => some (.histogram config.metricTemporality ((histograms m.name).getD []))
  | .unknown => none

/-- The loop of `toResourceMetricsWithConfig`. -/
def convert (histograms : String → Option (List (DataPoint AttributeSet HistogramValues)))
    (exponential : String → Option (List (DataPoint AttributeSet ExpoValues))) :
    List String → List (Metric KeyValue) → List (Metrics AttributeSet)
  | _, [] => []
  | addedHistograms, m :: metrics =>
    let added := if m.type = .histogram then m.name :: addedHistograms else addedHistograms
    match aggregationOf sdk config histograms exponential addedHistograms m with
    | some data => ⟨m.name, m.description, m.unit, data⟩ ::
        convert histograms exponential added metrics
    | none => convert histograms exponential added metrics

/-- `toResourceMetricsWithConfig`: the metrics of the only scope. -/
def toResourceMetrics (metrics : List (Metric KeyValue)) : List (Metrics AttributeSet) :=
  convert sdk config (explicitHistograms sdk config metrics)
    (exponentialHistograms sdk config metrics) [] metrics

end ConvoyStats.Otlp
