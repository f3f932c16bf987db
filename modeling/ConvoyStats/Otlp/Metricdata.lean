import ConvoyStats.Models.Metric
import ConvoyStats.Otlp.Exponential

/-!
# OTLP data

The part of the SDK's `metricdata` that the exporter builds.  The SDK has one data point
type for numbers and one for each kind of histogram; they differ in what the point says
about its observations, which is a parameter here.

Attribute sets are the SDK's: `newSet` makes one of a list of attributes and `equivalent`
gives its comparable form, `attribute.Distinct`.
-/

namespace ConvoyStats.Otlp

open Models

/-- What the exporter takes from the SDK and from the standard library. -/
structure Sdk (KeyValue AttributeSet Distinct : Type) where
  /-- `attribute.NewSet`. -/
  newSet : List KeyValue → AttributeSet
  /-- `Set.Equivalent`, the form of a set that is used as a map key.  Results about the series
  of an attribute set assume it injective, i.e. that different sets have different keys.  That
  is an idealisation: the SDK is free to make the key a hash, and two sets whose hashes
  collide then share one series. -/
  equivalent : AttributeSet → Distinct
  /-- `math.Log2`. -/
  log2 : ℚ → ℚ

/-- `metricdata.Temporality`. -/
inductive Temporality
  | cumulative
  | delta
  deriving DecidableEq

/-- `metricdata.Exemplar`. -/
structure Exemplar where
  time : Time
  value : Float64
  traceID : BitVec 128
  spanID : BitVec 64
  deriving DecidableEq

/-- `metricdata.DataPoint`, `HistogramDataPoint` and `ExponentialHistogramDataPoint`,
according to the type of `value`.  The zero time stands for a field that is not set. -/
structure DataPoint (AttributeSet V : Type) where
  attributes : AttributeSet
  startTime : Time
  time : Time
  value : V
  exemplars : List Exemplar
  deriving DecidableEq

/-- What an explicit histogram point says about its observations. -/
structure HistogramValues where
  count : ℕ
  bounds : List ℚ
  bucketCounts : List ℕ
  min : Option Float64
  max : Option Float64
  sum : Float64
  deriving DecidableEq

/-- The zero value. -/
def HistogramValues.zero : HistogramValues := ⟨0, [], [], none, none, .finite 0⟩

section

variable (AttributeSet : Type)

/-- `metricdata.Aggregation`. -/
inductive Aggregation
  | sum (temporality : Temporality) (isMonotonic : Bool)
      (dataPoints : List (DataPoint AttributeSet Float64))
  | gauge (dataPoints : List (DataPoint AttributeSet Float64))
  | histogram (temporality : Temporality)
      (dataPoints : List (DataPoint AttributeSet HistogramValues))
  | exponentialHistogram (temporality : Temporality)
      (dataPoints : List (DataPoint AttributeSet ExpoValues))
  deriving DecidableEq

/-- `metricdata.Metrics`. -/
structure Metrics where
  name : String
  description : String
  unit : String
  data : Aggregation AttributeSet
  deriving DecidableEq

end

/-- `histogramKey`. -/
structure HistogramKey (Distinct : Type) where
  name : String
  attributes : Distinct
  deriving DecidableEq

/-- `OTLPExponentialHistogram`. -/
structure OTLPExponentialHistogram where
  maxSize : ℤ
  maxScale : ℤ

/-- `Resolved`. -/
def OTLPExponentialHistogram.resolved (h : OTLPExponentialHistogram) :
    OTLPExponentialHistogram where
  maxSize := if h.maxSize = 0 then 160 else h.maxSize
  maxScale := if h.maxScale = 0 then 20 else h.maxScale

/-- `Validate` accepts. -/
def OTLPExponentialHistogram.Valid (h : OTLPExponentialHistogram) : Prop :=
  2 ≤ h.resolved.maxSize ∧ -10 ≤ h.resolved.maxScale ∧ h.resolved.maxScale ≤ 20

/-- The part of `OTLPConfig` that the data depends on, as `Validate` accepts it.  A name
without bounds of its own has none in `bucketsByName`. -/
structure OTLPConfig where
  enabled : Bool
  /-- `Delta`; every other accepted value is cumulative. -/
  delta : Bool
  histogramBuckets : List ℚ
  bucketsByName : String → List ℚ
  exponentialHistogram : Option OTLPExponentialHistogram
  valid_buckets : histogramBuckets = [] ∨ ValidBuckets histogramBuckets
  valid_named : ∀ name, bucketsByName name = [] ∨ ValidBuckets (bucketsByName name)
  valid_exponential : ∀ h ∈ exponentialHistogram, h.Valid

namespace OTLPConfig

variable (config : OTLPConfig)

/-- `metricTemporality` of the configured temporality. -/
def metricTemporality : Temporality := if config.delta then .delta else .cumulative

/-- `usesExponential`. -/
def usesExponential (name : String) : Bool :=
  config.exponentialHistogram.isSome && (namedBuckets config.bucketsByName name).isNone

/-- The bounds of an explicit histogram. -/
def bounds (name : String) : List ℚ :=
  bucketsFor config.bucketsByName config.histogramBuckets name

end OTLPConfig

end ConvoyStats.Otlp
