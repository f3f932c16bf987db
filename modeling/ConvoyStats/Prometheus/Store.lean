import ConvoyStats.Library.AssocLists
import ConvoyStats.Library.BinarySearch
import ConvoyStats.Library.TransitionSystem
import ConvoyStats.Prometheus.Registry

/-!
# The pull store

`Handler` of `exporters/prometheus/store.go`.  `Export` and a scrape each hold `mu` from after
they have read the clock to the end, so each is one step on the store; what they read of the
clock is an argument.  The order in which Go goes over a map is that of the entries here, and
nothing depends on it.

`attribute.NewSet` and the text of an attribute value are the SDK's.
-/

namespace ConvoyStats.Prometheus

open Models

/-! ### The store -/

/-- `storeSeries`. -/
structure StoreSeries where
  labels : List Label
  value : Float64
  gaugeTime : Time
  counts : List ℕ
  sum : Float64
  updated : Time
  deriving DecidableEq

/-- `storeFamily`. -/
structure StoreFamily where
  typ : MetricType
  bounds : List ℚ
  series : AList fun _ : Bytes => StoreSeries

/-- The fields of a `Handler` that are set before its first use, and what it calls of the
SDK. -/
structure HandlerConfig (Other : Type) where
  trimPrefix : Bytes
  metricTimeout : ℤ
  /-- `Buckets`, which may be nil. -/
  buckets : Option (Bytes → List Float64)
  /-- `attribute.NewSet` and `ToSlice`. -/
  newSet : List (KeyValue Other) → List (KeyValue Other)
  /-- `Value.String`. -/
  valueString : Value Other → Bytes

/-- The fields of a `Handler` that `mu` guards. -/
structure Handler where
  registry : FamilyRegistry
  families : AList fun _ : Bytes => StoreFamily

/-- The zero value. -/
def Handler.zero : Handler := ⟨newFamilyRegistry, ∅⟩

/-- `DefaultMetricTimeout`. -/
def defaultMetricTimeout : ℤ := 120 * 10 ^ 9

section

variable {Other : Type} (cfg : HandlerConfig Other)

/-- `timeout`. -/
def HandlerConfig.timeout : ℤ :=
  if 0 < cfg.metricTimeout then cfg.metricTimeout else defaultMetricTimeout

/-- `bucketsFor`. -/
def HandlerConfig.bucketsFor (name : Bytes) : List Float64 :=
  match cfg.buckets with
  | some buckets =>
    let b := buckets name
    if b ≠ [] then b else defaultHistogramBuckets.map .finite
  | none => defaultHistogramBuckets.map .finite

end

/-! ### Observations -/

/-- The errors of `ValidateHistogramBuckets`. -/
inductive BucketsError
  | empty
  | notIncreasing
  deriving DecidableEq

/-- The loop of `ValidateHistogramBuckets`, after the bound `previous`. -/
def increasingBounds : (previous : Option ℚ) → List Float64 → Option (List ℚ)
  | _, [] => some []
  | previous, .finite b :: rest =>
    if previous.all (· < b) then (increasingBounds (some b) rest).map (b :: ·) else none
  | _, _ :: _ => none

/-- `ValidateHistogramBuckets`: the bounds, which are finite then. -/
def validateHistogramBuckets (bounds : List Float64) : Except BucketsError (List ℚ) :=
  if bounds = [] then .error .empty
  else
    match increasingBounds none bounds with
    | some bounds => .ok bounds
    | none => .error .notIncreasing

/-- The errors of `observe`; each names the metric. -/
inductive ObserveError
  | unsupportedType (name : Bytes) (typ : MetricType)
  | observedNaN (name : Bytes)
  | labels (collision : LabelCollision)
  | family (collision : FamilyCollision)
  | buckets (name : Bytes) (err : BucketsError)
  deriving DecidableEq

/-- `strings.TrimPrefix`. -/
def trimStart (name trim : Bytes) : Bytes :=
  if trim.isPrefixOf name then name.drop trim.length else name

/-- `sort.SearchFloat64s`. -/
def searchFloat64s (bounds : List ℚ) (v : Float64) : ℕ :=
  BinarySearch.search bounds.length fun i => decide (v ≤ .finite (bounds.getD i 0))

/-- `labelsKey`. -/
def labelsKey (labels : List Label) : Bytes :=
  labels.flatMap fun l =>
    decimal l.name.length ++ 58 :: l.name ++ 61 :: decimal l.value.length ++ 58 :: l.value ++ [59]

section

variable {Other : Type}

/-- The series of a first observation, before it is applied. -/
def newSeries (fam : StoreFamily) (labels : List Label) (m : TextMetric Other) : StoreSeries where
  labels := labels
  value := if m.type = .gauge then m.value else 0
  gaugeTime := if m.type = .gauge then m.timestamp else 0
  counts := if m.type = .histogram then List.replicate (fam.bounds.length + 1) 0 else []
  sum := 0
  updated := 0

/-- An observation is applied to its series. -/
def StoreSeries.apply (s : StoreSeries) (bounds : List ℚ) (m : TextMetric Other) (now : Time) :
    StoreSeries :=
  let s := { s with updated := now }
  match m.type with
  | .counter => { s with value := s.value + m.value }
  | .gauge =>
    if s.gaugeTime < m.timestamp then { s with value := m.value, gaugeTime := m.timestamp }
    else s
  | .histogram =>
    { s with
      counts := s.counts.modify (searchFloat64s bounds m.value) (· + 1)
      sum := s.sum + m.value }
  | .unknown => s

variable (cfg : HandlerConfig Other)

/-- `family`: the family of the store, or the one it makes. -/
def Handler.family (h : Handler) (famName : Bytes) (m : TextMetric Other) :
    Except ObserveError StoreFamily :=
  match h.families.lookup famName with
  | some fam => .ok fam
  | none =>
    if m.type = .histogram then
      match validateHistogramBuckets (cfg.bucketsFor m.name) with
      | .ok bounds => .ok ⟨m.type, bounds, ∅⟩
      | .error err => .error (.buckets m.name err)
    else .ok ⟨m.type, [], ∅⟩

/-- The exposed labels of a metric. -/
def HandlerConfig.labelsOf (m : TextMetric Other) : Except LabelCollision (List Label) :=
  exposedLabels cfg.valueString m.name m.type (cfg.newSet m.attributes)

/-- `observe` after the family name has been registered. -/
def Handler.applyTo (h : Handler) (famName : Bytes) (labels : List Label) (m : TextMetric Other)
    (now : Time) : Handler × Option ObserveError :=
  match h.family cfg famName m with
  | .error err => (h, some err)
  | .ok fam =>
    let key := labelsKey labels
    let s := (fam.series.lookup key).getD (newSeries fam labels m)
    let fam := { fam with series := fam.series.insert key (s.apply fam.bounds m now) }
    ({ h with families := h.families.insert famName fam }, none)

/-- `observe`. -/
def Handler.observe (h : Handler) (m : TextMetric Other) (now : Time) :
    Handler × Option ObserveError :=
  let name := trimStart m.name cfg.trimPrefix
  if m.type = .unknown then (h, some (.unsupportedType m.name m.type))
  else if m.type = .histogram ∧ m.value = .nan then (h, some (.observedNaN m.name))
  else
    match cfg.labelsOf m with
    | .error collision => (h, some (.labels collision))
    | .ok labels =>
      match h.registry.register name m.type with
      | (registry, .error collision) => ({ h with registry := registry }, some (.family collision))
      | (registry, .ok famName) =>
        { h with registry := registry }.applyTo cfg famName labels m now

/-- The loop of `Export`: the metrics that are not nil are applied in order. -/
def Handler.observeAll (h : Handler) (metrics : List (TextMetric Other)) (now : Time) :
    Handler × List ObserveError :=
  match metrics with
  | [] => (h, [])
  | m :: rest =>
    let observed := h.observe cfg m now
    let after := observed.1.observeAll rest now
    (after.1, observed.2.toList ++ after.2)

/-- `Export`, after it has read the clock. -/
def Handler.export (h : Handler) (metrics : List (Option (TextMetric Other))) (now : Time) :
    Handler × List ObserveError :=
  h.observeAll cfg (metrics.filterMap id) now

/-! ### Scrapes -/

/-- What a scrape exposes of a series. -/
def StoreSeries.expose (s : StoreSeries) (fam : StoreFamily) : Series where
  labels := s.labels
  value := s.value
  histogram := if fam.typ = .histogram then some ⟨fam.bounds, s.counts, s.sum⟩ else none

/-- The series of a family that a scrape with this cutoff keeps. -/
def StoreFamily.live (fam : StoreFamily) (cutoff : Time) : AList fun _ : Bytes => StoreSeries :=
  fam.series.filterValues fun s => !decide (s.updated < cutoff)

/-- What a scrape exposes of a family. -/
def StoreFamily.expose (fam : StoreFamily) (name : Bytes) (cutoff : Time) : Family where
  name := name
  type := fam.typ
  series := (fam.live cutoff).entries.map fun e => e.2.expose fam

/-- `snapshot`, after it has read the clock. -/
def Handler.snapshot (h : Handler) (clock : Time) : Handler × List Family :=
  let cutoff := clock - cfg.timeout
  ({ h with families := h.families.mapValues fun fam => { fam with series := fam.live cutoff } },
    (h.families.entries.map fun e => e.2.expose e.1 cutoff).filter fun f => f.series ≠ [])

/-! ### Runs -/

/-- The steps on a store, each with what it read of the clock. -/
inductive StoreLabel (Other : Type)
  | export (metrics : List (Option (TextMetric Other))) (now : Time)
  | scrape (clock : Time)

/-- The store and the calls on it. -/
def store : TransitionSystem Handler (StoreLabel Other) where
  init := .zero
  step h
    | .export metrics now => some (h.export cfg metrics now).1
    | .scrape clock => some (h.snapshot cfg clock).1

end

end ConvoyStats.Prometheus
