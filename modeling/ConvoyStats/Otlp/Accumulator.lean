import Mathlib.Data.List.AList
import ConvoyStats.Library.Transducer
import ConvoyStats.Otlp.Metricdata

/-!
# The accumulator

`accumulate` of `accumulator.go` and `unobserved` of `reexport.go`: the data of one export
on top of the state of every series seen so far.  A cumulative export carries running
totals and repeats the series it has no observation of; a delta export carries the
interval since the previous point of the series.

All kinds of series share one `SeriesState` and one key.  An index out of range in
`addHistogram` is `none`.  The order in which Go ranges over the series is a parameter.
-/

namespace ConvoyStats.Otlp

open Models

/-! ### The state of a series -/

/-- `seriesKind`. -/
inductive SeriesKind
  | sum
  | histogram
  | gauge
  | exponential
  deriving DecidableEq

/-- `seriesMeta`. -/
structure SeriesMeta where
  name : String
  description : String
  unit : String
  deriving DecidableEq

/-- `seriesState`. -/
structure SeriesState (AttributeSet : Type) where
  start : Time
  lastTime : Time
  sum : Float64
  histogram : DataPoint AttributeSet HistogramValues
  exponential : DataPoint AttributeSet ExpoValues
  seriesMeta : SeriesMeta
  attributes : AttributeSet
  kind : Option SeriesKind
  gauge : Float64
  gaugeTime : Time

/-- A data point of any kind. -/
inductive SeriesPoint (AttributeSet : Type)
  | sum (point : DataPoint AttributeSet Float64)
  | gauge (point : DataPoint AttributeSet Float64)
  | histogram (point : DataPoint AttributeSet HistogramValues)
  | exponential (point : DataPoint AttributeSet ExpoValues)
  deriving DecidableEq

section

variable {AttributeSet : Type}

/-- `metaOf`. -/
def metaOf (m : Metrics AttributeSet) : SeriesMeta := ⟨m.name, m.description, m.unit⟩

/-- The zero value. -/
def SeriesState.zero [Inhabited AttributeSet] : SeriesState AttributeSet where
  start := 0
  lastTime := 0
  sum := .finite 0
  histogram := ⟨default, 0, 0, .zero, []⟩
  exponential := ⟨default, 0, 0, .zero, []⟩
  seriesMeta := ⟨"", "", ""⟩
  attributes := default
  kind := none
  gauge := .finite 0
  gaugeTime := 0

/-- `minPointSpacing`: a millisecond. -/
def minPointSpacing : Time := 1000000

/-- `pointTime`. -/
def SeriesState.pointTime (s : SeriesState AttributeSet) (observed exported : Time)
    (cumulative : Bool) : SeriesState AttributeSet × Time :=
  let floor := if cumulative && exported ≠ 0 then exported + minPointSpacing else exported
  let observed := if observed < floor then floor else observed
  let observed := if observed < s.lastTime then s.lastTime else observed
  ({ s with lastTime := observed }, observed)

/-- `times`: the state, the `StartTime` and the `Time`. -/
def SeriesState.times (s : SeriesState AttributeSet) (observed exported : Time)
    (cumulative : Bool) : SeriesState AttributeSet × Time × Time :=
  let start := if !cumulative && s.lastTime ≠ 0 then s.lastTime else s.start
  let (s, time) := s.pointTime observed exported cumulative
  (s, start, time)

/-! ### The points of one series -/

/-- `addHistogram`. -/
def addHistogram (point previous : HistogramValues) : Option HistogramValues :=
  if point.bucketCounts.length ≤ previous.bucketCounts.length then
    some
      { count := point.count + previous.count
        bounds := point.bounds
        bucketCounts := point.bucketCounts.zipWith (· + ·) previous.bucketCounts
        min :=
          match previous.min with
          | some old => if old < point.min.getD (.finite 0) then some old else point.min
          | none => point.min
        max :=
          match previous.max with
          | some old => if point.max.getD (.finite 0) < old then some old else point.max
          | none => point.max
        sum := point.sum + previous.sum }
  else none

/-- `addExponential`. -/
def addExponential (point previous : DataPoint AttributeSet ExpoValues) (maxSize : ℤ) :
    DataPoint AttributeSet ExpoValues :=
  { point with
    value := (mergeExpo (expoHistogramFromPoint previous.value maxSize)
      (expoHistogramFromPoint point.value maxSize)).snapshot }

/-- `copyExponential`. -/
def copyExponential (point : DataPoint AttributeSet ExpoValues) :
    DataPoint AttributeSet ExpoValues :=
  { point with exemplars := [] }

namespace SeriesState

variable [Inhabited AttributeSet] (s : SeriesState AttributeSet) (cumulative : Bool)
variable (exported : Time)

/-- `sumPoint`, on the state of its series. -/
def sumPoint (point : DataPoint AttributeSet Float64) :
    SeriesState AttributeSet × DataPoint AttributeSet Float64 :=
  let s := { s with sum := s.sum + point.value }
  let (s, start, time) := s.times point.time exported cumulative
  let point := { point with startTime := start, time := time }
  if cumulative then (s, { point with value := s.sum })
  else ({ s with sum := .finite 0 }, point)

/-- `histogramPoint`, on the state of its series. -/
def histogramPoint (known : Bool) (point : DataPoint AttributeSet HistogramValues) :
    Option (SeriesState AttributeSet × DataPoint AttributeSet HistogramValues) :=
  let value :=
    if cumulative && known then addHistogram point.value s.histogram.value else some point.value
  value.map fun value =>
    let (s, start, time) := s.times point.time exported cumulative
    let point := { point with value := value, startTime := start, time := time }
    if cumulative then ({ s with histogram := { point with exemplars := [] } }, point)
    else ({ s with histogram := SeriesState.zero.histogram }, point)

/-- `exponentialPoint`, on the state of its series. -/
def exponentialPoint (known : Bool) (maxSize : ℤ) (point : DataPoint AttributeSet ExpoValues) :
    SeriesState AttributeSet × DataPoint AttributeSet ExpoValues :=
  let point :=
    if cumulative && known then addExponential point s.exponential maxSize else point
  let (s, start, time) := s.times point.time exported cumulative
  let point := { point with startTime := start, time := time }
  if cumulative then ({ s with exponential := copyExponential point }, point)
  else ({ s with exponential := SeriesState.zero.exponential }, point)

/-- `gaugePoint`, on the state of its series. -/
def gaugePoint (point : DataPoint AttributeSet Float64) : SeriesState AttributeSet :=
  let s := if point.time < s.gaugeTime then s
    else { s with gauge := point.value, gaugeTime := point.time }
  if s.lastTime < point.time then { s with lastTime := point.time } else s

/-- The point `unobserved` repeats. -/
def repeated (start time : Time) : Option (SeriesPoint AttributeSet) :=
  match s.kind with
  | some .sum => some (.sum ⟨s.attributes, start, time, s.sum, []⟩)
  | some .gauge => some (.gauge ⟨s.attributes, 0, time, s.gauge, []⟩)
  | some .histogram => some (.histogram { s.histogram with startTime := start, time := time })
  | some .exponential =>
    some (.exponential { copyExponential s.exponential with startTime := start, time := time })
  | none => none

end SeriesState

end

/-! ### One export -/

section

variable {KeyValue AttributeSet Distinct : Type} [DecidableEq Distinct]

/-- `seriesStates`. -/
abbrev SeriesStates (AttributeSet Distinct : Type) :=
  AList fun _ : HistogramKey Distinct => SeriesState AttributeSet

/-- The fields of `accumulation` that stay as they are during an export. -/
structure Accumulation (AttributeSet Distinct : Type) where
  exported : SeriesStates AttributeSet Distinct
  cumulative : Bool
  expoMaxSize : ℤ

/-- The fields of `accumulation` that an export changes. -/
structure Accumulated (AttributeSet Distinct : Type) where
  next : SeriesStates AttributeSet Distinct
  /-- The series observed in this export. -/
  seen : List (HistogramKey Distinct)

/-- A point of a series the sum already has a point of, `held`. -/
def mergeSum (temporality : Temporality) (held point : DataPoint AttributeSet Float64) :
    DataPoint AttributeSet Float64 :=
  let point :=
    if temporality = .delta then
      { point with value := point.value + held.value, startTime := held.startTime }
    else point
  { point with
    exemplars :=
      match held.exemplars, point.exemplars with
      | [], _ => point.exemplars
      | _ :: _, [] => held.exemplars
      | old :: _, new :: _ => if new.time < old.time then held.exemplars else point.exemplars }

/-- `addSumPoint`, on the data points of the sum. -/
def addSumPoint (sdk : Sdk KeyValue AttributeSet Distinct) (temporality : Temporality)
    (point : DataPoint AttributeSet Float64) :
    List (DataPoint AttributeSet Float64) → List (DataPoint AttributeSet Float64)
  | [] => [point]
  | held :: points =>
    if sdk.equivalent held.attributes = sdk.equivalent point.attributes then
      mergeSum temporality held point :: points
    else held :: addSumPoint sdk temporality point points

namespace Accumulation

variable [Inhabited AttributeSet] (sdk : Sdk KeyValue AttributeSet Distinct)
variable (a : Accumulation AttributeSet Distinct) (seriesMeta : SeriesMeta)
variable (acc : Accumulated AttributeSet Distinct)

/-- The time of the last point of a series before this export. -/
def exportedTime (key : HistogramKey Distinct) : Time :=
  ((a.exported.lookup key).map (·.lastTime)).getD 0

/-- What the point methods share: the state of the series, started at `observed` where it
is new, is changed by `add`, noted as seen and stored. -/
def addPoint {P : Type} (attributes : AttributeSet) (kind : SeriesKind) (observed : Time)
    (add : SeriesState AttributeSet → Bool → Time → Option (SeriesState AttributeSet × P)) :
    Option (Accumulated AttributeSet Distinct × P) :=
  let key : HistogramKey Distinct := ⟨seriesMeta.name, sdk.equivalent attributes⟩
  let state := (acc.next.lookup key).getD { SeriesState.zero with start := observed }
  let state := { state with seriesMeta := seriesMeta, attributes := attributes, kind := some kind }
  (add state (acc.next.lookup key).isSome (a.exportedTime key)).map fun result =>
    (⟨acc.next.insert key result.1, key :: acc.seen⟩, result.2)

/-- `sumPoint`. -/
def sumPoint (point : DataPoint AttributeSet Float64) :
    Option (Accumulated AttributeSet Distinct × DataPoint AttributeSet Float64) :=
  a.addPoint sdk seriesMeta acc point.attributes .sum point.time fun s _ exported =>
    some (s.sumPoint a.cumulative exported point)

/-- `histogramPoint`. -/
def histogramPoint (point : DataPoint AttributeSet HistogramValues) :
    Option (Accumulated AttributeSet Distinct × DataPoint AttributeSet HistogramValues) :=
  a.addPoint sdk seriesMeta acc point.attributes .histogram point.time fun s known exported =>
    s.histogramPoint a.cumulative exported known point

/-- `exponentialPoint`. -/
def exponentialPoint (point : DataPoint AttributeSet ExpoValues) :
    Option (Accumulated AttributeSet Distinct × DataPoint AttributeSet ExpoValues) :=
  a.addPoint sdk seriesMeta acc point.attributes .exponential point.time fun s known exported =>
    some (s.exponentialPoint a.cumulative exported known a.expoMaxSize point)

/-- `gaugePoint`; the data point itself is left as it is. -/
def gaugePoint (point : DataPoint AttributeSet Float64) :
    Option (Accumulated AttributeSet Distinct × DataPoint AttributeSet Float64) :=
  a.addPoint sdk seriesMeta acc point.attributes .gauge point.time fun s _ _ =>
    some (s.gaugePoint point, point)

/-- The loop over the observations of a sum, merged into its data points. -/
def eachSum (temporality : Temporality) :
    Accumulated AttributeSet Distinct → List (DataPoint AttributeSet Float64) →
      List (DataPoint AttributeSet Float64) →
      Option (Accumulated AttributeSet Distinct × List (DataPoint AttributeSet Float64))
  | acc, sums, [] => some (acc, sums)
  | acc, sums, point :: points =>
    (a.sumPoint sdk seriesMeta acc point).bind fun r =>
      eachSum temporality r.1 (addSumPoint sdk temporality r.2 sums) points

end Accumulation

/-- The variables of the loop of `accumulate`. -/
structure Accumulating (AttributeSet Distinct : Type) where
  acc : Accumulated AttributeSet Distinct
  merged : List (Metrics AttributeSet)
  sumIndexes : String → Option ℕ

/-- The entry of a sum in `merged`, made where it has none. -/
def Accumulating.sumEntry (s : Accumulating AttributeSet Distinct) (m : Metrics AttributeSet)
    (temporality : Temporality) (isMonotonic : Bool) : Accumulating AttributeSet Distinct × ℕ :=
  match s.sumIndexes m.name with
  | some index => (s, index)
  | none =>
    ({ s with
        merged := s.merged ++ [{ m with data := .sum temporality isMonotonic [] }]
        sumIndexes := Function.update s.sumIndexes m.name (some s.merged.length) },
      s.merged.length)

/-- One round of the loop of `accumulate`. -/
def accumulateStep [Inhabited AttributeSet] (sdk : Sdk KeyValue AttributeSet Distinct)
    (a : Accumulation AttributeSet Distinct) (s : Accumulating AttributeSet Distinct)
    (m : Metrics AttributeSet) : Option (Accumulating AttributeSet Distinct) :=
  match m.data with
  | .sum temporality isMonotonic observations =>
    let (s, index) := s.sumEntry m temporality isMonotonic
    match s.merged[index]? with
    | some ⟨name, description, unit, .sum temporality isMonotonic sums⟩ =>
      (a.eachSum sdk (metaOf m) temporality s.acc sums observations).map fun r =>
        { s with
          acc := r.1
          merged := s.merged.set index
            ⟨name, description, unit, .sum temporality isMonotonic r.2⟩ }
    -- the type assertion on the entry
    | _ => none
  | .histogram temporality points =>
    (Transducer.run (a.histogramPoint sdk (metaOf m)) s.acc points).map fun r =>
      { s with
        acc := r.1
        merged := s.merged ++ [{ m with data := .histogram temporality r.2 }] }
  | .exponentialHistogram temporality points =>
    (Transducer.run (a.exponentialPoint sdk (metaOf m)) s.acc points).map fun r =>
      { s with
        acc := r.1
        merged := s.merged ++ [{ m with data := .exponentialHistogram temporality r.2 }] }
  | .gauge points =>
    (Transducer.run (a.gaugePoint sdk (metaOf m)) s.acc points).map fun r =>
      { s with acc := r.1, merged := s.merged ++ [m] }

/-- The accumulation of one export. -/
def accumulationOf (config : OTLPConfig) (exported : SeriesStates AttributeSet Distinct) :
    Accumulation AttributeSet Distinct where
  exported := exported
  cumulative := !config.delta
  expoMaxSize := (config.exponentialHistogram.map (·.resolved.maxSize)).getD 0

/-- The loop of `accumulate`, from the state of the exporter. -/
def accumulateAll [Inhabited AttributeSet] (sdk : Sdk KeyValue AttributeSet Distinct)
    (config : OTLPConfig) (exported : SeriesStates AttributeSet Distinct)
    (metrics : List (Metrics AttributeSet)) : Option (Accumulating AttributeSet Distinct) :=
  metrics.foldlM (accumulateStep sdk (accumulationOf config exported))
    ⟨⟨exported, []⟩, [], fun _ => none⟩

/-! ### Series without an observation -/

/-- The data of a metric with a repeated point added, where the kinds agree. -/
def Aggregation.addRepeated : Aggregation AttributeSet → SeriesPoint AttributeSet →
    Option (Aggregation AttributeSet)
  | .sum _ _ points, .sum point => some (.sum .cumulative true (points ++ [point]))
  | .gauge points, .gauge point => some (.gauge (points ++ [point]))
  | .histogram _ points, .histogram point => some (.histogram .cumulative (points ++ [point]))
  | .exponentialHistogram _ points, .exponential point =>
    some (.exponentialHistogram .cumulative (points ++ [point]))
  | _, _ => none

/-- The data of a metric with nothing but a repeated point. -/
def SeriesPoint.alone : SeriesPoint AttributeSet → Aggregation AttributeSet
  | .sum point => .sum .cumulative true [point]
  | .gauge point => .gauge [point]
  | .histogram point => .histogram .cumulative [point]
  | .exponential point => .exponentialHistogram .cumulative [point]

/-- `appendUnobserved`. -/
def appendUnobserved (seriesMeta : SeriesMeta) (point : SeriesPoint AttributeSet) :
    List (Metrics AttributeSet) → List (Metrics AttributeSet)
  | [] => [⟨seriesMeta.name, seriesMeta.description, seriesMeta.unit, point.alone⟩]
  | m :: metrics =>
    match (if m.name = seriesMeta.name then m.data.addRepeated point else none) with
    | some data => { m with data := data } :: metrics
    | none => m :: appendUnobserved seriesMeta point metrics

/-- One round of the loop of `unobserved`. -/
def unobservedStep (a : Accumulation AttributeSet Distinct) (now : Time)
    (s : Accumulated AttributeSet Distinct × List (Metrics AttributeSet))
    (key : HistogramKey Distinct) :
    Accumulated AttributeSet Distinct × List (Metrics AttributeSet) :=
  if key ∈ s.1.seen then s
  else
    match s.1.next.lookup key with
    | none => s
    | some state =>
      let (state, start, time) := state.times now (a.exportedTime key) a.cumulative
      ({ s.1 with next := s.1.next.insert key state },
        match state.repeated start time with
        | some point => appendUnobserved state.seriesMeta point s.2
        | none => s.2)

/-- `unobserved`, ranging over the series in the given order. -/
def unobserved (a : Accumulation AttributeSet Distinct) (acc : Accumulated AttributeSet Distinct)
    (metrics : List (Metrics AttributeSet)) (now : Time) (order : List (HistogramKey Distinct)) :
    Accumulated AttributeSet Distinct × List (Metrics AttributeSet) :=
  if a.cumulative then order.foldl (unobservedStep a now) (acc, metrics) else (acc, metrics)

/-- What an export keeps of a series: its state, and whether it was observed. -/
def Accumulated.view (acc : Accumulated AttributeSet Distinct) (key : HistogramKey Distinct) :
    Option (SeriesState AttributeSet) × Bool :=
  (acc.next.lookup key, decide (key ∈ acc.seen))

end

end ConvoyStats.Otlp
