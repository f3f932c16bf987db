import ConvoyStats.Library.IndexedList
import ConvoyStats.Otlp.Accumulator

/-!
# One series of an export

An export runs over the data points of its metrics and keeps the series apart by their
keys.  Seen from one key, the state is advanced by the points of that key alone, as if
there were no other series: `keyed_addSeriesPoint` is the reason, and the state, the panic
and the points produced all follow from it through `Transducer.Keyed`.

What the loop collects in `merged` is sums, which are merged point by point, and other
points, which are appended as they are produced (`Collected`).
-/

namespace ConvoyStats.Otlp

open List Models

section

variable {AttributeSet : Type}

def SeriesPoint.attributes : SeriesPoint AttributeSet → AttributeSet
  | .sum point | .gauge point => point.attributes
  | .histogram point => point.attributes
  | .exponential point => point.attributes

def SeriesPoint.kind : SeriesPoint AttributeSet → SeriesKind
  | .sum _ => .sum
  | .gauge _ => .gauge
  | .histogram _ => .histogram
  | .exponential _ => .exponential

/-- The data points of an aggregation. -/
def Aggregation.points : Aggregation AttributeSet → List (SeriesPoint AttributeSet)
  | .sum _ _ points => points.map .sum
  | .gauge points => points.map .gauge
  | .histogram _ points => points.map .histogram
  | .exponentialHistogram _ points => points.map .exponential

/-- The data points of metrics, each with the name, description and unit it comes under. -/
def allPoints (metrics : List (Metrics AttributeSet)) :
    List (SeriesMeta × SeriesPoint AttributeSet) :=
  metrics.flatMap fun m => m.data.points.map (metaOf m, ·)

theorem allPoints_append (metrics metrics' : List (Metrics AttributeSet)) :
    allPoints (metrics ++ metrics') = allPoints metrics ++ allPoints metrics' :=
  flatMap_append ..

/-- The sums among data points. -/
def sumsOf (points : List (SeriesPoint AttributeSet)) : List (DataPoint AttributeSet Float64) :=
  points.filterMap fun
    | .sum point => some point
    | _ => none

/-- The other data points. -/
def othersOf (points : List (SeriesPoint AttributeSet)) : List (SeriesPoint AttributeSet) :=
  points.filter (·.kind ≠ .sum)

@[simp] theorem sumsOf_append (points points' : List (SeriesPoint AttributeSet)) :
    sumsOf (points ++ points') = sumsOf points ++ sumsOf points' := filterMap_append ..

@[simp] theorem othersOf_append (points points' : List (SeriesPoint AttributeSet)) :
    othersOf (points ++ points') = othersOf points ++ othersOf points' := filter_append ..

@[simp] theorem sumsOf_map_sum (points : List (DataPoint AttributeSet Float64)) :
    sumsOf (points.map .sum) = points := by
  simp [sumsOf, filterMap_map]

@[simp] theorem othersOf_map_sum (points : List (DataPoint AttributeSet Float64)) :
    othersOf (points.map .sum) = [] := by
  simp [othersOf, SeriesPoint.kind]

/-- Points that are all sums. -/
theorem eq_map_sumsOf {points : List (SeriesPoint AttributeSet)} (h : othersOf points = []) :
    points = (sumsOf points).map .sum := by
  induction points with
  | nil => rfl
  | cons point points ih =>
    cases point with
    | sum p => rw [← singleton_append, sumsOf_append, map_append, ← ih h]; rfl
    | gauge p => cases h
    | histogram p => cases h
    | exponential p => cases h

/-- Points none of which is a sum. -/
theorem eq_othersOf {points : List (SeriesPoint AttributeSet)} (h : sumsOf points = []) :
    points = othersOf points := by
  refine (filter_eq_self.mpr fun point hpoint => ?_).symm
  cases point with
  | sum p => cases filterMap_eq_nil_iff.mp h _ hpoint
  | gauge p => rfl
  | histogram p => rfl
  | exponential p => rfl

end

variable {KeyValue AttributeSet Distinct : Type} [DecidableEq Distinct]
variable (sdk : Sdk KeyValue AttributeSet Distinct)

/-- The series of a data point. -/
def pointKey (x : SeriesMeta × SeriesPoint AttributeSet) : HistogramKey Distinct :=
  ⟨x.1.name, sdk.equivalent x.2.attributes⟩

/-- The data points of one series, among others. -/
def pointsOf (key : HistogramKey Distinct) (points : List (SeriesMeta × SeriesPoint AttributeSet)) :
    List (SeriesPoint AttributeSet) :=
  (points.filter (pointKey sdk · = key)).map (·.2)

/-- **The data points of one series in an export.** -/
def seriesPoints (key : HistogramKey Distinct) (metrics : List (Metrics AttributeSet)) :
    List (SeriesPoint AttributeSet) :=
  pointsOf sdk key (allPoints metrics)

section

variable {sdk} {key : HistogramKey Distinct}

theorem pointsOf_append (points points' : List (SeriesMeta × SeriesPoint AttributeSet)) :
    pointsOf sdk key (points ++ points') = pointsOf sdk key points ++ pointsOf sdk key points' := by
  simp only [pointsOf, filter_append, map_append]

theorem seriesPoints_append (metrics metrics' : List (Metrics AttributeSet)) :
    seriesPoints sdk key (metrics ++ metrics') =
      seriesPoints sdk key metrics ++ seriesPoints sdk key metrics' := by
  simp only [seriesPoints, allPoints_append, pointsOf_append]

theorem seriesPoints_cons (m : Metrics AttributeSet) (metrics : List (Metrics AttributeSet)) :
    seriesPoints sdk key (m :: metrics) =
      seriesPoints sdk key [m] ++ seriesPoints sdk key metrics :=
  seriesPoints_append [m] metrics

theorem seriesPoints_singleton (m : Metrics AttributeSet) :
    seriesPoints sdk key [m] =
      if m.name = key.name then
        m.data.points.filter fun point => sdk.equivalent point.attributes = key.attributes
      else [] := by
  simp only [seriesPoints, pointsOf, allPoints, flatMap_singleton, filter_map, map_map,
    Function.comp_def, pointKey, metaOf, map_id']
  split
  · rename_i hname
    congr 1
    funext point
    cases key
    simp_all
  · rename_i hname
    rw [filter_eq_nil_iff]
    rintro point -
    cases key
    simp_all

/-- The points of a series in a sum. -/
theorem seriesPoints_sum {m : Metrics AttributeSet} {temporality : Temporality}
    {isMonotonic : Bool} {points : List (DataPoint AttributeSet Float64)}
    (h : m.data = .sum temporality isMonotonic points) :
    seriesPoints sdk key [m] =
      (if m.name = key.name then
        points.filter fun point => sdk.equivalent point.attributes = key.attributes
      else []).map .sum := by
  rw [seriesPoints_singleton, h]
  split
  · rw [Aggregation.points, filter_map]
    rfl
  · rfl

end

/-! ### The state of one series -/

section

variable [Inhabited AttributeSet] (a : Accumulation AttributeSet Distinct)

/-- The state of a series about to get a point. -/
def opened (state : Option (SeriesState AttributeSet)) (seriesMeta : SeriesMeta)
    (attributes : AttributeSet) (kind : SeriesKind) (observed : Time) : SeriesState AttributeSet :=
  { state.getD { SeriesState.zero with start := observed } with
    seriesMeta := seriesMeta, attributes := attributes, kind := some kind }

/-- What a data point does to the state of its series, and the point that is exported. -/
def seriesStep (cumulative : Bool) (expoMaxSize : ℤ) (exported : Time)
    (state : Option (SeriesState AttributeSet)) (x : SeriesMeta × SeriesPoint AttributeSet) :
    Option (SeriesState AttributeSet × SeriesPoint AttributeSet) :=
  match x.2 with
  | .sum point =>
    let r := (opened state x.1 point.attributes .sum point.time).sumPoint cumulative exported point
    some (r.1, .sum r.2)
  | .gauge point =>
    some ((opened state x.1 point.attributes .gauge point.time).gaugePoint point, .gauge point)
  | .histogram point =>
    ((opened state x.1 point.attributes .histogram point.time).histogramPoint cumulative exported
      state.isSome point).map fun r => (r.1, .histogram r.2)
  | .exponential point =>
    let r := (opened state x.1 point.attributes .exponential point.time).exponentialPoint
      cumulative exported state.isSome expoMaxSize point
    some (r.1, .exponential r.2)

/-- The point methods, as one. -/
def addSeriesPoint (acc : Accumulated AttributeSet Distinct)
    (x : SeriesMeta × SeriesPoint AttributeSet) :
    Option (Accumulated AttributeSet Distinct × (SeriesMeta × SeriesPoint AttributeSet)) :=
  match x.2 with
  | .sum point => (a.sumPoint sdk x.1 acc point).map fun r => (r.1, x.1, .sum r.2)
  | .gauge point => (a.gaugePoint sdk x.1 acc point).map fun r => (r.1, x.1, .gauge r.2)
  | .histogram point => (a.histogramPoint sdk x.1 acc point).map fun r => (r.1, x.1, .histogram r.2)
  | .exponential point =>
    (a.exponentialPoint sdk x.1 acc point).map fun r => (r.1, x.1, .exponential r.2)

/-- `seriesStep`, on the view of the series. -/
def viewStep (key : HistogramKey Distinct) (view : Option (SeriesState AttributeSet) × Bool)
    (x : SeriesMeta × SeriesPoint AttributeSet) :
    Option ((Option (SeriesState AttributeSet) × Bool) × (SeriesMeta × SeriesPoint AttributeSet)) :=
  (seriesStep a.cumulative a.expoMaxSize (a.exportedTime key) view.1 x).map fun r =>
    ((some r.1, true), x.1, r.2)

/-- A point method seen from the series. -/
theorem addPoint_view {P Q : Type} (acc : Accumulated AttributeSet Distinct)
    (seriesMeta : SeriesMeta) (attributes : AttributeSet) (kind : SeriesKind) (observed : Time)
    (add : SeriesState AttributeSet → Bool → Time → Option (SeriesState AttributeSet × P))
    (out : P → Q) :
    (a.addPoint sdk seriesMeta acc attributes kind observed add).map
        (fun r => (r.1.view, out r.2)) =
      let key : HistogramKey Distinct := ⟨seriesMeta.name, sdk.equivalent attributes⟩
      (add (opened (acc.view key).1 seriesMeta attributes kind observed) (acc.view key).1.isSome
        (a.exportedTime key)).map fun r =>
          (Function.update acc.view key (some r.1, true), out r.2) := by
  simp only [Accumulation.addPoint, Accumulated.view, opened, Option.map_map, Function.comp_def]
  congr 1
  funext r
  congr 1
  funext key
  by_cases hkey : key = ⟨seriesMeta.name, sdk.equivalent attributes⟩
  · subst hkey
    simp [Accumulated.view]
  · simp [Accumulated.view, hkey]

omit [Inhabited AttributeSet] in
theorem sumPoint_attributes (s : SeriesState AttributeSet) (cumulative : Bool) (exported : Time)
    (point : DataPoint AttributeSet Float64) :
    (s.sumPoint cumulative exported point).2.attributes = point.attributes := by
  unfold SeriesState.sumPoint
  dsimp only
  split <;> rfl

theorem histogramPoint_attributes {s : SeriesState AttributeSet} {cumulative known : Bool}
    {exported : Time} {point : DataPoint AttributeSet HistogramValues}
    {r : SeriesState AttributeSet × DataPoint AttributeSet HistogramValues}
    (h : s.histogramPoint cumulative exported known point = some r) :
    r.2.attributes = point.attributes := by
  obtain ⟨value, -, rfl⟩ := Option.map_eq_some_iff.mp h
  dsimp only
  split <;> rfl

theorem exponentialPoint_attributes (s : SeriesState AttributeSet) (cumulative known : Bool)
    (exported : Time) (maxSize : ℤ) (point : DataPoint AttributeSet ExpoValues) :
    (s.exponentialPoint cumulative exported known maxSize point).2.attributes =
      point.attributes := by
  unfold SeriesState.exponentialPoint
  dsimp only
  split <;> split <;> rfl

/-- A point stays in its series. -/
theorem seriesStep_attributes {cumulative : Bool} {expoMaxSize : ℤ} {exported : Time}
    {state : Option (SeriesState AttributeSet)} {x : SeriesMeta × SeriesPoint AttributeSet}
    {r : SeriesState AttributeSet × SeriesPoint AttributeSet}
    (h : seriesStep cumulative expoMaxSize exported state x = some r) :
    r.2.attributes = x.2.attributes ∧ r.2.kind = x.2.kind := by
  obtain ⟨seriesMeta, point⟩ := x
  cases point with
  | sum point =>
    cases h
    exact ⟨sumPoint_attributes .., rfl⟩
  | gauge point =>
    cases h
    exact ⟨rfl, rfl⟩
  | histogram point =>
    obtain ⟨r', hr', rfl⟩ := Option.map_eq_some_iff.mp h
    exact ⟨histogramPoint_attributes hr', rfl⟩
  | exponential point =>
    cases h
    exact ⟨exponentialPoint_attributes .., rfl⟩

/-- **The series of an export do not touch each other.** -/
theorem keyed_addSeriesPoint :
    Transducer.Keyed (pointKey sdk) (pointKey sdk) Accumulated.view (addSeriesPoint sdk a)
      (viewStep a) where
  split := by
    rintro acc ⟨seriesMeta, point⟩
    cases point with
    | sum point =>
      simp only [addSeriesPoint, viewStep, seriesStep, Option.map_map, Function.comp_def]
      exact addPoint_view sdk a acc seriesMeta point.attributes .sum point.time
        (fun s _ exported => some (s.sumPoint a.cumulative exported point))
        fun p => (seriesMeta, SeriesPoint.sum p)
    | gauge point =>
      simp only [addSeriesPoint, viewStep, seriesStep, Option.map_map, Function.comp_def]
      exact addPoint_view sdk a acc seriesMeta point.attributes .gauge point.time
        (fun s _ _ => some (s.gaugePoint point, point))
        fun p => (seriesMeta, SeriesPoint.gauge p)
    | histogram point =>
      simp only [addSeriesPoint, viewStep, seriesStep, Option.map_map, Function.comp_def]
      exact addPoint_view sdk a acc seriesMeta point.attributes .histogram point.time
        (fun s known exported => s.histogramPoint a.cumulative exported known point)
        fun p => (seriesMeta, SeriesPoint.histogram p)
    | exponential point =>
      simp only [addSeriesPoint, viewStep, seriesStep, Option.map_map, Function.comp_def]
      exact addPoint_view sdk a acc seriesMeta point.attributes .exponential point.time
        (fun s known exported =>
          some (s.exponentialPoint a.cumulative exported known a.expoMaxSize point))
        fun p => (seriesMeta, SeriesPoint.exponential p)
  out := by
    intro key view x r h hkey
    obtain ⟨r', hr', rfl⟩ := Option.map_eq_some_iff.mp h
    rw [← hkey]
    simp only [pointKey, (seriesStep_attributes hr').1]

end

/-! ### What the loop collects -/

section

variable {sdk}

/-- Sums of other names hold no sum of the series. -/
theorem sumsOf_seriesPoints_eq_nil {key : HistogramKey Distinct}
    {metrics : List (Metrics AttributeSet)}
    (h : ∀ m ∈ metrics, ∀ t mono points, m.data = .sum t mono points → m.name ≠ key.name) :
    sumsOf (seriesPoints sdk key metrics) = [] := by
  induction metrics with
  | nil => rfl
  | cons m metrics ih =>
    rw [seriesPoints_cons, sumsOf_append, ih fun m' hm' => h m' (mem_cons_of_mem _ hm'),
      append_nil]
    have hm := h m mem_cons_self
    cases hdata : m.data with
    | sum t mono points =>
      rw [seriesPoints_sum hdata, if_neg (hm t mono points hdata)]
      rfl
    | gauge points | histogram t points | exponentialHistogram t points =>
      rw [seriesPoints_singleton, hdata, Aggregation.points]
      split <;> simp [sumsOf, filter_map, filterMap_map, Function.comp_def]

omit [DecidableEq Distinct] in
theorem mergeSum_attributes (t : Temporality) (held point : DataPoint AttributeSet Float64) :
    (mergeSum t held point).attributes = point.attributes := by
  unfold mergeSum
  dsimp only
  split <;> rfl

/-- Merging a point into a sum, seen from one attribute set. -/
theorem filter_addSumPoint (t : Temporality) (point : DataPoint AttributeSet Float64)
    (sums : List (DataPoint AttributeSet Float64)) (d : Distinct) :
    (addSumPoint sdk t point sums).filter (sdk.equivalent ·.attributes = d) =
      if sdk.equivalent point.attributes = d then
        addSumPoint sdk t point (sums.filter (sdk.equivalent ·.attributes = d))
      else sums.filter (sdk.equivalent ·.attributes = d) := by
  induction sums with
  | nil => simp only [addSumPoint, filter_cons, filter_nil, decide_eq_true_eq]
  | cons held sums ih =>
    rw [addSumPoint]
    by_cases heq : sdk.equivalent held.attributes = sdk.equivalent point.attributes
    · by_cases hd : sdk.equivalent point.attributes = d
      · simp [heq, hd, mergeSum_attributes, addSumPoint]
      · simp [heq, hd, mergeSum_attributes]
    · rw [if_neg heq, filter_cons, ih, filter_cons]
      by_cases hd : sdk.equivalent point.attributes = d
      · have hheld : sdk.equivalent held.attributes ≠ d := hd ▸ heq
        simp [hheld]
      · simp [hd]

/-- Points merged into a sum one after the other. -/
def mergeSums (sdk : Sdk KeyValue AttributeSet Distinct) (t : Temporality)
    (sums points : List (DataPoint AttributeSet Float64)) : List (DataPoint AttributeSet Float64) :=
  points.foldl (fun sums point => addSumPoint sdk t point sums) sums

theorem mergeSums_append (t : Temporality)
    (sums points points' : List (DataPoint AttributeSet Float64)) :
    mergeSums sdk t sums (points ++ points') =
      mergeSums sdk t (mergeSums sdk t sums points) points' :=
  foldl_append ..

/-- Merging points into a sum, seen from one attribute set. -/
theorem filter_mergeSums (t : Temporality) (sums points : List (DataPoint AttributeSet Float64))
    (d : Distinct) :
    (mergeSums sdk t sums points).filter (sdk.equivalent ·.attributes = d) =
      mergeSums sdk t (sums.filter (sdk.equivalent ·.attributes = d))
        (points.filter (sdk.equivalent ·.attributes = d)) := by
  unfold mergeSums
  induction points generalizing sums with
  | nil => rfl
  | cons point points ih =>
    rw [foldl_cons, ih, filter_addSumPoint, filter_cons]
    by_cases hd : sdk.equivalent point.attributes = d <;> simp [hd]

variable [Inhabited AttributeSet] {a : Accumulation AttributeSet Distinct}

/-- The loop over a sum runs the points and merges what comes out. -/
theorem eachSum_eq (seriesMeta : SeriesMeta) (t : Temporality)
    (acc : Accumulated AttributeSet Distinct)
    (sums points : List (DataPoint AttributeSet Float64)) :
    a.eachSum sdk seriesMeta t acc sums points =
      (Transducer.run (a.sumPoint sdk seriesMeta) acc points).map fun r =>
        (r.1, mergeSums sdk t sums r.2) := by
  unfold mergeSums
  induction points generalizing acc sums with
  | nil => rfl
  | cons point points ih =>
    rw [Accumulation.eachSum, Transducer.run_cons]
    cases a.sumPoint sdk seriesMeta acc point with
    | none => rfl
    | some r => simp [ih, Function.comp_def]

/-- The name of a sum. -/
def sumName (m : Metrics AttributeSet) : Option String :=
  match m.data with
  | .sum _ _ _ => some m.name
  | _ => none

/-- **What the loop has collected** of the points `out`: the sums are merged series by
series and the rest is as it came out. -/
structure Collected (sdk : Sdk KeyValue AttributeSet Distinct) (t : Temporality)
    (s : Accumulating AttributeSet Distinct) (out : List (SeriesMeta × SeriesPoint AttributeSet)) :
    Prop where
  indexed : s.merged.IndexedBy sumName s.sumIndexes
  temporality : ∀ m ∈ s.merged, ∀ t' mono points, m.data = .sum t' mono points → t' = t
  sums : ∀ key, sumsOf (seriesPoints sdk key s.merged) =
    mergeSums sdk t [] (sumsOf (pointsOf sdk key out))
  others : ∀ key, othersOf (seriesPoints sdk key s.merged) = othersOf (pointsOf sdk key out)

namespace Collected

variable {t : Temporality} {s : Accumulating AttributeSet Distinct}
variable {out : List (SeriesMeta × SeriesPoint AttributeSet)}

omit [Inhabited AttributeSet] in
theorem init (acc : Accumulated AttributeSet Distinct) :
    Collected sdk t ⟨acc, [], fun _ => none⟩ [] where
  indexed := .nil
  temporality := nofun
  sums := fun _ => rfl
  others := fun _ => rfl

omit [Inhabited AttributeSet] in
/-- A metric that is no sum is appended. -/
theorem push (h : Collected sdk t s out) (acc : Accumulated AttributeSet Distinct)
    {m : Metrics AttributeSet} (hm : sumName m = none) :
    Collected sdk t { s with acc := acc, merged := s.merged ++ [m] } (out ++ allPoints [m]) where
  indexed := h.indexed.push_none hm
  temporality := by
    intro m' hm' t' mono points hdata
    rcases mem_append.mp hm' with hm' | hm'
    · exact h.temporality m' hm' t' mono points hdata
    · rw [mem_singleton.mp hm'] at hdata
      simp [sumName, hdata] at hm
  sums := by
    intro key
    have hnil : sumsOf (seriesPoints sdk key [m]) = [] := by
      refine sumsOf_seriesPoints_eq_nil fun m' hm' t' mono points hdata => ?_
      rw [mem_singleton.mp hm'] at hdata
      simp [sumName, hdata] at hm
    rw [seriesPoints_append, sumsOf_append, hnil, append_nil, pointsOf_append, sumsOf_append]
    rw [seriesPoints] at hnil
    rw [hnil, append_nil, h.sums]
  others := by
    intro key
    rw [seriesPoints_append, othersOf_append, pointsOf_append, othersOf_append, h.others]
    rfl

omit [Inhabited AttributeSet] in
/-- The entry of a sum: nothing is added but, where it is missing, the entry itself. -/
theorem sumEntry (h : Collected sdk t s out) (m : Metrics AttributeSet) (mono : Bool) :
    Collected sdk t (s.sumEntry m t mono).1 out ∧ (s.sumEntry m t mono).1.acc = s.acc ∧
      (s.sumEntry m t mono).1.sumIndexes m.name = some (s.sumEntry m t mono).2 := by
  unfold Accumulating.sumEntry
  cases hindex : s.sumIndexes m.name with
  | some i => exact ⟨h, rfl, hindex⟩
  | none =>
    have hblank : ∀ key, seriesPoints sdk key [{ m with data := .sum t mono [] }] = [] := by
      intro key
      rw [seriesPoints_sum rfl]
      split <;> rfl
    refine ⟨⟨h.indexed.push hindex rfl, ?_, ?_, ?_⟩, rfl, Function.update_self ..⟩
    · intro m' hm' t' mono' points hdata
      rcases mem_append.mp hm' with hm' | hm'
      · exact h.temporality m' hm' t' mono' points hdata
      · rw [mem_singleton.mp hm'] at hdata
        cases hdata
        rfl
    · intro key
      rw [seriesPoints_append, hblank, append_nil, h.sums]
    · intro key
      rw [seriesPoints_append, hblank, append_nil, h.others]

omit [Inhabited AttributeSet] in
/-- The points of a sum are merged into its entry. -/
theorem setSum (h : Collected sdk t s out) (acc : Accumulated AttributeSet Distinct)
    {m e : Metrics AttributeSet} {i : ℕ} (hi : s.sumIndexes m.name = some i)
    (he : s.merged[i]? = some e) {mono : Bool} {sums : List (DataPoint AttributeSet Float64)}
    (hdata : e.data = .sum t mono sums) (hname : e.name = m.name)
    (points : List (DataPoint AttributeSet Float64)) :
    Collected sdk t
      { s with
        acc := acc
        merged := s.merged.set i { e with data := .sum t mono (mergeSums sdk t sums points) } }
      (out ++ points.map fun point => (metaOf m, .sum point)) := by
  obtain ⟨before, e', after, hsplit, hlength, -, hbefore, hafter⟩ := h.indexed.split hi
  obtain rfl : e' = e := by
    rw [hsplit, ← hlength] at he
    simpa using he
  -- the points of a series, around the entry
  have haround : ∀ key (x : Metrics AttributeSet), seriesPoints sdk key (before ++ x :: after) =
      seriesPoints sdk key before ++ seriesPoints sdk key [x] ++ seriesPoints sdk key after := by
    intro key x
    rw [seriesPoints_append, seriesPoints_cons, append_assoc]
  have hset : s.merged.set i { e' with data := .sum t mono (mergeSums sdk t sums points) } =
      before ++ { e' with data := .sum t mono (mergeSums sdk t sums points) } :: after := by
    rw [hsplit, ← hlength]
    simp
  have hnew : ∀ key, pointsOf sdk key (points.map fun point => (metaOf m, .sum point)) =
      (if m.name = key.name then
        points.filter (sdk.equivalent ·.attributes = key.attributes) else []).map .sum := by
    intro key
    have hpoints : seriesPoints sdk key [{ m with data := .sum t mono points }] = _ :=
      seriesPoints_sum rfl
    rw [← hpoints, seriesPoints, allPoints]
    simp [Aggregation.points, Function.comp_def, metaOf]
  refine ⟨h.indexed.set he (by simp [sumName, hdata]), ?_, ?_, ?_⟩
  · intro m' hm' t' mono' points' hdata'
    rcases mem_or_eq_of_mem_set hm' with hm' | rfl
    · exact h.temporality m' hm' t' mono' points' hdata'
    · cases hdata'
      rfl
  · intro key
    have hold := h.sums key
    dsimp only
    rw [hset, haround, pointsOf_append, sumsOf_append, sumsOf_append, sumsOf_append, hnew,
      sumsOf_map_sum, mergeSums_append, ← hold, hsplit, haround, sumsOf_append, sumsOf_append,
      seriesPoints_sum hdata, seriesPoints_sum rfl, sumsOf_map_sum, sumsOf_map_sum]
    by_cases hkey : m.name = key.name
    · -- this is the only sum of the name
      have hrest : ∀ l : List (Metrics AttributeSet), (∀ x ∈ l, sumName x ≠ some m.name) →
          sumsOf (seriesPoints sdk key l) = [] := by
        intro l hl
        refine sumsOf_seriesPoints_eq_nil fun x hx t' mono' points' hdata' hxname => hl x hx ?_
        simp [sumName, hdata', hxname, hkey]
      rw [hrest before hbefore, hrest after hafter, hname, if_pos hkey, if_pos hkey, if_pos hkey,
        nil_append, nil_append, append_nil, append_nil, filter_mergeSums]
    · simp only [hname, if_neg hkey]
      rfl
  · intro key
    have hold := h.others key
    dsimp only
    rw [hset, haround, pointsOf_append, othersOf_append, othersOf_append, othersOf_append, hnew,
      othersOf_map_sum, ← hold, hsplit, haround, othersOf_append, othersOf_append,
      seriesPoints_sum hdata, seriesPoints_sum rfl, othersOf_map_sum, othersOf_map_sum]
    simp only [append_nil]

/-- The points of a metric, all of one kind. -/
theorem run_addSeriesPoint {P : Type} {m : Metrics AttributeSet}
    {acc : Accumulated AttributeSet Distinct} {points : List P} (tag : P → SeriesPoint AttributeSet)
    (method : Accumulated AttributeSet Distinct → P →
      Option (Accumulated AttributeSet Distinct × P))
    (hpoints : m.data.points = points.map tag)
    (hmethod : ∀ acc p, addSeriesPoint sdk a acc (metaOf m, tag p) =
      (method acc p).map fun r => (r.1, metaOf m, tag r.2)) :
    Transducer.run (addSeriesPoint sdk a) acc (allPoints [m]) =
      (Transducer.run method acc points).map fun r =>
        (r.1, r.2.map fun point => (metaOf m, tag point)) := by
  have hall : allPoints [m] = points.map fun point => (metaOf m, tag point) := by
    simp [allPoints, hpoints]
  rw [hall]
  exact Transducer.run_map (fun point => (metaOf m, tag point)) (fun point => (metaOf m, tag point))
    hmethod acc points

/-- **One metric.**  The loop advances as the points of the metric do, and collects what
comes out. -/
theorem step (h : Collected sdk t s out) (m : Metrics AttributeSet)
    (hm : ∀ t' mono points, m.data = .sum t' mono points → t' = t) :
    (∃ s' new, accumulateStep sdk a s m = some s' ∧
      Transducer.run (addSeriesPoint sdk a) s.acc (allPoints [m]) = some (s'.acc, new) ∧
      Collected sdk t s' (out ++ new)) ∨
    accumulateStep sdk a s m = none ∧
      Transducer.run (addSeriesPoint sdk a) s.acc (allPoints [m]) = none := by
  -- a metric that is no sum is appended with the points that came out
  have hpush : ∀ {P : Type} (tag : P → SeriesPoint AttributeSet) (points : List P)
      (acc : Accumulated AttributeSet Distinct) (data : Aggregation AttributeSet),
      data.points = points.map tag → sumName { m with data := data } = none →
      Collected sdk t { s with acc := acc, merged := s.merged ++ [{ m with data := data }] }
        (out ++ points.map fun point => (metaOf m, tag point)) := by
    intro P tag points acc data hpoints hname
    convert h.push acc hname using 2
    simp [allPoints, hpoints, metaOf]
  cases hdata : m.data with
  | sum t' mono observations =>
    obtain rfl := hm t' mono observations hdata
    rw [run_addSeriesPoint .sum (a.sumPoint sdk (metaOf m)) (by rw [hdata]; rfl) fun _ _ => rfl]
    obtain ⟨hentry, hacc, hi⟩ := h.sumEntry m mono
    obtain ⟨e, he, hkey⟩ := (hentry.indexed m.name _).mp hi
    have htemporality := hentry.temporality e (mem_of_getElem? he)
    obtain ⟨name, description, unit, data⟩ := e
    cases data with
    | sum t mono' sums =>
      obtain rfl : name = m.name := Option.some.inj hkey
      obtain rfl := htemporality t mono' sums rfl
      simp only [accumulateStep, hdata, he, eachSum_eq, hacc]
      cases Transducer.run (a.sumPoint sdk (metaOf m)) s.acc observations with
      | none => exact .inr ⟨rfl, rfl⟩
      | some r => exact .inl ⟨_, _, rfl, rfl, hentry.setSum r.1 hi he rfl rfl r.2⟩
    | gauge points => cases hkey
    | histogram t points => cases hkey
    | exponentialHistogram t points => cases hkey
  | gauge points =>
    rw [run_addSeriesPoint .gauge (a.gaugePoint sdk (metaOf m)) (by rw [hdata]; rfl)
      fun _ _ => rfl]
    simp only [accumulateStep, hdata]
    cases hrun : Transducer.run (a.gaugePoint sdk (metaOf m)) s.acc points with
    | none => exact .inr ⟨rfl, rfl⟩
    | some r =>
      have hout : r.2 = points := by
        refine Transducer.run_out_eq (fun acc point r hr => ?_) hrun
        rw [Accumulation.gaugePoint, Accumulation.addPoint, Option.map_some] at hr
        cases hr
        rfl
      refine .inl ⟨_, _, rfl, rfl, hpush .gauge r.2 r.1 m.data ?_ ?_⟩
      · rw [hdata, hout]
        rfl
      · simp [sumName, hdata]
  | histogram t' points =>
    rw [run_addSeriesPoint .histogram (a.histogramPoint sdk (metaOf m)) (by rw [hdata]; rfl)
      fun _ _ => rfl]
    simp only [accumulateStep, hdata]
    cases Transducer.run (a.histogramPoint sdk (metaOf m)) s.acc points with
    | none => exact .inr ⟨rfl, rfl⟩
    | some r => exact .inl ⟨_, _, rfl, rfl, hpush .histogram r.2 r.1 _ rfl rfl⟩
  | exponentialHistogram t' points =>
    rw [run_addSeriesPoint .exponential (a.exponentialPoint sdk (metaOf m)) (by rw [hdata]; rfl)
      fun _ _ => rfl]
    simp only [accumulateStep, hdata]
    cases Transducer.run (a.exponentialPoint sdk (metaOf m)) s.acc points with
    | none => exact .inr ⟨rfl, rfl⟩
    | some r => exact .inl ⟨_, _, rfl, rfl, hpush .exponential r.2 r.1 _ rfl rfl⟩

/-- The whole loop. -/
theorem loop (h : Collected sdk t s out) (metrics : List (Metrics AttributeSet))
    (hm : ∀ m ∈ metrics, ∀ t' mono points, m.data = .sum t' mono points → t' = t) :
    (∃ s' new, metrics.foldlM (accumulateStep sdk a) s = some s' ∧
      Transducer.run (addSeriesPoint sdk a) s.acc (allPoints metrics) = some (s'.acc, new) ∧
      Collected sdk t s' (out ++ new)) ∨
    metrics.foldlM (accumulateStep sdk a) s = none ∧
      Transducer.run (addSeriesPoint sdk a) s.acc (allPoints metrics) = none := by
  induction metrics generalizing s out with
  | nil => exact .inl ⟨s, [], rfl, rfl, by rwa [append_nil]⟩
  | cons m metrics ih =>
    have hrun : Transducer.run (addSeriesPoint sdk a) s.acc
        (allPoints [m] ++ allPoints metrics) = _ := Transducer.run_append ..
    rw [← allPoints_append, singleton_append] at hrun
    rw [foldlM_cons, hrun]
    rcases h.step (a := a) m (hm m mem_cons_self) with
      ⟨s₁, new₁, hstep, hpoints, hs₁⟩ | ⟨hstep, hpoints⟩
    · rw [hstep, hpoints]
      rcases ih hs₁ fun m' hm' => hm m' (mem_cons_of_mem _ hm') with
        ⟨s₂, new₂, hrest, hpoints₂, hs₂⟩ | ⟨hrest, hpoints₂⟩
      · refine .inl ⟨s₂, new₁ ++ new₂, hrest, ?_, by rwa [← append_assoc]⟩
        simp only [Option.bind_some, hpoints₂, Option.map_some]
      · refine .inr ⟨hrest, ?_⟩
        simp only [Option.bind_some, hpoints₂, Option.map_none]
    · rw [hstep, hpoints]
      exact .inr ⟨rfl, rfl⟩

end Collected

end

end ConvoyStats.Otlp
