import ConvoyStats.Otlp.ExpoMerging
import ConvoyStats.Otlp.Histograms
import ConvoyStats.Otlp.Series

/-!
# Totals and times of a series

What one export does to a counter or histogram series.  `Carries` says of a point that it
is the total of some observations, `PointTimes` how its times follow from those of the
point before it.  A state is described by the point it would repeat (`Holds`), so that the
repeat of a series without an observation needs no argument of its own.

`exportSeries_total` is the step theorem.  It has one case per kind of series: a counter
folds its observations one by one, and the times move while it does, whereas a histogram
arrives as one data point.
-/

namespace ConvoyStats.Otlp

open List Models

variable {KeyValue AttributeSet Distinct : Type}

/-! ### Times -/

section

def SeriesPoint.startTime : SeriesPoint AttributeSet → Time
  | .sum point | .gauge point => point.startTime
  | .histogram point => point.startTime
  | .exponential point => point.startTime

def SeriesPoint.time : SeriesPoint AttributeSet → Time
  | .sum point | .gauge point => point.time
  | .histogram point => point.time
  | .exponential point => point.time

/-- The earliest time of the point after one at `last`. -/
def nextTime (cumulative : Bool) (last : Time) : Time :=
  if cumulative && last ≠ 0 then last + minPointSpacing else last

theorem SeriesState.times_spec (s : SeriesState AttributeSet) (observed exported : Time)
    (cumulative : Bool) :
    let r := s.times observed exported cumulative
    r.1 = { s with lastTime := r.2.2 } ∧
      r.2.1 = (if !cumulative && s.lastTime ≠ 0 then s.lastTime else s.start) ∧
      nextTime cumulative exported ≤ r.2.2 ∧ observed ≤ r.2.2 ∧ s.lastTime ≤ r.2.2 := by
  refine ⟨rfl, rfl, ?_⟩
  simp only [SeriesState.times, SeriesState.pointTime]
  rw [← nextTime]
  generalize nextTime cumulative exported = floor
  by_cases hfloor : observed < floor
  · simp only [hfloor, if_true]
    split
    · rename_i hlast
      exact ⟨hlast.le, (hfloor.trans hlast).le, le_rfl⟩
    · rename_i hlast
      exact ⟨le_rfl, hfloor.le, not_lt.mp hlast⟩
  · simp only [hfloor, if_false]
    split
    · rename_i hlast
      exact ⟨(not_lt.mp hfloor).trans hlast.le, hlast.le, le_rfl⟩
    · rename_i hlast
      exact ⟨not_lt.mp hfloor, le_rfl, not_lt.mp hlast⟩

/-- **The times of the next point of a series**: from its state before, the observations
the point adds, and its state after. -/
structure PointTimes (cumulative : Bool) (state : Option (SeriesState AttributeSet))
    (observations : List (Metric KeyValue)) (s : SeriesState AttributeSet)
    (point : SeriesPoint AttributeSet) : Prop where
  kept : ∀ before, state = some before → s.start = before.start
  opens : state = none → s.start ≤ s.lastTime
  opens_nonneg : state = none → (∀ m ∈ observations, 0 ≤ m.timestamp) → 0 ≤ s.start
  startTime : point.startTime =
    if !cumulative && lastTimeOf state ≠ 0 then lastTimeOf state else s.start
  time : point.time = s.lastTime
  later : nextTime cumulative (lastTimeOf state) ≤ s.lastTime
  covers : ∀ m ∈ observations, m.timestamp ≤ s.lastTime

/-- The times of a point made by one call of `times`. -/
theorem PointTimes.single {cumulative : Bool} {state : Option (SeriesState AttributeSet)}
    {observations : List (Metric KeyValue)} (s : SeriesState AttributeSet) (observed : Time)
    {s' : SeriesState AttributeSet} {point : SeriesPoint AttributeSet}
    (hkept : ∀ before, state = some before → s.start = before.start)
    (hopens : state = none → s.start = observed) (hlast : s.lastTime = lastTimeOf state)
    (hcovers : ∀ m ∈ observations, m.timestamp ≤ observed)
    (hset : state = none → observed = 0 ∨ ∃ m ∈ observations, observed = m.timestamp)
    (hs' : s'.start = s.start ∧
      s'.lastTime = (s.times observed (lastTimeOf state) cumulative).2.2)
    (hpoint : point.startTime = (s.times observed (lastTimeOf state) cumulative).2.1 ∧
      point.time = (s.times observed (lastTimeOf state) cumulative).2.2) :
    PointTimes cumulative state observations s' point := by
  obtain ⟨-, hstart, hlater, hobserved, -⟩ := s.times_spec observed (lastTimeOf state) cumulative
  generalize s.times observed (lastTimeOf state) cumulative = r at *
  refine ⟨fun before hbefore => hs'.1.trans (hkept before hbefore), fun hnone => ?_,
    fun hnone hnonneg => ?_, ?_, hpoint.2.trans hs'.2.symm, hs'.2 ▸ hlater, fun m hm => ?_⟩
  · rw [hs'.1, hopens hnone, hs'.2]
    exact hobserved
  · rw [hs'.1, hopens hnone]
    rcases hset hnone with rfl | ⟨m, hm, rfl⟩
    · exact le_rfl
    · exact hnonneg m hm
  · rw [hpoint.1, hstart, hs'.1, hlast]
  · rw [hs'.2]
    exact (hcovers m hm).trans hobserved

/-- The times of a sum that one more observation is merged into. -/
theorem PointTimes.merge {cumulative : Bool} {state : Option (SeriesState AttributeSet)}
    {observations : List (Metric KeyValue)} {s s' : SeriesState AttributeSet}
    {held point : SeriesPoint AttributeSet} (m : Metric KeyValue)
    (h : PointTimes cumulative state observations s held)
    (hs' : s'.start = s.start ∧
      s'.lastTime = (s.times m.timestamp (lastTimeOf state) cumulative).2.2)
    (hpoint : point.startTime =
        (if cumulative then (s.times m.timestamp (lastTimeOf state) cumulative).2.1
          else held.startTime) ∧
      point.time = (s.times m.timestamp (lastTimeOf state) cumulative).2.2) :
    PointTimes cumulative state (observations ++ [m]) s' point := by
  obtain ⟨-, hstart, hlater, hobserved, hlast⟩ :=
    s.times_spec m.timestamp (lastTimeOf state) cumulative
  generalize s.times m.timestamp (lastTimeOf state) cumulative = r at *
  refine ⟨fun before hbefore => hs'.1.trans (h.kept before hbefore), fun hnone => ?_,
    fun hnone hnonneg => ?_, ?_, hpoint.2.trans hs'.2.symm, hs'.2 ▸ hlater, fun m' hm' => ?_⟩
  · rw [hs'.1, hs'.2]
    exact (h.opens hnone).trans hlast
  · rw [hs'.1]
    exact h.opens_nonneg hnone fun m' hm' => hnonneg m' (mem_append_left _ hm')
  · rw [hpoint.1, hs'.1]
    cases cumulative with
    | true => simpa using hstart
    | false => simpa using h.startTime
  · rw [hs'.2]
    rcases mem_append.mp hm' with hm' | hm'
    · exact (h.covers m' hm').trans hlast
    · rw [mem_singleton.mp hm']
      exact hobserved

end

/-- Times as they are after some observations of a series. -/
structure Timed (observations : List (Metric KeyValue)) (s : SeriesState AttributeSet) : Prop where
  start_le : s.start ≤ s.lastTime
  covers : ∀ m ∈ observations, m.timestamp ≤ s.lastTime
  nonneg : (∀ m ∈ observations, 0 ≤ m.timestamp) → 0 ≤ s.start

theorem le_nextTime (cumulative : Bool) (last : Time) : last ≤ nextTime cumulative last := by
  unfold nextTime
  split
  · exact le_add_of_nonneg_right (by decide)
  · exact le_rfl

variable {cumulative : Bool} {point : SeriesPoint AttributeSet}

/-- Times do not go back. -/
theorem PointTimes.lastTime_le {state : Option (SeriesState AttributeSet)}
    {observations : List (Metric KeyValue)} {s : SeriesState AttributeSet}
    (h : PointTimes cumulative state observations s point) : lastTimeOf state ≤ s.lastTime :=
  (le_nextTime cumulative _).trans h.later

/-- Times after one more point. -/
theorem PointTimes.timed {state : Option (SeriesState AttributeSet)}
    {before observations : List (Metric KeyValue)} {s : SeriesState AttributeSet}
    (h : PointTimes cumulative state observations s point) (hnone : state = none → before = [])
    (hsome : ∀ s₀, state = some s₀ → Timed before s₀) : Timed (before ++ observations) s := by
  cases state with
  | none =>
    rw [hnone rfl, nil_append]
    exact ⟨h.opens rfl, h.covers, h.opens_nonneg rfl⟩
  | some s₀ =>
    have hbefore := hsome s₀ rfl
    have hlast : s₀.lastTime ≤ s.lastTime := h.lastTime_le
    have hstart := h.kept s₀ rfl
    refine ⟨?_, fun m hm => ?_, fun hnonneg => ?_⟩
    · rw [hstart]
      exact hbefore.start_le.trans hlast
    · rcases mem_append.mp hm with hm | hm
      · exact (hbefore.covers m hm).trans hlast
      · exact h.covers m hm
    · rw [hstart]
      exact hbefore.nonneg fun m hm => hnonneg m (mem_append_left _ hm)

/-! ### Totals -/

section

variable (sdk : Sdk KeyValue AttributeSet Distinct) (config : OTLPConfig) (name : String)
variable (type : MetricType)

/-- **The point is the total of the observations**, as a point of a series of this name and
type should be. -/
def Carries (observations : List (Metric KeyValue)) : SeriesPoint AttributeSet → Prop
  | .sum point => type = .counter ∧ point.value = (observations.map (·.value)).sum
  | .histogram point =>
    type = .histogram ∧ config.usesExponential name = false ∧
      HistogramOf (config.bounds name) (observations.map (·.value)) point.value
  | .exponential point =>
    type = .histogram ∧ config.usesExponential name = true ∧
      ∃ settings, config.exponentialHistogram = some settings ∧
        ((∀ v ∈ observations.filterMap finiteValue, FiniteDouble v) →
          point.value = (recordAll (expoIndex sdk.log2) settings.resolved.maxSize
            settings.resolved.maxScale (observations.filterMap finiteValue)).snapshot)
  | .gauge _ => False

/-- The state of a series holds the total of the observations: this is what it repeats. -/
def Holds (observations : List (Metric KeyValue)) (s : SeriesState AttributeSet) : Prop :=
  ∀ start time, ∃ point, s.repeated start time = some point ∧
    Carries sdk config name type observations point ∧
    point.startTime = start ∧ point.time = time

/-- The state of a series with the observations so far. -/
def Stands (observations : List (Metric KeyValue)) : Option (SeriesState AttributeSet) → Prop
  | none => observations = []
  | some s =>
    observations ≠ [] ∧ (config.delta = false → Holds sdk config name type observations s)

/-- **One export of a series**, from its state before, the observations up to it and in it,
and the state after with the point it carries. -/
structure Advanced (before : List (Metric KeyValue)) (state : Option (SeriesState AttributeSet))
    (observations : List (Metric KeyValue)) (s : SeriesState AttributeSet)
    (point : SeriesPoint AttributeSet) : Prop where
  observed : before ++ observations ≠ []
  times : PointTimes (!config.delta) state observations s point
  carries : Carries sdk config name type
    (if config.delta then observations else before ++ observations) point
  holds : config.delta = false → Holds sdk config name type (before ++ observations) s

end

section

variable {sdk : Sdk KeyValue AttributeSet Distinct} {config : OTLPConfig} {name : String}
variable {observations before : List (Metric KeyValue)} {s : SeriesState AttributeSet}
variable {state : Option (SeriesState AttributeSet)}

variable {type : MetricType}

/-- What a state holds, by the kind of its series. -/
theorem Holds.inv (h : Holds sdk config name type observations s) :
    (type = .counter ∧ s.sum = (observations.map (·.value)).sum) ∨
    (type = .histogram ∧ config.usesExponential name = false ∧
      HistogramOf (config.bounds name) (observations.map (·.value)) s.histogram.value) ∨
    (type = .histogram ∧ config.usesExponential name = true ∧
      ∃ settings, config.exponentialHistogram = some settings ∧
        ((∀ v ∈ observations.filterMap finiteValue, FiniteDouble v) →
          s.exponential.value = (recordAll (expoIndex sdk.log2) settings.resolved.maxSize
            settings.resolved.maxScale (observations.filterMap finiteValue)).snapshot)) := by
  obtain ⟨point, hpoint, hcarries, -⟩ := h 0 0
  unfold SeriesState.repeated at hpoint
  split at hpoint
  · cases hpoint
    exact .inl hcarries
  · cases hpoint
    exact hcarries.elim
  · cases hpoint
    exact .inr (.inl hcarries)
  · cases hpoint
    exact .inr (.inr hcarries)
  · cases hpoint

variable [Inhabited AttributeSet]

/-! ### The repeat of a series -/

/-- **A cumulative series without an observation is repeated.** -/
theorem exportSeries_repeated (hdelta : config.delta = false) (hne : before ≠ [])
    (h : Holds sdk config name type before s) (now : Time) :
    ∃ s' point, exportSeries config (some s) now [] = some (some s', [point]) ∧
      Advanced sdk config name type before (some s) [] s' point := by
  obtain ⟨point, hpoint, hcarries, hstart, htime⟩ :=
    h (s.times now s.lastTime true).2.1 (s.times now s.lastTime true).2.2
  refine ⟨(s.times now s.lastTime true).1, point, ?_, by simpa using hne, ?_, ?_, fun _ => ?_⟩
  · have hrepeated : (s.times now s.lastTime true).1.repeated (s.times now s.lastTime true).2.1
        (s.times now s.lastTime true).2.2 = some point := hpoint
    simp only [exportSeries, hdelta, Bool.false_eq_true, if_false]
    rw [hrepeated]
    rfl
  · refine PointTimes.single s now ?_ (by simp) rfl (by simp) (by simp) ?_ ?_
    · rintro _ ⟨⟩
      rfl
    · rw [hdelta]
      exact ⟨rfl, rfl⟩
    · rw [hdelta]
      exact ⟨hstart, htime⟩
  · rw [hdelta, if_neg Bool.false_ne_true, append_nil]
    exact hcarries
  · rw [append_nil]
    exact h

/-! ### Counters -/

omit [Inhabited AttributeSet] in
theorem SeriesState.sumPoint_eq (s : SeriesState AttributeSet) (cumulative : Bool)
    (exported : Time) (point : DataPoint AttributeSet Float64) :
    s.sumPoint cumulative exported point =
      ({ (s.times point.time exported cumulative).1 with
          sum := if cumulative then s.sum + point.value else .finite 0 },
        { point with
          startTime := (s.times point.time exported cumulative).2.1
          time := (s.times point.time exported cumulative).2.2
          value := if cumulative then s.sum + point.value else point.value }) := by
  cases cumulative <;> rfl

/-- The total of a counter before an export. -/
def sumBefore (state : Option (SeriesState AttributeSet)) : Float64 := (state.map (·.sum)).getD 0

variable (sdk state) in
/-- **A counter folds its observations.** -/
theorem seriesRun_sums (cumulative : Bool) (maxSize : ℤ) (t : Temporality)
    (ht : t = if cumulative then .cumulative else .delta) (observations : List (Metric KeyValue))
    (hne : observations ≠ []) :
    ∃ s out held,
      seriesRun cumulative maxSize (lastTimeOf state) state
        ((observations.filterMap (plainPoint sdk .counter)).map (SeriesMeta.blank, ·)) =
          some (some s, out.map .sum) ∧
      mergeAll t out = [held] ∧ s.kind = some .sum ∧
      PointTimes cumulative state observations s (.sum held) ∧
      (cumulative = true → s.sum = sumBefore state + (observations.map (·.value)).sum) ∧
      held.value = if cumulative then s.sum else (observations.map (·.value)).sum := by
  induction observations using reverseRecOn with
  | nil => exact absurd rfl hne
  | append_singleton observations m ih =>
    rw [filterMap_append, map_append, seriesRun, Transducer.run_append,
      map_append, sum_append, map_singleton, sum_singleton]
    by_cases hnil : observations = []
    · subst hnil
      refine ⟨_, [_], _, rfl, rfl, ?_, ?_, ?_, ?_⟩
      · rw [SeriesState.sumPoint_eq]
        rfl
      · rw [SeriesState.sumPoint_eq]
        refine PointTimes.single (opened state .blank (sdk.newSet m.attributes) .sum m.timestamp)
          m.timestamp ?_ ?_ ?_ ?_ ?_ ⟨rfl, rfl⟩ ⟨rfl, rfl⟩
        · rintro _ rfl
          rfl
        · rintro rfl
          rfl
        · cases state <;> rfl
        · intro m' hm'
          rw [mem_singleton.mp hm']
        · exact fun _ => .inr ⟨m, mem_singleton_self m, rfl⟩
      · rintro rfl
        rw [SeriesState.sumPoint_eq, map_nil, sum_nil, zero_add]
        cases state <;> rfl
      · rw [SeriesState.sumPoint_eq, map_nil, sum_nil, zero_add]
        cases cumulative <;> rfl
    · obtain ⟨s, out, held, hrun, hmerge, hkind, htimes, hsum, hvalue⟩ := ih hnil
      rw [seriesRun] at hrun
      rw [hrun]
      obtain ⟨r, hr⟩ : ∃ r, r = (opened (some s) .blank (sdk.newSet m.attributes) .sum
          m.timestamp).sumPoint cumulative (lastTimeOf state)
            ⟨sdk.newSet m.attributes, 0, m.timestamp, m.value, exemplarOf m⟩ := ⟨_, rfl⟩
      refine ⟨r.1, out ++ [r.2], _, ?_, mergeAll_concat t r.2 hmerge, ?_, ?_, ?_, ?_⟩
      · rw [map_append, hr]
        rfl
      all_goals rw [hr, SeriesState.sumPoint_eq]
      · rfl
      · subst ht
        refine htimes.merge m ⟨rfl, rfl⟩ ?_
        cases cumulative <;> exact ⟨rfl, rfl⟩
      · rintro rfl
        rw [← add_assoc, ← hsum rfl]
        rfl
      · subst ht
        cases cumulative with
        | true => rfl
        | false =>
          rw [add_comm (observations.map (·.value)).sum]
          exact congrArg (m.value + ·) hvalue

/-- **An export of a counter series.** -/
theorem exportSeries_counter (hbefore : Stands sdk config name .counter before state)
    (hne : observations ≠ []) (now : Time) :
    ∃ s point, exportSeries config state now (observations.filterMap (plainPoint sdk .counter)) =
        some (some s, [point]) ∧
      Advanced sdk config name .counter before state observations s point := by
  obtain ⟨s, out, held, hrun, hmerge, hkind, htimes, hsum, hvalue⟩ := seriesRun_sums sdk state
    (!config.delta) (expoMaxSize config) config.metricTemporality
    (by rw [OTLPConfig.metricTemporality]; cases config.delta <;> rfl) observations hne
  have hpoints : observations.filterMap (plainPoint sdk .counter) ≠ [] := by
    cases observations with
    | nil => exact absurd rfl hne
    | cons m observations => exact cons_ne_nil _ _
  have hcumulative : config.delta = false →
      s.sum = ((before ++ observations).map (·.value)).sum := by
    intro hdelta
    rw [hsum (by rw [hdelta]; rfl), map_append, sum_append]
    cases state with
    | none =>
      rw [show before = [] from hbefore]
      rfl
    | some s₀ =>
      rcases (hbefore.2 hdelta).inv with ⟨-, htotal⟩ | ⟨htype, -⟩ | ⟨htype, -⟩
      · rw [sumBefore, Option.map_some, Option.getD_some, htotal]
      · cases htype
      · cases htype
  refine ⟨s, .sum held, ?_, by simp [hne], htimes, ⟨rfl, ?_⟩, fun hdelta start time => ?_⟩
  · rw [exportSeries_of_ne_nil _ _ _ hpoints, hrun, Option.map_some, sumsOf_map_sum,
      othersOf_map_sum, hmerge]
    rfl
  · rw [hvalue]
    cases hdelta : config.delta with
    | true => rfl
    | false => exact hcumulative hdelta
  · refine ⟨.sum ⟨s.attributes, start, time, s.sum, []⟩, ?_, ⟨rfl, hcumulative hdelta⟩, rfl, rfl⟩
    rw [SeriesState.repeated, hkind]

/-! ### Histograms -/

/-- A series that gets one data point which is not a sum. -/
theorem exportSeries_single {out : SeriesPoint AttributeSet}
    (hstep : seriesStep (!config.delta) (expoMaxSize config) (lastTimeOf state) state
      (.blank, point) = some (s, out)) (hkind : point.kind ≠ .sum) (now : Time) :
    exportSeries config state now [point] = some (some s, [out]) := by
  have hout : out.kind ≠ .sum := (seriesStep_attributes hstep).2 ▸ hkind
  rw [exportSeries_of_ne_nil _ _ _ (cons_ne_nil _ _), map_singleton, seriesRun,
    Transducer.run_cons, hstep]
  cases out with
  | sum p => exact absurd rfl hout
  | gauge p => rfl
  | histogram p => rfl
  | exponential p => rfl

/-- The state a data point of a series finds. -/
theorem pointTimes_opened (seriesMeta : SeriesMeta) (attributes : AttributeSet) (kind : SeriesKind)
    {observed : Time} (hcovers : CoversTimes observations observed)
    (hs : s.start = (opened state seriesMeta attributes kind observed).start ∧
      s.lastTime = ((opened state seriesMeta attributes kind observed).times observed
        (lastTimeOf state) cumulative).2.2)
    (hpoint : point.startTime = ((opened state seriesMeta attributes kind observed).times observed
        (lastTimeOf state) cumulative).2.1 ∧
      point.time = ((opened state seriesMeta attributes kind observed).times observed
        (lastTimeOf state) cumulative).2.2) : PointTimes cumulative state observations s point := by
  refine PointTimes.single _ observed ?_ ?_ ?_ hcovers.covers (fun _ => hcovers.unset_or_mem) hs
    hpoint
  · rintro _ rfl
    rfl
  · rintro rfl
    rfl
  · cases state <;> rfl

/-- What a data point of a histogram leaves of its series. -/
structure PointLeft {V : Type} (before : SeriesState AttributeSet) (cumulative : Bool)
    (observed exported : Time) (s : SeriesState AttributeSet) (stored : V)
    (out : DataPoint AttributeSet V) : Prop where
  start : s.start = before.start
  lastTime : s.lastTime = (before.times observed exported cumulative).2.2
  kind : s.kind = before.kind
  startTime : out.startTime = (before.times observed exported cumulative).2.1
  time : out.time = (before.times observed exported cumulative).2.2
  stored : cumulative = true → stored = out.value

theorem SeriesState.histogramPoint_spec (s : SeriesState AttributeSet) {known : Bool}
    (exported : Time) {point : DataPoint AttributeSet HistogramValues} {value : HistogramValues}
    (hvalue : (if cumulative && known then addHistogram point.value s.histogram.value
      else some point.value) = some value) :
    ∃ s' out, s.histogramPoint cumulative exported known point = some (s', out) ∧
      out.value = value ∧
      PointLeft s cumulative point.time exported s' s'.histogram.value out := by
  rw [SeriesState.histogramPoint, hvalue]
  cases cumulative with
  | true => exact ⟨_, _, rfl, rfl, rfl, rfl, rfl, rfl, rfl, fun _ => rfl⟩
  | false => exact ⟨_, _, rfl, rfl, rfl, rfl, rfl, rfl, rfl, by simp⟩

theorem SeriesState.exponentialPoint_spec (s : SeriesState AttributeSet) (cumulative known : Bool)
    (exported : Time) (maxSize : ℤ) (point : DataPoint AttributeSet ExpoValues) :
    ∃ s' out, s.exponentialPoint cumulative exported known maxSize point = (s', out) ∧
      out.value = (if cumulative && known then addExponential point s.exponential maxSize
        else point).value ∧
      PointLeft s cumulative point.time exported s' s'.exponential.value out := by
  cases cumulative with
  | true => cases known <;> exact ⟨_, _, rfl, rfl, rfl, rfl, rfl, rfl, rfl, fun _ => rfl⟩
  | false => exact ⟨_, _, rfl, rfl, rfl, rfl, rfl, rfl, rfl, nofun⟩

/-- **An export of an explicit histogram series.** -/
theorem exportSeries_explicit (hbefore : Stands sdk config name .histogram before state)
    (hexplicit : config.usesExponential name = false) (hne : observations ≠ [])
    (hname : ∀ m ∈ observations, m.name = name) (now : Time) :
    ∃ s point, exportSeries config state now
        ((explicitPoint sdk config observations).map .histogram) = some (some s, [point]) ∧
      Advanced sdk config name .histogram before state observations s point := by
  obtain ⟨point, hpoint, hhistogram, htime⟩ := explicitPoint_spec sdk config hne hname
  -- nothing is added to the first point, nor to a delta point
  obtain ⟨value, hvalue, hcarried⟩ : ∃ value,
      (if !config.delta && state.isSome then addHistogram point.value
        (opened state .blank point.attributes .histogram point.time).histogram.value
        else some point.value) = some value ∧
      HistogramOf (config.bounds name)
        ((if config.delta then observations else before ++ observations).map (·.value)) value := by
    cases hdelta : config.delta with
    | true => exact ⟨point.value, rfl, hhistogram⟩
    | false =>
      cases state with
      | none =>
        rw [show before = [] from hbefore]
        exact ⟨point.value, rfl, hhistogram⟩
      | some s₀ =>
        rcases (hbefore.2 hdelta).inv with ⟨htype, -⟩ | ⟨-, -, htotal⟩ | ⟨-, hexponential, -⟩
        · cases htype
        · simp only [if_false, map_append, Bool.false_eq_true]
          exact hhistogram.add htotal
        · cases hexplicit.symm.trans hexponential
  obtain ⟨s, out, hstep, rfl, hleft⟩ := SeriesState.histogramPoint_spec _ (lastTimeOf state) hvalue
  refine ⟨s, .histogram out, ?_, by simp [hne], ?_, ⟨rfl, hexplicit, hcarried⟩,
    fun hdelta start time => ?_⟩
  · rw [hpoint]
    refine exportSeries_single ?_ (fun hkind => by cases hkind) now
    rw [seriesStep]
    dsimp only
    rw [hstep]
    rfl
  · exact pointTimes_opened .blank point.attributes .histogram htime ⟨hleft.start, hleft.lastTime⟩
      ⟨hleft.startTime, hleft.time⟩
  · refine ⟨.histogram { s.histogram with startTime := start, time := time }, ?_,
      ⟨rfl, hexplicit, ?_⟩, rfl, rfl⟩
    · rw [SeriesState.repeated, hleft.kind]
      rfl
    · rw [hdelta] at hcarried
      dsimp only
      rw [hleft.stored (by rw [hdelta]; rfl)]
      exact hcarried

/-- **An export of an exponential histogram series.** -/
theorem exportSeries_exponential (hbefore : Stands sdk config name .histogram before state)
    {settings : OTLPExponentialHistogram} (hsettings : config.exponentialHistogram = some settings)
    (hexponential : config.usesExponential name = true) (hne : observations ≠ []) (now : Time) :
    ∃ s point, exportSeries config state now
        ((exponentialPoint sdk settings.resolved observations).map .exponential) =
          some (some s, [point]) ∧
      Advanced sdk config name .histogram before state observations s point := by
  obtain ⟨point, hpoint, hvalue, htime⟩ := exponentialPoint_spec sdk settings.resolved hne
  obtain ⟨s, out, hstep, hout, hleft⟩ := SeriesState.exponentialPoint_spec
    (opened state .blank point.attributes .exponential point.time) (!config.delta) state.isSome
    (lastTimeOf state) (expoMaxSize config) point
  have hcarried : (∀ v ∈ (if config.delta then observations else before ++ observations).filterMap
        finiteValue, FiniteDouble v) →
      out.value = (recordAll (expoIndex sdk.log2) settings.resolved.maxSize
        settings.resolved.maxScale ((if config.delta then observations
          else before ++ observations).filterMap finiteValue)).snapshot := by
    intro hfinite
    rw [hout]
    cases hdelta : config.delta with
    | true => exact hvalue
    | false =>
      cases state with
      | none =>
        rw [show before = [] from hbefore]
        exact hvalue
      | some s₀ =>
        rw [hdelta, if_neg Bool.false_ne_true, filterMap_append] at hfinite
        rcases (hbefore.2 hdelta).inv with ⟨htype, -⟩ | ⟨-, hexplicit, -⟩ |
          ⟨-, -, settings', hsettings', htotal⟩
        · cases htype
        · cases hexponential.symm.trans hexplicit
        · cases hsettings.symm.trans hsettings'
          rw [if_neg Bool.false_ne_true, filterMap_append]
          have hsize : expoMaxSize config = settings.resolved.maxSize := by
            rw [expoMaxSize, hsettings]
            rfl
          rw [hsize]
          exact addExponential_snapshot _ _
            (fun v hv => hfinite v (mem_append_right _ hv))
            (fun v hv => hfinite v (mem_append_left _ hv)) hvalue
            (htotal fun v hv => hfinite v (mem_append_left _ hv))
  refine ⟨s, .exponential out, ?_, by simp [hne], ?_,
    ⟨rfl, hexponential, settings, hsettings, hcarried⟩, fun hdelta start time => ?_⟩
  · rw [hpoint]
    refine exportSeries_single ?_ (fun hkind => by cases hkind) now
    rw [seriesStep]
    dsimp only
    rw [hstep]
  · exact pointTimes_opened .blank point.attributes .exponential htime
      ⟨hleft.start, hleft.lastTime⟩ ⟨hleft.startTime, hleft.time⟩
  · refine ⟨.exponential { copyExponential s.exponential with startTime := start, time := time },
      ?_, ⟨rfl, hexponential, settings, hsettings, fun hfinite => ?_⟩, rfl, rfl⟩
    · rw [SeriesState.repeated, hleft.kind]
      rfl
    · rw [hdelta] at hcarried
      exact (hleft.stored (by rw [hdelta]; rfl)).trans (hcarried hfinite)

/-! ### Any series with a total -/

/-- **The step theorem.**  An export has one point of a counter or histogram series, unless
there is nothing to say about it. -/
theorem exportSeries_total (htype : type = .counter ∨ type = .histogram)
    (hbefore : Stands sdk config name type before state) (hname : ∀ m ∈ observations, m.name = name)
    (now : Time) :
    (observations = [] ∧ (config.delta = true ∨ before = []) ∧
      exportSeries config state now (typePoints sdk config name type observations) =
        some (state, [])) ∨
    (observations ≠ [] ∨ config.delta = false) ∧ ∃ s point,
      exportSeries config state now (typePoints sdk config name type observations) =
          some (some s, [point]) ∧
        Advanced sdk config name type before state observations s point := by
  by_cases hne : observations = []
  · subst hne
    rw [typePoints_nil]
    cases state with
    | none => exact .inl ⟨rfl, .inr hbefore, rfl⟩
    | some s =>
      cases hdelta : config.delta with
      | true => exact .inl ⟨rfl, .inl rfl, by simp [exportSeries, hdelta]⟩
      | false =>
        exact .inr ⟨.inr rfl, exportSeries_repeated hdelta hbefore.1 (hbefore.2 hdelta) now⟩
  · refine .inr ⟨.inl hne, ?_⟩
    rcases htype with rfl | rfl
    · exact exportSeries_counter hbefore hne now
    · rcases typePoints_histogram sdk config name observations with
        ⟨settings, hsettings, huses, hpoints⟩ | ⟨huses, hpoints⟩
      · rw [hpoints]
        exact exportSeries_exponential hbefore hsettings huses hne now
      · rw [hpoints]
        exact exportSeries_explicit hbefore huses hne hname now

end

end ConvoyStats.Otlp
