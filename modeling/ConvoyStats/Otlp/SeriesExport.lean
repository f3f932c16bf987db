import Mathlib.Data.List.Induction
import ConvoyStats.Otlp.SeriesView
import ConvoyStats.Otlp.Exporter

/-!
# One series through an export

`exportMetrics_view` takes an export apart into its series.  What it leaves of a series and
the points it carries of it are determined by the state of that series and by its own
observations (`seriesRun`), or, where it has none and totals are cumulative, by the repeat
of its state.  Everything else about the exporter is proved for one series at a time.
-/

namespace ConvoyStats.Otlp

open List Models

variable {KeyValue AttributeSet Distinct : Type}

/-- The time of the last point of a series. -/
def lastTimeOf (state : Option (SeriesState AttributeSet)) : Time :=
  (state.map (·.lastTime)).getD 0

section

variable [Inhabited AttributeSet]

/-- The points of one series in an export, one after the other. -/
def seriesRun (cumulative : Bool) (expoMaxSize : ℤ) (exported : Time) :
    Option (SeriesState AttributeSet) → List (SeriesMeta × SeriesPoint AttributeSet) →
      Option (Option (SeriesState AttributeSet) × List (SeriesPoint AttributeSet)) :=
  Transducer.run fun state x =>
    (seriesStep cumulative expoMaxSize exported state x).map fun r => (some r.1, r.2)

theorem seriesRun_cons (cumulative : Bool) (expoMaxSize : ℤ) (exported : Time)
    (state : Option (SeriesState AttributeSet)) (x : SeriesMeta × SeriesPoint AttributeSet)
    (xs : List (SeriesMeta × SeriesPoint AttributeSet)) :
    seriesRun cumulative expoMaxSize exported state (x :: xs) =
      (seriesStep cumulative expoMaxSize exported state x).bind fun r =>
        (seriesRun cumulative expoMaxSize exported (some r.1) xs).map fun rest =>
          (rest.1, r.2 :: rest.2) := by
  rw [seriesRun, Transducer.run_cons, Option.bind_map]
  rfl

/-- A view is run as its series is. -/
theorem run_viewStep (a : Accumulation AttributeSet Distinct) [DecidableEq Distinct]
    (key : HistogramKey Distinct) (view : Option (SeriesState AttributeSet) × Bool)
    (xs : List (SeriesMeta × SeriesPoint AttributeSet)) :
    (Transducer.run (viewStep a key) view xs).map (fun r => (r.1, r.2.map (·.2))) =
      (seriesRun a.cumulative a.expoMaxSize (a.exportedTime key) view.1 xs).map fun r =>
        ((r.1, view.2 || !xs.isEmpty), r.2) := by
  induction xs generalizing view with
  | nil => simp [seriesRun]
  | cons x xs ih =>
    rw [seriesRun, Transducer.run_cons, Transducer.run_cons, viewStep]
    cases seriesStep a.cumulative a.expoMaxSize (a.exportedTime key) view.1 x with
    | none => rfl
    | some r =>
      have h := congrArg (Option.map fun q => (q.1, r.2 :: q.2)) (ih (some r.1, true))
      simp only [seriesRun, Option.map_map, Function.comp_def] at h
      simpa [Function.comp_def] using h

end

/-! ### Series without an observation -/

section

variable [DecidableEq Distinct] {sdk : Sdk KeyValue AttributeSet Distinct}

omit [DecidableEq Distinct] in
theorem points_addRepeated {data data' : Aggregation AttributeSet}
    {point : SeriesPoint AttributeSet}
    (h : data.addRepeated point = some data') : data'.points = data.points ++ [point] := by
  cases data <;> cases point <;> cases h <;> simp [Aggregation.points]

omit [DecidableEq Distinct] in
theorem points_alone (point : SeriesPoint AttributeSet) : point.alone.points = [point] := by
  cases point <;> rfl

variable (sdk) in
/-- A point appended somewhere among the metrics. -/
theorem seriesPoints_appendUnobserved (key : HistogramKey Distinct) (seriesMeta : SeriesMeta)
    (point : SeriesPoint AttributeSet) (metrics : List (Metrics AttributeSet)) :
    ∃ before after, seriesPoints sdk key metrics = before ++ after ∧
      seriesPoints sdk key (appendUnobserved seriesMeta point metrics) =
        before ++ (if pointKey sdk (seriesMeta, point) = key then [point] else []) ++ after := by
  -- the point in a metric of its name
  have hone : ∀ (m : Metrics AttributeSet) (points : List (SeriesPoint AttributeSet)),
      m.name = seriesMeta.name → m.data.points = points ++ [point] →
      seriesPoints sdk key [m] =
        (if m.name = key.name then
          points.filter fun p => sdk.equivalent p.attributes = key.attributes else []) ++
        if pointKey sdk (seriesMeta, point) = key then [point] else [] := by
    intro m points hname hpoints
    have hkey : pointKey sdk (seriesMeta, point) = key ↔
        m.name = key.name ∧ sdk.equivalent point.attributes = key.attributes := by
      obtain ⟨name, attributes⟩ := key
      simp [pointKey, hname]
    rw [seriesPoints_singleton, hpoints]
    by_cases hm : m.name = key.name
    · by_cases hp : sdk.equivalent point.attributes = key.attributes <;> simp [hkey, hm, hp]
    · simp [hkey, hm]
  induction metrics with
  | nil =>
    refine ⟨[], [], rfl, ?_⟩
    rw [appendUnobserved, hone _ [] rfl (points_alone point)]
    simp
  | cons m metrics ih =>
    rw [appendUnobserved]
    split
    · rename_i data hdata
      split at hdata
      · rename_i hname
        refine ⟨seriesPoints sdk key [m], seriesPoints sdk key metrics, seriesPoints_cons .., ?_⟩
        rw [seriesPoints_cons, hone { m with data := data } m.data.points hname
          (points_addRepeated hdata), seriesPoints_singleton m]
      · cases hdata
    · obtain ⟨before, after, hold, hnew⟩ := ih
      refine ⟨seriesPoints sdk key [m] ++ before, after, ?_, ?_⟩
      · rw [seriesPoints_cons, hold, append_assoc]
      · rw [seriesPoints_cons, hnew]
        simp only [append_assoc]

/-- The state of a series is kept under its name and attribute set. -/
structure NamedAs (sdk : Sdk KeyValue AttributeSet Distinct) (key : HistogramKey Distinct)
    (s : SeriesState AttributeSet) : Prop where
  kind : s.kind ≠ none
  name : s.seriesMeta.name = key.name
  attributes : sdk.equivalent s.attributes = key.attributes
  histogram : s.kind = some .histogram → sdk.equivalent s.histogram.attributes = key.attributes
  exponential : s.kind = some .exponential →
    sdk.equivalent s.exponential.attributes = key.attributes

variable {key : HistogramKey Distinct} {s : SeriesState AttributeSet}

omit [DecidableEq Distinct] in
/-- The repeat of a series belongs to it. -/
theorem NamedAs.repeated (h : NamedAs sdk key s) {start time : Time}
    {point : SeriesPoint AttributeSet} (hpoint : s.repeated start time = some point) :
    pointKey sdk (s.seriesMeta, point) = key := by
  have hattributes : sdk.equivalent point.attributes = key.attributes := by
    unfold SeriesState.repeated at hpoint
    split at hpoint
    · cases hpoint
      exact h.attributes
    · cases hpoint
      exact h.attributes
    · rename_i hkind
      cases hpoint
      exact h.histogram hkind
    · rename_i hkind
      cases hpoint
      exact h.exponential hkind
    · cases hpoint
  obtain ⟨name, attributes⟩ := key
  simp only [pointKey, h.name, hattributes]

variable {a : Accumulation AttributeSet Distinct} {now : Time}

/-- What `unobserved` makes of a series that has no observation. -/
def repeatSeries (a : Accumulation AttributeSet Distinct) (now : Time) (key : HistogramKey Distinct)
    (s : SeriesState AttributeSet) : SeriesState AttributeSet × List (SeriesPoint AttributeSet) :=
  let r := s.times now (a.exportedTime key) a.cumulative
  (r.1, (r.1.repeated r.2.1 r.2.2).toList)

omit [DecidableEq Distinct] in
theorem NamedAs.times (h : NamedAs sdk key s) (observed exported : Time) (cumulative : Bool) :
    NamedAs sdk key (s.times observed exported cumulative).1 :=
  ⟨h.kind, h.name, h.attributes, h.histogram, h.exponential⟩

variable (a now) in
/-- One round, from the series it is about and from the others. -/
theorem unobservedStep_view (acc : Accumulated AttributeSet Distinct)
    (metrics : List (Metrics AttributeSet)) (hseen : key ∉ acc.seen)
    (hs : acc.next.lookup key = some s) (hnamed : NamedAs sdk key s)
    (hblank : seriesPoints sdk key metrics = []) : let r := unobservedStep a now (acc, metrics) key
    r.1.seen = acc.seen ∧
      r.1.next = acc.next.insert key (repeatSeries a now key s).1 ∧
      seriesPoints sdk key r.2 = (repeatSeries a now key s).2 ∧
      ∀ key', key' ≠ key → seriesPoints sdk key' r.2 = seriesPoints sdk key' metrics := by
  have hnamed' := hnamed.times now (a.exportedTime key) a.cumulative
  simp only [unobservedStep, if_neg hseen, hs, repeatSeries]
  refine ⟨trivial, trivial, ?_, ?_⟩
  · split
    · rename_i point hpoint
      obtain ⟨before, after, hold, hnew⟩ := seriesPoints_appendUnobserved sdk key
        (s.times now (a.exportedTime key) a.cumulative).1.seriesMeta point metrics
      rw [hblank] at hold
      obtain ⟨rfl, rfl⟩ := append_eq_nil_iff.mp hold.symm
      rw [hnew, if_pos (hnamed'.repeated hpoint), hpoint]
      rfl
    · rename_i hpoint
      rw [hblank, hpoint]
      rfl
  · intro key' hne
    split
    · rename_i point hpoint
      obtain ⟨before, after, hold, hnew⟩ := seriesPoints_appendUnobserved sdk key'
        (s.times now (a.exportedTime key) a.cumulative).1.seriesMeta point metrics
      rw [hnew, hold, hnamed'.repeated hpoint, if_neg (Ne.symm hne), append_nil]
    · rfl

/-- What the rounds for the series of `order` have made of each series. -/
structure Repeated (sdk : Sdk KeyValue AttributeSet Distinct)
    (a : Accumulation AttributeSet Distinct) (now : Time) (acc : Accumulated AttributeSet Distinct)
    (metrics : List (Metrics AttributeSet)) (order : List (HistogramKey Distinct))
    (r : Accumulated AttributeSet Distinct × List (Metrics AttributeSet)) : Prop where
  seen : r.1.seen = acc.seen
  done : ∀ key ∈ order, key ∉ acc.seen → ∀ s, acc.next.lookup key = some s →
    r.1.next.lookup key = some (repeatSeries a now key s).1 ∧
      seriesPoints sdk key r.2 = (repeatSeries a now key s).2
  rest : ∀ key, key ∉ order ∨ key ∈ acc.seen ∨ acc.next.lookup key = none →
    r.1.next.lookup key = acc.next.lookup key ∧
      seriesPoints sdk key r.2 = seriesPoints sdk key metrics

variable (a now) in
/-- **The loop of `unobserved`, series by series.** -/
theorem repeated_foldl (order : List (HistogramKey Distinct)) (hnodup : order.Nodup)
    (acc : Accumulated AttributeSet Distinct) (metrics : List (Metrics AttributeSet))
    (hnamed : ∀ key s, acc.next.lookup key = some s → NamedAs sdk key s)
    (hblank : ∀ key, key ∉ acc.seen → seriesPoints sdk key metrics = []) :
    Repeated sdk a now acc metrics order (order.foldl (unobservedStep a now) (acc, metrics)) := by
  induction order using reverseRecOn with
  | nil => exact ⟨rfl, nofun, fun _ _ => ⟨rfl, rfl⟩⟩
  | append_singleton order last ih =>
    obtain ⟨hnodup, -, hlast⟩ := nodup_append.mp hnodup
    have hlast : last ∉ order := fun hmem => hlast last hmem last (mem_singleton_self _) rfl
    have hr := ih hnodup
    rw [foldl_append]
    generalize order.foldl (unobservedStep a now) (acc, metrics) = r at hr ⊢
    obtain ⟨acc', metrics'⟩ := r
    have hstate := hr.rest last (.inl hlast)
    rw [foldl_cons, foldl_nil]
    by_cases hdue : last ∉ acc.seen ∧ ∃ s, acc.next.lookup last = some s
    · obtain ⟨hseen, s, hs⟩ := hdue
      obtain ⟨hseen', hnext, hself, hother⟩ := unobservedStep_view a now acc'
        metrics' (hr.seen ▸ hseen) (hstate.1.trans hs) (hnamed last s hs)
        (hstate.2.trans (hblank last hseen))
      refine ⟨hseen'.trans hr.seen, fun key hkey hkeyseen s' hs' => ?_, fun key hkey => ?_⟩
      · by_cases hlk : key = last
        · subst hlk
          cases hs.symm.trans hs'
          exact ⟨by rw [hnext, AList.lookup_insert], hself⟩
        · have hmem : key ∈ order := by simpa [hlk] using hkey
          rw [hnext, AList.lookup_insert_ne hlk, hother key hlk]
          exact hr.done key hmem hkeyseen s' hs'
      · have hlk : key ≠ last := by
          rintro rfl
          simp [hseen, hs] at hkey
        rw [hnext, AList.lookup_insert_ne hlk, hother key hlk]
        refine hr.rest key (hkey.imp_left fun hno hmem => hno ?_)
        exact mem_append_left _ hmem
    · have hid : unobservedStep a now (acc', metrics') last = (acc', metrics') := by
        unfold unobservedStep
        split
        · rfl
        · rename_i hseen
          have hnone : acc'.next.lookup last = none := by
            rw [hstate.1]
            by_contra hsome
            obtain ⟨s, hs⟩ := Option.ne_none_iff_exists'.mp hsome
            exact hdue ⟨hr.seen ▸ hseen, s, hs⟩
          dsimp only
          rw [hnone]
      rw [hid]
      refine ⟨hr.seen, fun key hkey hkeyseen s hs => ?_, fun key hkey => ?_⟩
      · have hlk : key ≠ last := by
          rintro rfl
          exact hdue ⟨hkeyseen, s, hs⟩
        exact hr.done key (by simpa [hlk] using hkey) hkeyseen s hs
      · refine hr.rest key (hkey.imp_left fun hno hmem => hno ?_)
        exact mem_append_left _ hmem

end

/-! ### The whole export -/

section

variable (sdk : Sdk KeyValue AttributeSet Distinct) (config : OTLPConfig)

/-- The sums of a batch have the configured temporality. -/
theorem temporality_convert
    {histograms : String → Option (List (DataPoint AttributeSet HistogramValues))}
    {exponential : String → Option (List (DataPoint AttributeSet ExpoValues))}
    (added : List String) (metrics : List (Metric KeyValue)) :
    ∀ m ∈ convert sdk config histograms exponential added metrics, ∀ t mono points,
      m.data = .sum t mono points → t = config.metricTemporality := by
  induction metrics generalizing added with
  | nil => nofun
  | cons metric metrics ih =>
    intro m hm t mono points hdata
    rw [convert] at hm
    split at hm
    · rename_i data hdata'
      rcases mem_cons.mp hm with rfl | hm
      · cases hdata
        unfold aggregationOf at hdata'
        split at hdata'
        · cases hdata'
          rfl
        · cases hdata'
        · split at hdata'
          · cases hdata'
          · split at hdata' <;> cases hdata'
        · cases hdata'
      · exact ih _ m hm t mono points hdata
    · exact ih _ m hm t mono points hdata

variable [DecidableEq Distinct]

/-- The data points of a series that a batch is turned into. -/
def incoming (key : HistogramKey Distinct) (metrics : List (Metric KeyValue)) :
    List (SeriesMeta × SeriesPoint AttributeSet) :=
  (allPoints (toResourceMetrics sdk config metrics)).filter (pointKey sdk · = key)

variable [Inhabited AttributeSet]

/-- The most buckets of merged exponential points. -/
def expoMaxSize : ℤ := (config.exponentialHistogram.map (·.resolved.maxSize)).getD 0

/-- **An export, from one series**: the state it had, its data points, the state it has and
its points in the export. -/
inductive SeriesExported (now : Time) (state : Option (SeriesState AttributeSet))
    (xs : List (SeriesMeta × SeriesPoint AttributeSet)) :
    Option (SeriesState AttributeSet) → List (SeriesPoint AttributeSet) → Prop
  | observed {state' out points} (hxs : xs ≠ [])
      (hrun : seriesRun (!config.delta) (expoMaxSize config) (lastTimeOf state) state xs =
        some (state', out))
      (hsums : sumsOf points = mergeSums sdk config.metricTemporality [] (sumsOf out))
      (hothers : othersOf points = othersOf out) :
      SeriesExported now state xs state' points
  | repeated {s} (hcumulative : config.delta = false) (hxs : xs = []) (hstate : state = some s) :
      SeriesExported now state xs (some (s.times now s.lastTime true).1)
        ((s.times now s.lastTime true).1.repeated (s.times now s.lastTime true).2.1
          (s.times now s.lastTime true).2.2).toList
  | absent (hxs : xs = []) (hnone : config.delta = true ∨ state = none) :
      SeriesExported now state xs state []

variable {sdk config}

omit [DecidableEq Distinct] in
/-- A point that is added to a total names the series. -/
theorem seriesStep_named {key : HistogramKey Distinct} {maxSize : ℤ} {exported : Time}
    {state : Option (SeriesState AttributeSet)} {x : SeriesMeta × SeriesPoint AttributeSet}
    {r : SeriesState AttributeSet × SeriesPoint AttributeSet} (hx : pointKey sdk x = key)
    (h : seriesStep true maxSize exported state x = some r) : NamedAs sdk key r.1 := by
  subst hx
  obtain ⟨seriesMeta, point⟩ := x
  cases point with
  | sum point =>
    cases h
    exact ⟨nofun, rfl, rfl, nofun, nofun⟩
  | gauge point =>
    cases h
    unfold SeriesState.gaugePoint
    dsimp only
    split <;> split <;> exact ⟨nofun, rfl, rfl, nofun, nofun⟩
  | histogram point =>
    obtain ⟨r', hr', rfl⟩ := Option.map_eq_some_iff.mp h
    obtain ⟨value, -, rfl⟩ := Option.map_eq_some_iff.mp hr'
    exact ⟨nofun, rfl, rfl, fun _ => rfl, nofun⟩
  | exponential point =>
    cases h
    refine ⟨nofun, rfl, rfl, nofun, fun _ => ?_⟩
    simp only [SeriesState.exponentialPoint, if_true, copyExponential]
    split <;> rfl

omit [DecidableEq Distinct] in
theorem seriesRun_named {key : HistogramKey Distinct} {maxSize : ℤ} {exported : Time}
    {state state' : Option (SeriesState AttributeSet)}
    {xs : List (SeriesMeta × SeriesPoint AttributeSet)} {out : List (SeriesPoint AttributeSet)}
    (hxs : ∀ x ∈ xs, pointKey sdk x = key)
    (hstate : ∀ s, state = some s → NamedAs sdk key s)
    (h : seriesRun true maxSize exported state xs = some (state', out)) :
    ∀ s, state' = some s → NamedAs sdk key s := by
  refine (Transducer.run_forall₂ (R := fun _ _ => True)
    (I := fun state => ∀ s, state = some s → NamedAs sdk key s) hstate ?_ h).1
  rintro x hx y - t t' - hstep
  obtain ⟨r, hr, heq⟩ := Option.map_eq_some_iff.mp hstep
  cases heq
  refine ⟨fun s hs => ?_, trivial⟩
  cases hs
  exact seriesStep_named (hxs x hx) hr

/-- What the loop leaves of a series. -/
structure SeriesLoop (sdk : Sdk KeyValue AttributeSet Distinct) (config : OTLPConfig)
    (state : Option (SeriesState AttributeSet)) (xs : List (SeriesMeta × SeriesPoint AttributeSet))
    (loop : Accumulating AttributeSet Distinct) (key : HistogramKey Distinct)
    (out : List (SeriesPoint AttributeSet)) : Prop where
  run : seriesRun (!config.delta) (expoMaxSize config) (lastTimeOf state) state xs =
    some (loop.acc.next.lookup key, out)
  seen : key ∈ loop.acc.seen ↔ xs ≠ []
  sums : sumsOf (seriesPoints sdk key loop.merged) =
    mergeSums sdk config.metricTemporality [] (sumsOf out)
  others : othersOf (seriesPoints sdk key loop.merged) = othersOf out

variable (sdk config) in
/-- **The loop of `accumulate`, series by series.** -/
theorem accumulateAll_view (series : SeriesStates AttributeSet Distinct)
    (metrics : List (Metric KeyValue)) :
    (accumulateAll sdk config series (toResourceMetrics sdk config metrics) = none ∧ ∃ key,
      seriesRun (!config.delta) (expoMaxSize config) (lastTimeOf (series.lookup key))
        (series.lookup key) (incoming sdk config key metrics) = none) ∨
    ∃ loop, accumulateAll sdk config series (toResourceMetrics sdk config metrics) = some loop ∧
      ∀ key, ∃ out, SeriesLoop sdk config (series.lookup key) (incoming sdk config key metrics)
        loop key out := by
  have hkeyed := keyed_addSeriesPoint sdk (accumulationOf config series)
  have hview : ∀ key, Accumulated.view ⟨series, []⟩ key = (series.lookup key, false) := by
    intro key
    simp [Accumulated.view]
  have hrun := run_viewStep (accumulationOf config series)
  have hinit : Collected sdk config.metricTemporality ⟨⟨series, []⟩, [], fun _ => none⟩ [] :=
    .init _
  rcases hinit.loop (a := accumulationOf config series) (toResourceMetrics sdk config metrics)
    (temporality_convert sdk config [] metrics) with
    ⟨loop, new, hloop, hnew, hcollected⟩ | ⟨hloop, hnew⟩
  · refine .inr ⟨loop, hloop, fun key => ⟨pointsOf sdk key new, ?_⟩⟩
    have hkey := hkeyed.run_some hnew key
    have hseries := hrun key (series.lookup key, false) (incoming sdk config key metrics)
    rw [← hview, incoming, hkey, Option.map_some] at hseries
    obtain ⟨r, hr, heq⟩ := Option.map_eq_some_iff.mp hseries.symm
    obtain ⟨state, out⟩ := r
    simp only [Prod.mk.injEq, Accumulated.view] at heq
    obtain ⟨⟨rfl, hseen⟩, rfl⟩ := heq
    refine ⟨hr, ?_, hcollected.sums key, hcollected.others key⟩
    rw [← @decide_eq_true_iff (key ∈ loop.acc.seen), ← hseen]
    simp [incoming]
  · refine .inl ⟨hloop, ?_⟩
    obtain ⟨key, hkey⟩ := hkeyed.run_none hnew
    refine ⟨key, ?_⟩
    have hseries := hrun key (series.lookup key, false) (incoming sdk config key metrics)
    rw [← hview, incoming, hkey, Option.map_none] at hseries
    exact Option.map_eq_none_iff.mp hseries.symm

namespace SeriesLoop

variable {state : Option (SeriesState AttributeSet)}
variable {xs : List (SeriesMeta × SeriesPoint AttributeSet)}
variable {loop : Accumulating AttributeSet Distinct} {key : HistogramKey Distinct}
variable {out : List (SeriesPoint AttributeSet)}

/-- A series without data points is as it was. -/
theorem of_nil (h : SeriesLoop sdk config state [] loop key out) :
    loop.acc.next.lookup key = state ∧ seriesPoints sdk key loop.merged = [] := by
  have hrun := h.run
  cases hrun
  refine ⟨rfl, ?_⟩
  have hpoints := eq_map_sumsOf h.others
  rw [h.sums] at hpoints
  exact hpoints

/-- A series that the export leaves as the loop made it. -/
theorem exported (h : SeriesLoop sdk config state xs loop key out) (now : Time)
    (hwhy : xs ≠ [] ∨ config.delta = true ∨ state = none) :
    SeriesExported sdk config now state xs (loop.acc.next.lookup key)
      (seriesPoints sdk key loop.merged) := by
  by_cases hxs : xs = []
  · subst hxs
    obtain ⟨hstate, hpoints⟩ := h.of_nil
    rw [hstate, hpoints]
    exact .absent rfl (hwhy.resolve_left (by simp))
  · exact .observed hxs h.run h.sums h.others

end SeriesLoop

/-- The state of every series is kept under its name. -/
def AllNamed (sdk : Sdk KeyValue AttributeSet Distinct) (config : OTLPConfig)
    (series : SeriesStates AttributeSet Distinct) : Prop :=
  config.delta = false → ∀ key s, series.lookup key = some s → NamedAs sdk key s

/-- **An export is the exports of its series.** -/
theorem unobserved_view {series : SeriesStates AttributeSet Distinct}
    {metrics : List (Metric KeyValue)} {loop : Accumulating AttributeSet Distinct}
    {order : List (HistogramKey Distinct)} (now : Time)
    (hloop : ∀ key, ∃ out, SeriesLoop sdk config (series.lookup key)
      (incoming sdk config key metrics) loop key out)
    (horder : order.Perm loop.acc.next.keys) (hnamed : AllNamed sdk config series)
    (key : HistogramKey Distinct) :
    let r := unobserved (accumulationOf config series) loop.acc loop.merged now order
    SeriesExported sdk config now (series.lookup key) (incoming sdk config key metrics)
      (r.1.next.lookup key) (seriesPoints sdk key r.2) := by
  obtain ⟨out, hkey⟩ := hloop key
  unfold unobserved
  cases hdelta : config.delta with
  | true =>
    simp only [accumulationOf, hdelta]
    exact hkey.exported now (.inr (.inl hdelta))
  | false =>
    have hcumulative : (accumulationOf config series).cumulative = true := by
      simp [accumulationOf, hdelta]
    simp only [hcumulative, if_true]
    have hall : ∀ key s, loop.acc.next.lookup key = some s → NamedAs sdk key s := by
      intro key
      obtain ⟨out, hkey⟩ := hloop key
      have hrun := hkey.run
      rw [hdelta] at hrun
      refine seriesRun_named (fun x hx => ?_) (hnamed hdelta key) hrun
      simpa using (mem_filter.mp hx).2
    have hblank : ∀ key, key ∉ loop.acc.seen → seriesPoints sdk key loop.merged = [] := by
      intro key hseen
      obtain ⟨out, hkey⟩ := hloop key
      have hxs := not_not.mp (mt hkey.seen.mpr hseen)
      rw [hxs] at hkey
      exact hkey.of_nil.2
    have hr := repeated_foldl (accumulationOf config series) now order
      (horder.nodup_iff.mpr loop.acc.next.nodupKeys) loop.acc loop.merged hall hblank
    by_cases hxs : incoming sdk config key metrics = []
    · rw [hxs] at hkey ⊢
      obtain ⟨hstate, hpoints⟩ := hkey.of_nil
      have hseen : key ∉ loop.acc.seen := fun hmem => hkey.seen.mp hmem rfl
      cases hs : series.lookup key with
      | none =>
        obtain ⟨hnext, hmerged⟩ := hr.rest key (.inr (.inr (hstate.trans hs)))
        rw [hnext, hmerged, hstate, hpoints, hs]
        exact .absent rfl (.inr rfl)
      | some s =>
        have hmem : key ∈ order := by
          rw [horder.mem_iff, ← AList.mem_keys, ← AList.lookup_isSome, hstate, hs]
          rfl
        have htime : (accumulationOf config series).exportedTime key = s.lastTime := by
          simp [Accumulation.exportedTime, accumulationOf, hs]
        obtain ⟨hnext, hmerged⟩ := hr.done key hmem hseen s (hstate.trans hs)
        rw [hnext, hmerged, repeatSeries, htime, hcumulative]
        exact .repeated hdelta rfl rfl
    · obtain ⟨hnext, hmerged⟩ := hr.rest key (.inr (.inl (hkey.seen.mpr hxs)))
      rw [hnext, hmerged]
      exact hkey.exported now (.inl hxs)

/-- **What an export comes to.** -/
theorem exportMetrics_view {series series' : SeriesStates AttributeSet Distinct}
    {metrics : List (Metric KeyValue)} {ambient : Ambient Distinct}
    {outcome : Outcome AttributeSet} (henabled : config.enabled = true)
    (h : exportMetrics sdk config series metrics ambient = some (series', outcome))
    (hnamed : AllNamed sdk config series) :
    (outcome = .panicked ∧ series' = series ∧ ∃ key,
      seriesRun (!config.delta) (expoMaxSize config) (lastTimeOf (series.lookup key))
        (series.lookup key) (incoming sdk config key metrics) = none) ∨
    (outcome = .nothing ∧ series' = series ∧ metrics = [] ∧ ∀ key, ∃ state',
      SeriesExported sdk config ambient.now (series.lookup key) (incoming sdk config key metrics)
        state' []) ∨
    ∃ merged, outcome = .sent merged ambient.sendFails ∧
      ∀ key, SeriesExported sdk config ambient.now (series.lookup key)
        (incoming sdk config key metrics) (series'.lookup key) (seriesPoints sdk key merged) := by
  unfold exportMetrics at h
  simp only [henabled, Bool.not_true, Bool.false_eq_true, if_false] at h
  rcases accumulateAll_view sdk config series metrics with
    ⟨hloop, hfails⟩ | ⟨loop, hloop, hseries⟩
  · rw [hloop] at h
    cases h
    exact .inl ⟨rfl, rfl, hfails⟩
  · rw [hloop] at h
    right
    dsimp only at h
    split at h
    · rename_i horder
      have hview := unobserved_view ambient.now hseries horder hnamed
      split at h
      · rename_i hempty
        cases h
        simp only [Bool.and_eq_true, List.isEmpty_iff] at hempty
        refine .inl ⟨rfl, rfl, hempty.1, fun key => ?_⟩
        have hkey := hview key
        dsimp only at hkey
        rw [hempty.2] at hkey
        exact ⟨_, hkey⟩
      · cases h
        exact .inr ⟨_, rfl, hview⟩
    · cases h

end

end ConvoyStats.Otlp
