import ConvoyStats.Otlp.ConvertView

/-!
# A series alone

`exportSeries` is an export as it would be if the exporter had one series: a transducer
that reads the data points of the series in each export, and the clock, and writes the
points the export carries of it.  What an export leaves of a series whose metrics are all
of one type is what `exportSeries` says (`SeriesExported.alone`), up to the description and
unit the state is filed under, which no point depends on.
-/

namespace ConvoyStats.Otlp

open List Models

variable {KeyValue AttributeSet Distinct : Type}

/-! ### The metric a state is filed under -/

section

variable [Inhabited AttributeSet]

/-- No name, description or unit. -/
def SeriesMeta.blank : SeriesMeta := ⟨"", "", ""⟩

/-- The state of a series, whatever metric it is filed under. -/
def SeriesState.bare (s : SeriesState AttributeSet) : SeriesState AttributeSet :=
  { s with seriesMeta := .blank }

omit [Inhabited AttributeSet] in
@[simp] theorem lastTimeOf_bare (state : Option (SeriesState AttributeSet)) :
    lastTimeOf (state.map (·.bare)) = lastTimeOf state := by
  cases state <;> rfl

theorem opened_bare (state : Option (SeriesState AttributeSet)) (seriesMeta : SeriesMeta)
    (attributes : AttributeSet) (kind : SeriesKind) (observed : Time) :
    opened (state.map (·.bare)) .blank attributes kind observed =
      (opened state seriesMeta attributes kind observed).bare := by
  cases state <;> rfl

omit [Inhabited AttributeSet] in
theorem SeriesState.gaugePoint_bare (s : SeriesState AttributeSet)
    (point : DataPoint AttributeSet Float64) :
    s.bare.gaugePoint point = (s.gaugePoint point).bare := by
  unfold SeriesState.gaugePoint
  by_cases hnew : point.time < s.gaugeTime <;> by_cases hlast : s.lastTime < point.time <;>
    simp [SeriesState.bare, hnew, hlast]

/-- What a data point does does not depend on the metric it comes under. -/
theorem seriesStep_bare (cumulative : Bool) (maxSize : ℤ) (exported : Time)
    (state : Option (SeriesState AttributeSet)) (x : SeriesMeta × SeriesPoint AttributeSet) :
    seriesStep cumulative maxSize exported (state.map (·.bare)) (.blank, x.2) =
      (seriesStep cumulative maxSize exported state x).map fun r => (r.1.bare, r.2) := by
  obtain ⟨seriesMeta, point⟩ := x
  cases point with
  | sum point =>
    simp only [seriesStep, opened_bare state seriesMeta]
    cases cumulative <;> rfl
  | gauge point =>
    simp only [seriesStep, opened_bare state seriesMeta, SeriesState.gaugePoint_bare,
      Option.map_some]
  | histogram point =>
    simp only [seriesStep, opened_bare state seriesMeta, SeriesState.histogramPoint,
      Option.map_map, Option.isSome_map]
    cases cumulative <;> rfl
  | exponential point =>
    simp only [seriesStep, opened_bare state seriesMeta, Option.isSome_map]
    cases cumulative <;> rfl

/-- What the data points do does not depend on the metrics they come under. -/
theorem seriesRun_bare (cumulative : Bool) (maxSize : ℤ) (exported : Time)
    (state : Option (SeriesState AttributeSet))
    (xs : List (SeriesMeta × SeriesPoint AttributeSet)) :
    seriesRun cumulative maxSize exported (state.map (·.bare))
        ((xs.map (·.2)).map (SeriesMeta.blank, ·)) =
      (seriesRun cumulative maxSize exported state xs).map fun r => (r.1.map (·.bare), r.2) := by
  induction xs generalizing state with
  | nil => rfl
  | cons x xs ih =>
    rw [map_cons, map_cons, seriesRun_cons, seriesRun_cons, seriesStep_bare]
    cases seriesStep cumulative maxSize exported state x with
    | none => rfl
    | some r =>
      have hrest := ih (some r.1)
      rw [Option.map_some] at hrest
      simp only [Option.map_some, Option.bind_some, hrest, Option.map_map, Function.comp_def]

end

/-! ### One export of one series -/

section

variable [Inhabited AttributeSet]

/-- The sums of a series, merged into one. -/
def mergeAll (t : Temporality) : List (DataPoint AttributeSet Float64) →
    List (DataPoint AttributeSet Float64)
  | [] => []
  | point :: points => [points.foldl (mergeSum t) point]

omit [Inhabited AttributeSet] in
theorem mergeAll_concat (t : Temporality) {points : List (DataPoint AttributeSet Float64)}
    {held : DataPoint AttributeSet Float64} (point : DataPoint AttributeSet Float64)
    (h : mergeAll t points = [held]) :
    mergeAll t (points ++ [point]) = [mergeSum t held point] := by
  cases points with
  | nil => cases h
  | cons first points =>
    cases h
    rw [cons_append, mergeAll, foldl_append]
    rfl

/-- The points of a series, the sums first. -/
def sumsFirst (points : List (SeriesPoint AttributeSet)) : List (SeriesPoint AttributeSet) :=
  (sumsOf points).map .sum ++ othersOf points

omit [Inhabited AttributeSet] in
theorem sumsFirst_toList (point : Option (SeriesPoint AttributeSet)) :
    sumsFirst point.toList = point.toList := by
  cases point with
  | none => rfl
  | some point => cases point <;> rfl

/-- An export, if there were no other series. -/
def exportSeries (config : OTLPConfig) (state : Option (SeriesState AttributeSet)) (now : Time)
    (points : List (SeriesPoint AttributeSet)) :
    Option (Option (SeriesState AttributeSet) × List (SeriesPoint AttributeSet)) :=
  match points, state with
  | [], none => some (none, [])
  | [], some s =>
    if config.delta then some (some s, [])
    else
      let (s, start, time) := s.times now s.lastTime true
      some (some s, (s.repeated start time).toList)
  | point :: points, state =>
    (seriesRun (!config.delta) (expoMaxSize config) (lastTimeOf state) state
      ((point :: points).map (SeriesMeta.blank, ·))).map fun r =>
        (r.1, (mergeAll config.metricTemporality (sumsOf r.2)).map .sum ++ othersOf r.2)

theorem exportSeries_of_ne_nil (config : OTLPConfig) (state : Option (SeriesState AttributeSet))
    (now : Time) {points : List (SeriesPoint AttributeSet)} (h : points ≠ []) :
    exportSeries config state now points =
      (seriesRun (!config.delta) (expoMaxSize config) (lastTimeOf state) state
        (points.map (SeriesMeta.blank, ·))).map fun r =>
          (r.1, (mergeAll config.metricTemporality (sumsOf r.2)).map .sum ++ othersOf r.2) := by
  cases points with
  | nil => exact absurd rfl h
  | cons point points => rfl

/-- What all data points that go in have, attributes and kind being all it looks at, those
that come out have. -/
theorem seriesRun_out {cumulative : Bool} {maxSize : ℤ} {exported : Time}
    {state state' : Option (SeriesState AttributeSet)}
    {xs : List (SeriesMeta × SeriesPoint AttributeSet)} {out : List (SeriesPoint AttributeSet)}
    (P : AttributeSet → SeriesKind → Prop)
    (h : seriesRun cumulative maxSize exported state xs = some (state', out))
    (hxs : ∀ x ∈ xs, P x.2.attributes x.2.kind) : ∀ point ∈ out, P point.attributes point.kind := by
  refine Transducer.forall_outputs (I := fun _ => True) trivial (fun x hx y t t' _ hstep => ?_) h
  obtain ⟨r, hr, heq⟩ := Option.map_eq_some_iff.mp hstep
  cases heq
  obtain ⟨hattributes, hkind⟩ := seriesStep_attributes hr
  rw [hattributes, hkind]
  exact ⟨trivial, hxs x hx⟩

/-! ### The types of the points -/

/-- The state of a series of the type. -/
def OfType (type : MetricType) (state : Option (SeriesState AttributeSet)) : Prop :=
  ∀ s, state = some s → ∃ kind, s.kind = some kind ∧ kind.type = type

variable {type : MetricType} {state : Option (SeriesState AttributeSet)}

theorem seriesStep_kind {cumulative : Bool} {maxSize : ℤ} {exported : Time}
    {x : SeriesMeta × SeriesPoint AttributeSet}
    {r : SeriesState AttributeSet × SeriesPoint AttributeSet}
    (h : seriesStep cumulative maxSize exported state x = some r) : r.1.kind = some x.2.kind := by
  obtain ⟨seriesMeta, point⟩ := x
  cases point with
  | sum point | exponential point =>
    cases h
    cases cumulative <;> rfl
  | gauge point =>
    cases h
    unfold SeriesState.gaugePoint
    dsimp only
    split <;> split <;> rfl
  | histogram point =>
    obtain ⟨r', hr', rfl⟩ := Option.map_eq_some_iff.mp h
    obtain ⟨value, -, rfl⟩ := Option.map_eq_some_iff.mp hr'
    cases cumulative <;> rfl

omit [Inhabited AttributeSet] in
/-- A repeated point is of the kind of its series. -/
theorem SeriesState.kind_of_repeated {s : SeriesState AttributeSet} {start time : Time}
    {point : SeriesPoint AttributeSet} (h : s.repeated start time = some point) :
    s.kind = some point.kind := by
  unfold SeriesState.repeated at h
  split at h
  · rename_i hkind
    cases h
    exact hkind
  · rename_i hkind
    cases h
    exact hkind
  · rename_i hkind
    cases h
    exact hkind
  · rename_i hkind
    cases h
    exact hkind
  · cases h

/-- Points of the type leave a state of the type. -/
theorem seriesRun_ofType {cumulative : Bool} {maxSize : ℤ} {exported : Time}
    {state' : Option (SeriesState AttributeSet)} {xs : List (SeriesMeta × SeriesPoint AttributeSet)}
    {out : List (SeriesPoint AttributeSet)} (hstate : OfType type state)
    (hxs : ∀ x ∈ xs, x.2.kind.type = type)
    (h : seriesRun cumulative maxSize exported state xs = some (state', out)) :
    OfType type state' := by
  refine (Transducer.run_forall₂ (I := OfType type) (R := fun _ _ => True) hstate ?_ h).1
  rintro x hx y - t t' - hstep
  obtain ⟨r, hr, heq⟩ := Option.map_eq_some_iff.mp hstep
  cases heq
  refine ⟨fun s hs => ?_, trivial⟩
  cases hs
  exact ⟨x.2.kind, seriesStep_kind hr, hxs x hx⟩

/-- An export of a series of the type has points of the type. -/
theorem exportSeries_type {config : OTLPConfig} {now : Time}
    {state' : Option (SeriesState AttributeSet)} {points out : List (SeriesPoint AttributeSet)}
    (hstate : OfType type state) (hpoints : ∀ point ∈ points, point.kind.type = type)
    (h : exportSeries config state now points = some (state', out)) :
    OfType type state' ∧ ∀ point ∈ out, point.kind.type = type := by
  by_cases hnil : points = []
  · subst hnil
    cases state with
    | none =>
      cases h
      exact ⟨hstate, fun point hpoint => absurd hpoint not_mem_nil⟩
    | some s =>
      obtain ⟨kind, hkind, htype⟩ := hstate s rfl
      rw [exportSeries] at h
      split at h
      · cases h
        exact ⟨hstate, fun point hpoint => absurd hpoint not_mem_nil⟩
      · cases h
        refine ⟨fun s' hs' => ⟨kind, ?_, htype⟩, fun point hpoint => ?_⟩
        · cases hs'
          exact hkind
        · have hrepeated := SeriesState.kind_of_repeated (Option.mem_toList.mp hpoint)
          cases hkind.symm.trans hrepeated
          exact htype
  · rw [exportSeries_of_ne_nil _ _ _ hnil] at h
    obtain ⟨⟨last, points'⟩, hrun, heq⟩ := Option.map_eq_some_iff.mp h
    cases heq
    have hxs : ∀ x ∈ points.map (SeriesMeta.blank, ·), x.2.kind.type = type := by
      intro x hx
      obtain ⟨point, hpoint, rfl⟩ := mem_map.mp hx
      exact hpoints point hpoint
    have hout := seriesRun_out (fun _ kind => kind.type = type) hrun hxs
    refine ⟨seriesRun_ofType hstate hxs hrun, fun point hpoint => ?_⟩
    rcases mem_append.mp hpoint with hsum | hother
    · obtain ⟨sum, hsum, rfl⟩ := mem_map.mp hsum
      -- there is a merged sum only if there are sums to merge
      cases hsums : sumsOf points' with
      | nil =>
        rw [hsums] at hsum
        cases hsum
      | cons first rest =>
        obtain ⟨p, hp, heq⟩ := mem_filterMap.mp
          (hsums ▸ mem_cons_self : first ∈ sumsOf points')
        cases p <;> cases heq
        exact hout (.sum first) hp
    · exact hout point (mem_filter.mp hother).1

omit [Inhabited AttributeSet] in
/-- Points of one type are in order when their sums are put first. -/
theorem sumsFirst_eq {points : List (SeriesPoint AttributeSet)}
    (h : ∀ point ∈ sumsFirst points, point.kind.type = type) : sumsFirst points = points := by
  by_cases htype : type = .counter
  · have hnil : othersOf points = [] := by
      refine eq_nil_iff_forall_not_mem.mpr fun point hpoint => ?_
      have hkind := (h point (mem_append_right _ hpoint)).trans htype
      have hother := (mem_filter.mp hpoint).2
      cases point <;> simp [SeriesPoint.kind, SeriesKind.type] at hkind hother
    rw [sumsFirst, hnil, append_nil, ← eq_map_sumsOf hnil]
  · have hnil : sumsOf points = [] :=
      eq_nil_iff_forall_not_mem.mpr fun point hpoint =>
        htype (h (.sum point) (mem_append_left _ (mem_map_of_mem hpoint))).symm
    rw [sumsFirst, hnil, map_nil, nil_append, ← eq_othersOf hnil]

variable [DecidableEq Distinct] {sdk : Sdk KeyValue AttributeSet Distinct} {config : OTLPConfig}

omit [Inhabited AttributeSet] in
/-- Merging the sums of one series. -/
theorem mergeSums_eq_mergeAll (t : Temporality) (d : Distinct)
    (points : List (DataPoint AttributeSet Float64))
    (h : ∀ point ∈ points, sdk.equivalent point.attributes = d) :
    mergeSums sdk t [] points = mergeAll t points := by
  have hfold : ∀ (points : List (DataPoint AttributeSet Float64)) held,
      sdk.equivalent held.attributes = d →
      (∀ point ∈ points, sdk.equivalent point.attributes = d) →
      mergeSums sdk t [held] points = [points.foldl (mergeSum t) held] := by
    intro points
    induction points with
    | nil => exact fun held _ _ => rfl
    | cons point points ih =>
      intro held hheld hpoints
      have hpoint := hpoints point mem_cons_self
      rw [mergeSums, foldl_cons, addSumPoint, if_pos (hheld.trans hpoint.symm)]
      refine ih (mergeSum t held point) ?_ fun p hp => hpoints p (mem_cons_of_mem _ hp)
      unfold mergeSum
      dsimp only
      split <;> exact hpoint
  cases points with
  | nil => rfl
  | cons point points =>
    exact hfold points point (h point mem_cons_self)
      fun p hp => h p (mem_cons_of_mem _ hp)

/-- **An export of a series is the export of the series alone**, with its sums put first. -/
theorem SeriesExported.alone {now : Time} {state state' : Option (SeriesState AttributeSet)}
    {xs : List (SeriesMeta × SeriesPoint AttributeSet)} {points : List (SeriesPoint AttributeSet)}
    (h : SeriesExported sdk config now state xs state' points) {key : HistogramKey Distinct}
    (hkey : ∀ x ∈ xs, pointKey sdk x = key) :
    exportSeries config (state.map (·.bare)) now (xs.map (·.2)) =
      some (state'.map (·.bare), sumsFirst points) := by
  cases h with
  | observed hxs hrun hsums hothers =>
    rename_i out
    rw [exportSeries_of_ne_nil _ _ _ (mt map_eq_nil_iff.mp hxs), lastTimeOf_bare,
      seriesRun_bare, hrun]
    have hattributes : ∀ point ∈ out, sdk.equivalent point.attributes = key.attributes :=
      seriesRun_out (fun a _ => sdk.equivalent a = key.attributes) hrun
        fun x hx => congrArg HistogramKey.attributes (hkey x hx)
    have hmerge : mergeSums sdk config.metricTemporality [] (sumsOf out) =
        mergeAll config.metricTemporality (sumsOf out) := by
      refine mergeSums_eq_mergeAll _ key.attributes _ fun point hpoint => ?_
      obtain ⟨p, hp, heq⟩ := mem_filterMap.mp hpoint
      cases p <;> cases heq
      exact hattributes _ hp
    rw [sumsFirst, hsums, hothers, hmerge]
    rfl
  | repeated hcumulative hxs hstate =>
    rename_i s
    subst hxs hstate
    simp only [map_nil, Option.map_some, exportSeries, hcumulative, Bool.false_eq_true,
      if_false, sumsFirst_toList]
    rfl
  | absent hxs hnone =>
    subst hxs
    cases state with
    | none => rfl
    | some s =>
      rcases hnone with hdelta | hnone
      · simp only [map_nil, Option.map_some, exportSeries, hdelta, if_true]
        rfl
      · cases hnone

end

end ConvoyStats.Otlp
