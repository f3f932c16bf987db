import ConvoyStats.Otlp.SeriesTotals

/-!
# The exporter is its series, side by side

`Separate` says of a state of the exporter that every series got there as if it were alone: its
state and its points in the exports so far are those of the transducer `exportSeries`, fed with
its own data points in each export.  It holds in every run.  A series of one type is then the
transducer `aloneStep` of its own observations (`Separate.alone`).  Where each series keeps one
type there is more (`Alone`): no call panics, since a series that stands on its own history
does not.

A call that returns at once is no export.  One with nothing to send is: it is an export of
no point.
-/

namespace ConvoyStats.Otlp

open List Models

variable {KeyValue AttributeSet Distinct : Type}

/-- What an outcome exports, if it is that of an export. -/
def Outcome.produced : Outcome AttributeSet → Option (List (Metrics AttributeSet))
  | .sent metrics _ => some metrics
  | .nothing => some []
  | .skipped | .panicked => none

section

variable [Inhabited AttributeSet]
variable (sdk : Sdk KeyValue AttributeSet Distinct) (config : OTLPConfig)

/-- One export of a series of a type, from its observations in it. -/
def aloneStep (name : String) (type : MetricType) (state : Option (SeriesState AttributeSet))
    (x : Time × List (Metric KeyValue)) :
    Option (Option (SeriesState AttributeSet) × List (SeriesPoint AttributeSet)) :=
  exportSeries config state x.1 (typePoints sdk config name type x.2)

variable {sdk config}

/-- The points of a series of a type are of the type. -/
theorem aloneStep_type {name : String} {type : MetricType}
    {state : Option (SeriesState AttributeSet)} {inputs : List (Time × List (Metric KeyValue))}
    {outputs : List (List (SeriesPoint AttributeSet))}
    (h : Transducer.run (aloneStep sdk config name type) none inputs = some (state, outputs)) :
    ∀ points ∈ outputs, ∀ point ∈ points, point.kind.type = type :=
  Transducer.forall_outputs (I := OfType type) (fun s hs => by cases hs)
    (fun _ _ _ _ _ ht hstep => exportSeries_type ht (fun _ => typePoints_type) hstep) h

/-- The state of a series and its times stand on its observations. -/
structure Standing (sdk : Sdk KeyValue AttributeSet Distinct) (config : OTLPConfig) (name : String)
    (type : MetricType) (observations : List (Metric KeyValue))
    (state : Option (SeriesState AttributeSet)) : Prop where
  stands : Stands sdk config name type observations state
  timed : ∀ s, state = some s → Timed observations s

/-- A series that goes on keeps its start, and its time does not go back. -/
def Onward (state state' : Option (SeriesState AttributeSet)) : Prop :=
  ∀ s, state = some s → ∃ s', state' = some s' ∧ s'.start = s.start ∧ s.lastTime ≤ s'.lastTime

namespace Standing

variable {name : String} {type : MetricType} {before : List (Metric KeyValue)}
variable {state state' : Option (SeriesState AttributeSet)}

omit [Inhabited AttributeSet] in
theorem init : Standing sdk config name type [] none :=
  ⟨rfl, fun s hs => by cases hs⟩

/-- One export of a counter or histogram series. -/
theorem step (h : Standing sdk config name type before state)
    (htype : type = .counter ∨ type = .histogram) {x : Time × List (Metric KeyValue)}
    {y : List (SeriesPoint AttributeSet)} (hname : ∀ m ∈ x.2, m.name = name)
    (hstep : aloneStep sdk config name type state x = some (state', y)) :
    Standing sdk config name type (before ++ x.2) state' ∧
      ((x.2 = [] ∧ (config.delta = true ∨ before = []) ∧ state' = state ∧ y = []) ∨
        (x.2 ≠ [] ∨ config.delta = false) ∧ ∃ s point, state' = some s ∧ y = [point] ∧
          Advanced sdk config name type before state x.2 s point) := by
  rcases exportSeries_total htype h.stands hname x.1 with
    ⟨hnil, hwhy, hexport⟩ | ⟨hwhy, s, point, hexport, hadvanced⟩
  · cases hstep.symm.trans hexport
    rw [hnil, append_nil]
    exact ⟨h, .inl ⟨rfl, hwhy, rfl, rfl⟩⟩
  · cases hstep.symm.trans hexport
    refine ⟨⟨⟨hadvanced.observed, hadvanced.holds⟩, fun s' hs' => ?_⟩,
      .inr ⟨hwhy, s, point, rfl, rfl, hadvanced⟩⟩
    cases hs'
    refine hadvanced.times.timed (fun hnone => ?_) h.timed
    have hstands := h.stands
    rw [hnone] at hstands
    exact hstands

/-- Exports of a counter or histogram series. -/
theorem run (h : Standing sdk config name type before state)
    (htype : type = .counter ∨ type = .histogram) {inputs : List (Time × List (Metric KeyValue))}
    {outputs : List (List (SeriesPoint AttributeSet))}
    (hname : ∀ x ∈ inputs, ∀ m ∈ x.2, m.name = name)
    (hrun : Transducer.run (aloneStep sdk config name type) state inputs = some (state', outputs)) :
    Standing sdk config name type (before ++ inputs.flatMap (·.2)) state' ∧
      Onward state state' := by
  refine Transducer.run_invariant (I := fun inputs state' =>
    (∀ x ∈ inputs, ∀ m ∈ x.2, m.name = name) →
      Standing sdk config name type (before ++ inputs.flatMap fun x => x.2) state' ∧
        Onward state state') (fun _ => ?_) ?_ hrun hname
  · rw [flatMap_nil, append_nil]
    exact ⟨h, fun s hs => ⟨s, hs, rfl, le_rfl⟩⟩
  · intro inputs x y t t' ih hstep hname
    obtain ⟨hstanding, honward⟩ := ih fun x' hx' => hname x' (mem_append_left _ hx')
    obtain ⟨hstanding', hcases⟩ := hstanding.step htype
      (hname x (mem_append_right _ (mem_singleton_self x))) hstep
    rw [flatMap_append, flatMap_singleton, ← append_assoc]
    refine ⟨hstanding', fun s hs => ?_⟩
    obtain ⟨s₁, rfl, hstart, hlast⟩ := honward s hs
    rcases hcases with ⟨-, -, rfl, -⟩ | ⟨-, s₂, point, rfl, -, hadvanced⟩
    · exact ⟨s₁, rfl, hstart, hlast⟩
    · exact ⟨s₂, rfl, (hadvanced.times.kept s₁ rfl).trans hstart,
        hlast.trans hadvanced.times.lastTime_le⟩

end Standing

end

section

variable [DecidableEq Distinct] (sdk : Sdk KeyValue AttributeSet Distinct)

/-- The exports of a run from one series: the clock and its observations. -/
def seriesInputs (key : HistogramKey Distinct) (log : List (ExportEntry KeyValue AttributeSet)) :
    List (Time × List (Metric KeyValue)) :=
  log.filterMap fun e => e.outcome.produced.map fun _ => (e.now, observationsOf sdk key e.metrics)

/-- The exports of a run from one series: the clock and its data points. -/
def seriesData (config : OTLPConfig) (key : HistogramKey Distinct)
    (log : List (ExportEntry KeyValue AttributeSet)) :
    List (Time × List (SeriesPoint AttributeSet)) :=
  log.filterMap fun e => e.outcome.produced.map fun _ =>
    (e.now, (incoming sdk config key e.metrics).map (·.2))

/-- The points of one series in the exports of a run. -/
def seriesOutputs (key : HistogramKey Distinct) (log : List (ExportEntry KeyValue AttributeSet)) :
    List (List (SeriesPoint AttributeSet)) :=
  log.filterMap fun e => e.outcome.produced.map (seriesPoints sdk key)

/-- The metrics of the series are all of the type. -/
def TypedLog (key : HistogramKey Distinct) (log : List (ExportEntry KeyValue AttributeSet))
    (type : MetricType) : Prop :=
  ∀ e ∈ log, Typed sdk key e.metrics type

variable {sdk}

theorem length_seriesOutputs (key : HistogramKey Distinct)
    (log : List (ExportEntry KeyValue AttributeSet)) :
    (seriesOutputs sdk key log).length = (seriesInputs sdk key log).length := by
  induction log with
  | nil => rfl
  | cons e log ih =>
    simp only [seriesOutputs, seriesInputs, filterMap_cons] at ih ⊢
    cases e.outcome.produced <;> simp [ih]

theorem seriesInputs_append (key : HistogramKey Distinct)
    (log log' : List (ExportEntry KeyValue AttributeSet)) :
    seriesInputs sdk key (log ++ log') = seriesInputs sdk key log ++ seriesInputs sdk key log' :=
  filterMap_append ..

theorem seriesData_append (config : OTLPConfig) (key : HistogramKey Distinct)
    (log log' : List (ExportEntry KeyValue AttributeSet)) :
    seriesData sdk config key (log ++ log') =
      seriesData sdk config key log ++ seriesData sdk config key log' :=
  filterMap_append ..

theorem seriesOutputs_append (key : HistogramKey Distinct)
    (log log' : List (ExportEntry KeyValue AttributeSet)) :
    seriesOutputs sdk key (log ++ log') = seriesOutputs sdk key log ++ seriesOutputs sdk key log' :=
  filterMap_append ..

variable {key : HistogramKey Distinct} {metrics : List (Metric KeyValue)} {type : MetricType}

theorem name_of_mem_observationsOf {m : Metric KeyValue} (hm : m ∈ observationsOf sdk key metrics) :
    m.name = key.name :=
  congrArg HistogramKey.name (of_decide_eq_true (mem_filter.mp hm).2 : keyOf sdk m = key)

theorem seriesInputs_name (key : HistogramKey Distinct)
    (log : List (ExportEntry KeyValue AttributeSet)) :
    ∀ x ∈ seriesInputs sdk key log, ∀ m ∈ x.2, m.name = key.name := by
  intro x hx
  obtain ⟨e, -, he⟩ := mem_filterMap.mp hx
  obtain ⟨_, -, rfl⟩ := Option.map_eq_some_iff.mp he
  exact fun m => name_of_mem_observationsOf

omit [DecidableEq Distinct] in
theorem TypedLog.of_append_left {log log' : List (ExportEntry KeyValue AttributeSet)}
    (h : TypedLog sdk key (log ++ log') type) : TypedLog sdk key log type :=
  fun e he => h e (mem_append_left _ he)

/-- A run of one series is cut at an export. -/
theorem run_cut [Inhabited AttributeSet] {config : OTLPConfig} {name : String}
    {before after : List (ExportEntry KeyValue AttributeSet)}
    {e : ExportEntry KeyValue AttributeSet} {merged : List (Metrics AttributeSet)}
    (hproduced : e.outcome.produced = some merged) {start final : Option (SeriesState AttributeSet)}
    (hrun : Transducer.run (aloneStep sdk config name type) start
      (seriesInputs sdk key (before ++ e :: after)) =
        some (final, seriesOutputs sdk key (before ++ e :: after))) :
    ∃ state state',
      Transducer.run (aloneStep sdk config name type) start (seriesInputs sdk key before) =
        some (state, seriesOutputs sdk key before) ∧
      aloneStep sdk config name type state (e.now, observationsOf sdk key e.metrics) =
        some (state', seriesPoints sdk key merged) ∧
      Transducer.run (aloneStep sdk config name type) state' (seriesInputs sdk key after) =
        some (final, seriesOutputs sdk key after) := by
  have hinputs : seriesInputs sdk key (before ++ e :: after) = seriesInputs sdk key before ++
      ([(e.now, observationsOf sdk key e.metrics)] ++ seriesInputs sdk key after) := by
    rw [seriesInputs_append]
    simp [seriesInputs, hproduced]
  have houtputs : seriesOutputs sdk key (before ++ e :: after) = seriesOutputs sdk key before ++
      ([seriesPoints sdk key merged] ++ seriesOutputs sdk key after) := by
    rw [seriesOutputs_append]
    simp [seriesOutputs, hproduced]
  rw [hinputs, houtputs] at hrun
  obtain ⟨state, hbefore, hrest⟩ := Transducer.run_split hrun (length_seriesOutputs key before)
  obtain ⟨state', hstep, hafter⟩ := Transducer.run_split hrest rfl
  exact ⟨state, state', hbefore, Transducer.run_singleton.mp hstep, hafter⟩

/-! ### One export -/

variable [Inhabited AttributeSet] {config : OTLPConfig}

variable {now : Time} {state state' : Option (SeriesState AttributeSet)}

/-- A series stays filed under its name. -/
theorem SeriesExported.named {points : List (SeriesPoint AttributeSet)}
    (h : SeriesExported sdk config now state (incoming sdk config key metrics) state' points)
    (hdelta : config.delta = false) (hnamed : ∀ s, state = some s → NamedAs sdk key s) :
    ∀ s, state' = some s → NamedAs sdk key s := by
  cases h with
  | observed _ hrun =>
    rw [hdelta] at hrun
    exact seriesRun_named (fun x hx => of_decide_eq_true (mem_filter.mp hx).2) hnamed hrun
  | repeated hcumulative hxs hstate =>
    rename_i s
    intro s' hs'
    cases hs'
    exact (hnamed s hstate).times now s.lastTime true
  | absent hxs hnone => exact hnamed

/-- Nothing is exported of a series only if its state stays as it is. -/
theorem SeriesExported.eq_of_nil
    (h : SeriesExported sdk config now state (incoming sdk config key []) state' [])
    (hnamed : config.delta = false → ∀ s, state = some s → NamedAs sdk key s) : state' = state := by
  generalize hpoints : ([] : List (SeriesPoint AttributeSet)) = points at h
  cases h with
  | observed hxs => exact absurd rfl hxs
  | repeated hcumulative hxs hstate =>
    rename_i s
    have hkind := ((hnamed hcumulative s hstate).times now s.lastTime true).kind
    have hrepeated := Option.toList_eq_nil_iff.mp hpoints.symm
    unfold SeriesState.repeated at hrepeated
    split at hrepeated
    · cases hrepeated
    · cases hrepeated
    · cases hrepeated
    · cases hrepeated
    · rename_i hnone
      exact absurd hnone hkind
  | absent hxs hnone => rfl

/-- Only a histogram can be refused, and only by a total. -/
theorem exists_histogram_of_seriesRun {cumulative : Bool} {maxSize : ℤ} {exported : Time}
    {xs : List (SeriesMeta × SeriesPoint AttributeSet)}
    (h : seriesRun cumulative maxSize exported state xs = none) :
    cumulative = true ∧ ∃ x ∈ xs, x.2.kind = .histogram := by
  induction xs generalizing state with
  | nil => cases h
  | cons x xs ih =>
    rw [seriesRun_cons] at h
    cases hstep : seriesStep cumulative maxSize exported state x with
    | none =>
      obtain ⟨seriesMeta, point⟩ := x
      cases point with
      | sum point => cases hstep
      | gauge point => cases hstep
      | histogram point =>
        refine ⟨?_, _, mem_cons_self, rfl⟩
        cases cumulative with
        | true => rfl
        | false => cases hstep
      | exponential point => cases hstep
    | some r =>
      rw [hstep, Option.bind_some, Option.map_eq_none_iff] at h
      obtain ⟨hcumulative, y, hy, hkind⟩ := ih h
      exact ⟨hcumulative, y, mem_cons_of_mem _ hy, hkind⟩

/-- A series that stands on its own history is not refused. -/
theorem seriesRun_ne_none (htyped : Typed sdk key metrics type)
    {inputs : List (Time × List (Metric KeyValue))}
    {outputs : List (List (SeriesPoint AttributeSet))}
    (hname : ∀ x ∈ inputs, ∀ m ∈ x.2, m.name = key.name)
    (hrun : Transducer.run (aloneStep sdk config key.name type) none inputs =
      some (state.map (·.bare), outputs)) :
    seriesRun (!config.delta) (expoMaxSize config) (lastTimeOf state) state
      (incoming sdk config key metrics) ≠ none := by
  intro hnone
  have hbare := seriesRun_bare (!config.delta) (expoMaxSize config) (lastTimeOf state) state
    (incoming sdk config key metrics)
  rw [hnone, Option.map_none, incoming_typed sdk config htyped] at hbare
  obtain ⟨-, x, hx, hkind⟩ := exists_histogram_of_seriesRun hbare
  obtain ⟨point, hpoint, rfl⟩ := mem_map.mp hx
  have htype : type = .histogram := (typePoints_type hpoint).symm.trans (by rw [hkind]; rfl)
  have hbefore := (Standing.init.run (.inr htype) hname hrun).1.stands
  have hexport : exportSeries config (state.map (·.bare)) 0
      (typePoints sdk config key.name type (observationsOf sdk key metrics)) = none := by
    rw [exportSeries_of_ne_nil _ _ _ (ne_nil_of_mem hpoint), lastTimeOf_bare, hbare]
    rfl
  rcases exportSeries_total (.inr htype) hbefore
    (fun _ => name_of_mem_observationsOf) 0 with
    ⟨-, -, hsome⟩ | ⟨-, s, point, hsome, -⟩
  · cases hexport.symm.trans hsome
  · cases hexport.symm.trans hsome

end

/-! ### Whole runs -/

section

variable [DecidableEq Distinct] [Inhabited AttributeSet]

/-- **Every series got where it is on its own**, whatever happened to the others. -/
structure Separate (sdk : Sdk KeyValue AttributeSet Distinct) (config : OTLPConfig)
    (s : ExporterState KeyValue AttributeSet Distinct) : Prop where
  named : AllNamed sdk config s.series
  runs : ∀ key,
    Transducer.run (fun state x => exportSeries config state x.1 x.2) none
        (seriesData sdk config key s.log) =
      some ((s.series.lookup key).map (·.bare), (seriesOutputs sdk key s.log).map sumsFirst)

namespace Separate

variable {sdk : Sdk KeyValue AttributeSet Distinct} {config : OTLPConfig}
variable {s : ExporterState KeyValue AttributeSet Distinct}

/-- A call that exports nothing. -/
theorem pass (h : Separate sdk config s) {e : ExportEntry KeyValue AttributeSet}
    (he : e.outcome.produced = none) : Separate sdk config ⟨s.series, s.log ++ [e]⟩ where
  named := h.named
  runs := by
    intro key
    have hrun := h.runs key
    rw [seriesData_append, seriesOutputs_append]
    simpa [seriesData, seriesOutputs, he] using hrun

/-- An export, from what it comes to for each series. -/
theorem push (h : Separate sdk config s) {series : SeriesStates AttributeSet Distinct}
    {metrics : List (Metric KeyValue)} {now : Time} {outcome : Outcome AttributeSet}
    {merged : List (Metrics AttributeSet)} (hproduced : outcome.produced = some merged)
    (hseries : ∀ key, SeriesExported sdk config now (s.series.lookup key)
      (incoming sdk config key metrics) (series.lookup key) (seriesPoints sdk key merged)) :
    Separate sdk config ⟨series, s.log ++ [⟨metrics, now, outcome⟩]⟩ where
  named := fun hdelta key => (hseries key).named hdelta (h.named hdelta key)
  runs := by
    intro key
    have hstep := (hseries key).alone fun x hx => of_decide_eq_true (mem_filter.mp hx).2
    have hdata : seriesData sdk config key [(⟨metrics, now, outcome⟩ : ExportEntry _ _)] =
        [(now, (incoming sdk config key metrics).map (·.2))] := by
      simp [seriesData, hproduced]
    have houtputs : seriesOutputs sdk key
        [(⟨metrics, now, outcome⟩ : ExportEntry KeyValue AttributeSet)] =
          [seriesPoints sdk key merged] := by
      simp [seriesOutputs, hproduced]
    rw [seriesData_append, seriesOutputs_append, hdata, houtputs, map_append,
      Transducer.run_append, h.runs key, Option.bind_some, map_singleton,
      Transducer.run_singleton.mpr hstep]
    rfl

/-- **A series of one type** is the transducer `aloneStep` of its observations. -/
theorem alone (h : Separate sdk config s) {key : HistogramKey Distinct} {type : MetricType}
    (htyped : TypedLog sdk key s.log type) :
    Transducer.run (aloneStep sdk config key.name type) none (seriesInputs sdk key s.log) =
      some ((s.series.lookup key).map (·.bare), seriesOutputs sdk key s.log) := by
  have hdata : seriesData sdk config key s.log = (seriesInputs sdk key s.log).map
      fun x => (x.1, typePoints sdk config key.name type x.2) := by
    rw [seriesInputs, map_filterMap]
    refine filterMap_congr fun e he => ?_
    rw [incoming_typed sdk config (htyped e he), Option.map_map]
    rfl
  have hstep : ∀ state (x : Time × List (Metric KeyValue)),
      exportSeries config state x.1 (typePoints sdk config key.name type x.2) =
        (aloneStep sdk config key.name type state x).map fun r => (r.1, id r.2) := by
    simp [aloneStep]
  have hruns := h.runs key
  rw [hdata, Transducer.run_map _ id hstep] at hruns
  simp only [map_id, Option.map_id'] at hruns
  have htypes := aloneStep_type hruns
  have hsorted : (seriesOutputs sdk key s.log).map sumsFirst = seriesOutputs sdk key s.log :=
    (map_congr_left (g := id) fun ys hys => sumsFirst_eq (htypes _ (mem_map_of_mem hys))).trans
      (map_id _)
  rw [hruns, hsorted]

end Separate

variable {sdk : Sdk KeyValue AttributeSet Distinct} {config : OTLPConfig}
  {s : ExporterState KeyValue AttributeSet Distinct}

/-- What a call adds to the log, from a state whose series are filed under their names. -/
theorem exporterStep_view {s' : ExporterState KeyValue AttributeSet Distinct}
    {call : ExporterCall KeyValue Distinct} (hnamed : AllNamed sdk config s.series)
    (h : exporterStep sdk config s call = some s') :
    (∃ metrics, s' = ⟨s.series, s.log ++ [⟨metrics, call.ambient.now, .skipped⟩]⟩ ∧
      (config.enabled = true → metrics = [])) ∨
    config.enabled = true ∧
      ((∃ metrics, s' = ⟨s.series, s.log ++ [⟨metrics, call.ambient.now, .panicked⟩]⟩ ∧ ∃ key,
        seriesRun (!config.delta) (expoMaxSize config) (lastTimeOf (s.series.lookup key))
          (s.series.lookup key) (incoming sdk config key metrics) = none) ∨
      ∃ metrics series outcome merged,
        s' = ⟨series, s.log ++ [⟨metrics, call.ambient.now, outcome⟩]⟩ ∧
        outcome.produced = some merged ∧
        ∀ key, SeriesExported sdk config call.ambient.now (s.series.lookup key)
          (incoming sdk config key metrics) (series.lookup key) (seriesPoints sdk key merged)) := by
  unfold exporterStep at h
  split at h
  · cases h
    exact .inl ⟨[], rfl, fun _ => rfl⟩
  · rename_i metrics _
    obtain ⟨⟨series, outcome⟩, hexport, rfl⟩ := Option.map_eq_some_iff.mp h
    cases henabled : config.enabled with
    | false =>
      rw [exportMetrics, henabled] at hexport
      cases hexport
      exact .inl ⟨metrics, rfl, by simp⟩
    | true =>
      refine .inr ⟨rfl, ?_⟩
      rcases exportMetrics_view henabled hexport hnamed with
        ⟨rfl, rfl, hnone⟩ | ⟨rfl, rfl, rfl, hview⟩ | ⟨merged, rfl, hview⟩
      · exact .inl ⟨metrics, rfl, hnone⟩
      · refine .inr ⟨[], _, _, [], rfl, rfl, fun key => ?_⟩
        -- nothing is sent only if no series is repeated
        obtain ⟨state', hexported⟩ := hview key
        have heq := hexported.eq_of_nil fun hdelta => hnamed hdelta key
        rw [heq] at hexported
        exact hexported
      · exact .inr ⟨metrics, series, _, merged, rfl, rfl, hview⟩

/-- **The series are separate** in every run. -/
theorem separate_of_reach (hs : (exporter sdk config).Reach s) : Separate sdk config s := by
  induction hs with
  | init => exact ⟨fun _ key s hs => absurd hs nofun, fun _ => rfl⟩
  | step _ _ hstep ih =>
    rcases exporterStep_view ih.named hstep with
      ⟨metrics, rfl, -⟩ | ⟨-, ⟨metrics, rfl, -⟩ |
        ⟨metrics, series, outcome, merged, rfl, hproduced, hview⟩⟩
    · exact ih.pass rfl
    · exact ih.pass rfl
    · exact ih.push hproduced hview

/-- **Every series got where it is on its own**, and no call panicked. -/
structure Alone (sdk : Sdk KeyValue AttributeSet Distinct) (config : OTLPConfig)
    (s : ExporterState KeyValue AttributeSet Distinct) : Prop extends Separate sdk config s where
  sound : ∀ e ∈ s.log, e.outcome ≠ .panicked
  disabled : config.enabled = false → ∀ e ∈ s.log, e.outcome = .skipped
  skipped : config.enabled = true → ∀ e ∈ s.log, e.outcome = .skipped → e.metrics = []

namespace Alone

variable {sdk : Sdk KeyValue AttributeSet Distinct} {config : OTLPConfig}
variable {s s' : ExporterState KeyValue AttributeSet Distinct}

variable (h : Alone sdk config s)
include h

/-- A call that does not panic. -/
theorem push (hseparate : Separate sdk config s')
    {e : ExportEntry KeyValue AttributeSet} (hlog : s'.log = s.log ++ [e])
    (hsound : e.outcome ≠ .panicked) (hdisabled : config.enabled = false → e.outcome = .skipped)
    (hskipped : config.enabled = true → e.outcome = .skipped → e.metrics = []) :
    Alone sdk config s' := by
  have hmem : ∀ e' ∈ s'.log, e' ∈ s.log ∨ e' = e := by
    intro e' he'
    rw [hlog, mem_append, mem_singleton] at he'
    exact he'
  refine ⟨hseparate, fun e' he' => ?_, fun hoff e' he' => ?_, fun hon e' he' hskip => ?_⟩
  · rcases hmem e' he' with hold | rfl
    · exact h.sound e' hold
    · exact hsound
  · rcases hmem e' he' with hold | rfl
    · exact h.disabled hoff e' hold
    · exact hdisabled hoff
  · rcases hmem e' he' with hold | rfl
    · exact h.skipped hon e' hold hskip
    · exact hskipped hon hskip

/-- The observations that went into the exports of a run, where there is one. -/
theorem flatMap_seriesInputs (henabled : config.enabled = true)
    (key : HistogramKey Distinct) {log : List (ExportEntry KeyValue AttributeSet)}
    (hlog : log ⊆ s.log) :
    (seriesInputs sdk key log).flatMap (·.2) =
      observationsOf sdk key (log.flatMap (·.metrics)) := by
  induction log with
  | nil => rfl
  | cons e log ih =>
    have he := hlog mem_cons_self
    have ih := ih fun e' he' => hlog (mem_cons_of_mem _ he')
    rw [flatMap_cons, observationsOf, filter_append, ← observationsOf, ← observationsOf,
      ← ih]
    cases hproduced : e.outcome.produced with
    | some merged => simp [seriesInputs, hproduced]
    | none =>
      have hnil : e.metrics = [] := by
        cases houtcome : e.outcome with
        | skipped => exact h.skipped henabled e he houtcome
        | panicked => exact absurd houtcome (h.sound e he)
        | nothing | sent =>
          rw [houtcome] at hproduced
          cases hproduced
      simp [seriesInputs, hproduced, hnil, observationsOf]

/-- **One export of a run, from one counter or histogram series.** -/
theorem cut {before after : List (ExportEntry KeyValue AttributeSet)}
    {e : ExportEntry KeyValue AttributeSet} {merged : List (Metrics AttributeSet)} {failed : Bool}
    (hlog : s.log = before ++ e :: after) (hsent : e.outcome = .sent merged failed)
    {key : HistogramKey Distinct} {type : MetricType} (htyped : TypedLog sdk key s.log type)
    (htype : type = .counter ∨ type = .histogram) :
    ∃ state state',
      Transducer.run (aloneStep sdk config key.name type) none (seriesInputs sdk key before) =
        some (state, seriesOutputs sdk key before) ∧
      aloneStep sdk config key.name type state (e.now, observationsOf sdk key e.metrics) =
        some (state', seriesPoints sdk key merged) ∧
      Standing sdk config key.name type (observationsOf sdk key (before.flatMap (·.metrics)))
        state := by
  have hrun := h.alone htyped
  rw [hlog] at hrun
  obtain ⟨state, state', hbefore, hstep, -⟩ := run_cut (congrArg Outcome.produced hsent) hrun
  refine ⟨state, state', hbefore, hstep, ?_⟩
  have he : e ∈ s.log := by
    rw [hlog]
    exact mem_append_right _ mem_cons_self
  have henabled : config.enabled = true := by
    by_contra hdisabled
    have hskipped := h.disabled (Bool.eq_false_iff.mpr hdisabled) e he
    rw [hsent] at hskipped
    cases hskipped
  have hinputs : (seriesInputs sdk key before).flatMap (·.2) =
      observationsOf sdk key (before.flatMap (·.metrics)) := by
    refine h.flatMap_seriesInputs henabled key fun e' he' => ?_
    rw [hlog]
    exact mem_append_left _ he'
  rw [← hinputs]
  exact (Standing.init.run htype (seriesInputs_name key before) hbefore).1

end Alone

/-- **The exporter is its series, side by side**, in every run in which each series keeps one
type. -/
theorem exporter_alone (hs : (exporter sdk config).Reach s)
    (hone : ∀ key, ∃ type, TypedLog sdk key s.log type) : Alone sdk config s := by
  have hseparate := separate_of_reach hs
  induction hs with
  | init =>
    exact ⟨hseparate, by simp [exporter], by simp [exporter], by simp [exporter]⟩
  | step hreach _ hstep ih =>
    have hbefore := separate_of_reach hreach
    have hview := exporterStep_view hbefore.named hstep
    rcases hview with ⟨metrics, rfl, hwhy⟩ |
      ⟨henabled, ⟨metrics, rfl, key, hnone⟩ | ⟨metrics, series, outcome, merged, rfl, hproduced, -⟩⟩
    · have h := ih (fun key => (hone key).imp fun _ htyped => htyped.of_append_left) hbefore
      exact h.push hseparate rfl nofun (fun _ => rfl) fun hon _ => hwhy hon
    · obtain ⟨type, htyped⟩ := hone key
      exact absurd hnone (seriesRun_ne_none
        (htyped _ (mem_append_right _ (mem_singleton_self _)))
        (seriesInputs_name key _) (hbefore.alone htyped.of_append_left))
    · have h := ih (fun key => (hone key).imp fun _ htyped => htyped.of_append_left) hbefore
      refine h.push hseparate rfl ?_ (fun hoff => ?_) fun _ hskip => ?_
      · rintro rfl
        cases hproduced
      · cases henabled.symm.trans hoff
      · cases hskip
        cases hproduced

end

/-! ### Series by name and attribute set -/

section

variable [DecidableEq AttributeSet] (sdk : Sdk KeyValue AttributeSet Distinct)

/-- The metrics with a name and attribute set. -/
def observationsFor (name : String) (attributes : AttributeSet)
    (metrics : List (Metric KeyValue)) : List (Metric KeyValue) :=
  metrics.filter fun m => m.name = name ∧ sdk.newSet m.attributes = attributes

/-- The data points with a name and attribute set. -/
def pointsFor (name : String) (attributes : AttributeSet) (metrics : List (Metrics AttributeSet)) :
    List (SeriesPoint AttributeSet) :=
  metrics.flatMap fun m =>
    if m.name = name then m.data.points.filter (·.attributes = attributes) else []

omit [DecidableEq AttributeSet] in
/-- Each name and attribute set is used with one type. -/
def OneType (metrics : List (Metric KeyValue)) : Prop :=
  ∀ m ∈ metrics, ∀ m' ∈ metrics, m.name = m'.name →
    sdk.newSet m.attributes = sdk.newSet m'.attributes → m.type = m'.type

instance (metrics : List (Metric KeyValue)) : Decidable (OneType sdk metrics) :=
  inferInstanceAs (Decidable (∀ m ∈ metrics, ∀ m' ∈ metrics, _ → _ → _))

variable {sdk} (hdistinct : Function.Injective sdk.equivalent)
variable (name : String) (attributes : AttributeSet)

include hdistinct

omit [DecidableEq AttributeSet] in
theorem keyOf_eq_iff (m : Metric KeyValue) :
    keyOf sdk m = ⟨name, sdk.equivalent attributes⟩ ↔
      m.name = name ∧ sdk.newSet m.attributes = attributes := by
  simp [keyOf, hdistinct.eq_iff]

variable [DecidableEq Distinct]

theorem observationsFor_eq (metrics : List (Metric KeyValue)) :
    observationsFor sdk name attributes metrics =
      observationsOf sdk ⟨name, sdk.equivalent attributes⟩ metrics := by
  refine filter_congr fun m _ => ?_
  rw [decide_eq_decide, keyOf_eq_iff hdistinct]

theorem pointsFor_eq (metrics : List (Metrics AttributeSet)) :
    pointsFor name attributes metrics =
      seriesPoints sdk ⟨name, sdk.equivalent attributes⟩ metrics := by
  induction metrics with
  | nil => rfl
  | cons m metrics ih =>
    rw [seriesPoints_cons, seriesPoints_singleton, ← ih, pointsFor, flatMap_cons, pointsFor]
    simp only [hdistinct.eq_iff]

variable {log : List (ExportEntry KeyValue AttributeSet)}

omit [DecidableEq AttributeSet] [DecidableEq Distinct] in
/-- The type of a series is that of its metrics. -/
theorem OneType.typed_of_mem (h : OneType sdk (log.flatMap (·.metrics))) {m : Metric KeyValue}
    (hm : m ∈ log.flatMap (·.metrics)) : TypedLog sdk (keyOf sdk m) log m.type := by
  intro e he m' hm' hkey
  obtain ⟨hname, hattributes⟩ := (keyOf_eq_iff hdistinct _ _ m').mp hkey
  exact h m' (mem_flatMap.mpr ⟨e, he, hm'⟩) m hm hname hattributes

omit [DecidableEq AttributeSet] [DecidableEq Distinct] in
/-- Every series has one type. -/
theorem OneType.typed (h : OneType sdk (log.flatMap (·.metrics))) (key : HistogramKey Distinct) :
    ∃ type, TypedLog sdk key log type := by
  by_cases hkey : ∃ m ∈ log.flatMap (·.metrics), keyOf sdk m = key
  · obtain ⟨m, hm, rfl⟩ := hkey
    exact ⟨m.type, h.typed_of_mem hdistinct hm⟩
  · exact ⟨.unknown, fun e he m hm hm' => absurd ⟨m, mem_flatMap.mpr ⟨e, he, hm⟩, hm'⟩ hkey⟩

omit [DecidableEq Distinct] in
/-- A series whose metrics are of one type, which is `default` where it has none. -/
theorem OneType.typed_series (default : MetricType)
    (h : OneType sdk (observationsFor sdk name attributes (log.flatMap (·.metrics)))) :
    ∃ type, TypedLog sdk ⟨name, sdk.equivalent attributes⟩ log type ∧
      (type = default ∨
        ∃ m ∈ observationsFor sdk name attributes (log.flatMap (·.metrics)), m.type = type) := by
  have hmem : ∀ e ∈ log, ∀ m ∈ e.metrics, keyOf sdk m = ⟨name, sdk.equivalent attributes⟩ →
      m ∈ observationsFor sdk name attributes (log.flatMap (·.metrics)) := by
    intro e he m hm hkey
    refine mem_filter.mpr ⟨mem_flatMap.mpr ⟨e, he, hm⟩, ?_⟩
    exact decide_eq_true ((keyOf_eq_iff hdistinct _ _ m).mp hkey)
  by_cases hkey : ∃ m, m ∈ observationsFor sdk name attributes (log.flatMap (·.metrics))
  · obtain ⟨m, hm⟩ := hkey
    refine ⟨m.type, fun e he m' hm' hkey' => ?_, .inr ⟨m, hm, rfl⟩⟩
    obtain ⟨hname, hattributes⟩ := of_decide_eq_true (mem_filter.mp hm).2
    obtain ⟨hname', hattributes'⟩ := (keyOf_eq_iff hdistinct _ _ m').mp hkey'
    exact h m' (hmem e he m' hm' hkey') m hm (hname'.trans hname.symm)
      (hattributes'.trans hattributes.symm)
  · exact ⟨default, fun e he m hm hm' => absurd ⟨m, hmem e he m hm hm'⟩ hkey, .inl rfl⟩

omit [DecidableEq Distinct] in
/-- A series none of whose metrics is a gauge is one of counters or of histograms. -/
theorem OneType.typed_total (h : OneType sdk (log.flatMap (·.metrics)))
    (hseries : ∀ m ∈ observationsFor sdk name attributes (log.flatMap (·.metrics)),
      m.type = .counter ∨ m.type = .histogram) :
    ∃ type, TypedLog sdk ⟨name, sdk.equivalent attributes⟩ log type ∧
      (type = .counter ∨ type = .histogram) := by
  have hone : OneType sdk (observationsFor sdk name attributes (log.flatMap (·.metrics))) :=
    fun m hm m' hm' => h m (mem_filter.mp hm).1 m' (mem_filter.mp hm').1
  obtain ⟨type, htyped, htype | ⟨m, hm, rfl⟩⟩ :=
    hone.typed_series hdistinct name attributes .counter
  · exact ⟨type, htyped, .inl htype⟩
  · exact ⟨m.type, htyped, hseries m hm⟩

end

end ConvoyStats.Otlp
