import ConvoyStats.Otlp.SeriesHistory

/-!
# Cumulative exports

What a cumulative exporter sends over whole histories of calls, with sends that fail,
batches in any order and idle repeats, as long as each name and attribute set keeps one
type: the points are the totals of everything observed so far
(`cumulative_exports_carry_totals`), and their times only go forward
(`cumulative_times_advance`).

Both are about one series in one export of the history (`export_of_series`): the runs of the
store are runs of each series alone, and `Standing` is what holds of its state between two
exports.  A send that fails loses points, not totals: the store has merged the batch before.
-/

namespace ConvoyStats.Otlp

open List Models

/-! ### A concrete exporter -/

/-- An SDK that is right about metrics without attributes. -/
def plainSdk : Sdk String (List String) (List String) := ⟨id, id, fun _ => 0⟩

/-- The default configuration, enabled. -/
def plainConfig (delta : Bool) : OTLPConfig where
  enabled := true
  delta := delta
  histogramBuckets := []
  bucketsByName := fun _ => []
  exponentialHistogram := none
  valid_buckets := .inl rfl
  valid_named := fun _ => .inl rfl
  valid_exponential := nofun

/-- A metric without attributes. -/
def plainMetric (type : MetricType) (value : ℚ) (timestamp : Time) : Metric String :=
  ⟨"requests", type, .finite value, [], timestamp, 0, 0, "", ""⟩

/-- The clock and whether the send fails, with the one series there is. -/
def plainAmbient (now : Time) (sendFails : Bool) : Ambient (List String) :=
  ⟨now, [⟨"requests", []⟩], sendFails⟩

/-- What the calls come to. -/
def plainLog (delta : Bool) (calls : List (ExporterCall String (List String))) :
    Option (List (ExportEntry String (List String))) :=
  ((exporter plainSdk (plainConfig delta)).run (exporter plainSdk (plainConfig delta)).init
    calls).map (·.log)

theorem reach_of_plainLog {delta : Bool} {calls : List (ExporterCall String (List String))}
    {log : List (ExportEntry String (List String))} (h : plainLog delta calls = some log) :
    ∃ s, (exporter plainSdk (plainConfig delta)).Reach s ∧ s.log = log := by
  obtain ⟨s, hrun, hlog⟩ := Option.map_eq_some_iff.mp h
  exact ⟨s, TransitionSystem.Reachable.of_run .init hrun, hlog⟩

/-- A counter that was sent. -/
def counterEntry (t : Temporality) (m : Metric String) (now : Time)
    (point : DataPoint (List String) Float64) (failed : Bool) : ExportEntry String (List String) :=
  ⟨[m], now, .sent [⟨"requests", "", "", .sum t true [point]⟩] failed⟩

def firstPoint : DataPoint (List String) Float64 := ⟨[], 10, 10, .finite 2, []⟩

def secondPoint : DataPoint (List String) Float64 := ⟨[], 10, 1000010, .finite 5, []⟩

/-- A counter whose first send failed. -/
def failedSend : List (ExportEntry String (List String)) :=
  [counterEntry .cumulative (plainMetric .counter 2 10) 20 firstPoint true,
    counterEntry .cumulative (plainMetric .counter 3 15) 30 secondPoint false]

theorem failedSend_eq : plainLog false
    [.export [plainMetric .counter 2 10] (plainAmbient 20 true),
      .export [plainMetric .counter 3 15] (plainAmbient 30 false)] = some failedSend := by
  decide +kernel

variable {KeyValue AttributeSet Distinct : Type}

/-! ### One export of a run -/

section

variable [DecidableEq Distinct] [DecidableEq AttributeSet] [Inhabited AttributeSet]
variable {sdk : Sdk KeyValue AttributeSet Distinct} {config : OTLPConfig}
variable {s : ExporterState KeyValue AttributeSet Distinct}
variable {before after : List (ExportEntry KeyValue AttributeSet)}
variable {e : ExportEntry KeyValue AttributeSet} {merged : List (Metrics AttributeSet)}
variable {failed : Bool}

/-- A counter or histogram series in one export of a run: its state before, its state after
and its point. -/
theorem export_of_series (hdistinct : Function.Injective sdk.equivalent)
    (hs : (exporter sdk config).Reach s) (hone : OneType sdk (s.log.flatMap (·.metrics)))
    (hlog : s.log = before ++ e :: after) (hsent : e.outcome = .sent merged failed)
    {name : String} {attributes : AttributeSet} {type : MetricType}
    (htyped : TypedLog sdk ⟨name, sdk.equivalent attributes⟩ s.log type)
    (htype : type = .counter ∨ type = .histogram) :
    ∃ state state',
      Transducer.run (aloneStep sdk config name type) none
        (seriesInputs sdk ⟨name, sdk.equivalent attributes⟩ before) =
          some (state, seriesOutputs sdk ⟨name, sdk.equivalent attributes⟩ before) ∧
      Standing sdk config name type
        (observationsFor sdk name attributes (before.flatMap (·.metrics))) state ∧
      Standing sdk config name type
        (observationsFor sdk name attributes ((before ++ [e]).flatMap (·.metrics))) state' ∧
      ((observationsFor sdk name attributes e.metrics = [] ∧
        (config.delta = true ∨
          observationsFor sdk name attributes (before.flatMap (·.metrics)) = []) ∧
        state' = state ∧ pointsFor name attributes merged = []) ∨
      (observationsFor sdk name attributes e.metrics ≠ [] ∨ config.delta = false) ∧
        ∃ s' point, state' = some s' ∧ pointsFor name attributes merged = [point] ∧
          Advanced sdk config name type
            (observationsFor sdk name attributes (before.flatMap (·.metrics))) state
            (observationsFor sdk name attributes e.metrics) s' point) := by
  have halone := exporter_alone hs (hone.typed hdistinct)
  obtain ⟨state, state', hrun, hstep, hstanding⟩ := halone.cut hlog hsent htyped htype
  obtain ⟨hstanding', hcases⟩ := hstanding.step htype (fun _ => name_of_mem_observationsOf) hstep
  have hbefore : observationsFor sdk name attributes ((before ++ [e]).flatMap (·.metrics)) =
        observationsOf sdk ⟨name, sdk.equivalent attributes⟩ (before.flatMap (·.metrics)) ++
          observationsOf sdk ⟨name, sdk.equivalent attributes⟩ e.metrics := by
    rw [observationsFor_eq hdistinct, flatMap_append, flatMap_singleton, observationsOf,
      filter_append]
    rfl
  rw [hbefore]
  simp only [observationsFor_eq hdistinct, pointsFor_eq hdistinct]
  exact ⟨state, state', hrun, hstanding, hstanding', hcases⟩

/-- The point of a cumulative series that has been observed. -/
theorem cumulative_point (hdistinct : Function.Injective sdk.equivalent)
    (hcumulative : config.delta = false) (hs : (exporter sdk config).Reach s)
    (hone : OneType sdk (s.log.flatMap (·.metrics))) (hlog : s.log = before ++ e :: after)
    (hsent : e.outcome = .sent merged failed) {m : Metric KeyValue}
    (hm : m ∈ (before ++ [e]).flatMap (·.metrics))
    (htype : m.type = .counter ∨ m.type = .histogram) :
    ∃ point, pointsFor m.name (sdk.newSet m.attributes) merged = [point] ∧
      Carries sdk config m.name m.type (observationsFor sdk m.name (sdk.newSet m.attributes)
        ((before ++ [e]).flatMap (·.metrics))) point := by
  have hmem : m ∈ s.log.flatMap (·.metrics) := by
    rw [hlog, append_cons, flatMap_append]
    exact mem_append_left _ hm
  obtain ⟨state, state', -, hbefore, -, hcases⟩ :=
    export_of_series hdistinct hs hone hlog hsent (hone.typed_of_mem hdistinct hmem) htype
  have hself : m ∈ observationsFor sdk m.name (sdk.newSet m.attributes)
      ((before ++ [e]).flatMap (·.metrics)) := by
    exact mem_filter.mpr ⟨hm, by simp⟩
  have happend : observationsFor sdk m.name (sdk.newSet m.attributes)
      ((before ++ [e]).flatMap (·.metrics)) =
        observationsFor sdk m.name (sdk.newSet m.attributes) (before.flatMap (·.metrics)) ++
          observationsFor sdk m.name (sdk.newSet m.attributes) e.metrics := by
    rw [flatMap_append, flatMap_singleton, observationsFor, filter_append]
    rfl
  rcases hcases with ⟨hnil, hwhy, -, -⟩ | ⟨-, s', point, -, hpoints, hadvanced⟩
  · rw [happend, hnil, hwhy.resolve_left (by simp [hcumulative])] at hself
    cases hself
  · have hcarries := hadvanced.carries
    rw [hcumulative, if_neg Bool.false_ne_true, ← happend] at hcarries
    exact ⟨point, hpoints, hcarries⟩

/-! ### Totals -/

/-- **Cumulative exports carry the totals.**  Every export has exactly one point of every
counter and histogram series observed so far, repeated or not, and it is the total of all
its observations, whether earlier sends failed or not. -/
theorem cumulative_exports_carry_totals (hdistinct : Function.Injective sdk.equivalent)
    (hcumulative : config.delta = false) (hs : (exporter sdk config).Reach s)
    (hone : OneType sdk (s.log.flatMap (·.metrics)))
    (hfinite : ∀ m ∈ s.log.flatMap (·.metrics), ∃ v, m.value = .finite v ∧ FiniteDouble v)
    (hlog : s.log = before ++ e :: after) (hsent : e.outcome = .sent merged failed)
    (name : String) (attributes : AttributeSet) :
    let observed :=
      observationsFor sdk name attributes ((before ++ [e]).flatMap (·.metrics))
    let values := observed.filterMap finiteValue
    ∀ m ∈ observed,
      (m.type = .counter → ∃ point, pointsFor name attributes merged = [.sum point] ∧
        point.value = .finite values.sum) ∧
      (m.type = .histogram → config.usesExponential name = false →
        ∃ point, pointsFor name attributes merged = [.histogram point] ∧
          point.value.count = values.length ∧ point.value.sum = .finite values.sum ∧
          point.value.bounds = config.bounds name ∧
          point.value.bucketCounts = (range ((config.bounds name).length + 1)).map
            (fun i => values.countP fun v => bucketOf (config.bounds name) (.finite v) = i) ∧
          ∃ low high, point.value.min = some (.finite low) ∧
            point.value.max = some (.finite high) ∧
            IsLeast {v | v ∈ values} low ∧ IsGreatest {v | v ∈ values} high) ∧
      (m.type = .histogram → config.usesExponential name = true →
        ∃ point settings, config.exponentialHistogram = some settings ∧
          pointsFor name attributes merged = [.exponential point] ∧
          point.value = (recordAll (expoIndex sdk.log2) settings.resolved.maxSize
            settings.resolved.maxScale values).snapshot ∧
          point.value.count = values.length ∧ point.value.sum = values.sum ∧
          ∃ low high, point.value.min = some low ∧ point.value.max = some high ∧
            IsLeast {v | v ∈ values} low ∧ IsGreatest {v | v ∈ values} high) := by
  intro observed values m hm
  obtain ⟨hmem, hseries⟩ := mem_filter.mp hm
  obtain ⟨rfl, rfl⟩ := of_decide_eq_true hseries
  have hpoint := cumulative_point hdistinct hcumulative hs hone hlog hsent hmem
  -- every value is finite
  have hall : ∀ m' ∈ observed, ∃ v, m'.value = .finite v ∧ FiniteDouble v := by
    intro m' hm'
    refine hfinite m' ?_
    rw [hlog, append_cons, flatMap_append]
    exact mem_append_left _ (mem_filter.mp hm').1
  have hvalues : observed.map (·.value) = values.map .finite :=
    map_value_of_finite fun m' hm' => (hall m' hm').imp fun _ => And.left
  have hdouble : ∀ v ∈ values, FiniteDouble v := by
    intro v hv
    obtain ⟨m', hm', hvalue⟩ := mem_filterMap.mp hv
    obtain ⟨v', hv', hdouble⟩ := hall m' hm'
    cases (finiteValue_of_eq hv').symm.trans hvalue
    exact hdouble
  have hne : values ≠ [] := by
    obtain ⟨v, hv, -⟩ := hall m hm
    exact ne_nil_of_mem (mem_filterMap.mpr ⟨m, hm, finiteValue_of_eq hv⟩)
  refine ⟨fun htype => ?_, fun htype hexplicit => ?_, fun htype hexponential => ?_⟩
  · obtain ⟨point, hpoints, hcarries⟩ := hpoint (.inl htype)
    cases point with
    | sum point =>
      refine ⟨point, hpoints, ?_⟩
      rw [hcarries.2, ← Float64.sum_map_finite, ← hvalues]
    | gauge point => exact hcarries.elim
    | histogram point | exponential point => cases htype.symm.trans hcarries.1
  · obtain ⟨point, hpoints, hcarries⟩ := hpoint (.inr htype)
    cases point with
    | sum point => cases htype.symm.trans hcarries.1
    | gauge point => exact hcarries.elim
    | histogram point =>
      have hhistogram := hcarries.2.2
      rw [hvalues] at hhistogram
      refine ⟨point, hpoints, ?_, ?_, hhistogram.bounds_eq, ?_, hhistogram.extrema values rfl⟩
      · rw [hhistogram.count, length_map]
      · rw [hhistogram.sum, Float64.sum_map_finite]
      · rw [hhistogram.bucketCounts]
        refine map_congr_left fun i _ => ?_
        rw [countP_map]
        rfl
    | exponential point => cases hexplicit.symm.trans hcarries.2.1
  · obtain ⟨point, hpoints, hcarries⟩ := hpoint (.inr htype)
    cases point with
    | sum point => cases htype.symm.trans hcarries.1
    | gauge point => exact hcarries.elim
    | histogram point => cases hexponential.symm.trans hcarries.2.1
    | exponential point =>
      obtain ⟨-, -, settings, hsettings, hvalue⟩ := hcarries
      have hvalue := hvalue hdouble
      refine ⟨point, settings, hsettings, hpoints, hvalue, ?_⟩
      rw [hvalue]
      exact snapshot_recordAll_totals (shiftsWithScale_expoIndex _) _ _ hne

/-- The total of a counter whose first send failed. -/
theorem cumulative_exports_carry_totals_failed_send :
    ∃ s merged, (exporter plainSdk (plainConfig false)).Reach s ∧
      s.log.getLast?.map (·.outcome) = some (.sent merged false) ∧
      ∃ point, pointsFor "requests" [] merged = [.sum point] ∧ point.value = .finite 5 := by
  obtain ⟨s, hs, hlog⟩ := reach_of_plainLog failedSend_eq
  refine ⟨s, _, hs, by rw [hlog]; rfl, ?_⟩
  have hfinite : ∀ m ∈ s.log.flatMap (·.metrics), ∃ v, m.value = .finite v ∧ FiniteDouble v := by
    rw [hlog]
    intro m hm
    rcases mem_pair.mp hm with rfl | rfl
    · exact ⟨2, rfl, by decide +kernel⟩
    · exact ⟨3, rfl, by decide +kernel⟩
  have hsplit : s.log = failedSend.take 1 ++
      counterEntry .cumulative (plainMetric .counter 3 15) 30 secondPoint false :: [] := hlog
  have htotals := cumulative_exports_carry_totals (fun _ _ h => h) rfl hs
    (by rw [hlog]; decide +kernel) hfinite hsplit rfl "requests" [] (plainMetric .counter 3 15)
    (by decide +kernel)
  obtain ⟨point, hpoint, hvalue⟩ := htotals.1 rfl
  exact ⟨point, hpoint, hvalue.trans (by decide +kernel)⟩

/-! ### Times -/

/-- What an earlier point of a series leaves for a later export: the series is there, it has
the start of that point, and its time is not before it. -/
theorem onward_from_point (hdistinct : Function.Injective sdk.equivalent)
    (hcumulative : config.delta = false) {name : String} {attributes : AttributeSet}
    {type : MetricType} (htype : type = .counter ∨ type = .histogram)
    (hsent : e.outcome = .sent merged failed) {state : Option (SeriesState AttributeSet)}
    (hrun : Transducer.run (aloneStep sdk config name type) none
      (seriesInputs sdk ⟨name, sdk.equivalent attributes⟩ (before ++ e :: after)) =
        some (state, seriesOutputs sdk ⟨name, sdk.equivalent attributes⟩ (before ++ e :: after)))
    {point : SeriesPoint AttributeSet} (hpoint : point ∈ pointsFor name attributes merged) :
    ∃ s, state = some s ∧ s.start = point.startTime ∧ point.time ≤ s.lastTime := by
  obtain ⟨state₀, state₁, hfirst, hstep, hlast⟩ := run_cut (congrArg Outcome.produced hsent) hrun
  have hstanding := (Standing.init.run htype (seriesInputs_name ⟨name, _⟩ before) hfirst).1
  obtain ⟨hstanding₁, hcases⟩ :=
    hstanding.step htype (fun _ => name_of_mem_observationsOf) hstep
  obtain ⟨-, honward⟩ := hstanding₁.run htype (seriesInputs_name ⟨name, _⟩ after) hlast
  rw [pointsFor_eq hdistinct] at hpoint
  rcases hcases with ⟨-, -, -, hnil⟩ | ⟨-, s₁, point₁, rfl, hpoints, hadvanced⟩
  · rw [hnil] at hpoint
    cases hpoint
  · rw [hpoints, mem_singleton] at hpoint
    subst hpoint
    obtain ⟨s, rfl, hstart, htime⟩ := honward s₁ rfl
    refine ⟨s, rfl, ?_, ?_⟩
    · rw [hadvanced.times.startTime, hcumulative, hstart]
      simp
    · rw [hadvanced.times.time]
      exact htime

/-- **Cumulative times only go forward.**  The points of a counter or histogram series start
where the first one did, each is at least a millisecond after any earlier one, and covers
every observation so far. -/
theorem cumulative_times_advance (hdistinct : Function.Injective sdk.equivalent)
    (hcumulative : config.delta = false) (hs : (exporter sdk config).Reach s)
    (hone : OneType sdk (s.log.flatMap (·.metrics)))
    (hafter : ∀ m ∈ s.log.flatMap (·.metrics), 0 < m.timestamp)
    (hlog : s.log = before ++ e :: after) (hsent : e.outcome = .sent merged failed)
    (name : String) (attributes : AttributeSet)
    (hseries : ∀ m ∈ observationsFor sdk name attributes (s.log.flatMap (·.metrics)),
      m.type = .counter ∨ m.type = .histogram) :
    ∀ point ∈ pointsFor name attributes merged,
      point.startTime ≤ point.time ∧
      (∀ m ∈ observationsFor sdk name attributes ((before ++ [e]).flatMap (·.metrics)),
        m.timestamp ≤ point.time) ∧
      ∀ earlier e' middle merged' failed', before = earlier ++ e' :: middle →
        e'.outcome = .sent merged' failed' → ∀ point' ∈ pointsFor name attributes merged',
          point.startTime = point'.startTime ∧ point'.time + minPointSpacing ≤ point.time := by
  intro point hpoint
  obtain ⟨type, htyped, htype⟩ := hone.typed_total hdistinct name attributes hseries
  obtain ⟨state, state', hrun, hstanding, hstanding', hcases⟩ :=
    export_of_series hdistinct hs hone hlog hsent htyped htype
  rcases hcases with ⟨-, -, -, hnil⟩ | ⟨-, s', point', rfl, hpoints, hadvanced⟩
  · rw [hnil] at hpoint
    cases hpoint
  · rw [hpoints, mem_singleton] at hpoint
    subst hpoint
    have htimes := hadvanced.times
    have htimed := hstanding'.timed s' rfl
    have hstart : point.startTime = s'.start := by
      rw [htimes.startTime, hcumulative]
      simp
    refine ⟨?_, fun m' hm' => ?_, ?_⟩
    · rw [hstart, htimes.time]
      exact htimed.start_le
    · rw [htimes.time]
      exact htimed.covers m' hm'
    · intro earlier e' middle merged' failed' hbefore hsent' point' hpoint'
      subst hbefore
      obtain ⟨s₀, rfl, hstart₀, htime₀⟩ :=
        onward_from_point hdistinct hcumulative htype hsent' hrun hpoint'
      -- the series has been observed after the zero time
      have hnonzero : s₀.lastTime ≠ 0 := by
        obtain ⟨m₀, hm₀⟩ := exists_mem_of_ne_nil _ hstanding.stands.1
        have hpos : 0 < m₀.timestamp := by
          refine hafter m₀ ?_
          rw [hlog, flatMap_append]
          exact mem_append_left _ (mem_filter.mp hm₀).1
        exact (hpos.trans_le ((hstanding.timed s₀ rfl).covers m₀ hm₀)).ne'
      have hlater : s₀.lastTime + minPointSpacing ≤ s'.lastTime := by
        have hlater := htimes.later
        rw [hcumulative] at hlater
        simpa [nextTime, lastTimeOf, hnonzero] using hlater
      constructor
      · rw [hstart, htimes.kept s₀ rfl, hstart₀]
      · rw [htimes.time]
        exact (add_le_add_left htime₀ _).trans hlater

/-- The two points of that counter, a millisecond apart. -/
theorem cumulative_times_advance_failed_send :
    ∃ s, (exporter plainSdk (plainConfig false)).Reach s ∧ s.log = failedSend ∧
      (SeriesPoint.sum secondPoint).startTime = (SeriesPoint.sum firstPoint).startTime ∧
      (SeriesPoint.sum firstPoint).time + minPointSpacing ≤ (SeriesPoint.sum secondPoint).time := by
  obtain ⟨s, hs, hlog⟩ := reach_of_plainLog failedSend_eq
  have hsplit : s.log = failedSend.take 1 ++
      counterEntry .cumulative (plainMetric .counter 3 15) 30 secondPoint false :: [] := hlog
  have htimes := cumulative_times_advance (fun _ _ h => h) rfl hs (by rw [hlog]; decide +kernel)
    (by rw [hlog]; decide +kernel) hsplit rfl "requests" []
    (by rw [hlog]; decide +kernel) (.sum secondPoint) (by decide +kernel)
  exact ⟨s, hs, hlog, htimes.2.2 [] _ [] _ true rfl rfl (.sum firstPoint) (by decide +kernel)⟩

end

end ConvoyStats.Otlp
