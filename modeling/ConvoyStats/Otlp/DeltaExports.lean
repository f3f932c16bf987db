import ConvoyStats.Otlp.CumulativeExports

/-!
# Delta exports

What a delta exporter sends over whole histories of calls, as long as each name and
attribute set keeps one type.  A series has a point in exactly the exports it is observed
in, a point starts where the one before it ended, and nothing is lost on the way: the
deltas of a series add up to its observations.

Exponential deltas come at different scales.  They add up after they are brought to the
scale of the histogram of all observations, which none of them is below.
-/

namespace ConvoyStats.Otlp

open Coarsening List Models

variable {KeyValue AttributeSet Distinct : Type}

/-! ### Adding up -/

section

variable [Inhabited AttributeSet] {sdk : Sdk KeyValue AttributeSet Distinct} {config : OTLPConfig}
variable {name : String} {type : MetricType}

/-- What a delta export has of a series: nothing, or a point that is the total of its
observations there. -/
def IsDelta (sdk : Sdk KeyValue AttributeSet Distinct) (config : OTLPConfig) (name : String)
    (type : MetricType) (observations : List (Metric KeyValue))
    (points : List (SeriesPoint AttributeSet)) : Prop :=
  (observations = [] ∧ points = []) ∨
    ∃ point, points = [point] ∧ Carries sdk config name type observations point

variable {inputs : List (Time × List (Metric KeyValue))}
  {outputs : List (List (SeriesPoint AttributeSet))}

/-- The exports of a delta series. -/
theorem isDelta_of_run (hdelta : config.delta = true) (htype : type = .counter ∨ type = .histogram)
    {before : List (Metric KeyValue)} {state state' : Option (SeriesState AttributeSet)}
    (h : Standing sdk config name type before state)
    (hname : ∀ x ∈ inputs, ∀ m ∈ x.2, m.name = name)
    (hrun : Transducer.run (aloneStep sdk config name type) state inputs = some (state', outputs)) :
    Forall₂ (fun x y => IsDelta sdk config name type x.2 y) inputs outputs := by
  refine (Transducer.run_forall₂ (I := fun state => ∃ before,
    Standing sdk config name type before state) ⟨before, h⟩ ?_ hrun).2
  rintro x hx y - t t' ⟨before, h⟩ hstep
  obtain ⟨hstanding, hcases⟩ := h.step htype (hname x hx) hstep
  refine ⟨⟨_, hstanding⟩, ?_⟩
  rcases hcases with ⟨hnil, -, -, rfl⟩ | ⟨-, s, point, -, rfl, hadvanced⟩
  · exact .inl ⟨hnil, rfl⟩
  · refine .inr ⟨point, rfl, ?_⟩
    have hcarries := hadvanced.carries
    rwa [hdelta, if_pos rfl] at hcarries

omit [Inhabited AttributeSet] in
/-- **Deltas add up.**  What is additive in the observations and read off from a point in
the same way is added up by the deltas. -/
theorem sum_of_isDelta {M : Type*} [AddCommMonoid M] (measure : List (Metric KeyValue) → M)
    (read : SeriesPoint AttributeSet → M) (hnil : measure [] = 0)
    (happend : ∀ a b, measure (a ++ b) = measure a + measure b)
    (h : Forall₂ (fun x y => IsDelta sdk config name type x.2 y) inputs outputs)
    (hread : ∀ x ∈ inputs, ∀ point, Carries sdk config name type x.2 point →
      read point = measure x.2) :
    (outputs.flatten.map read).sum = measure (inputs.flatMap (·.2)) := by
  induction h with
  | nil => exact hnil.symm
  | cons hxy _ ih =>
    rename_i x y inputs outputs _
    have ih := ih fun x' hx' => hread x' (mem_cons_of_mem _ hx')
    rw [flatten_cons, map_append, sum_append, flatMap_cons, happend, ih]
    congr 1
    rcases hxy with ⟨hx, rfl⟩ | ⟨point, rfl, hcarries⟩
    · rw [hx, hnil]
      rfl
    · rw [map_singleton, sum_singleton]
      exact hread x mem_cons_self point hcarries

/-- A delta series without a point is as it was. -/
theorem eq_of_quiet (htype : type = .counter ∨ type = .histogram) {before : List (Metric KeyValue)}
    {state state' : Option (SeriesState AttributeSet)}
    (h : Standing sdk config name type before state)
    (hname : ∀ x ∈ inputs, ∀ m ∈ x.2, m.name = name)
    (hrun : Transducer.run (aloneStep sdk config name type) state inputs = some (state', outputs))
    (hquiet : ∀ y ∈ outputs, y = []) : state' = state := by
  refine (Transducer.run_forall₂ (R := fun _ _ => True) (I := fun t =>
    t = state ∧ ∃ before, Standing sdk config name type before t) ⟨rfl, before, h⟩ ?_ hrun).1.1
  rintro x hx y hy t t' ⟨rfl, before, h⟩ hstep
  obtain ⟨hstanding, hcases⟩ := h.step htype (hname x hx) hstep
  rcases hcases with ⟨-, -, rfl, -⟩ | ⟨-, s, point, -, rfl, -⟩
  · exact ⟨⟨rfl, _, hstanding⟩, trivial⟩
  · cases hquiet _ hy

end

/-! ### What is read off from a point -/

section

/-- The value of a sum. -/
def SeriesPoint.number : SeriesPoint AttributeSet → Float64
  | .sum point => point.value
  | _ => 0

/-- The count of a bucket of an explicit histogram. -/
def SeriesPoint.bucketCount (i : ℕ) : SeriesPoint AttributeSet → ℕ
  | .histogram point => point.value.bucketCounts.getD i 0
  | _ => 0

/-- The buckets of an exponential histogram on one side, each as often as it counts. -/
def ExpoValues.contents (p : ExpoValues) : Side → Multiset ℤ
  | .positive => bucketContents p.positiveBucket.offset p.positiveBucket.counts
  | .negative => bucketContents p.negativeBucket.offset p.negativeBucket.counts

/-- The buckets of an exponential histogram at a scale that is not above its own. -/
def SeriesPoint.contentsAt (scale : ℤ) (side : Side) : SeriesPoint AttributeSet → Multiset ℤ
  | .exponential point => coarsen (point.value.scale - scale).toNat (point.value.contents side)
  | _ => 0

/-- The zero count of an exponential histogram. -/
def SeriesPoint.zeroCount : SeriesPoint AttributeSet → ℕ
  | .exponential point => point.value.zeroCount
  | _ => 0

variable {log2 : ℚ → ℚ} {values : List ℚ}

/-- The buckets of recorded values. -/
theorem contents_recordAll (maxSize maxScale : ℤ) (hfinite : ∀ v ∈ values, FiniteDouble v)
    (side : Side) :
    (recordAll (expoIndex log2) maxSize maxScale values).snapshot.contents side =
      indexes (expoIndex log2) values
        (recordAll (expoIndex log2) maxSize maxScale values).scale side := by
  have hindex := shiftsWithScale_expoIndex log2
  have hr := records_recordAll hindex maxSize maxScale values
  have hoffset := bucketOffset_range hr hfinite side
  have hcontents := (hr.held hindex side).contents
  rw [← hcontents]
  cases side with
  | positive | negative => exact congrArg (fun offset => bucketContents offset _) hoffset

/-- A histogram of fewer values is no coarser. -/
theorem scale_recordAll_le (maxSize maxScale : ℤ) {all : List ℚ} (hsub : values ⊆ all) :
    (recordAll (expoIndex log2) maxSize maxScale all).scale ≤
      (recordAll (expoIndex log2) maxSize maxScale values).scale := by
  have hindex := shiftsWithScale_expoIndex log2
  obtain ⟨hge, hle, hholds, hgreatest⟩ :=
    (records_recordAll hindex maxSize maxScale values).scale_spec hindex
  obtain ⟨hge', hle', hholds', -⟩ :=
    (records_recordAll hindex maxSize maxScale all).scale_spec hindex
  rw [recordAll_maxSize] at hgreatest hholds'
  by_contra hlt
  rw [not_le] at hlt
  rcases hholds' with hmin | hspans
  · omega
  · exact hgreatest _ hlt hle' (hspans.mono (Multiset.coe_subset.mpr hsub) le_rfl)

/-- The buckets of recorded values at a scale that is not above theirs. -/
theorem coarsen_contents_recordAll (maxSize maxScale : ℤ) (hfinite : ∀ v ∈ values, FiniteDouble v)
    {scale : ℤ} (hmin : expoMinScale ≤ scale)
    (hscale : scale ≤ (recordAll (expoIndex log2) maxSize maxScale values).scale) (side : Side) :
    coarsen ((recordAll (expoIndex log2) maxSize maxScale values).scale - scale).toNat
        ((recordAll (expoIndex log2) maxSize maxScale values).snapshot.contents side) =
      indexes (expoIndex log2) values scale side := by
  have hindex := shiftsWithScale_expoIndex log2
  have hr := records_recordAll hindex maxSize maxScale values
  have hle := (hr.scale_spec hindex).2.1.trans hr.start_le
  have hdrop : (recordAll (expoIndex log2) maxSize maxScale values).scale -
      (((recordAll (expoIndex log2) maxSize maxScale values).scale - scale).toNat : ℤ) = scale := by
    omega
  rw [contents_recordAll maxSize maxScale hfinite, coarsen_indexes hindex hle (by omega), hdrop]

end

/-! ### The deltas of a series -/

section

variable {sdk : Sdk KeyValue AttributeSet Distinct} {config : OTLPConfig} {name : String}
variable {inputs : List (Time × List (Metric KeyValue))}
variable {outputs : List (List (SeriesPoint AttributeSet))}

/-- The deltas of a counter. -/
theorem sum_number
    (h : Forall₂ (fun x y => IsDelta sdk config name .counter x.2 y) inputs outputs) :
    (outputs.flatten.map (·.number)).sum = ((inputs.flatMap (·.2)).map (·.value)).sum := by
  refine sum_of_isDelta (fun observations => (observations.map (·.value)).sum) (·.number) rfl
    (fun a b => by rw [map_append, sum_append]) h fun x _ point hcarries => ?_
  cases point with
  | sum point => exact hcarries.2
  | gauge point => exact hcarries.elim
  | histogram point => cases hcarries.1
  | exponential point => cases hcarries.1

/-- The deltas of an explicit histogram, bucket by bucket. -/
theorem sum_bucketCount
    (h : Forall₂ (fun x y => IsDelta sdk config name .histogram x.2 y) inputs outputs)
    (hexplicit : config.usesExponential name = false) {i : ℕ}
    (hi : i ≤ (config.bounds name).length) :
    (outputs.flatten.map (·.bucketCount i)).sum =
      (inputs.flatMap (·.2)).countP fun m => bucketOf (config.bounds name) m.value = i := by
  refine sum_of_isDelta (fun observations => observations.countP
    fun m => bucketOf (config.bounds name) m.value = i) (·.bucketCount i) rfl
    (fun a b => countP_append) h fun x _ point hcarries => ?_
  cases point with
  | sum point => cases hcarries.1
  | gauge point => exact hcarries.elim
  | exponential point => cases hexplicit.symm.trans hcarries.2.1
  | histogram point =>
    rw [SeriesPoint.bucketCount, hcarries.2.2.bucketCounts]
    simp [getElem?_range (Nat.lt_succ_of_le hi), countP_map, Function.comp_def]

/-- The deltas of an exponential histogram, at the scale of the histogram of all values. -/
theorem sum_exponential
    (h : Forall₂ (fun x y => IsDelta sdk config name .histogram x.2 y) inputs outputs)
    {settings : OTLPExponentialHistogram} (hsettings : config.exponentialHistogram = some settings)
    (hexponential : config.usesExponential name = true) {values : List ℚ}
    (hvalues : values = (inputs.flatMap (·.2)).filterMap finiteValue)
    (hfinite : ∀ v ∈ values, FiniteDouble v) :
    let total := (recordAll (expoIndex sdk.log2) settings.resolved.maxSize
      settings.resolved.maxScale values).snapshot
    (outputs.flatten.map (·.zeroCount)).sum = total.zeroCount ∧
      ∀ side, (outputs.flatten.map (·.contentsAt total.scale side)).sum = total.contents side := by
  have hindex := shiftsWithScale_expoIndex sdk.log2
  have hrecords := records_recordAll hindex settings.resolved.maxSize settings.resolved.maxScale
  -- a delta is the histogram of its own values, which are some of all
  have hdelta : ∀ x ∈ inputs, ∀ point, Carries sdk config name .histogram x.2 point →
      x.2.filterMap finiteValue ⊆ values ∧ ∃ p, point = .exponential p ∧
        p.value = (recordAll (expoIndex sdk.log2) settings.resolved.maxSize
          settings.resolved.maxScale (x.2.filterMap finiteValue)).snapshot := by
    intro x hx point hcarries
    have hsome : x.2.filterMap finiteValue ⊆ values := by
      intro v hv
      obtain ⟨m, hm, hvalue⟩ := mem_filterMap.mp hv
      rw [hvalues]
      exact mem_filterMap.mpr ⟨m, mem_flatMap.mpr ⟨x, hx, hm⟩, hvalue⟩
    refine ⟨hsome, ?_⟩
    cases point with
    | sum point => cases hcarries.1
    | gauge point => exact hcarries.elim
    | histogram point => cases hexponential.symm.trans hcarries.2.1
    | exponential point =>
      obtain ⟨-, -, settings', hsettings', hvalue⟩ := hcarries
      cases hsettings.symm.trans hsettings'
      exact ⟨point, rfl, hvalue fun v hv => hfinite v (hsome hv)⟩
  refine ⟨?_, fun side => ?_⟩
  · refine Eq.trans ?_ ((hrecords values).zeroCount.trans (Multiset.coe_count ..)).symm
    rw [hvalues]
    refine sum_of_isDelta (fun observations => (observations.filterMap finiteValue).count 0)
      (·.zeroCount) rfl (fun a b => by rw [filterMap_append, count_append]) h
      fun x hx point hcarries => ?_
    obtain ⟨-, p, rfl, hp⟩ := hdelta x hx point hcarries
    rw [SeriesPoint.zeroCount, hp]
    exact (hrecords _).zeroCount.trans (Multiset.coe_count ..)
  · refine Eq.trans ?_ (contents_recordAll settings.resolved.maxSize settings.resolved.maxScale
      hfinite side).symm
    generalize hscale : (recordAll (expoIndex sdk.log2) settings.resolved.maxSize
      settings.resolved.maxScale values).scale = scale
    have hsnapshot : (recordAll (expoIndex sdk.log2) settings.resolved.maxSize
      settings.resolved.maxScale values).snapshot.scale = scale := hscale
    rw [hsnapshot, hvalues]
    refine sum_of_isDelta (fun observations => indexes (expoIndex sdk.log2)
      (observations.filterMap finiteValue : List ℚ) scale side) (·.contentsAt scale side) ?_ ?_ h
      fun x hx point hcarries => ?_
    · exact congrFun (indexes_zero _ _) side
    · intro a b
      rw [filterMap_append, ← Multiset.coe_add, indexes_add]
    · obtain ⟨hsome, p, rfl, hp⟩ := hdelta x hx point hcarries
      rw [SeriesPoint.contentsAt, hp]
      refine coarsen_contents_recordAll _ _ (fun v hv => hfinite v (hsome hv)) ?_ ?_ side
      · rw [← hscale]
        exact ((hrecords values).scale_spec hindex).1
      · rw [← hscale]
        exact scale_recordAll_le _ _ hsome

end

/-! ### Whole runs -/

section

variable [DecidableEq Distinct] [DecidableEq AttributeSet] [Inhabited AttributeSet]
variable {sdk : Sdk KeyValue AttributeSet Distinct} {config : OTLPConfig}
variable {s : ExporterState KeyValue AttributeSet Distinct}
variable {name : String} {attributes : AttributeSet} {type : MetricType}

omit [DecidableEq AttributeSet] [Inhabited AttributeSet] in
/-- The points of a series in the exports of a run, one after the other. -/
theorem flatten_seriesOutputs (key : HistogramKey Distinct)
    (log : List (ExportEntry KeyValue AttributeSet)) :
    (seriesOutputs sdk key log).flatten =
      log.flatMap fun e => seriesPoints sdk key (e.outcome.produced.getD []) := by
  induction log with
  | nil => rfl
  | cons e log ih =>
    rw [flatMap_cons, ← ih]
    cases hproduced : e.outcome.produced with
    | none => simp [seriesOutputs, hproduced, seriesPoints, pointsOf, allPoints]
    | some merged => simp [seriesOutputs, hproduced]

section

variable (hdistinct : Function.Injective sdk.equivalent)
include hdistinct

/-- What the last point of a series leaves for a later export: the series is there, and its
time is that of the point. -/
theorem lastTime_of_quiet
    (htype : type = .counter ∨ type = .histogram)
    {before after : List (ExportEntry KeyValue AttributeSet)}
    {e : ExportEntry KeyValue AttributeSet} {merged : List (Metrics AttributeSet)} {failed : Bool}
    (hsent : e.outcome = .sent merged failed) {state : Option (SeriesState AttributeSet)}
    (hrun : Transducer.run (aloneStep sdk config name type) none
      (seriesInputs sdk ⟨name, sdk.equivalent attributes⟩ (before ++ e :: after)) =
        some (state, seriesOutputs sdk ⟨name, sdk.equivalent attributes⟩ (before ++ e :: after)))
    (hquiet : ∀ e' ∈ after, ∀ merged' failed', e'.outcome = .sent merged' failed' →
      pointsFor name attributes merged' = [])
    {point : SeriesPoint AttributeSet} (hpoint : point ∈ pointsFor name attributes merged) :
    ∃ s, state = some s ∧ s.lastTime = point.time := by
  obtain ⟨state₀, state₁, hfirst, hstep, hlast⟩ := run_cut (congrArg Outcome.produced hsent) hrun
  have hstanding := (Standing.init.run htype (seriesInputs_name ⟨name, _⟩ before) hfirst).1
  obtain ⟨hstanding₁, hcases⟩ :=
    hstanding.step htype (fun _ => name_of_mem_observationsOf) hstep
  have hsame : state = state₁ := by
    refine eq_of_quiet htype hstanding₁ (seriesInputs_name ⟨name, _⟩ after) hlast fun y hy => ?_
    obtain ⟨e', he', hy⟩ := mem_filterMap.mp hy
    obtain ⟨merged', hproduced, rfl⟩ := Option.map_eq_some_iff.mp hy
    cases houtcome : e'.outcome with
    | sent metrics failed' =>
      rw [houtcome] at hproduced
      cases hproduced
      rw [← pointsFor_eq hdistinct]
      exact hquiet e' he' _ _ houtcome
    | nothing =>
      rw [houtcome] at hproduced
      cases hproduced
      rfl
    | skipped | panicked =>
      rw [houtcome] at hproduced
      cases hproduced
  rw [pointsFor_eq hdistinct] at hpoint
  rcases hcases with ⟨-, -, -, hnil⟩ | ⟨-, s₁, point₁, hstate, hpoints, hadvanced⟩
  · rw [hnil] at hpoint
    cases hpoint
  · rw [hpoints, mem_singleton] at hpoint
    subst hpoint
    exact ⟨s₁, hsame.trans hstate, hadvanced.times.time.symm⟩

/-- One export of a delta series: a point if it is observed, which starts where the one
before it ended. -/
theorem delta_export
    (hdelta : config.delta = true) (hs : (exporter sdk config).Reach s)
    (hone : OneType sdk (s.log.flatMap (·.metrics)))
    (htyped : TypedLog sdk ⟨name, sdk.equivalent attributes⟩ s.log type)
    (htype : type = .counter ∨ type = .histogram)
    {before after : List (ExportEntry KeyValue AttributeSet)}
    {e : ExportEntry KeyValue AttributeSet} {merged : List (Metrics AttributeSet)} {failed : Bool}
    (hlog : s.log = before ++ e :: after) (hsent : e.outcome = .sent merged failed) :
    (observationsFor sdk name attributes e.metrics = [] → pointsFor name attributes merged = []) ∧
    (observationsFor sdk name attributes e.metrics ≠ [] →
      ∃ point, pointsFor name attributes merged = [point]) ∧
    ∀ point ∈ pointsFor name attributes merged, point.startTime ≤ point.time ∧
      ∀ earlier e' middle merged' failed', before = earlier ++ e' :: middle →
        e'.outcome = .sent merged' failed' →
        (∀ e'' ∈ middle, ∀ merged'' failed'', e''.outcome = .sent merged'' failed'' →
          pointsFor name attributes merged'' = []) →
        ∀ point' ∈ pointsFor name attributes merged',
          point'.time ≠ 0 ∨ (∀ m ∈ observationsFor sdk name attributes
            (before.flatMap (·.metrics)), 0 ≤ m.timestamp) →
          point.startTime = point'.time := by
  obtain ⟨state, state', hrun, hstanding, hstanding', hcases⟩ :=
    export_of_series hdistinct hs hone hlog hsent htyped htype
  rcases hcases with ⟨hobserved, -, -, hnil⟩ | ⟨hwhy, s', point, rfl, hpoints, hadvanced⟩
  · refine ⟨fun _ => hnil, fun hne => absurd hobserved hne, fun point hpoint => ?_⟩
    rw [hnil] at hpoint
    cases hpoint
  · have hobserved := hwhy.resolve_right (by simp [hdelta])
    refine ⟨fun hnil => absurd hnil hobserved, fun _ => ⟨point, hpoints⟩, fun point' hpoint' => ?_⟩
    rw [hpoints, mem_singleton] at hpoint'
    subst hpoint'
    have htimes := hadvanced.times
    have hstart : point'.startTime =
        if lastTimeOf state ≠ 0 then lastTimeOf state else s'.start := by
      rw [htimes.startTime, hdelta]
      simp
    constructor
    · rw [hstart, htimes.time]
      split
      · exact htimes.lastTime_le
      · exact (hstanding'.timed s' rfl).start_le
    · intro earlier e' middle merged' failed' hbefore hsent' hquiet point₀ hpoint₀ hwhy
      subst hbefore
      obtain ⟨s₀, rfl, htime₀⟩ := lastTime_of_quiet hdistinct htype hsent' hrun hquiet hpoint₀
      rw [← htime₀] at hwhy ⊢
      rw [hstart]
      split
      · rfl
      · -- a series that is still at the zero time has started there
        rename_i hzero
        have hzero : s₀.lastTime = 0 := not_not.mp hzero
        have hnonneg := hwhy.resolve_left (not_not.mpr hzero)
        have htimed := hstanding.timed s₀ rfl
        rw [htimes.kept s₀ rfl, hzero]
        exact le_antisymm (hzero ▸ htimed.start_le) (htimed.nonneg hnonneg)

/-- The exports of a delta series over a whole run. -/
theorem isDelta_of_reach
    (hdelta : config.delta = true) (henabled : config.enabled = true)
    (hs : (exporter sdk config).Reach s) (hone : OneType sdk (s.log.flatMap (·.metrics)))
    (htyped : TypedLog sdk ⟨name, sdk.equivalent attributes⟩ s.log type)
    (htype : type = .counter ∨ type = .histogram) :
    ∃ inputs outputs,
      Forall₂ (fun (x : Time × List (Metric KeyValue)) y =>
        IsDelta sdk config name type x.2 y) inputs outputs ∧
      inputs.flatMap (·.2) = observationsFor sdk name attributes (s.log.flatMap (·.metrics)) ∧
      outputs.flatten =
        s.log.flatMap fun e => pointsFor name attributes (e.outcome.produced.getD []) := by
  have halone := exporter_alone hs (hone.typed hdistinct)
  refine ⟨_, _, isDelta_of_run hdelta htype .init (seriesInputs_name ⟨name, _⟩ s.log)
    (halone.alone htyped), ?_, ?_⟩
  · rw [observationsFor_eq hdistinct]
    exact halone.flatMap_seriesInputs henabled _ (List.Subset.refl _)
  · rw [flatten_seriesOutputs]
    simp only [pointsFor_eq hdistinct]

end

/-- **Delta points tile time and lose nothing.**  Every export has exactly one point of a
counter or histogram series that is observed in it and none otherwise; a point does not end
before it starts, and starts where the one before it ended; and the deltas of a series add up
to its observations, for exponential histograms at the scale of the histogram of all of them.

A `lastTime` of zero stands for no point yet.  So a point after one that ended at the zero
time starts there only if no observation so far was stamped before it; a point after one
that ended anywhere else starts there whatever the stamps were. -/
theorem delta_exports_tile_and_add_up (hdistinct : Function.Injective sdk.equivalent)
    (hdelta : config.delta = true) (hs : (exporter sdk config).Reach s)
    (hone : OneType sdk (s.log.flatMap (·.metrics))) (name : String) (attributes : AttributeSet)
    (hseries : ∀ m ∈ observationsFor sdk name attributes (s.log.flatMap (·.metrics)),
      m.type = .counter ∨ m.type = .histogram) :
    (∀ before e after merged failed, s.log = before ++ e :: after →
      e.outcome = .sent merged failed →
      (observationsFor sdk name attributes e.metrics = [] → pointsFor name attributes merged = []) ∧
      (observationsFor sdk name attributes e.metrics ≠ [] →
        ∃ point, pointsFor name attributes merged = [point]) ∧
      ∀ point ∈ pointsFor name attributes merged, point.startTime ≤ point.time ∧
        ∀ earlier e' middle merged' failed', before = earlier ++ e' :: middle →
          e'.outcome = .sent merged' failed' →
          (∀ e'' ∈ middle, ∀ merged'' failed'', e''.outcome = .sent merged'' failed'' →
            pointsFor name attributes merged'' = []) →
          ∀ point' ∈ pointsFor name attributes merged',
            point'.time ≠ 0 ∨ (∀ m ∈ observationsFor sdk name attributes
              (before.flatMap (·.metrics)), 0 ≤ m.timestamp) →
            point.startTime = point'.time) ∧
    (config.enabled = true →
      let observed := observationsFor sdk name attributes (s.log.flatMap (·.metrics))
      let values := observed.filterMap finiteValue
      let points := s.log.flatMap fun e => pointsFor name attributes (e.outcome.produced.getD [])
      ∀ m ∈ observed,
        (m.type = .counter → (points.map (·.number)).sum = (observed.map (·.value)).sum) ∧
        (m.type = .histogram → config.usesExponential name = false →
          ∀ i ≤ (config.bounds name).length, (points.map (·.bucketCount i)).sum =
            observed.countP fun m => bucketOf (config.bounds name) m.value = i) ∧
        (m.type = .histogram → config.usesExponential name = true →
          (∀ v ∈ values, FiniteDouble v) →
          ∃ settings, config.exponentialHistogram = some settings ∧
            let total := (recordAll (expoIndex sdk.log2) settings.resolved.maxSize
              settings.resolved.maxScale values).snapshot
            (points.map (·.zeroCount)).sum = total.zeroCount ∧
            ∀ side, (points.map (·.contentsAt total.scale side)).sum = total.contents side)) := by
  obtain ⟨type, htyped, htype⟩ := hone.typed_total hdistinct name attributes hseries
  refine ⟨fun before e after merged failed hlog hsent =>
    delta_export hdistinct hdelta hs hone htyped htype hlog hsent, fun henabled => ?_⟩
  obtain ⟨inputs, outputs, hforall, hinputs, houtputs⟩ :=
    isDelta_of_reach hdistinct hdelta henabled hs hone htyped htype
  intro observed values points m hm
  obtain ⟨hmem, hkey⟩ := mem_filter.mp hm
  have htype' : m.type = type := by
    obtain ⟨e, he, hm⟩ := mem_flatMap.mp hmem
    exact htyped e he m hm ((keyOf_eq_iff hdistinct _ _ m).mpr (of_decide_eq_true hkey))
  have hobserved : observed = inputs.flatMap (·.2) := hinputs.symm
  have hpoints : points = outputs.flatten := houtputs.symm
  rw [htype', hpoints]
  refine ⟨?_, ?_, ?_⟩
  · rintro rfl
    rw [hobserved]
    exact sum_number hforall
  · rintro rfl hexplicit i hi
    rw [hobserved]
    exact sum_bucketCount hforall hexplicit hi
  · rintro rfl hexponential hfinite
    obtain ⟨settings, hsettings⟩ : ∃ settings, config.exponentialHistogram = some settings := by
      rw [OTLPConfig.usesExponential, Bool.and_eq_true] at hexponential
      exact Option.isSome_iff_exists.mp hexponential.1
    exact ⟨settings, hsettings, sum_exponential hforall hsettings hexponential
      (by rw [hinputs]) hfinite⟩

/-- A counter of 2, then of 3, on a delta exporter. -/
def deltaSends : List (ExportEntry String (List String)) :=
  [counterEntry .delta (plainMetric .counter 2 10) 20 ⟨[], 10, 10, .finite 2, []⟩ false,
    counterEntry .delta (plainMetric .counter 3 15) 30 ⟨[], 10, 15, .finite 3, []⟩ false]

/-- Its deltas add up. -/
theorem delta_exports_tile_and_add_up_two_sends :
    ∃ s, (exporter plainSdk (plainConfig true)).Reach s ∧ s.log = deltaSends ∧
      ((deltaSends.flatMap fun e => pointsFor "requests" [] (e.outcome.produced.getD [])).map
        (·.number)).sum = .finite 5 := by
  have hrun : plainLog true
      [.export [plainMetric .counter 2 10] (plainAmbient 20 false),
        .export [plainMetric .counter 3 15] (plainAmbient 30 false)] = some deltaSends := by
    decide +kernel
  obtain ⟨s, hs, hlog⟩ := reach_of_plainLog hrun
  have htotal := (delta_exports_tile_and_add_up (fun _ _ h => h) rfl hs
    (by rw [hlog]; decide +kernel) "requests" [] (by rw [hlog]; decide +kernel)).2 rfl
    (plainMetric .counter 3 15) (by rw [hlog]; decide +kernel)
  refine ⟨s, hs, hlog, ?_⟩
  rw [← hlog]
  refine (htotal.1 rfl).trans ?_
  rw [hlog]
  decide +kernel

/-- The points of a counter first observed before the zero time. -/
def earlyPoint : DataPoint (List String) Float64 := ⟨[], -5, 0, .finite 2, []⟩

def laterPoint : DataPoint (List String) Float64 := ⟨[], -5, 15, .finite 3, []⟩

/-- A first observation from before the zero time is moved up to it, where the series looks
as if it had no point yet: the next point starts before the first one ended. -/
theorem delta_points_before_zero_time_overlap :
    ∃ s, (exporter plainSdk (plainConfig true)).Reach s ∧
      s.log = [counterEntry .delta (plainMetric .counter 2 (-5)) 20 earlyPoint false,
        counterEntry .delta (plainMetric .counter 3 15) 30 laterPoint false] ∧
      OneType plainSdk (s.log.flatMap (·.metrics)) ∧
      (SeriesPoint.sum laterPoint).startTime ≠ (SeriesPoint.sum earlyPoint).time := by
  have hrun : plainLog true
      [.export [plainMetric .counter 2 (-5)] (plainAmbient 20 false),
        .export [plainMetric .counter 3 15] (plainAmbient 30 false)] =
      some [counterEntry .delta (plainMetric .counter 2 (-5)) 20 earlyPoint false,
        counterEntry .delta (plainMetric .counter 3 15) 30 laterPoint false] := by
    decide +kernel
  obtain ⟨s, hs, hlog⟩ := reach_of_plainLog hrun
  refine ⟨s, hs, hlog, ?_, by decide⟩
  rw [hlog]
  decide +kernel

end

end ConvoyStats.Otlp
