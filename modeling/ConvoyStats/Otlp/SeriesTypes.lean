import ConvoyStats.Otlp.CumulativeExports

/-!
# Series of different types

All types of metrics share one `SeriesState` under one key.  If a name and attribute set is
recorded as a counter and then as an explicit histogram, the histogram is added to one that
was never made, and `addHistogram` indexes its missing bucket counts
(`counter_then_histogram_panics`).  `MeetsOther` is this meeting, as a condition on one call.
It is the only way to panic (`meetsOther_of_panicked`): a delta exporter adds nothing up, and
nothing but explicit buckets is indexed, so a counter may meet a gauge, or a histogram that
came first.

As long as no call is such a meeting, no call panics, and a name and attribute set that keeps
one type is not disturbed by what is recorded under the others, which may mix types: its
points are those of the history in which every metric of another type is removed
(`series_of_one_type_do_not_interfere`).  The reason is `Separate`: both histories feed the
series the same inputs.  It has to keep one type: an export with a gauge does not repeat the
counter of its key.
-/

namespace ConvoyStats.Otlp

open List Models

/-! ### A concrete history -/

/-- Another name. -/
def loadMetric (type : MetricType) : Metric String := { plainMetric type 7 12 with name := "load" }

/-- A counter beside a name that is recorded as a histogram and then as a gauge. -/
def besideMixed : List (ExporterCall String (List String)) :=
  [.export [plainMetric .counter 2 10, loadMetric .histogram]
      ⟨20, [⟨"requests", []⟩, ⟨"load", []⟩], false⟩,
    .export [loadMetric .gauge] ⟨30, [⟨"requests", []⟩, ⟨"load", []⟩], false⟩]

/-- The counter without the other name. -/
def counterAlone : List (ExporterCall String (List String)) :=
  [.export [plainMetric .counter 2 10] (plainAmbient 20 false), .exportIdle (plainAmbient 30 false)]

variable {KeyValue AttributeSet Distinct : Type}

/-! ### Histograms and other types -/

section

variable [DecidableEq AttributeSet]

/-- **An explicit histogram meets a series of another type**: a call to a cumulative exporter has a
histogram observation in explicit buckets, and its name and attribute set was recorded as
another type before, or is in the same batch. -/
def MeetsOther (sdk : Sdk KeyValue AttributeSet Distinct) (config : OTLPConfig)
    (s : ExporterState KeyValue AttributeSet Distinct) (call : ExporterCall KeyValue Distinct) :
    Prop :=
  config.delta = false ∧ ∃ m ∈ call.batch.getD [], m.type = .histogram ∧
    config.usesExponential m.name = false ∧
    ∃ m' ∈ s.log.flatMap (·.metrics) ++ call.batch.getD [], m'.type ≠ .histogram ∧
      m'.name = m.name ∧ sdk.newSet m'.attributes = sdk.newSet m.attributes

instance (sdk : Sdk KeyValue AttributeSet Distinct) (config : OTLPConfig)
    (s : ExporterState KeyValue AttributeSet Distinct) (call : ExporterCall KeyValue Distinct) :
    Decidable (MeetsOther sdk config s call) :=
  inferInstanceAs (Decidable (_ ∧ _))

end

/-! ### Histories with one type left -/

/-- `call'` is `call` without the metrics of other types, at the same time.  A batch with
none left is an idle export. -/
structure RestrictedTo (type : MetricType) (call call' : ExporterCall KeyValue Distinct) :
    Prop where
  now : call'.ambient.now = call.ambient.now
  batch : call'.batch = call.batch.map (·.filter (·.type = type))

/-- The log entry of a call. -/
structure Logged (config : OTLPConfig) (call : ExporterCall KeyValue Distinct)
    (e : ExportEntry KeyValue AttributeSet) : Prop where
  now : e.now = call.ambient.now
  metrics : e.metrics = call.batch.getD []
  skipped : e.outcome = .skipped ↔ config.enabled = false ∨ call.batch = none

/-- The log entries of a call and of its restriction. -/
structure Aligned (type : MetricType) (e e' : ExportEntry KeyValue AttributeSet) : Prop where
  now : e'.now = e.now
  metrics : e'.metrics = e.metrics.filter (·.type = type)
  skipped : e'.outcome = .skipped ↔ e.outcome = .skipped

section

variable [DecidableEq Distinct] [Inhabited AttributeSet]
variable {sdk : Sdk KeyValue AttributeSet Distinct} {config : OTLPConfig}

/-- Only a disabled exporter returns at once from an export. -/
theorem exportMetrics_skipped {series series' : SeriesStates AttributeSet Distinct}
    {metrics : List (Metric KeyValue)} {ambient : Ambient Distinct}
    {outcome : Outcome AttributeSet}
    (h : exportMetrics sdk config series metrics ambient = some (series', outcome)) :
    outcome = .skipped ↔ config.enabled = false := by
  unfold exportMetrics at h
  cases henabled : config.enabled with
  | false =>
    rw [henabled] at h
    cases h
    exact iff_of_true rfl rfl
  | true =>
    simp only [henabled, Bool.not_true, Bool.false_eq_true, if_false] at h
    refine iff_of_false ?_ Bool.noConfusion
    split at h
    · cases h
      simp
    · split at h
      · split at h <;> cases h <;> exact (by simp)
      · cases h

/-- What a call adds to the log. -/
theorem logged_of_step {s s' : ExporterState KeyValue AttributeSet Distinct}
    {call : ExporterCall KeyValue Distinct} (h : exporterStep sdk config s call = some s') :
    ∃ e, s'.log = s.log ++ [e] ∧ Logged config call e := by
  unfold exporterStep at h
  split at h
  · rename_i hbatch
    cases h
    exact ⟨_, rfl, rfl, by rw [hbatch]; rfl, iff_of_true rfl (.inr hbatch)⟩
  · rename_i metrics hbatch
    obtain ⟨⟨series, outcome⟩, hexport, rfl⟩ := Option.map_eq_some_iff.mp h
    refine ⟨_, rfl, rfl, by rw [hbatch]; rfl, ?_⟩
    rw [exportMetrics_skipped hexport, hbatch]
    simp

/-- **A call that panics** has an explicit histogram that meets another type. -/
theorem meetsOther_of_panicked (hdistinct : Function.Injective sdk.equivalent)
    {s s' : ExporterState KeyValue AttributeSet Distinct} {call : ExporterCall KeyValue Distinct}
    {e : ExportEntry KeyValue AttributeSet} (hs : Separate sdk config s)
    (h : exporterStep sdk config s call = some s') (hlog : s'.log = s.log ++ [e])
    (hpanicked : e.outcome = .panicked) : MeetsOther sdk config s call := by
  obtain ⟨e', hlog', hlogged⟩ := logged_of_step h
  cases append_cancel_left (hlog.symm.trans hlog')
  have hview := exporterStep_view hs.named h
  rcases hview with ⟨metrics, rfl, -⟩ | ⟨-, ⟨metrics, rfl, key, hnone⟩ |
    ⟨metrics, series, outcome, merged, rfl, hproduced, -⟩⟩ <;> cases append_cancel_left hlog
  · cases hpanicked
  · have hmetrics : metrics = call.batch.getD [] := hlogged.metrics
    obtain ⟨hcumulative, x, hx, hkind⟩ := exists_histogram_of_seriesRun hnone
    obtain ⟨⟨m, hobserved, htype⟩, hexplicit⟩ := exists_observation (mem_map_of_mem hx)
    obtain ⟨hm, hkey⟩ := mem_filter.mp hobserved
    obtain rfl : keyOf sdk m = key := of_decide_eq_true hkey
    rw [hkind] at htype
    by_contra hother
    -- the series is one of histograms, and stands on its own history
    have htyped : TypedLog sdk (keyOf sdk m)
        (s.log ++ [⟨metrics, call.ambient.now, .panicked⟩]) .histogram := by
      intro e he m' hm' hkey'
      by_contra htype'
      refine hother ⟨by simpa using hcumulative, m, hmetrics ▸ hm, htype,
        hexplicit hkind, m', ?_, htype', (keyOf_eq_iff hdistinct _ _ m').mp hkey'⟩
      rcases mem_append.mp he with he | he
      · exact mem_append_left _ (mem_flatMap.mpr ⟨e, he, hm'⟩)
      · cases mem_singleton.mp he
        exact mem_append_right _ (hmetrics ▸ hm')
    exact seriesRun_ne_none (htyped _ (mem_append_right _ (mem_singleton_self _)))
      (seriesInputs_name _ _) (hs.alone htyped.of_append_left) hnone
  · rw [show outcome = .panicked from hpanicked] at hproduced
    cases hproduced

/-- What a run adds to the log. -/
theorem logged_of_run {s s' : ExporterState KeyValue AttributeSet Distinct}
    {calls : List (ExporterCall KeyValue Distinct)}
    (h : (exporter sdk config).run s calls = some s') :
    ∃ new, s'.log = s.log ++ new ∧ Forall₂ (Logged config) calls new := by
  induction calls generalizing s with
  | nil =>
    cases h
    exact ⟨[], by simp, .nil⟩
  | cons call calls ih =>
    rw [TransitionSystem.run_cons, Option.bind_eq_some_iff] at h
    obtain ⟨t, hstep, hrest⟩ := h
    obtain ⟨e, hlog, hlogged⟩ := logged_of_step hstep
    obtain ⟨new, hnew, hforall⟩ := ih hrest
    exact ⟨e :: new, by rw [hnew, hlog, append_assoc]; rfl, .cons hlogged hforall⟩

omit [DecidableEq Distinct] [Inhabited AttributeSet] in
/-- The logs of a history and of its restriction. -/
theorem aligned_of_logged {type : MetricType} {calls calls' : List (ExporterCall KeyValue Distinct)}
    {log log' : List (ExportEntry KeyValue AttributeSet)}
    (h : Forall₂ (RestrictedTo type) calls calls')
    (hlog : Forall₂ (Logged config) calls log)
    (hlog' : Forall₂ (Logged config) calls' log') : Forall₂ (Aligned type) log log' := by
  induction h generalizing log log' with
  | nil =>
    cases hlog
    cases hlog'
    exact .nil
  | cons hcall _ ih =>
    cases hlog with
    | cons he hlog =>
      cases hlog' with
      | cons he' hlog' =>
        refine .cons ⟨he'.now.trans (hcall.now.trans he.now.symm), ?_, ?_⟩ (ih hlog hlog')
        · rw [he'.metrics, he.metrics, hcall.batch]
          exact Option.getD_map (List.filter fun m : Metric KeyValue => decide (m.type = type)) [] _
        · rw [he'.skipped, he.skipped, hcall.batch]
          simp

/-- Every export can be made, in some order of the series. -/
theorem exists_exportMetrics (sdk : Sdk KeyValue AttributeSet Distinct) (config : OTLPConfig)
    (series : SeriesStates AttributeSet Distinct) (metrics : List (Metric KeyValue)) (now : Time) :
    ∃ order r, exportMetrics sdk config series metrics ⟨now, order, false⟩ = some r := by
  unfold exportMetrics
  cases config.enabled with
  | false => exact ⟨[], _, rfl⟩
  | true =>
    simp only [Bool.not_true, Bool.false_eq_true, if_false]
    cases accumulateAll sdk config series (toResourceMetrics sdk config metrics) with
    | none => exact ⟨[], _, rfl⟩
    | some loop =>
      refine ⟨loop.acc.next.keys, ?_⟩
      dsimp only
      rw [if_pos (List.Perm.refl _)]
      split
      · exact ⟨_, rfl⟩
      · exact ⟨_, rfl⟩

omit [DecidableEq Distinct] [Inhabited AttributeSet] in
/-- Every batch is that of a call. -/
theorem exists_call (batch : Option (List (Metric KeyValue))) (ambient : Ambient Distinct) :
    ∃ call : ExporterCall KeyValue Distinct, call.batch = batch ∧ call.ambient = ambient := by
  match batch with
  | none => exact ⟨.export [] ambient, rfl, rfl⟩
  | some [] => exact ⟨.exportIdle ambient, rfl, rfl⟩
  | some (m :: metrics) => exact ⟨.export (m :: metrics) ambient, rfl, rfl⟩

/-- Every history has its restriction. -/
theorem exists_restricted (type : MetricType) (calls : List (ExporterCall KeyValue Distinct))
    (s : ExporterState KeyValue AttributeSet Distinct) :
    ∃ calls' s', Forall₂ (RestrictedTo type) calls calls' ∧
      (exporter sdk config).run s calls' = some s' := by
  induction calls generalizing s with
  | nil => exact ⟨[], s, .nil, rfl⟩
  | cons call calls ih =>
    obtain ⟨call', t, hcall, hstep⟩ : ∃ call' t, RestrictedTo type call call' ∧
        exporterStep sdk config s call' = some t := by
      obtain ⟨order, r, hexport⟩ := exists_exportMetrics sdk config s.series
        ((call.batch.getD []).filter (·.type = type)) call.ambient.now
      obtain ⟨call', hbatch, hambient⟩ := exists_call
        (call.batch.map (·.filter (·.type = type))) ⟨call.ambient.now, order, false⟩
      refine ⟨call', ?_⟩
      unfold exporterStep
      rw [hbatch, hambient]
      cases hcall : call.batch with
      | none =>
        rw [hcall] at hbatch
        exact ⟨_, ⟨by rw [hambient], by rw [hbatch, hcall]⟩, rfl⟩
      | some metrics =>
        rw [hcall] at hbatch hexport
        exact ⟨_, ⟨by rw [hambient], by rw [hbatch, hcall]⟩,
          Option.map_eq_some_iff.mpr ⟨r, hexport, rfl⟩⟩
    obtain ⟨calls', s', hcalls, hrun⟩ := ih t
    refine ⟨call' :: calls', s', .cons hcall hcalls, ?_⟩
    rw [TransitionSystem.run_cons, show (exporter sdk config).step s call' = some t from hstep]
    exact hrun

end

/-! ### The views of a series -/

section

variable [DecidableEq Distinct] [Inhabited AttributeSet]
variable {sdk : Sdk KeyValue AttributeSet Distinct} {config : OTLPConfig}

variable {type : MetricType} {key : HistogramKey Distinct}
  {log log' : List (ExportEntry KeyValue AttributeSet)}

omit [DecidableEq Distinct] [Inhabited AttributeSet] in
/-- The entries of a history and of its restriction are exports alike. -/
theorem Aligned.produced {e e' : ExportEntry KeyValue AttributeSet} (h : Aligned type e e')
    (hsound : e.outcome ≠ .panicked) (hsound' : e'.outcome ≠ .panicked) :
    e.outcome.produced = none ∧ e'.outcome.produced = none ∨
      ∃ merged merged', e.outcome.produced = some merged ∧
        e'.outcome.produced = some merged' := by
  have hskipped := h.skipped
  cases he : e.outcome <;> cases he' : e'.outcome <;> simp_all [Outcome.produced]

omit [DecidableEq Distinct] [Inhabited AttributeSet] in
/-- A history and its restriction export the same if they do so entry by entry. -/
theorem filterMap_aligned {α : Type}
    (f : ExportEntry KeyValue AttributeSet → List (Metrics AttributeSet) → α)
    (h : Forall₂ (Aligned type) log log') (hsound : ∀ e ∈ log, e.outcome ≠ .panicked)
    (hsound' : ∀ e ∈ log', e.outcome ≠ .panicked) :
    (log'.filterMap fun e => e.outcome.produced.map (f e)) =
        (log.filterMap fun e => e.outcome.produced.map (f e)) ↔
      Forall₂ (fun e e' => e'.outcome.produced.map (f e') = e.outcome.produced.map (f e))
        log log' := by
  induction h with
  | nil => simp
  | cons he _ ih =>
    rename_i e e' log log' _
    rw [forall₂_cons, ← ih (fun e he => hsound e (mem_cons_of_mem _ he))
      (fun e he => hsound' e (mem_cons_of_mem _ he)), filterMap_cons, filterMap_cons]
    rcases he.produced (hsound e mem_cons_self) (hsound' e' mem_cons_self) with
      ⟨hp, hp'⟩ | ⟨merged, merged', hp, hp'⟩ <;> simp [hp, hp']

omit [Inhabited AttributeSet] in
/-- A history and its restriction feed a series of the type that is left the same. -/
theorem seriesInputs_aligned (h : Forall₂ (Aligned type) log log')
    (hsound : ∀ e ∈ log, e.outcome ≠ .panicked) (hsound' : ∀ e ∈ log', e.outcome ≠ .panicked)
    (htyped : TypedLog sdk key log type) :
    seriesInputs sdk key log' = seriesInputs sdk key log := by
  refine (filterMap_aligned (fun e _ => (e.now, observationsOf sdk key e.metrics)) h hsound
    hsound').mpr (forall₂_iff_zip.mpr ⟨h.length_eq, fun {e e'} hmem => ?_⟩)
  obtain ⟨hmem, hmem'⟩ := of_mem_zip hmem
  have he := (forall₂_iff_zip.mp h).2 ‹(e, e') ∈ _›
  have hmetrics : observationsOf sdk key e'.metrics = observationsOf sdk key e.metrics := by
    rw [he.metrics, observationsOf, observationsOf, filter_filter]
    refine filter_congr fun m hm => ?_
    by_cases hkey : keyOf sdk m = key
    · simp [hkey, htyped e hmem m hm hkey]
    · simp [hkey]
  rw [hmetrics, he.now]
  rcases he.produced (hsound e hmem) (hsound' e' hmem') with
    ⟨hp, hp'⟩ | ⟨merged, merged', hp, hp'⟩ <;> simp [hp, hp']

omit [DecidableEq Distinct] [Inhabited AttributeSet] in
/-- The restriction of a history leaves nothing but the type. -/
theorem typedLog_restricted (h : Forall₂ (Aligned type) log log') (key : HistogramKey Distinct) :
    TypedLog sdk key log' type := by
  intro e' he' m hm _
  obtain ⟨e, -, haligned⟩ := h.exists_left_of_mem he'
  rw [haligned.metrics] at hm
  exact of_decide_eq_true (mem_filter.mp hm).2

omit [DecidableEq Distinct] [Inhabited AttributeSet] in
/-- The restriction of a history keeps the types. -/
theorem TypedLog.restrict {type' : MetricType} (htyped : TypedLog sdk key log type')
    (h : Forall₂ (Aligned type) log log') : TypedLog sdk key log' type' := by
  intro e' he' m hm hkey
  obtain ⟨e, he, haligned⟩ := h.exists_left_of_mem he'
  rw [haligned.metrics] at hm
  exact htyped e he m (mem_filter.mp hm).1 hkey

/-- The points of a series of the type, in a run. -/
theorem Separate.type_of_points {s : ExporterState KeyValue AttributeSet Distinct}
    (h : Separate sdk config s) (htyped : TypedLog sdk key s.log type)
    {e : ExportEntry KeyValue AttributeSet} (he : e ∈ s.log) :
    ∀ point ∈ seriesPoints sdk key (e.outcome.produced.getD []), point.kind.type = type := by
  cases hp : e.outcome.produced with
  | none => exact fun point hpoint => absurd hpoint not_mem_nil
  | some merged =>
    exact aloneStep_type (h.alone htyped) _ (mem_filterMap.mpr ⟨e, he, by rw [hp]; rfl⟩)

variable [DecidableEq AttributeSet]

/-- **Series of different types do not interfere**, in the runs in which no explicit histogram
meets a series of another type.  No call panics.  Whichever type is left, the points of the
history without the metrics of other types are, export by export, those of the type, for every
name and attribute set that keeps one type, whatever the others do. -/
theorem series_of_one_type_do_not_interfere (hdistinct : Function.Injective sdk.equivalent)
    {calls : List (ExporterCall KeyValue Distinct)}
    {s : ExporterState KeyValue AttributeSet Distinct}
    (hrun : (exporter sdk config).runWithin (fun s call => ¬ MeetsOther sdk config s call)
      (exporter sdk config).init calls = some s) :
    (∀ e ∈ s.log, e.outcome ≠ .panicked) ∧
    ∀ type,
      (∃ calls' s', Forall₂ (RestrictedTo type) calls calls' ∧
        (exporter sdk config).run (exporter sdk config).init calls' = some s') ∧
      ∀ calls' s', Forall₂ (RestrictedTo type) calls calls' →
        (exporter sdk config).run (exporter sdk config).init calls' = some s' →
        ∀ name attributes,
          OneType sdk (observationsFor sdk name attributes (s.log.flatMap (·.metrics))) →
          Forall₂ (fun e e' => pointsFor name attributes (e'.outcome.produced.getD []) =
            (pointsFor name attributes (e.outcome.produced.getD [])).filter
              (·.kind.type = type)) s.log s'.log := by
  have hsound : ∀ e ∈ s.log, e.outcome ≠ .panicked := by
    have hreach := TransitionSystem.Reachable.of_labels_within _ calls hrun
    refine hreach.invariant (I := fun s => ∀ e ∈ s.log, e.outcome ≠ .panicked)
      (by simp [exporter]) fun t call t' ht hsound hmeets hstep e he => ?_
    obtain ⟨new, hlog, -⟩ := logged_of_step hstep
    rw [hlog] at he
    rcases mem_append.mp he with he | he
    · exact hsound e he
    · cases mem_singleton.mp he
      exact fun hpanicked => hmeets (meetsOther_of_panicked hdistinct
        (separate_of_reach ht.reach) hstep hlog hpanicked)
  replace hrun := TransitionSystem.run_of_runWithin hrun
  have hseparate := separate_of_reach (.of_run .init hrun)
  refine ⟨hsound, fun type => ⟨exists_restricted type calls _, ?_⟩⟩
  intro calls' s' hrestricted hrun' name attributes hone
  obtain ⟨log, hlog, hlogged⟩ := logged_of_run hrun
  obtain ⟨log', hlog', hlogged'⟩ := logged_of_run hrun'
  have haligned : Forall₂ (Aligned type) s.log s'.log := by
    rw [hlog, hlog']
    exact aligned_of_logged hrestricted hlogged hlogged'
  have halone' := exporter_alone (.of_run .init hrun') fun key =>
    ⟨type, typedLog_restricted haligned key⟩
  simp only [pointsFor_eq hdistinct]
  obtain ⟨type', htyped, -⟩ := hone.typed_series hdistinct name attributes .unknown
  refine forall₂_iff_zip.mpr ⟨haligned.length_eq, fun {e e'} hmem => ?_⟩
  obtain ⟨he, he'⟩ := of_mem_zip hmem
  have hpoints := hseparate.type_of_points htyped he
  by_cases htype : type' = type
  · subst htype
    have hinputs := seriesInputs_aligned haligned hsound halone'.sound htyped
    have hruns := hseparate.alone htyped
    rw [← hinputs, halone'.alone (typedLog_restricted haligned _)] at hruns
    have houtputs := (Prod.mk.inj (Option.some.inj hruns)).2
    have hsame := (forall₂_iff_zip.mp ((filterMap_aligned (fun _ => seriesPoints sdk _) haligned
      hsound halone'.sound).mp houtputs)).2 hmem
    have hgetD : ∀ o : Option (List (Metrics AttributeSet)),
        seriesPoints sdk ⟨name, sdk.equivalent attributes⟩ (o.getD []) =
          (o.map (seriesPoints sdk ⟨name, sdk.equivalent attributes⟩)).getD [] :=
      fun o => by cases o <;> rfl
    rw [hgetD, hsame, ← hgetD, eq_comm, filter_eq_self]
    exact fun point hpoint => decide_eq_true (hpoints point hpoint)
  · -- a series of another type has no point of this one, and none at all once it is removed
    have hnone : seriesPoints sdk ⟨name, sdk.equivalent attributes⟩
        (e'.outcome.produced.getD []) = [] := by
      refine eq_nil_iff_forall_not_mem.mpr fun point hpoint => htype ?_
      rw [← halone'.type_of_points (htyped.restrict haligned) he' point hpoint]
      exact halone'.type_of_points (typedLog_restricted haligned _) he' point hpoint
    rw [hnone, eq_comm, filter_eq_nil_iff]
    intro point hpoint
    simpa [hpoints point hpoint] using htype

theorem series_of_one_type_do_not_interfere_mixed :
    ∃ s, (exporter plainSdk (plainConfig false)).runWithin
        (fun s call => ¬ MeetsOther plainSdk (plainConfig false) s call)
        (exporter plainSdk (plainConfig false)).init besideMixed = some s ∧
      ∀ s', (exporter plainSdk (plainConfig false)).run
          (exporter plainSdk (plainConfig false)).init counterAlone = some s' →
        Forall₂ (fun e e' => pointsFor "requests" [] (e'.outcome.produced.getD []) =
          (pointsFor "requests" [] (e.outcome.produced.getD [])).filter
            (·.kind.type = .counter)) s.log s'.log := by
  have hmetrics : ((exporter plainSdk (plainConfig false)).runWithin
      (fun s call => ¬ MeetsOther plainSdk (plainConfig false) s call)
      (exporter plainSdk (plainConfig false)).init besideMixed).map
        (fun s => s.log.flatMap (·.metrics)) =
      some [plainMetric .counter 2 10, loadMetric .histogram, loadMetric .gauge] := by
    decide +kernel
  obtain ⟨s, hrun, hmetrics⟩ := Option.map_eq_some_iff.mp hmetrics
  refine ⟨s, hrun, fun s' hrun' => ?_⟩
  refine ((series_of_one_type_do_not_interfere Function.injective_id hrun).2 .counter).2
    counterAlone s' ?_ hrun' "requests" [] ?_
  · exact .cons ⟨rfl, by decide +kernel⟩ (.cons ⟨rfl, by decide +kernel⟩ .nil)
  · rw [hmetrics]
    decide +kernel

/-- A name recorded as a counter and then as a histogram: the histogram is added to one that
was never made. -/
theorem counter_then_histogram_panics : plainLog false
    [.export [plainMetric .counter 2 10] (plainAmbient 20 false),
      .export [plainMetric .histogram 3 15] (plainAmbient 30 false)] =
    some [counterEntry .cumulative (plainMetric .counter 2 10) 20 firstPoint false,
      ⟨[plainMetric .histogram 3 15], 30, .panicked⟩] := by
  decide +kernel

end

end ConvoyStats.Otlp
