import ConvoyStats.Otlp.CumulativeExports

/-!
# Observable counters

A callback of an observable counter reports the total of a series, and `record` passes the
increase since the last total that was recorded on to the client.  A failed record leaves that
total where it was, so the next increase includes what was lost.  The accepted increases of a
series therefore add up to the last total that was recorded, in whatever order and batches they
reach the exporter.

Values are exact.  The attributes are strings within the limits on labels, with which the metric
that the client records has the attribute set that was observed.
-/

namespace ConvoyStats.Otel

open List Models Otlp

variable {KeyValue AttributeSet Distinct : Type}

/-- `observableKind`. -/
inductive ObservableKind
  | observableCounter
  | observableUpDownCounter
  | observableGauge
  deriving DecidableEq

/-- `observable`; a series without an entry in `totals` has total 0. -/
structure Observable (Distinct : Type) where
  name : String
  kind : ObservableKind
  totals : Distinct → ℚ

/-- An observation, and whether the client records it. -/
structure Observation (AttributeSet : Type) where
  value : ℚ
  attributes : AttributeSet
  recorded : Bool

/-- The instrument as `observableFor` makes it. -/
def newObservable (name : String) (kind : ObservableKind) : Observable Distinct := ⟨name, kind, 0⟩

theorem totals_newObservable (name : String) (kind : ObservableKind) (key : Distinct) :
    (newObservable name kind).totals key = 0 := rfl

namespace Observable

section

variable [DecidableEq Distinct] (sdk : Sdk KeyValue AttributeSet Distinct)

omit [DecidableEq Distinct] in
/-- What `record` gives to the client. -/
def sends (o : Observable Distinct) (x : Observation AttributeSet) : MetricType × ℚ :=
  match o.kind with
  | .observableCounter => (.counter, x.value - o.totals (sdk.equivalent x.attributes))
  | .observableUpDownCounter | .observableGauge => (.gauge, x.value)

/-- The instrument after `record`. -/
def record (o : Observable Distinct) (x : Observation AttributeSet) : Observable Distinct :=
  if o.kind = .observableCounter ∧ x.recorded then
    { o with totals := Function.update o.totals (sdk.equivalent x.attributes) x.value }
  else o

/-- What the client has recorded of observations. -/
def accepted (o : Observable Distinct) :
    List (Observation AttributeSet) → List (AttributeSet × MetricType × ℚ)
  | [] => []
  | x :: xs =>
    (if x.recorded then [(x.attributes, o.sends sdk x)] else []) ++ (o.record sdk x).accepted xs

end

/-! ### The increases of a series -/

section

variable [DecidableEq Distinct] [DecidableEq AttributeSet]
  {sdk : Sdk KeyValue AttributeSet Distinct}

/-- What has been recorded of a series. -/
def acceptedOf (sdk : Sdk KeyValue AttributeSet Distinct) (o : Observable Distinct)
    (attributes : AttributeSet) (xs : List (Observation AttributeSet)) : List (MetricType × ℚ) :=
  ((o.accepted sdk xs).filter (·.1 = attributes)).map Prod.snd

/-- The last total of a series that was recorded. -/
def lastRecorded (attributes : AttributeSet) (xs : List (Observation AttributeSet)) : Option ℚ :=
  ((xs.filter fun x => x.recorded ∧ x.attributes = attributes).getLast?).map (·.value)

theorem acceptedOf_cons (o : Observable Distinct) (attributes : AttributeSet)
    (x : Observation AttributeSet) (xs : List (Observation AttributeSet)) :
    o.acceptedOf sdk attributes (x :: xs) =
      (if x.recorded ∧ x.attributes = attributes then [o.sends sdk x] else []) ++
        (o.record sdk x).acceptedOf sdk attributes xs := by
  rw [acceptedOf, accepted, filter_append, map_append, acceptedOf]
  congr 1
  cases x.recorded <;> by_cases h : x.attributes = attributes <;> simp [h]

theorem lastRecorded_cons (attributes : AttributeSet) (x : Observation AttributeSet)
    (xs : List (Observation AttributeSet)) :
    lastRecorded attributes (x :: xs) =
      if x.recorded ∧ x.attributes = attributes then
        some ((lastRecorded attributes xs).getD x.value)
      else lastRecorded attributes xs := by
  rw [lastRecorded, filter_cons]
  split_ifs with hx hx' hx'
  · rw [getLast?_cons, Option.map_some, lastRecorded]
    congr 1
    cases getLast? _ <;> rfl
  · exact absurd (of_decide_eq_true hx) hx'
  · exact absurd (decide_eq_true hx') hx
  · rfl

/-- **The increases of a series lead from its total to the last one that was recorded.** -/
theorem sum_acceptedOf (hdistinct : Function.Injective sdk.equivalent) {o : Observable Distinct}
    (ho : o.kind = .observableCounter) (attributes : AttributeSet)
    (xs : List (Observation AttributeSet)) :
    (∀ r ∈ o.acceptedOf sdk attributes xs, r.1 = .counter) ∧
      o.totals (sdk.equivalent attributes) + ((o.acceptedOf sdk attributes xs).map Prod.snd).sum =
        (lastRecorded attributes xs).getD (o.totals (sdk.equivalent attributes)) := by
  induction xs generalizing o with
  | nil => exact ⟨nofun, add_zero _⟩
  | cons x xs ih =>
    have hkind : (o.record sdk x).kind = .observableCounter := by
      rw [record]
      split_ifs <;> exact ho
    have hsends : o.sends sdk x =
        (.counter, x.value - o.totals (sdk.equivalent x.attributes)) := by
      rw [sends, ho]
    obtain ⟨htypes, hsum⟩ := ih hkind
    rw [acceptedOf_cons, lastRecorded_cons]
    split_ifs with hx
    · -- The total is now that of `x`, and the increase leads to it.
      obtain ⟨hrecorded, rfl⟩ := hx
      have htotal : (o.record sdk x).totals (sdk.equivalent x.attributes) = x.value := by
        rw [record, if_pos ⟨ho, hrecorded⟩]
        exact Function.update_self ..
      rw [htotal] at hsum
      rw [hsends, singleton_append, map_cons, sum_cons, Option.getD_some, ← hsum]
      exact ⟨forall_mem_cons.mpr ⟨rfl, htypes⟩, by ring⟩
    · have htotal : (o.record sdk x).totals (sdk.equivalent attributes) =
          o.totals (sdk.equivalent attributes) := by
        rw [record]
        split_ifs with hrecord
        · exact Function.update_of_ne (fun h => hx ⟨hrecord.2, (hdistinct h).symm⟩) _ _
        · rfl
      rw [htotal] at hsum
      exact ⟨htypes, hsum⟩

theorem acceptedOf_ne_nil (sdk : Sdk KeyValue AttributeSet Distinct) {attributes : AttributeSet}
    {xs : List (Observation AttributeSet)}
    {total : ℚ} (h : lastRecorded attributes xs = some total) (o : Observable Distinct) :
    o.acceptedOf sdk attributes xs ≠ [] := by
  induction xs generalizing o with
  | nil => cases h
  | cons x xs ih =>
    rw [acceptedOf_cons]
    rw [lastRecorded_cons] at h
    split_ifs at h ⊢
    · exact cons_ne_nil _ _
    · exact ih h _

/-! ### The exported total -/

variable [Inhabited AttributeSet] {config : OTLPConfig}
variable {s : ExporterState KeyValue AttributeSet Distinct}
variable {before : List (ExportEntry KeyValue AttributeSet)} {e : ExportEntry KeyValue AttributeSet}
variable {merged : List (Metrics AttributeSet)} {failed : Bool}

omit [DecidableEq Distinct] [Inhabited AttributeSet] in
/-- A series of counters among series that keep their types. -/
theorem oneType_of_others {metrics : List (Metric KeyValue)} {name : String}
    {attributes : AttributeSet}
    (hothers : OneType sdk (metrics.filter fun m =>
      ¬ (m.name = name ∧ sdk.newSet m.attributes = attributes)))
    (hseries : ∀ m ∈ observationsFor sdk name attributes metrics, m.type = .counter) :
    OneType sdk metrics := by
  intro m hm m' hm' hname hset
  by_cases hin : m.name = name ∧ sdk.newSet m.attributes = attributes
  · have hin' : m'.name = name ∧ sdk.newSet m'.attributes = attributes :=
      ⟨hname.symm.trans hin.1, hset.symm.trans hin.2⟩
    rw [hseries m (mem_filter.mpr ⟨hm, decide_eq_true hin⟩),
      hseries m' (mem_filter.mpr ⟨hm', decide_eq_true hin'⟩)]
  · have hin' : ¬ (m'.name = name ∧ sdk.newSet m'.attributes = attributes) := fun h =>
      hin ⟨hname.trans h.1, hset.trans h.2⟩
    exact hothers m (mem_filter.mpr ⟨hm, decide_eq_true hin⟩) m'
      (mem_filter.mpr ⟨hm', decide_eq_true hin'⟩) hname hset

/-- **An observable counter exports its total.**  When a cumulative exporter has exported all the
recorded increases of a series, in any order and batches and among other series, the series' point
is the last total that was recorded. -/
theorem exports_observed_total (hdistinct : Function.Injective sdk.equivalent)
    (hcumulative : config.delta = false) (hs : (exporter sdk config).Reach s)
    (hlog : s.log = before ++ [e]) (hsent : e.outcome = .sent merged failed) {name : String}
    {attributes : AttributeSet} {xs : List (Observation AttributeSet)} {total : ℚ}
    (htotal : lastRecorded attributes xs = some total)
    (hothers : OneType sdk ((s.log.flatMap (·.metrics)).filter fun m =>
      ¬ (m.name = name ∧ sdk.newSet m.attributes = attributes)))
    (hexported : ((observationsFor sdk name attributes (s.log.flatMap (·.metrics))).map
        fun m => (m.type, m.value)).Perm
      (((newObservable name .observableCounter).acceptedOf sdk attributes xs).map
        fun r => (r.1, .finite r.2))) :
    ∃ point, pointsFor name attributes merged = [.sum point] ∧ point.value = .finite total := by
  obtain ⟨htypes, hsum⟩ :=
    sum_acceptedOf hdistinct (o := newObservable name .observableCounter) rfl attributes xs
  have hne := acceptedOf_ne_nil sdk htotal (newObservable name .observableCounter)
  have hseries : ∀ m ∈ observationsFor sdk name attributes (s.log.flatMap (·.metrics)),
      m.type = .counter := by
    intro m hm
    obtain ⟨r, hr, heq⟩ := mem_map.mp (hexported.mem_iff.mp (mem_map_of_mem hm))
    rw [← (Prod.mk.inj heq).1]
    exact htypes r hr
  have hlen := hexported.length_eq
  obtain ⟨m, hm⟩ : ∃ m, m ∈ observationsFor sdk name attributes (s.log.flatMap (·.metrics)) := by
    refine exists_mem_of_ne_nil _ fun hnil => hne ?_
    rw [hnil, length_map, length_map] at hlen
    exact length_eq_zero_iff.mp hlen.symm
  obtain ⟨hmem, hin⟩ := mem_filter.mp hm
  obtain ⟨rfl, rfl⟩ := of_decide_eq_true hin
  rw [hlog] at hmem
  obtain ⟨point, hpoints, hcarries⟩ := cumulative_point hdistinct hcumulative hs
    (oneType_of_others hothers hseries) hlog hsent hmem (.inl (hseries m hm))
  rw [hseries m hm] at hcarries
  cases point with
  | sum point =>
    refine ⟨point, hpoints, ?_⟩
    have hvalues := (hexported.map Prod.snd).sum_eq
    simp only [map_map, Function.comp_def] at hvalues
    rw [hcarries.2, ← hlog, hvalues]
    rw [htotal, totals_newObservable, zero_add, Option.getD_some] at hsum
    rw [← hsum, ← Float64.sum_map_finite, map_map]
    rfl
  | gauge point => exact hcarries.elim
  | histogram point | exponential point => cases hcarries.1

/-- Totals 2, 7 and 5 of one series, the second of which the client refuses. -/
def refusedTotal : List (Observation (List String)) :=
  [⟨2, [], true⟩, ⟨7, [], false⟩, ⟨5, [], true⟩]

theorem exports_observed_total_refusedTotal :
    ∃ s, (exporter plainSdk (plainConfig false)).Reach s ∧ s.log = failedSend ∧
      ∃ point, pointsFor "requests" [] [⟨"requests", "", "",
        .sum .cumulative true [secondPoint]⟩] = [.sum point] ∧ point.value = .finite 5 := by
  obtain ⟨s, hs, hlog⟩ := reach_of_plainLog failedSend_eq
  have hsplit : s.log = failedSend.take 1 ++
      [counterEntry .cumulative (plainMetric .counter 3 15) 30 secondPoint false] := hlog
  exact ⟨s, hs, hlog, exports_observed_total (fun _ _ h => h) rfl hs hsplit rfl
    (show lastRecorded [] refusedTotal = some 5 from rfl) (by rw [hlog]; decide +kernel)
      (by rw [hlog]; decide +kernel)⟩

end

end Observable

end ConvoyStats.Otel
