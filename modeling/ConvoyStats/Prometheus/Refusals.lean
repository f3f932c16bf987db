import ConvoyStats.Prometheus.StoreInvariant

/-!
# Observations that fail

`observe` checks the labels before it registers the family, "so a failed observation registers
nothing".  One check comes later: the bounds of a new histogram family, which `Buckets` chooses, are
only looked at once its name has been claimed.  `Handler.Opens` says that an observation gets that
far; `observe_refused` is what a failed observation does to the store.
-/

namespace ConvoyStats.Prometheus

open List Models

variable {Other : Type} {cfg : HandlerConfig Other} {h : Handler} {m : TextMetric Other}
  {now : Time}

/-! ### Bounds -/

/-- The bounds of the metric are those of a histogram: finite and strictly increasing. -/
def HandlerConfig.BoundsValid (cfg : HandlerConfig Other) (name : Bytes) : Prop :=
  ∃ bounds, cfg.bucketsFor name = bounds.map .finite ∧ ValidBuckets bounds

theorem increasingBounds_map {previous : Option ℚ} {bounds : List ℚ}
    (h : (previous.toList ++ bounds).IsChain (· < ·)) :
    increasingBounds previous (bounds.map .finite) = some bounds := by
  induction bounds generalizing previous with
  | nil => rfl
  | cons b bounds ih =>
    have hlt : previous.all (· < b) = true := by
      cases previous with
      | none => rfl
      | some q =>
        rw [Option.toList_some, singleton_append, isChain_cons_cons] at h
        simpa using h.1
    have htail : ((some b).toList ++ bounds).IsChain (· < ·) := by
      cases previous with
      | none => exact h
      | some q => exact h.tail
    rw [map_cons, increasingBounds, if_pos hlt, ih htail, Option.map_some]

/-- `ValidateHistogramBuckets` accepts the bounds of a histogram and no others. -/
theorem validateHistogramBuckets_eq_ok {bounds : List Float64} :
    (∃ qs, validateHistogramBuckets bounds = .ok qs) ↔
      ∃ qs : List ℚ, bounds = qs.map .finite ∧ ValidBuckets qs := by
  constructor
  · rintro ⟨qs, h⟩
    refine ⟨qs, ?_, validBuckets_of_validate h⟩
    rw [validateHistogramBuckets] at h
    split_ifs at h
    cases hq : increasingBounds none bounds with
    | none =>
      rw [hq] at h
      cases h
    | some rs =>
      rw [hq] at h
      cases h
      exact (increasingBounds_spec hq).1
  · rintro ⟨qs, rfl, hne, hchain⟩
    have hincreasing : increasingBounds none (qs.map .finite) = some qs :=
      increasingBounds_map hchain
    exact ⟨qs, by rw [validateHistogramBuckets, if_neg (mt map_eq_nil_iff.mp hne), hincreasing]⟩

/-- A family is made for the metric if its bounds are valid, and not otherwise. -/
theorem family_eq_ok_iff {famName : Bytes} (htype : m.type = .histogram)
    (hnew : h.families.lookup famName = none) :
    (∃ fam, h.family cfg famName m = .ok fam) ↔ cfg.BoundsValid m.name := by
  rw [HandlerConfig.BoundsValid, ← validateHistogramBuckets_eq_ok, Handler.family, hnew]
  dsimp only
  rw [if_pos htype]
  cases validateHistogramBuckets (cfg.bucketsFor m.name) with
  | ok bounds => exact ⟨fun _ => ⟨_, rfl⟩, fun _ => ⟨_, rfl⟩⟩
  | error err =>
    constructor
    · rintro ⟨fam, hfam⟩
      cases hfam
    · rintro ⟨qs, hqs⟩
      cases hqs

/-- Only the bounds of a new histogram stop `family`. -/
theorem family_error {famName : Bytes} {err : ObserveError}
    (hfam : h.family cfg famName m = .error err) :
    m.type = .histogram ∧ h.families.lookup famName = none := by
  rw [Handler.family] at hfam
  cases hlookup : h.families.lookup famName with
  | some fam =>
    rw [hlookup] at hfam
    cases hfam
  | none =>
    rw [hlookup] at hfam
    dsimp only at hfam
    split_ifs at hfam with htype
    exact ⟨htype, rfl⟩

/-! ### What a failed observation does -/

/-- The observation is the first of a histogram family: it passes the checks before the bounds, and
its names are free. -/
structure Handler.Opens (h : Handler) (cfg : HandlerConfig Other)
    (m : TextMetric Other) : Prop where
  type : m.type = .histogram
  value : m.value ≠ .nan
  labels : ∃ labels, cfg.labelsOf m = .ok labels
  free : h.registry.Free (cfg.familyOf m) m.type

section Registry

variable {labels : List Label} {registry : FamilyRegistry} (htype : m.type ≠ .unknown)
  (hvalue : m.type = .histogram → m.value ≠ .nan) (hlabels : cfg.labelsOf m = .ok labels)

include htype hvalue hlabels

/-- An observation that passes the checks before the registry and collides there. -/
theorem observe_of_collision {collision : FamilyCollision}
    (hregister : h.registry.register (trimStart m.name cfg.trimPrefix) m.type =
      (registry, .error collision)) :
    h.observe cfg m now = (⟨registry, h.families⟩, some (.family collision)) := by
  have hnan : ¬ (m.type = .histogram ∧ m.value = .nan) := fun hnan => hvalue hnan.1 hnan.2
  rw [Handler.observe, if_neg htype, if_neg hnan, hlabels]
  dsimp only
  rw [hregister]

/-- An observation that passes the checks before the registry and is registered. -/
theorem observe_of_registered {famName : Bytes}
    (hregister : h.registry.register (trimStart m.name cfg.trimPrefix) m.type =
      (registry, .ok famName)) :
    h.observe cfg m now = Handler.applyTo cfg ⟨registry, h.families⟩ famName labels m now := by
  have hnan : ¬ (m.type = .histogram ∧ m.value = .nan) := fun hnan => hvalue hnan.1 hnan.2
  rw [Handler.observe, if_neg htype, if_neg hnan, hlabels]
  dsimp only
  rw [hregister]

end Registry

/-- Once its family is registered an observation fails over the bounds alone, and changes nothing
more. -/
theorem applyTo_fails {famName : Bytes} {labels : List Label}
    (hfail : (h.applyTo cfg famName labels m now).2 ≠ none) :
    (h.applyTo cfg famName labels m now).1 = h ∧ m.type = .histogram ∧
      ¬ cfg.BoundsValid m.name := by
  rw [Handler.applyTo] at hfail ⊢
  cases hfam : h.family cfg famName m with
  | ok fam =>
    rw [hfam] at hfail
    exact absurd rfl hfail
  | error err =>
    obtain ⟨htype, hnew⟩ := family_error hfam
    refine ⟨rfl, htype, ?_⟩
    rw [← family_eq_ok_iff htype hnew, hfam]
    rintro ⟨fam, hok⟩
    cases hok

/-- **A failed observation** leaves the store as it is, or it was to open a family with bounds that
are not valid, and then the family stays claimed. -/
theorem observe_refused (hfail : (h.observe cfg m now).2 ≠ none) :
    ((h.observe cfg m now).1 = h ∧ (h.Opens cfg m → cfg.BoundsValid m.name)) ∨
      ((h.observe cfg m now).1 =
          ⟨h.registry.claim (cfg.familyOf m) (trimStart m.name cfg.trimPrefix) m.type, h.families⟩ ∧
        h.Opens cfg m ∧ ¬ cfg.BoundsValid m.name) := by
  by_cases htype : m.type = .unknown
  · refine .inl ⟨by rw [Handler.observe, if_pos htype], fun hopens => ?_⟩
    rw [hopens.type] at htype
    cases htype
  by_cases hnan : m.type = .histogram ∧ m.value = .nan
  · exact .inl ⟨by rw [Handler.observe, if_neg htype, if_pos hnan],
      fun hopens => absurd hnan.2 hopens.value⟩
  have hvalue : m.type = .histogram → m.value ≠ .nan := fun htype hv => hnan ⟨htype, hv⟩
  cases hlabels : cfg.labelsOf m with
  | error collision =>
    refine .inl ⟨by rw [Handler.observe, if_neg htype, if_neg hnan, hlabels], fun hopens => ?_⟩
    obtain ⟨labels, hok⟩ := hopens.labels
    rw [hlabels] at hok
    cases hok
  | ok labels =>
    -- Past the labels the registry decides, and then the bounds.
    rcases FamilyRegistry.register_cases h.registry (trimStart m.name cfg.trimPrefix) m.type with
      ⟨hknown, hregister⟩ | ⟨err, hregister, -, s, hs, htaken⟩ | ⟨hfree, hregister⟩
    · rw [observe_of_registered htype hvalue hlabels hregister] at hfail ⊢
      refine .inl ⟨(applyTo_fails hfail).1, fun hopens => ?_⟩
      exact absurd (FamilyRegistry.Holds.taken hknown) (hopens.free _ (mem_cons_self ..))
    · rw [observe_of_collision htype hvalue hlabels hregister]
      exact .inl ⟨rfl, fun hopens => absurd htaken (hopens.free s hs)⟩
    · rw [observe_of_registered htype hvalue hlabels hregister] at hfail ⊢
      obtain ⟨hsame, hhistogram, hinvalid⟩ := applyTo_fails hfail
      exact .inr ⟨hsame, ⟨hhistogram, hvalue hhistogram, ⟨labels, hlabels⟩, hfree⟩, hinvalid⟩

/-! ### Collisions afterwards -/

theorem repeatedName_of_nodup {labels : List Label} (h : (labels.map (·.name)).Nodup) :
    repeatedName labels = none := by
  induction labels with
  | nil => rfl
  | cons a labels ih =>
    cases labels with
    | nil => rfl
    | cons b rest =>
      obtain ⟨hnot, htail⟩ := nodup_cons.mp h
      have hne : b.name ≠ a.name := fun heq => hnot (mem_map.mpr ⟨b, mem_cons_self .., heq⟩)
      rw [repeatedName, if_neg hne]
      exact ih htail

/-- The labels of a metric collide if two attributes have one exposed name, and only then. -/
theorem exposedLabels_eq_ok {valueString : Value Other → Bytes} {metric : Bytes} {typ : MetricType}
    {attrs : List (KeyValue Other)} :
    (∃ labels, exposedLabels valueString metric typ attrs = .ok labels) ↔
      (attrs.map fun kv => exposedLabelName typ kv.key).Nodup := by
  have hperm : ((attrs.map fun kv => Label.mk (exposedLabelName typ kv.key) (valueString kv.value))
      |>.insertionSort fun a b => a.name ≤ b.name).map (·.name) |>.Perm
      (attrs.map fun kv => exposedLabelName typ kv.key) := by
    refine ((perm_insertionSort _ _).map _).trans (.of_eq ?_)
    rw [map_map]
    rfl
  rw [← hperm.nodup_iff]
  constructor
  · rintro ⟨labels, hok⟩
    have hsorted := (exposedFor_of_ok hok).sorted
    rw [exposedLabels] at hok
    split at hok
    · cases hok
    · cases hok
      exact pairwise_map.mpr (hsorted.imp Std.ne_of_lt)
  · intro hnodup
    exact ⟨_, by rw [exposedLabels, repeatedName_of_nodup hnodup]⟩

/-- What a histogram may be labelled with, a gauge may. -/
theorem exposedLabels_gauge {valueString : Value Other → Bytes} {metric : Bytes}
    {attrs : List (KeyValue Other)}
    (h : ∃ labels, exposedLabels valueString metric .histogram attrs = .ok labels) :
    ∃ labels, exposedLabels valueString metric .gauge attrs = .ok labels := by
  rw [exposedLabels_eq_ok] at h ⊢
  -- A histogram renames `le`, so its names are a function of the names of a gauge.
  have hname : ∀ key, exposedLabelName .histogram key =
      if exposedLabelName .gauge key = text "le" then 95 :: text "le"
      else exposedLabelName .gauge key := by
    intro key
    by_cases hreserved : (text "__").isPrefixOf (normalizeLabelName key)
    · have hne : 95 :: normalizeLabelName key ≠ text "le" := fun heq => by cases heq
      simp [exposedLabelName, hreserved, hne]
    · by_cases hle : normalizeLabelName key = text "le" <;> simp [exposedLabelName, hreserved, hle]
  simp only [hname] at h
  exact .of_map (fun name => if name = text "le" then 95 :: text "le" else name) (by rwa [map_map])

/-- A gauge always finds or makes its family. -/
theorem applyTo_gauge (h : Handler) (hgauge : m.type = .gauge) (famName : Bytes)
    (labels : List Label)
    (now : Time) : (h.applyTo cfg famName labels m now).2 = none := by
  by_contra hfail
  have hhistogram := (applyTo_fails hfail).2.1
  rw [hgauge] at hhistogram
  cases hhistogram

/-- A family that is claimed for a histogram is in the way of a gauge of the same name, which could
have had it before. -/
theorem gauge_collides (hopens : h.Opens cfg m) :
    ∃ m' : TextMetric Other, m'.type ≠ m.type ∧ ∀ now, (h.observe cfg m' now).2 = none ∧
      ∃ collision, (Handler.observe cfg ⟨h.registry.claim (cfg.familyOf m)
        (trimStart m.name cfg.trimPrefix) m.type, h.families⟩ m' now).2 =
          some (.family collision) := by
  have hhistogram := hopens.labels
  rw [HandlerConfig.labelsOf, hopens.type] at hhistogram
  obtain ⟨labels, hok⟩ := exposedLabels_gauge hhistogram
  have hlabels : cfg.labelsOf { m with type := .gauge } = .ok labels := hok
  have hgauge : ({ m with type := .gauge } : TextMetric Other).type ≠ .unknown := by
    show MetricType.gauge ≠ .unknown
    nofun
  have hvalue :
      ({ m with type := .gauge } : TextMetric Other).type = .histogram → m.value ≠ .nan := by
    show MetricType.gauge = .histogram → _
    nofun
  have hname : familyName (trimStart m.name cfg.trimPrefix) .gauge = cfg.familyOf m := by
    rw [HandlerConfig.familyOf, hopens.type]
    rfl
  refine ⟨{ m with type := .gauge }, by rw [hopens.type]; nofun, fun now => ⟨?_, ?_⟩⟩
  · have hfree : h.registry.Free (familyName (trimStart m.name cfg.trimPrefix) .gauge) .gauge := by
      rw [hname]
      intro s hs
      have hself : s = cfg.familyOf m := by simpa [exposedNames, seriesNames] using hs
      exact hopens.free s (hself ▸ mem_cons_self ..)
    rw [observe_of_registered hgauge hvalue hlabels (FamilyRegistry.register_of_free hfree)]
    exact applyTo_gauge _ rfl _ _ _
  · have hholds : (h.registry.claim (cfg.familyOf m) (trimStart m.name cfg.trimPrefix) m.type).Holds
        (familyName (trimStart m.name cfg.trimPrefix) .gauge)
          ⟨trimStart m.name cfg.trimPrefix, m.type⟩ := by
      rw [hname]
      exact FamilyRegistry.lookup_families_claim_self ..
    have hother : (⟨trimStart m.name cfg.trimPrefix, m.type⟩ : FamilyEntry) ≠
        ⟨trimStart m.name cfg.trimPrefix, .gauge⟩ := by
      rw [hopens.type]
      nofun
    obtain ⟨err, herr⟩ := FamilyRegistry.register_of_holds_other hholds hother
    exact ⟨err, by rw [observe_of_collision hgauge hvalue hlabels herr]⟩

/-- **A failed observation leaves no trace** exactly if it was not to open a histogram family with
bounds that are not valid: the store is then the same, and no metric of another name or type
collides that did not before. -/
theorem failed_observation_leaves_no_trace (cfg : HandlerConfig Other) (h : Handler)
    (m : TextMetric Other) (now : Time) (hfail : (h.observe cfg m now).2 ≠ none) :
    ((h.observe cfg m now).1 = h ↔ (h.Opens cfg m → cfg.BoundsValid m.name)) ∧
    ((∀ m' : TextMetric Other, m'.name ≠ m.name ∨ m'.type ≠ m.type → ∀ now' collision,
        ((h.observe cfg m now).1.observe cfg m' now').2 = some (.family collision) →
          (h.observe cfg m' now').2 = some (.family collision)) ↔
      (h.Opens cfg m → cfg.BoundsValid m.name)) := by
  rcases observe_refused hfail with ⟨hsame, hvalid⟩ | ⟨hclaimed, hopens, hinvalid⟩
  · rw [hsame]
    exact ⟨iff_of_true rfl hvalid, iff_of_true (fun _ _ _ _ hcollides => hcollides) hvalid⟩
  · have hnot : ¬ (h.Opens cfg m → cfg.BoundsValid m.name) := fun hvalid => hinvalid (hvalid hopens)
    rw [hclaimed]
    obtain ⟨m', hother, hgauge⟩ := gauge_collides hopens
    obtain ⟨hfine, collision, hcollides⟩ := hgauge now
    constructor
    · refine iff_of_false (fun hsame => ?_) hnot
      rw [hsame, hfine] at hcollides
      cases hcollides
    · refine iff_of_false (fun hnone => ?_) hnot
      have hbefore := hnone m' (.inr hother) now collision hcollides
      rw [hfine] at hbefore
      cases hbefore

/-- A handler whose `Buckets` returns bounds that do not increase. -/
def descending : HandlerConfig Empty where
  trimPrefix := []
  metricTimeout := 0
  buckets := some fun _ => [.finite 2, .finite 1]
  newSet := id
  valueString
    | .string text => text
    | .other value => nomatch value

/-- An observation of `lat`. -/
def latency (type : MetricType) (value : Float64) : TextMetric Empty :=
  ⟨text "lat", type, value, [], 0⟩

theorem failed_observation_leaves_no_trace_nan :
    (Handler.zero.observe descending (latency .histogram .nan) 0).2 ≠ none ∧
      (Handler.zero.observe descending (latency .histogram .nan) 0).1 = .zero :=
  ⟨by decide +kernel, (failed_observation_leaves_no_trace descending .zero
    (latency .histogram .nan) 0 (by decide +kernel)).1.mpr fun hopens => absurd rfl hopens.value⟩

/-- A histogram that is refused for its bounds keeps its name, and the gauge of that name, which
would have been accepted before, collides with it. -/
theorem failed_observation_claims_family :
    (Handler.zero.observe descending (latency .histogram 0) 0).2 =
        some (.buckets (text "lat") .notIncreasing) ∧
      (Handler.zero.observe descending (latency .histogram 0) 0).1 ≠ .zero ∧
      (Handler.zero.observe descending (latency .gauge 0) 1).2 = none ∧
      ((Handler.zero.observe descending (latency .histogram 0) 0).1.observe descending
        (latency .gauge 0) 1).2 =
          some (.family (.family (text "lat") .gauge ⟨text "lat", .histogram⟩ (text "lat"))) := by
  have hfine : (Handler.zero.observe descending (latency .gauge 0) 1).2 = none := by decide +kernel
  have hcollides : ((Handler.zero.observe descending (latency .histogram 0) 0).1.observe descending
      (latency .gauge 0) 1).2 =
        some (.family (.family (text "lat") .gauge ⟨text "lat", .histogram⟩ (text "lat"))) := by
    decide +kernel
  refine ⟨by decide +kernel, fun hsame => ?_, hfine, hcollides⟩
  rw [hsame, hfine] at hcollides
  cases hcollides

end ConvoyStats.Prometheus
