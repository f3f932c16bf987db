import ConvoyStats.Prometheus.Store

/-!
# What holds of a store

`Observed` says what an observation does to a store: it is refused, and then at most its
family name has been registered, or it is applied to one series.  `Valid` is the invariant of
the store: its families are those of a valid registry, with their types, and every series has
the labels of its key.
-/

namespace ConvoyStats.Prometheus

open Models

variable {Other : Type} {cfg : HandlerConfig Other}

/-- The exposed family of a metric. -/
def HandlerConfig.familyOf (cfg : HandlerConfig Other) (m : TextMetric Other) : Bytes :=
  familyName (trimStart m.name cfg.trimPrefix) m.type

/-- The family `fam` of the store with the observation applied to the series `labels`. -/
def StoreFamily.put (fam : StoreFamily) (labels : List Label) (m : TextMetric Other)
    (now : Time) : StoreFamily :=
  { fam with
    series := fam.series.insert (labelsKey labels)
      (((fam.series.lookup (labelsKey labels)).getD (newSeries fam labels m)).apply
        fam.bounds m now) }

/-! ### Observations -/

/-- What an observation does. -/
inductive Observed (cfg : HandlerConfig Other) (h : Handler) (m : TextMetric Other) (now : Time) :
    Handler → Option ObserveError → Prop
  | refused (err : ObserveError) {registry : FamilyRegistry}
      (hregistry : registry = h.registry ∨
        registry = (h.registry.register (trimStart m.name cfg.trimPrefix) m.type).1) :
      Observed cfg h m now ⟨registry, h.families⟩ (some err)
  | accepted {labels : List Label} {fam : StoreFamily} {registry : FamilyRegistry}
      (htype : m.type ≠ .unknown) (hnan : m.type = .histogram → m.value ≠ .nan)
      (hlabels : cfg.labelsOf m = .ok labels)
      (hregister : h.registry.register (trimStart m.name cfg.trimPrefix) m.type =
        (registry, .ok (cfg.familyOf m)))
      (hfam : h.family cfg (cfg.familyOf m) m = .ok fam) :
      Observed cfg h m now
        ⟨registry, h.families.insert (cfg.familyOf m) (fam.put labels m now)⟩ none

theorem Observed.of_observe (cfg : HandlerConfig Other) (h : Handler) (m : TextMetric Other)
    (now : Time) : Observed cfg h m now (h.observe cfg m now).1 (h.observe cfg m now).2 := by
  rw [Handler.observe]
  split_ifs with htype hnan
  · exact .refused _ (.inl rfl)
  · exact .refused _ (.inl rfl)
  · cases hlabels : cfg.labelsOf m with
    | error collision => exact .refused _ (.inl rfl)
    | ok labels =>
      rcases hregister : h.registry.register (trimStart m.name cfg.trimPrefix) m.type with
        ⟨registry, result⟩
      cases result with
      | error collision => exact .refused _ (.inr (by rw [hregister]))
      | ok famName =>
        have hname : famName = cfg.familyOf m :=
          (FamilyRegistry.holds_of_register (by rw [hregister])).1
        subst hname
        dsimp only
        rw [Handler.applyTo]
        cases hfam : Handler.family cfg ⟨registry, h.families⟩ (cfg.familyOf m) m with
        | error err => exact .refused _ (.inr (by rw [hregister]))
        | ok fam => exact .accepted htype (fun ht hv => hnan ⟨ht, hv⟩) hlabels hregister hfam

variable {m : TextMetric Other} {fam : StoreFamily}

/-- What `family` returns: the family of the store, or a new one. -/
theorem family_cases {h : Handler} {famName : Bytes} (hfam : h.family cfg famName m = .ok fam) :
    h.families.lookup famName = some fam ∨
      (h.families.lookup famName = none ∧ fam.typ = m.type ∧ fam.series = ∅ ∧
        (m.type = .histogram →
          validateHistogramBuckets (cfg.bucketsFor m.name) = .ok fam.bounds)) := by
  rw [Handler.family] at hfam
  cases hlookup : h.families.lookup famName with
  | some fam' =>
    rw [hlookup] at hfam
    cases hfam
    exact .inl rfl
  | none =>
    rw [hlookup] at hfam
    dsimp only at hfam
    refine .inr ⟨rfl, ?_⟩
    split_ifs at hfam with htype
    · cases hbounds : validateHistogramBuckets (cfg.bucketsFor m.name) with
      | error err =>
        rw [hbounds] at hfam
        cases hfam
      | ok bounds =>
        rw [hbounds] at hfam
        cases hfam
        exact ⟨rfl, rfl, fun _ => rfl⟩
    · cases hfam
      exact ⟨rfl, rfl, fun ht => absurd ht htype⟩

/-! ### Bounds -/

theorem increasingBounds_spec {previous : Option ℚ} {bounds : List Float64} {qs : List ℚ}
    (h : increasingBounds previous bounds = some qs) :
    bounds = qs.map .finite ∧ (previous.toList ++ qs).IsChain (· < ·) := by
  induction bounds generalizing previous qs with
  | nil =>
    cases h
    refine ⟨rfl, ?_⟩
    cases previous with
    | none => exact .nil
    | some q => exact .singleton _
  | cons b rest ih =>
    cases b with
    | finite b =>
      rw [increasingBounds] at h
      split_ifs at h with hlt
      obtain ⟨rs, hrs, rfl⟩ := Option.map_eq_some_iff.mp h
      obtain ⟨hmap, hchain⟩ := ih hrs
      refine ⟨by rw [hmap, List.map_cons], ?_⟩
      cases previous with
      | none => exact hchain
      | some q => exact .cons_cons (by simpa using hlt) hchain
    | nan => cases h
    | negInf => cases h
    | posInf => cases h

/-- **Accepted bounds are valid.** -/
theorem validBuckets_of_validate {bounds : List Float64} {qs : List ℚ}
    (h : validateHistogramBuckets bounds = .ok qs) : ValidBuckets qs := by
  rw [validateHistogramBuckets] at h
  split_ifs at h with hne
  cases hq : increasingBounds none bounds with
  | none =>
    rw [hq] at h
    cases h
  | some rs =>
    rw [hq] at h
    cases h
    obtain ⟨rfl, hchain⟩ := increasingBounds_spec hq
    exact ⟨fun hnil => hne (by rw [hnil]; rfl), hchain⟩

/-! ### The invariant -/

/-- A series of a family. -/
structure StoreSeries.Valid (s : StoreSeries) (typ : MetricType) (bounds : List ℚ) : Prop where
  labels : ExposedFor typ s.labels
  counts : typ = .histogram → s.counts.length = bounds.length + 1

/-- A family of the store. -/
structure StoreFamily.Valid (fam : StoreFamily) : Prop where
  typ : fam.typ ≠ .unknown
  bounds : fam.typ = .histogram → ValidBuckets fam.bounds
  series : ∀ {key s}, fam.series.lookup key = some s →
    key = labelsKey s.labels ∧ s.Valid fam.typ fam.bounds

/-- **The invariant of the store.** -/
structure Handler.Valid (h : Handler) : Prop where
  registry : h.registry.Valid
  registered : ∀ {name fam}, h.families.lookup name = some fam →
    ∃ e, h.registry.Holds name e ∧ e.typ = fam.typ
  families : ∀ {name fam}, h.families.lookup name = some fam → fam.Valid

theorem Handler.Valid.zero : Handler.zero.Valid where
  registry := .empty
  registered h := by cases h
  families h := by cases h

@[simp] theorem StoreSeries.apply_labels (s : StoreSeries) (bounds : List ℚ)
    (m : TextMetric Other) (now : Time) : (s.apply bounds m now).labels = s.labels := by
  unfold StoreSeries.apply
  cases m.type
  case gauge =>
    dsimp only
    split <;> rfl
  all_goals rfl

@[simp] theorem StoreSeries.apply_updated (s : StoreSeries) (bounds : List ℚ)
    (m : TextMetric Other) (now : Time) : (s.apply bounds m now).updated = now := by
  unfold StoreSeries.apply
  cases m.type
  case gauge =>
    dsimp only
    split <;> rfl
  all_goals rfl

@[simp] theorem StoreSeries.length_apply_counts (s : StoreSeries) (bounds : List ℚ)
    (m : TextMetric Other) (now : Time) :
    (s.apply bounds m now).counts.length = s.counts.length := by
  unfold StoreSeries.apply
  cases m.type
  case gauge =>
    dsimp only
    split <;> rfl
  case histogram => exact List.length_modify ..
  all_goals rfl

/-- A family with one more observation. -/
theorem StoreFamily.Valid.put (hfam : fam.Valid) {labels : List Label} (htyp : fam.typ = m.type)
    (hlabels : ExposedFor m.type labels) (now : Time) : (fam.put labels m now).Valid where
  typ := hfam.typ
  bounds := hfam.bounds
  series := by
    intro key s hs
    by_cases hk : key = labelsKey labels
    · subst hk
      rw [StoreFamily.put, AList.lookup_insert, Option.some.injEq] at hs
      subst hs
      cases hold : fam.series.lookup (labelsKey labels) with
      | none =>
        refine ⟨by simp [newSeries], ?_, ?_⟩
        · simpa [newSeries, StoreFamily.put, htyp] using hlabels
        · intro ht
          have hm : m.type = .histogram := by rw [← htyp]; exact ht
          simp [newSeries, StoreFamily.put, hm]
      | some s =>
        refine ⟨by simpa using (hfam.series hold).1, ?_, ?_⟩
        · simpa [StoreFamily.put] using (hfam.series hold).2.labels
        · intro ht
          simpa [StoreFamily.put] using (hfam.series hold).2.counts ht
    · rw [StoreFamily.put, AList.lookup_insert_ne hk] at hs
      exact hfam.series hs

/-- A scrape takes series away, and nothing else. -/
theorem StoreFamily.Valid.live (hfam : fam.Valid) (cutoff : Time) :
    { fam with series := fam.live cutoff : StoreFamily }.Valid where
  typ := hfam.typ
  bounds := hfam.bounds
  series hs := by
    rw [StoreFamily.live, AList.lookup_filterValues, Option.filter_eq_some_iff] at hs
    exact hfam.series hs.1

namespace Handler

variable {h : Handler}

/-- The family of an accepted observation is valid and has its type. -/
theorem Valid.family (hh : h.Valid) {registry : FamilyRegistry} (htype : m.type ≠ .unknown)
    (hregister : h.registry.register (trimStart m.name cfg.trimPrefix) m.type =
      (registry, .ok (cfg.familyOf m))) (hfam : h.family cfg (cfg.familyOf m) m = .ok fam) :
    fam.Valid ∧ fam.typ = m.type := by
  rcases family_cases hfam with hold | ⟨-, htyp, hempty, hbounds⟩
  · obtain ⟨e, he, htyp⟩ := hh.registered hold
    have hkept := he.register (trimStart m.name cfg.trimPrefix) m.type
    have hnew := (FamilyRegistry.holds_of_register (by rw [hregister])).2
    obtain rfl := Option.some.inj (hkept.symm.trans hnew)
    exact ⟨hh.families hold, htyp.symm⟩
  · refine ⟨⟨htyp ▸ htype, fun ht => ?_, fun hs => ?_⟩, htyp⟩
    · exact validBuckets_of_validate (hbounds (htyp ▸ ht))
    · rw [hempty] at hs
      cases hs

/-- **An observation keeps the invariant.** -/
theorem Valid.observed (hh : h.Valid) {now : Time} {h' : Handler} {err : Option ObserveError}
    (hobs : Observed cfg h m now h' err) : h'.Valid := by
  cases hobs with
  | refused err hregistry =>
    rcases hregistry with rfl | rfl
    · exact hh
    · refine ⟨hh.registry.register _ _, fun hfam => ?_, hh.families⟩
      obtain ⟨e, he, htyp⟩ := hh.registered hfam
      exact ⟨e, he.register _ _, htyp⟩
  | @accepted labels fam registry htype _ hlabels hregister hfam =>
    obtain ⟨hvalid, htyp⟩ := hh.family htype hregister hfam
    have hregistry :
        (h.registry.register (trimStart m.name cfg.trimPrefix) m.type).1 = registry := by
      rw [hregister]
    have hput : (fam.put labels m now).Valid := hvalid.put htyp (exposedFor_of_ok hlabels) now
    refine ⟨hregistry ▸ hh.registry.register _ _, fun {name fam'} hfam' => ?_,
      fun {name fam'} hfam' => ?_⟩
    · by_cases hname : name = cfg.familyOf m
      · subst hname
        rw [AList.lookup_insert, Option.some.injEq] at hfam'
        subst hfam'
        have hnew := (FamilyRegistry.holds_of_register (by rw [hregister])).2
        exact ⟨_, hregistry ▸ hnew, htyp.symm⟩
      · rw [AList.lookup_insert_ne hname] at hfam'
        obtain ⟨e, he, htyp'⟩ := hh.registered hfam'
        exact ⟨e, hregistry ▸ he.register _ _, htyp'⟩
    · by_cases hname : name = cfg.familyOf m
      · subst hname
        rw [AList.lookup_insert, Option.some.injEq] at hfam'
        exact hfam' ▸ hput
      · rw [AList.lookup_insert_ne hname] at hfam'
        exact hh.families hfam'

theorem Valid.observeAll (hh : h.Valid) (ms : List (TextMetric Other)) (now : Time) :
    (h.observeAll cfg ms now).1.Valid := by
  induction ms generalizing h with
  | nil => exact hh
  | cons m ms ih => exact ih (hh.observed (.of_observe cfg h m now))

/-- What the store holds after a scrape. -/
theorem lookup_snapshot (h : Handler) (clock : Time) (name : Bytes) :
    (h.snapshot cfg clock).1.families.lookup name =
      (h.families.lookup name).map fun fam =>
        { fam with series := fam.live (clock - cfg.timeout) } :=
  AList.lookup_mapValues _ _ _

/-- **A scrape keeps the invariant.** -/
theorem Valid.snapshot (hh : h.Valid) (clock : Time) : (h.snapshot cfg clock).1.Valid where
  registry := hh.registry
  registered hfam := by
    rw [lookup_snapshot] at hfam
    obtain ⟨fam, hold, rfl⟩ := Option.map_eq_some_iff.mp hfam
    obtain ⟨e, he, htyp⟩ := hh.registered hold
    exact ⟨e, he, htyp⟩
  families hfam := by
    rw [lookup_snapshot] at hfam
    obtain ⟨fam, hold, rfl⟩ := Option.map_eq_some_iff.mp hfam
    exact (hh.families hold).live _

end Handler

/-- **Every reachable store is valid.** -/
theorem valid_of_reach {h : Handler} (hreach : (store cfg).Reach h) : h.Valid := by
  refine hreach.invariant .zero ?_
  rintro h l h' - hh - hstep
  cases l with
  | «export» metrics now =>
    cases hstep
    exact hh.observeAll _ now
  | scrape clock =>
    cases hstep
    exact hh.snapshot clock

end ConvoyStats.Prometheus
