import Mathlib.Data.List.AList
import ConvoyStats.Prometheus.Exposition

/-!
# The family registry

`exporters/prometheus/exposition_registry.go`: the first registration of a name keeps it.
`Register` looks a family up in two maps, the families and the owners of the series names,
and its four checks are what keeps the exposed names of two families apart (`Valid.claim`):
a family name against families and series, and every series name against both again.

`register_cases` says what a call can do; everything else follows from it.
-/

namespace ConvoyStats.Prometheus

open List Models

/-- `familyEntry`. -/
structure FamilyEntry where
  source : Bytes
  typ : MetricType
  deriving DecidableEq

/-- `FamilyRegistry`. -/
structure FamilyRegistry where
  families : AList fun _ : Bytes => FamilyEntry
  series : AList fun _ : Bytes => Bytes

/-- `NewFamilyRegistry`. -/
def newFamilyRegistry : FamilyRegistry := ⟨∅, ∅⟩

/-- `seriesNames`. -/
def seriesNames (family : Bytes) (typ : MetricType) : List Bytes :=
  if typ = .histogram then
    [family ++ text "_bucket", family ++ text "_sum", family ++ text "_count"]
  else [family]

/-- The family name `Register` gives a metric. -/
def familyName (source : Bytes) (typ : MetricType) : Bytes :=
  if typ = .counter then counterFamilyName source else normalizeMetricName source

/-- What `ErrFamilyCollision` is wrapped with: the metric, and what it clashes with. -/
inductive FamilyCollision
  /-- The family belongs to `owner`. -/
  | family (source : Bytes) (typ : MetricType) (owner : FamilyEntry) (family : Bytes)
  /-- The family is a series of the family `owner`. -/
  | familyIsSeries (source : Bytes) (typ : MetricType) (owner family : Bytes)
  | seriesIsFamily (source : Bytes) (typ : MetricType) (series : Bytes)
  | series (source : Bytes) (typ : MetricType) (series owner : Bytes)
  deriving DecidableEq

namespace FamilyRegistry

variable (r : FamilyRegistry)

/-- The loop over the series names: the first that is taken. -/
def takenSeries (source : Bytes) (typ : MetricType) (names : List Bytes) :
    Option FamilyCollision :=
  names.findSome? fun s =>
    if s ∈ r.families then some (.seriesIsFamily source typ s)
    else (r.series.lookup s).map (.series source typ s)

/-- The family and its series names are written down. -/
def claim (family source : Bytes) (typ : MetricType) : FamilyRegistry where
  families := r.families.insert family ⟨source, typ⟩
  series := (seriesNames family typ).foldl (fun series s => series.insert s family) r.series

/-- `Register`. -/
def register (source : Bytes) (typ : MetricType) :
    FamilyRegistry × Except FamilyCollision Bytes :=
  let family := familyName source typ
  match r.families.lookup family with
  | some e =>
    if e.source = source ∧ e.typ = typ then (r, .ok family)
    else (r, .error (.family source typ e family))
  | none =>
    match r.series.lookup family with
    | some owner => (r, .error (.familyIsSeries source typ owner family))
    | none =>
      match r.takenSeries source typ (seriesNames family typ) with
      | some err => (r, .error err)
      | none => (r.claim family source typ, .ok family)

/-- The registry after a sequence of calls. -/
def registerAll (r : FamilyRegistry) (calls : List FamilyEntry) : FamilyRegistry :=
  calls.foldl (fun r call => (r.register call.source call.typ).1) r

end FamilyRegistry

/-- The names a family exposes. -/
def exposedNames (family : Bytes) (typ : MetricType) : List Bytes :=
  family :: seriesNames family typ

theorem mem_exposedNames_of_mem_seriesNames {family s : Bytes} {typ : MetricType}
    (h : s ∈ seriesNames family typ) : s ∈ exposedNames family typ := mem_cons_of_mem _ h

/-! ### What a call does -/

namespace FamilyRegistry

variable {r : FamilyRegistry} {source : Bytes} {typ : MetricType}

/-- A name is taken: it is a family, or a series of one. -/
def Taken (r : FamilyRegistry) (name : Bytes) : Prop := name ∈ r.families ∨ name ∈ r.series

/-- No exposed name of the family is taken. -/
def Free (r : FamilyRegistry) (family : Bytes) (typ : MetricType) : Prop :=
  ∀ s ∈ exposedNames family typ, ¬ r.Taken s

theorem takenSeries_eq_none {names : List Bytes} :
    r.takenSeries source typ names = none ↔ ∀ s ∈ names, ¬ r.Taken s := by
  rw [takenSeries, findSome?_eq_none_iff]
  refine forall₂_congr fun s _ => ?_
  rw [Taken, not_or]
  split
  · simp_all
  · rename_i hs
    rw [Option.map_eq_none_iff, AList.lookup_eq_none]
    exact (and_iff_right hs).symm

theorem taken_of_takenSeries {names : List Bytes} {err : FamilyCollision}
    (h : r.takenSeries source typ names = some err) : ∃ s ∈ names, r.Taken s := by
  by_contra hnone
  push Not at hnone
  rw [takenSeries_eq_none.mpr hnone] at h
  cases h

/-- **What a call does**: nothing for a metric it knows, nothing where a name is taken, and
otherwise the family is claimed. -/
theorem register_cases (r : FamilyRegistry) (source : Bytes) (typ : MetricType) :
    (r.families.lookup (familyName source typ) = some ⟨source, typ⟩ ∧
      r.register source typ = (r, .ok (familyName source typ))) ∨
    (∃ err, r.register source typ = (r, .error err) ∧
      r.families.lookup (familyName source typ) ≠ some ⟨source, typ⟩ ∧
      ∃ s ∈ exposedNames (familyName source typ) typ, r.Taken s) ∨
    (r.Free (familyName source typ) typ ∧
      r.register source typ =
        (r.claim (familyName source typ) source typ, .ok (familyName source typ))) := by
  rw [register]
  cases hfamily : r.families.lookup (familyName source typ) with
  | some e =>
    have hmem : r.Taken (familyName source typ) :=
      .inl (AList.lookup_isSome.mp (by rw [hfamily]; rfl))
    dsimp only
    split_ifs with he
    · obtain ⟨rfl, rfl⟩ := he
      exact .inl ⟨rfl, rfl⟩
    · refine .inr (.inl ⟨_, rfl, fun heq => ?_, _, mem_cons_self .., hmem⟩)
      cases heq
      exact he ⟨rfl, rfl⟩
  | none =>
    have hnot : (none : Option FamilyEntry) ≠ some ⟨source, typ⟩ := nofun
    cases hseries : r.series.lookup (familyName source typ) with
    | some owner =>
      have hmem : r.Taken (familyName source typ) :=
        .inr (AList.lookup_isSome.mp (by rw [hseries]; rfl))
      exact .inr (.inl ⟨_, rfl, hnot, _, mem_cons_self .., hmem⟩)
    | none =>
      cases htaken : r.takenSeries source typ (seriesNames (familyName source typ) typ) with
      | some err =>
        obtain ⟨s, hs, hmem⟩ := taken_of_takenSeries htaken
        exact .inr (.inl ⟨err, rfl, hnot, s, mem_exposedNames_of_mem_seriesNames hs, hmem⟩)
      | none =>
        refine .inr (.inr ⟨fun s hs => ?_, rfl⟩)
        rcases mem_cons.mp hs with rfl | hs
        · rw [Taken, not_or, ← AList.lookup_eq_none, ← AList.lookup_eq_none]
          exact ⟨hfamily, hseries⟩
        · exact takenSeries_eq_none.mp htaken s hs

/-! ### The registry after a claim -/

theorem lookup_families_claim_self (r : FamilyRegistry) (family source : Bytes)
    (typ : MetricType) : (r.claim family source typ).families.lookup family = some ⟨source, typ⟩ :=
  AList.lookup_insert _

variable {family : Bytes}

theorem lookup_families_claim_ne {other : Bytes} (h : other ≠ family) :
    (r.claim family source typ).families.lookup other = r.families.lookup other :=
  AList.lookup_insert_ne h

theorem lookup_foldl_insert (series : AList fun _ : Bytes => Bytes) (names : List Bytes)
    (family s : Bytes) :
    (names.foldl (fun series s => series.insert s family) series).lookup s =
      if s ∈ names then some family else series.lookup s := by
  induction names generalizing series with
  | nil => simp
  | cons a names ih =>
    rw [foldl_cons, ih]
    by_cases hs : s ∈ names
    · rw [if_pos hs, if_pos (mem_cons_of_mem a hs)]
    · rw [if_neg hs]
      by_cases ha : s = a
      · rw [ha, AList.lookup_insert, if_pos (mem_cons_self ..)]
      · rw [AList.lookup_insert_ne ha, if_neg (by simp [ha, hs])]

theorem lookup_series_claim (r : FamilyRegistry) (family source : Bytes) (typ : MetricType)
    (s : Bytes) : (r.claim family source typ).series.lookup s =
      if s ∈ seriesNames family typ then some family else r.series.lookup s :=
  lookup_foldl_insert _ _ _ _

/-! ### The invariant -/

/-- The registry holds `e` under its family name. -/
def Holds (r : FamilyRegistry) (family : Bytes) (e : FamilyEntry) : Prop :=
  r.families.lookup family = some e

/-- **The invariant.**  Every family has the name of its metric, the series names are those of
the families, and no two families share a name. -/
structure Valid (r : FamilyRegistry) : Prop where
  named : ∀ {family e}, r.Holds family e → family = familyName e.source e.typ
  series : ∀ {s family}, r.series.lookup s = some family ↔
    ∃ e, r.Holds family e ∧ s ∈ seriesNames family e.typ
  disjoint : ∀ {f g e e'}, r.Holds f e → r.Holds g e' → f ≠ g →
    (exposedNames f e.typ).Disjoint (exposedNames g e'.typ)

theorem Valid.empty : newFamilyRegistry.Valid where
  named h := by cases h
  series := by
    intro s family
    constructor
    · intro h
      cases h
    · rintro ⟨e, h, -⟩
      cases h
  disjoint h := by cases h

variable {e : FamilyEntry}

/-- The name of a family is taken. -/
theorem Holds.taken (h : r.Holds family e) : r.Taken family :=
  .inl (AList.lookup_isSome.mp (by rw [h]; rfl))

/-- A taken name is one that a family exposes. -/
theorem Valid.taken (hr : r.Valid) {name : Bytes} :
    r.Taken name ↔ ∃ family e, r.Holds family e ∧ name ∈ exposedNames family e.typ := by
  constructor
  · rintro (hfamily | hseries)
    · obtain ⟨e, he⟩ := Option.isSome_iff_exists.mp (AList.lookup_isSome.mpr hfamily)
      exact ⟨name, e, he, mem_cons_self ..⟩
    · obtain ⟨family, hf⟩ := Option.isSome_iff_exists.mp (AList.lookup_isSome.mpr hseries)
      obtain ⟨e, he, hs⟩ := hr.series.mp hf
      exact ⟨family, e, he, mem_exposedNames_of_mem_seriesNames hs⟩
  · rintro ⟨family, e, he, hname⟩
    rcases mem_cons.mp hname with rfl | hs
    · exact he.taken
    · exact .inr (AList.lookup_isSome.mp (by rw [hr.series.mpr ⟨e, he, hs⟩]; rfl))

/-- What a registry holds after a claim. -/
theorem holds_claim {f : Bytes} :
    (r.claim family source typ).Holds f e ↔
      (f = family ∧ e = ⟨source, typ⟩) ∨ (f ≠ family ∧ r.Holds f e) := by
  rw [Holds]
  by_cases hf : f = family
  · rw [hf, lookup_families_claim_self, Option.some.injEq, eq_comm]
    simp
  · rw [lookup_families_claim_ne hf]
    simp [hf, Holds]

/-- **Claiming free names keeps the invariant.** -/
theorem Valid.claim (hr : r.Valid) (hfree : r.Free (familyName source typ) typ) :
    (r.claim (familyName source typ) source typ).Valid := by
  -- the names of the new family are exposed by no other
  have hapart : ∀ {f e}, r.Holds f e →
      (exposedNames f e.typ).Disjoint (exposedNames (familyName source typ) typ) := by
    intro f e he s hs hs'
    exact hfree s hs' (hr.taken.mpr ⟨f, e, he, hs⟩)
  have hnew : ¬ ∃ e, r.Holds (familyName source typ) e := by
    rintro ⟨e, he⟩
    exact hapart he (mem_cons_self ..) (mem_cons_self ..)
  refine ⟨?_, ?_, ?_⟩
  · intro f e he
    rcases holds_claim.mp he with ⟨rfl, rfl⟩ | ⟨-, he⟩
    · rfl
    · exact hr.named he
  · intro s f
    rw [lookup_series_claim]
    by_cases hs : s ∈ seriesNames (familyName source typ) typ
    · rw [if_pos hs, Option.some.injEq]
      constructor
      · rintro rfl
        exact ⟨⟨source, typ⟩, holds_claim.mpr (.inl ⟨rfl, rfl⟩), hs⟩
      · rintro ⟨e, he, hsf⟩
        rcases holds_claim.mp he with ⟨rfl, -⟩ | ⟨-, he⟩
        · rfl
        · exact absurd (mem_exposedNames_of_mem_seriesNames hs)
            (hapart he (mem_exposedNames_of_mem_seriesNames hsf))
    · rw [if_neg hs, hr.series]
      refine exists_congr fun e => and_congr_left fun hsf => ?_
      rw [holds_claim]
      constructor
      · intro he
        exact .inr ⟨fun hf => hnew ⟨e, hf ▸ he⟩, he⟩
      · rintro (⟨rfl, rfl⟩ | ⟨-, he⟩)
        · exact absurd hsf hs
        · exact he
  · intro f g e e' he he' hne
    rcases holds_claim.mp he with ⟨rfl, rfl⟩ | ⟨-, he⟩ <;>
      rcases holds_claim.mp he' with ⟨rfl, rfl⟩ | ⟨-, he'⟩
    · exact absurd rfl hne
    · exact disjoint_symm (hapart he')
    · exact hapart he
    · exact hr.disjoint he he' hne

/-- **A call keeps the invariant.** -/
theorem Valid.register (hr : r.Valid) (source : Bytes) (typ : MetricType) :
    (r.register source typ).1.Valid := by
  rcases register_cases r source typ with ⟨-, h⟩ | ⟨err, h, -⟩ | ⟨hfree, h⟩
  · rwa [h]
  · rwa [h]
  · rw [h]
    exact hr.claim hfree

/-- A family that a registry holds stays. -/
theorem Holds.register (h : r.Holds family e) (source : Bytes) (typ : MetricType) :
    (r.register source typ).1.Holds family e := by
  rcases register_cases r source typ with ⟨-, hr⟩ | ⟨err, hr, -⟩ | ⟨hfree, hr⟩
  · rwa [hr]
  · rwa [hr]
  · rw [hr]
    refine holds_claim.mpr (.inr ⟨?_, h⟩)
    rintro rfl
    exact hfree _ (mem_cons_self ..) h.taken

/-- A call that succeeds leaves its metric in the registry. -/
theorem holds_of_register (h : (r.register source typ).2 = .ok family) :
    family = familyName source typ ∧ (r.register source typ).1.Holds family ⟨source, typ⟩ := by
  rcases register_cases r source typ with ⟨hknown, hr⟩ | ⟨err, hr, -⟩ | ⟨-, hr⟩
  · rw [hr] at h ⊢
    cases h
    exact ⟨rfl, hknown⟩
  · rw [hr] at h
    cases h
  · rw [hr] at h ⊢
    cases h
    exact ⟨rfl, lookup_families_claim_self ..⟩

/-- A call for a metric that the registry holds succeeds and changes nothing. -/
theorem register_of_holds (h : r.Holds (familyName source typ) ⟨source, typ⟩) :
    r.register source typ = (r, .ok (familyName source typ)) := by
  rcases register_cases r source typ with ⟨-, hr⟩ | ⟨err, -, hnot, -⟩ | ⟨hfree, -⟩
  · exact hr
  · exact absurd h hnot
  · exact absurd h.taken (hfree _ (mem_cons_self ..))

/-- A call for a family whose names are free claims it. -/
theorem register_of_free (h : r.Free (familyName source typ) typ) :
    r.register source typ =
      (r.claim (familyName source typ) source typ, .ok (familyName source typ)) := by
  rcases register_cases r source typ with ⟨hknown, -⟩ | ⟨err, -, -, s, hs, htaken⟩ | ⟨-, hr⟩
  · exact absurd (Holds.taken hknown) (h _ (mem_cons_self ..))
  · exact absurd htaken (h s hs)
  · exact hr

/-- A call for a family that belongs to another metric fails. -/
theorem register_of_holds_other (h : r.Holds (familyName source typ) e) (hne : e ≠ ⟨source, typ⟩) :
    ∃ err, r.register source typ = (r, .error err) := by
  rcases register_cases r source typ with ⟨hknown, -⟩ | ⟨err, hr, -⟩ | ⟨hfree, -⟩
  · exact absurd (Option.some.inj (h.symm.trans hknown)) hne
  · exact ⟨err, hr⟩
  · exact absurd h.taken (hfree _ (mem_cons_self ..))

/-! ### Sequences of calls -/

theorem Valid.registerAll (hr : r.Valid) (calls : List FamilyEntry) :
    (r.registerAll calls).Valid := by
  induction calls generalizing r with
  | nil => exact hr
  | cons call calls ih => exact ih (hr.register call.source call.typ)

theorem Holds.registerAll (h : r.Holds family e) (calls : List FamilyEntry) :
    (r.registerAll calls).Holds family e := by
  induction calls generalizing r with
  | nil => exact h
  | cons call calls ih => exact ih (h.register call.source call.typ)

/-- What a registry holds was registered. -/
theorem holds_register (h : (r.register source typ).1.Holds family e) :
    r.Holds family e ∨ e = ⟨source, typ⟩ := by
  rcases register_cases r source typ with ⟨-, hr⟩ | ⟨err, hr, -⟩ | ⟨-, hr⟩
  · exact .inl (by rwa [hr] at h)
  · exact .inl (by rwa [hr] at h)
  · rw [hr] at h
    rcases holds_claim.mp h with ⟨-, he⟩ | ⟨-, h⟩
    · exact .inr he
    · exact .inl h

theorem mem_of_holds_registerAll {calls : List FamilyEntry}
    (h : (r.registerAll calls).Holds family e) : r.Holds family e ∨ e ∈ calls := by
  induction calls generalizing r with
  | nil => exact .inl h
  | cons call calls ih =>
    rcases ih h with h | h
    · rcases holds_register h with h | rfl
      · exact .inl h
      · exact .inr (mem_cons_self ..)
    · exact .inr (mem_cons_of_mem _ h)

/-- A call that fails finds one of its names exposed for another metric. -/
theorem owner_of_error (hr : r.Valid) {err : FamilyCollision}
    (h : (r.register source typ).2 = .error err) :
    ∃ name ∈ exposedNames (familyName source typ) typ, ∃ owner : FamilyEntry,
      r.Holds (familyName owner.source owner.typ) owner ∧
        name ∈ exposedNames (familyName owner.source owner.typ) owner.typ ∧
        owner ≠ ⟨source, typ⟩ := by
  rcases register_cases r source typ with ⟨-, hok⟩ | ⟨err', -, hnot, s, hs, htaken⟩ | ⟨-, hok⟩
  · rw [hok] at h
    cases h
  · obtain ⟨family, e, he, hmem⟩ := hr.taken.mp htaken
    obtain rfl := hr.named he
    refine ⟨s, hs, e, he, hmem, ?_⟩
    rintro rfl
    exact hnot he
  · rw [hok] at h
    cases h

/-- **The registry.**  After any sequence of calls the exposed names of two families are
disjoint, a call that fails changes nothing, and one fails only over a name that was registered
for another metric.  A call that succeeded has its family in the registry from then on, under the
name it returned, and keeps succeeding with the same result; so the first part is about every
registration that has succeeded. -/
theorem registry_keeps_names_apart (calls : List FamilyEntry) :
    (∀ {f g e e'}, (newFamilyRegistry.registerAll calls).Holds f e →
      (newFamilyRegistry.registerAll calls).Holds g e' → f ≠ g →
      (exposedNames f e.typ).Disjoint (exposedNames g e'.typ)) ∧
    ∀ source typ,
      (∀ err, ((newFamilyRegistry.registerAll calls).register source typ).2 = .error err →
        ((newFamilyRegistry.registerAll calls).register source typ).1 =
            newFamilyRegistry.registerAll calls ∧
          ∃ name ∈ exposedNames (familyName source typ) typ, ∃ owner ∈ calls,
            (newFamilyRegistry.registerAll calls).Holds (familyName owner.source owner.typ) owner ∧
              name ∈ exposedNames (familyName owner.source owner.typ) owner.typ ∧
              (owner.source ≠ source ∨ owner.typ ≠ typ)) ∧
      ∀ family, ((newFamilyRegistry.registerAll calls).register source typ).2 = .ok family →
        family = familyName source typ ∧
        ∀ further,
          (((newFamilyRegistry.registerAll calls).register source typ).1.registerAll
            further).Holds family ⟨source, typ⟩ ∧
          ((((newFamilyRegistry.registerAll calls).register source typ).1.registerAll
            further).register source typ).2 = .ok family := by
  have hvalid := Valid.empty.registerAll calls
  refine ⟨hvalid.disjoint, fun source typ => ⟨fun err herr => ⟨?_, ?_⟩, ?_⟩⟩
  · rcases register_cases (newFamilyRegistry.registerAll calls) source typ with
      ⟨-, h⟩ | ⟨err', h, -⟩ | ⟨-, h⟩
    · rw [h]
    · rw [h]
    · rw [h] at herr
      cases herr
  · obtain ⟨name, hname, owner, hholds, hmem, hne⟩ := owner_of_error hvalid herr
    refine ⟨name, hname, owner, ?_, hholds, hmem, ?_⟩
    · rcases mem_of_holds_registerAll hholds with h | h
      · cases h
      · exact h
    · by_contra hsame
      push Not at hsame
      obtain ⟨rfl, rfl⟩ := hsame
      exact hne rfl
  · intro family hok
    obtain ⟨rfl, hholds⟩ := holds_of_register hok
    refine ⟨rfl, fun further => ⟨hholds.registerAll further, ?_⟩⟩
    rw [register_of_holds (hholds.registerAll further)]

/-- A histogram `lat` and a counter `hits`. -/
def latencyCalls : List FamilyEntry := [⟨text "lat", .histogram⟩, ⟨text "hits", .counter⟩]

/-- Both are held and apart, and a gauge `lat_count` is refused: it is a series of `lat`. -/
theorem registry_keeps_names_apart_latency :
    (newFamilyRegistry.registerAll latencyCalls).Holds (text "lat") ⟨text "lat", .histogram⟩ ∧
    (exposedNames (text "lat") .histogram).Disjoint (exposedNames (text "hits_total") .counter) ∧
    (newFamilyRegistry.registerAll latencyCalls).register (text "lat_count") .gauge =
      (newFamilyRegistry.registerAll latencyCalls,
        .error (.familyIsSeries (text "lat_count") .gauge (text "lat") (text "lat_count"))) := by
  obtain ⟨hdisjoint, hcalls⟩ := registry_keeps_names_apart latencyCalls
  have hhits : (newFamilyRegistry.registerAll latencyCalls).Holds (text "hits_total")
      ⟨text "hits", .counter⟩ := by
    unfold Holds
    decide +kernel
  have herr : ((newFamilyRegistry.registerAll latencyCalls).register (text "lat_count") .gauge).2 =
      .error (.familyIsSeries (text "lat_count") .gauge (text "lat") (text "lat_count")) := by
    decide +kernel
  -- The histogram is held because its call, the first one, succeeded.
  have hok : ((newFamilyRegistry.registerAll []).register (text "lat") .histogram).2 =
      .ok (text "lat") := by decide +kernel
  obtain ⟨-, hlat⟩ := ((registry_keeps_names_apart []).2 (text "lat") .histogram).2 _ hok
  have hlat := (hlat [⟨text "hits", .counter⟩]).1
  exact ⟨hlat, hdisjoint hlat hhits (by decide +kernel),
    Prod.ext ((hcalls (text "lat_count") .gauge).1 _ herr).1 herr⟩

end FamilyRegistry

end ConvoyStats.Prometheus
