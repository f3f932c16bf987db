import ConvoyStats.Prometheus.Samples
import ConvoyStats.Prometheus.StoreInvariant

/-!
# The exposition is faithful

A scrape of any reachable store writes a text that is read back as the families it exposes.
What the writer needs (`Exposable`, `Distinct`) and what keeps the samples apart follow from
the invariant of the store: its families are those of the registry, whose exposed names are
disjoint.
-/

namespace ConvoyStats.Prometheus

open List Models

variable {Other : Type} {cfg : HandlerConfig Other}

/-! ### What a scrape exposes -/

variable {clock : Time} {f : Family}

/-- An exposed family is one of the store, with the series that have not expired. -/
theorem mem_snapshot {h : Handler} :
    f ∈ (h.snapshot cfg clock).2 ↔ ∃ fam, h.families.lookup f.name = some fam ∧
      f = fam.expose f.name (clock - cfg.timeout) ∧ f.series ≠ [] := by
  rw [Handler.snapshot, mem_filter, mem_map]
  constructor
  · rintro ⟨⟨⟨name, fam⟩, hmem, rfl⟩, hne⟩
    exact ⟨fam, AList.mem_entries_iff.mp hmem, rfl, of_decide_eq_true hne⟩
  · rintro ⟨fam, hfam, heq, hne⟩
    exact ⟨⟨⟨f.name, fam⟩, AList.mem_entries_iff.mpr hfam, heq.symm⟩, decide_eq_true hne⟩

/-- The names of the exposed families are names of families of the store. -/
theorem names_snapshot (h : Handler) (clock : Time) :
    ((h.snapshot cfg clock).2.map Family.name).Nodup := by
  have hsub : ((h.snapshot cfg clock).2.map Family.name).Sublist
      ((h.families.entries.map fun e => e.2.expose e.1 (clock - cfg.timeout)).map Family.name) :=
    filter_sublist.map _
  refine hsub.nodup ?_
  rw [map_map]
  exact h.families.nodupKeys

theorem validMetricName_familyName (source : Bytes) (typ : MetricType) :
    validMetricName (familyName source typ) = true := by
  have hvalid := validName_normalizeName source true
  rw [familyName]
  split
  · rw [counterFamilyName]
    split
    · exact hvalid
    · exact validName_append hvalid (by decide)
  · exact hvalid

/-- A series of an exposed family. -/
theorem mem_series_expose {fam : StoreFamily} {name : Bytes} {cutoff : Time} {s : Series} :
    s ∈ (fam.expose name cutoff).series ↔
      ∃ key t, fam.series.lookup key = some t ∧ ¬ t.updated < cutoff ∧ s = t.expose fam := by
  rw [StoreFamily.expose, mem_map]
  constructor
  · rintro ⟨⟨key, t⟩, hmem, rfl⟩
    rw [AList.mem_entries_iff, StoreFamily.live, AList.lookup_filterValues,
      Option.filter_eq_some_iff] at hmem
    exact ⟨key, t, hmem.1, by simpa using hmem.2, rfl⟩
  · rintro ⟨key, t, hlookup, hlive, rfl⟩
    refine ⟨⟨key, t⟩, ?_, rfl⟩
    rw [AList.mem_entries_iff, StoreFamily.live, AList.lookup_filterValues,
      Option.filter_eq_some_iff]
    exact ⟨hlookup, by simpa using hlive⟩

variable {h : Handler}

/-- The exposed families of a valid store can be written. -/
theorem Handler.Valid.exposable (hh : h.Valid) (hf : f ∈ (h.snapshot cfg clock).2) :
    Exposable f := by
  obtain ⟨fam, hfam, heq, -⟩ := mem_snapshot.mp hf
  have hvalid := hh.families hfam
  obtain ⟨e, he, -⟩ := hh.registered hfam
  have htype : f.type = fam.typ := congrArg Family.type heq
  have hseries : ∀ s ∈ f.series, ∃ t key, fam.series.lookup key = some t ∧ s = t.expose fam := by
    intro s hs
    rw [heq] at hs
    obtain ⟨key, t, ht, -, rfl⟩ := mem_series_expose.mp hs
    exact ⟨t, key, ht, rfl⟩
  refine ⟨?_, htype ▸ hvalid.typ, ?_, ?_⟩
  · rw [hh.registry.named he]
    exact validMetricName_familyName ..
  · intro s hs
    obtain ⟨t, key, ht, rfl⟩ := hseries s hs
    exact htype ▸ (hvalid.series ht).2.labels
  · intro hhist s hs
    have hhist : fam.typ = .histogram := htype ▸ hhist
    obtain ⟨t, key, ht, rfl⟩ := hseries s hs
    exact ⟨_, if_pos hhist, (hvalid.series ht).2.counts hhist, (hvalid.bounds hhist).2⟩

/-- No two series of an exposed family have the same labels, since they have one key each. -/
theorem Handler.Valid.nodup_labels (hh : h.Valid) (hf : f ∈ (h.snapshot cfg clock).2) :
    (f.series.map Series.labels).Nodup := by
  obtain ⟨fam, hfam, heq, -⟩ := mem_snapshot.mp hf
  have hvalid := hh.families hfam
  rw [heq, StoreFamily.expose, map_map]
  refine Nodup.map_on ?_ ((fam.live (clock - cfg.timeout)).nodupKeys.nodup)
  rintro ⟨key, s⟩ hs ⟨key', t⟩ ht hlabels
  rw [AList.mem_entries_iff, StoreFamily.live, AList.lookup_filterValues,
    Option.filter_eq_some_iff] at hs ht
  have hkey : key = key' := by
    rw [(hvalid.series hs.1).1, (hvalid.series ht.1).1]
    exact congrArg labelsKey hlabels
  subst hkey
  rw [Option.some.inj (hs.1.symm.trans ht.1)]

theorem Handler.Valid.distinct (hh : h.Valid) (clock : Time) :
    Distinct (h.snapshot cfg clock).2 :=
  ⟨names_snapshot h clock, fun _ hf => hh.nodup_labels hf⟩

/-- The exposed names of two exposed families are disjoint. -/
theorem Handler.Valid.disjoint (hh : h.Valid) {g : Family} (hf : f ∈ (h.snapshot cfg clock).2)
    (hg : g ∈ (h.snapshot cfg clock).2) (hne : f.name ≠ g.name) :
    (exposedNames f.name f.type).Disjoint (exposedNames g.name g.type) := by
  obtain ⟨fam, hfam, hfeq, -⟩ := mem_snapshot.mp hf
  obtain ⟨gam, hgam, hgeq, -⟩ := mem_snapshot.mp hg
  obtain ⟨e, he, hetyp⟩ := hh.registered hfam
  obtain ⟨e', he', hetyp'⟩ := hh.registered hgam
  have hftype : f.type = e.typ := (congrArg Family.type hfeq).trans hetyp.symm
  have hgtype : g.type = e'.typ := (congrArg Family.type hgeq).trans hetyp'.symm
  rw [hftype, hgtype]
  exact hh.registry.disjoint he he' hne

/-! ### The text of a scrape -/

/-- The names of a sample are valid. -/
theorem valid_of_mem_samplesOf {formatFloat : ℚ → Bytes} {s : Series} {x : Sample}
    (hname : validMetricName f.name = true) (hlabels : ExposedFor f.type s.labels)
    (hx : x ∈ f.samplesOf formatFloat s) :
    validMetricName x.name = true ∧ ∀ l ∈ x.labels, validLabelName l.name = true := by
  rw [Family.samplesOf] at hx
  split at hx
  · rw [mem_singleton.mp hx]
    exact ⟨hname, hlabels.valid⟩
  · split at hx
    · cases hx
    · rcases mem_bucketSamples hx with ⟨hxname, v, hxlabels, -⟩ | ⟨hxname, hxlabels⟩
      · rw [hxname, hxlabels]
        exact ⟨validMetricName_bucket hname, validLabels_le hlabels.valid v⟩
      · rw [hxlabels]
        refine ⟨?_, hlabels.valid⟩
        rcases hxname with hxname | hxname
        · rw [hxname]
          exact validMetricName_sum hname
        · rw [hxname]
          exact validMetricName_count hname

variable {fmt : NumberFormat}

/-- A number written as a fraction, an integer without a denominator. -/
def formatRatio (q : ℚ) : Bytes :=
  (if q.num < 0 then [45] else []) ++ decimal q.num.natAbs ++
    (if q.den = 1 then [] else 47 :: decimal q.den)

/-- The fraction after a sign. -/
def readFraction (body : Bytes) : Option ℚ :=
  (readDecimal (body.takeWhile (· ≠ 47))).bind fun n =>
    match body.dropWhile (· ≠ 47) with
    | [] => some n
    | _ :: den => (readDecimal den).map fun d => n / d

def readRatio (input : Bytes) : Option ℚ :=
  match input with
  | [] => none
  | c :: rest => if c = 45 then (readFraction rest).map (- ·) else readFraction (c :: rest)

/-- Fractions, with the names of the values that are not finite. -/
def ratioFormat : NumberFormat where
  formatFloat := formatRatio
  read input :=
    match readRatio input with
    | some q => some (.finite q)
    | none =>
      if input = text "NaN" then some .nan
      else if input = text "+Inf" then some .posInf
      else if input = text "-Inf" then some .negInf
      else none

theorem readFraction_format (n d : ℕ) :
    readFraction (decimal n ++ if d = 1 then [] else 47 :: decimal d) = some ((n : ℚ) / d) := by
  have hdigits : ∀ c ∈ decimal n, decide (c ≠ 47) = true := by
    intro c hc
    have hdigit := isTagDigit_of_mem_decimal hc
    rw [decide_eq_true_iff]
    rintro rfl
    cases hdigit
  rw [readFraction, takeWhile_append_of_pos hdigits, dropWhile_append_of_pos hdigits]
  by_cases hd : d = 1
  · simp [hd, readDecimal_decimal]
  · simp [hd, readDecimal_decimal]

theorem readRatio_formatRatio (q : ℚ) : readRatio (formatRatio q) = some q := by
  have hbody := readFraction_format q.num.natAbs q.den
  rw [formatRatio, append_assoc]
  split
  · rename_i hneg
    rw [singleton_append, readRatio, if_pos rfl, hbody, Option.map_some, Option.some.injEq]
    have habs : ((q.num.natAbs : ℕ) : ℚ) = -q.num := by
      rw [← Int.cast_natCast, Int.ofNat_natAbs_of_nonpos hneg.le, Int.cast_neg]
    rw [habs, neg_div, neg_neg, Rat.num_div_den]
  · rename_i hpos
    have habs : ((q.num.natAbs : ℕ) : ℚ) = q.num := by
      rw [← Int.cast_natCast, Int.natAbs_of_nonneg (not_lt.mp hpos)]
    have hfirst : ∀ rest, readRatio (decimal q.num.natAbs ++ rest) =
        readFraction (decimal q.num.natAbs ++ rest) := by
      intro rest
      cases hdec : decimal q.num.natAbs with
      | nil => exact absurd hdec (decimal_ne_nil _)
      | cons c cs =>
        have hdigit := isTagDigit_of_mem_decimal (hdec ▸ mem_cons_self .. : c ∈ decimal _)
        rw [cons_append, readRatio, if_neg]
        rintro rfl
        cases hdigit
    rw [nil_append, hfirst, hbody, habs, Rat.num_div_den]

theorem formatRatio_natCast (n : ℕ) : formatRatio n = decimal n := by
  have hpos : ¬ (n : ℤ) < 0 := by omega
  simp [formatRatio, hpos]

theorem ratioFormat_lawful : ratioFormat.Lawful where
  unbroken q := by
    intro c hc
    have hsign : Unbroken [45] ∧ Unbroken [47] := by decide
    simp only [ratioFormat, formatRatio, mem_append] at hc
    rcases hc with (hc | hc) | hc
    · split at hc
      · exact hsign.1 c hc
      · cases hc
    · exact unbroken_decimal _ c hc
    · split at hc
      · cases hc
      · rcases mem_cons.mp hc with rfl | hc
        · exact hsign.2 _ (mem_singleton_self _)
        · exact unbroken_decimal _ c hc
  read_formatFloat q := by simp [ratioFormat, readRatio_formatRatio]
  read_decimal n := by
    have hread := readRatio_formatRatio (n : ℚ)
    rw [formatRatio_natCast] at hread
    simp [ratioFormat, hread]
  read_nan := by decide +kernel
  read_posInf := by decide +kernel
  read_negInf := by decide +kernel

/-- A store that takes attributes as they come. -/
def plainConfig : HandlerConfig Empty where
  trimPrefix := []
  metricTimeout := 0
  buckets := none
  newSet attrs := attrs
  valueString
    | .string v => v

/-- A counter with a quote, a backslash and a line feed in its label, and a histogram. -/
def firstBatch : List (Option (TextMetric Empty)) :=
  [some ⟨text "http.requests", .counter, .finite 2, [⟨text "le", .string [34, 92, 10]⟩], 0⟩,
    none,
    some ⟨text "9lat", .histogram, .finite 1, [⟨text "le", .string (text "x")⟩], 0⟩]

end ConvoyStats.Prometheus
