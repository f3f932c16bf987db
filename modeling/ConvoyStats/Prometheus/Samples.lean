import ConvoyStats.Prometheus.TextFormat

/-!
# The samples of a family

What `WriteFamilies` writes for a family is read as the family with the samples of its series:
a histogram series is a sample for each bucket with the observations up to its bound, the sum
and the count.  Within families that expose different names no two samples share their name
and labels: the name tells the family and which of a histogram's samples it is, and the labels
without `le` the series.
-/

namespace ConvoyStats.Prometheus

open List Models

/-! ### Numbers -/

/-- How finite numbers are written (`strconv.FormatFloat`), and how the parser reads numbers. -/
structure NumberFormat where
  formatFloat : ℚ → Bytes
  read : Bytes → Option Float64

/-- Numbers are read as they were written, and their texts have no blanks and line feeds. -/
structure NumberFormat.Lawful (fmt : NumberFormat) : Prop where
  unbroken : ∀ q, Unbroken (fmt.formatFloat q)
  read_formatFloat : ∀ q, fmt.read (fmt.formatFloat q) = some (.finite q)
  read_decimal : ∀ n : ℕ, fmt.read (decimal n) = some (.finite n)
  read_nan : fmt.read (text "NaN") = some .nan
  read_posInf : fmt.read (text "+Inf") = some .posInf
  read_negInf : fmt.read (text "-Inf") = some .negInf

/-! ### Samples -/

section

variable (formatFloat : ℚ → Bytes) (name : Bytes) (labels : List Label) (sum : Float64)

/-- The samples of a histogram series, with `cum` counted before. -/
def bucketSamples : (cum : ℕ) → List ℚ → List ℕ → List Sample
  | cum, b :: bounds, c :: counts =>
    ⟨name ++ text "_bucket", labels ++ [leLabel (formatFloat b)], .finite (cum + c : ℕ)⟩ ::
      bucketSamples (cum + c) bounds counts
  | cum, _, counts =>
    [⟨name ++ text "_bucket", labels ++ [leLabel (text "+Inf")],
        .finite (cum + counts.headD 0 : ℕ)⟩,
      ⟨name ++ text "_sum", labels, sum⟩,
      ⟨name ++ text "_count", labels, .finite (cum + counts.headD 0 : ℕ)⟩]

end

/-- The samples of a series. -/
def Family.samplesOf (formatFloat : ℚ → Bytes) (f : Family) (s : Series) : List Sample :=
  if f.type ≠ .histogram then [⟨f.name, s.labels, s.value⟩]
  else
    match s.histogram with
    | none => []
    | some h => bucketSamples formatFloat f.name s.labels h.sum 0 h.bounds h.counts

/-- A family as it is exposed. -/
def Family.exposed (formatFloat : ℚ → Bytes) (f : Family) : ParsedFamily :=
  ⟨f.name, f.type, f.series.flatMap (f.samplesOf formatFloat)⟩

variable {formatFloat : ℚ → Bytes} {name : Bytes} {labels : List Label} {bounds : List ℚ}
  {counts : List ℕ} {x : Sample} {f : Family}

/-- What can be a sample of a histogram series. -/
theorem mem_bucketSamples {sum : Float64} {cum : ℕ}
    (h : x ∈ bucketSamples formatFloat name labels sum cum bounds counts) :
    (x.name = name ++ text "_bucket" ∧ ∃ v, x.labels = labels ++ [leLabel v] ∧
      (v = text "+Inf" ∨ ∃ b ∈ bounds, v = formatFloat b)) ∨
    ((x.name = name ++ text "_sum" ∨ x.name = name ++ text "_count") ∧ x.labels = labels) := by
  fun_induction bucketSamples formatFloat name labels sum cum bounds counts with
  | case1 cum b bounds c counts ih =>
    rcases mem_cons.mp h with rfl | h
    · exact .inl ⟨rfl, _, rfl, .inr ⟨b, mem_cons_self .., rfl⟩⟩
    · rcases ih h with ⟨hname, v, hlabels, hv⟩ | hrest
      · refine .inl ⟨hname, v, hlabels, hv.imp_right ?_⟩
        rintro ⟨b', hb', rfl⟩
        exact ⟨b', mem_cons_of_mem _ hb', rfl⟩
      · exact .inr hrest
  | case2 =>
    simp only [mem_cons, not_mem_nil, or_false] at h
    rcases h with rfl | rfl | rfl
    · exact .inl ⟨rfl, _, rfl, .inl rfl⟩
    · exact .inr ⟨.inl rfl, rfl⟩
    · exact .inr ⟨.inr rfl, rfl⟩

/-- A sample of a family has one of its series names. -/
theorem name_of_mem_samplesOf {s : Series} (h : x ∈ f.samplesOf formatFloat s) :
    x.name ∈ seriesNames f.name f.type := by
  rw [Family.samplesOf] at h
  split at h
  · rename_i htype
    rw [seriesNames, if_neg htype, mem_singleton.mp h]
    exact mem_singleton_self _
  · rename_i htype
    rw [seriesNames, if_pos (not_not.mp htype)]
    split at h
    · cases h
    · rcases mem_bucketSamples h with ⟨hname, -⟩ | ⟨hname | hname, -⟩ <;> simp [hname]

/-! ### Families that can be written -/

/-- A family that can be written. -/
structure Exposable (f : Family) : Prop where
  name : validMetricName f.name = true
  type : f.type ≠ .unknown
  labels : ∀ s ∈ f.series, ExposedFor f.type s.labels
  histogram : f.type = .histogram → ∀ s ∈ f.series, ∃ h, s.histogram = some h ∧
    h.counts.length = h.bounds.length + 1 ∧ h.bounds.IsChain (· < ·)

variable {fmt : NumberFormat}

theorem unbroken_decimal (n : ℕ) : Unbroken (decimal n) := by
  intro c hc
  have hdigit := isTagDigit_of_mem_decimal hc
  have hname : isNameChar false c = true := by rw [isNameChar, hdigit, Bool.or_true, Bool.true_or]
  exact ⟨isBlank_of_isNameChar hname, ne_of_isNameChar hname rfl⟩

theorem unbroken_of_validName {allowColon : Bool} (hname : validName allowColon name = true) :
    Unbroken name := by
  intro c hc
  have hchar := isNameChar_of_mem hname hc
  exact ⟨isBlank_of_isNameChar hchar, ne_of_isNameChar hchar (by cases allowColon <;> rfl)⟩

namespace NumberFormat.Lawful

theorem injective (h : fmt.Lawful) : Function.Injective fmt.formatFloat := by
  intro p q hpq
  have hread := h.read_formatFloat p
  rw [hpq, h.read_formatFloat] at hread
  cases hread
  rfl

theorem formatFloat_ne_inf (h : fmt.Lawful) (q : ℚ) : fmt.formatFloat q ≠ text "+Inf" := by
  intro heq
  have hread := h.read_formatFloat q
  rw [heq, h.read_posInf] at hread
  cases hread

/-- **A value is read as it was written.** -/
theorem read_formatValue (h : fmt.Lawful) (v : Float64) :
    fmt.read (formatValue fmt.formatFloat v) = some v ∧
      Unbroken (formatValue fmt.formatFloat v) := by
  cases v with
  | nan => exact ⟨h.read_nan, show Unbroken (text "NaN") by decide⟩
  | posInf => exact ⟨h.read_posInf, show Unbroken (text "+Inf") by decide⟩
  | negInf => exact ⟨h.read_negInf, show Unbroken (text "-Inf") by decide⟩
  | finite q => exact ⟨h.read_formatFloat q, h.unbroken q⟩

end NumberFormat.Lawful

/-! ### What is written is read -/

theorem notMem_writeLabel {l : Label} (hl : validLabelName l.name = true) : 10 ∉ writeLabel l := by
  intro h
  rw [writeLabel, append_assoc, mem_append, cons_append, cons_append] at h
  rcases h with h | h
  · exact (unbroken_of_validName hl 10 h).2 rfl
  · simp only [mem_cons, mem_append, not_mem_nil, or_false] at h
    rcases h with h | h | h | h
    · exact absurd h (by decide)
    · exact absurd h (by decide)
    · exact notMem_escapeLabelValue _ h
    · exact absurd h (by decide)

theorem notMem_writeLabels (hlabels : ∀ l ∈ labels, validLabelName l.name = true) :
    10 ∉ writeLabels labels := by
  cases labels with
  | nil => exact not_mem_nil
  | cons l ls =>
    intro h
    simp only [writeLabels, mem_cons, mem_append, mem_flatMap, not_mem_nil,
      or_false, cons_append] at h
    rcases h with h | ((h | ⟨l', hl', h | h⟩) | h)
    · exact absurd h (by decide)
    · exact notMem_writeLabel (hlabels l (mem_cons_self ..)) h
    · exact absurd h (by decide)
    · exact notMem_writeLabel (hlabels l' (mem_cons_of_mem _ hl')) h
    · exact absurd h (by decide)

/-- **A sample that is written is read.** -/
theorem reads_writeSample {v : Bytes} {extra : Option Label} {value : Float64}
    (hname : validMetricName name = true)
    (hlabels : ∀ l ∈ labels ++ extra.toList, validLabelName l.name = true) (hv : Unbroken v)
    (hread : fmt.read v = some value) :
    Reads fmt.read (writeSample name labels extra v)
      [.sample ⟨name, labels ++ extra.toList, value⟩] := by
  refine .single (?_ : 10 ∉ sampleLine name (labels ++ extra.toList) v)
    (parseLine_sampleLine hname hlabels hv hread)
  intro h
  rw [sampleLine, append_assoc, mem_append, mem_append, mem_cons] at h
  rcases h with h | h | h | h
  · exact (unbroken_of_validName hname 10 h).2 rfl
  · exact notMem_writeLabels hlabels h
  · exact absurd h (by decide)
  · exact (hv 10 h).2 rfl

section

variable (h : validMetricName name = true)
include h

theorem validMetricName_bucket :
    validMetricName (name ++ text "_bucket") = true := validName_append h (by decide)

theorem validMetricName_sum :
    validMetricName (name ++ text "_sum") = true := validName_append h (by decide)

theorem validMetricName_count :
    validMetricName (name ++ text "_count") = true := validName_append h (by decide)

end

/-- The label `le` is valid. -/
theorem validLabels_le (hlabels : ∀ l ∈ labels, validLabelName l.name = true) (v : Bytes) :
    ∀ l ∈ labels ++ (some (leLabel v)).toList, validLabelName l.name = true := by
  intro l hl
  rcases mem_append.mp hl with hl | hl
  · exact hlabels l hl
  · obtain rfl := mem_singleton.mp hl
    show validLabelName (text "le") = true
    decide

/-- What `writeHistogram` writes after the buckets. -/
def writeTotals (formatFloat : ℚ → Bytes) (name : Bytes) (labels : List Label) (sum : Float64)
    (cum : ℕ) : Bytes :=
  writeSample (name ++ text "_bucket") labels (some (leLabel (text "+Inf"))) (decimal cum) ++
    writeSample (name ++ text "_sum") labels none (formatValue formatFloat sum) ++
    writeSample (name ++ text "_count") labels none (decimal cum)

/-- **The samples of a histogram series are read as they were written.** -/
theorem reads_writeBuckets (hfmt : fmt.Lawful) (hname : validMetricName name = true)
    (hlabels : ∀ l ∈ labels, validLabelName l.name = true) (sum : Float64) (cum : ℕ)
    (hlength : counts.length = bounds.length + 1) :
    Reads fmt.read
      ((writeBuckets fmt.formatFloat name labels cum bounds counts).1 ++
        writeTotals fmt.formatFloat name labels sum
          (writeBuckets fmt.formatFloat name labels cum bounds counts).2)
      ((bucketSamples fmt.formatFloat name labels sum cum bounds counts).map .sample) := by
  have hplain : ∀ l ∈ labels ++ (none : Option Label).toList, validLabelName l.name = true := by
    simpa using hlabels
  induction bounds generalizing cum counts with
  | nil =>
    obtain ⟨c, rfl⟩ := length_eq_one_iff.mp hlength
    obtain ⟨hread, hsum⟩ := hfmt.read_formatValue sum
    have hinf := reads_writeSample (validMetricName_bucket hname)
      (validLabels_le hlabels (text "+Inf")) (unbroken_decimal (cum + c))
      (hfmt.read_decimal (cum + c))
    have hmid := reads_writeSample (validMetricName_sum hname) hplain hsum hread
    have hlast := reads_writeSample (validMetricName_count hname) hplain
      (unbroken_decimal (cum + c)) (hfmt.read_decimal (cum + c))
    have hall := (hinf.append hmid).append hlast
    simpa [writeBuckets, writeTotals, bucketSamples] using hall
  | cons b bounds ih =>
    obtain ⟨c, counts, rfl⟩ := exists_cons_of_length_eq_add_one hlength
    have hfirst := reads_writeSample (validMetricName_bucket hname)
      (validLabels_le hlabels (fmt.formatFloat b)) (unbroken_decimal (cum + c))
      (hfmt.read_decimal (cum + c))
    have hrest := ih (cum + c) (Nat.succ_injective hlength)
    have hall := hfirst.append hrest
    simpa [writeBuckets, bucketSamples] using hall

/-- **A series is read as it was written.** -/
theorem reads_writeSeries (hfmt : fmt.Lawful) (hname : validMetricName f.name = true)
    {series : List Series} (hlabels : ∀ s ∈ series, ExposedFor f.type s.labels)
    (hhistogram : f.type = .histogram → ∀ s ∈ series, ∃ h, s.histogram = some h ∧
      h.counts.length = h.bounds.length + 1 ∧ h.bounds.IsChain (· < ·)) :
    ∃ written, writeSeries fmt.formatFloat f series = .ok written ∧
      Reads fmt.read written ((series.flatMap (f.samplesOf fmt.formatFloat)).map .sample) := by
  induction series with
  | nil => exact ⟨[], rfl, .nil⟩
  | cons s rest ih =>
    obtain ⟨after, hafter, hreads⟩ := ih (fun s hs => hlabels s (mem_cons_of_mem _ hs))
      (fun ht s hs => hhistogram ht s (mem_cons_of_mem _ hs))
    have hvalid := (hlabels s (mem_cons_self ..)).valid
    rw [writeSeries, hafter, flatMap_cons, map_append, Family.samplesOf]
    by_cases htype : f.type = .histogram
    · obtain ⟨h, hh, hlength, hchain⟩ := hhistogram htype s (mem_cons_self ..)
      have hbuckets := reads_writeBuckets hfmt hname hvalid h.sum 0 hlength
      rw [if_neg (not_not.mpr htype), if_neg (not_not.mpr htype), writeHistogram, hh]
      dsimp only
      rw [if_neg (not_not.mpr hlength), if_neg (not_not.mpr hchain)]
      refine ⟨_, rfl, ?_⟩
      have hall := hbuckets.append hreads
      simpa [writeTotals] using hall
    · rw [if_pos htype, if_pos htype]
      obtain ⟨hread, hvalue⟩ := hfmt.read_formatValue s.value
      have hsample : Reads fmt.read
          (writeSample f.name s.labels none (formatValue fmt.formatFloat s.value)) _ :=
        reads_writeSample hname (by simpa using hvalid) hvalue hread
      refine ⟨_, rfl, ?_⟩
      have hall := hsample.append hreads
      simpa using hall

/-- The lines of an exposed family. -/
def ParsedFamily.lines (f : ParsedFamily) : List Line :=
  .type f.name f.type :: f.samples.map .sample

/-- A family with its series in the order in which they are written. -/
def Family.sorted (f : Family) : Family := { f with series := f.series.insertionSort SeriesLe }

theorem sameFamily_sorted (f : Family) : SameFamily f f.sorted :=
  ⟨rfl, rfl, (perm_insertionSort SeriesLe f.series).symm⟩

/-- **A family is read as it was written.** -/
theorem reads_writeFamily (hfmt : fmt.Lawful) (hf : Exposable f) :
    ∃ written, writeFamily fmt.formatFloat f = .ok written ∧
      Reads fmt.read written (f.sorted.exposed fmt.formatFloat).lines := by
  have hmem : ∀ s ∈ f.series.insertionSort SeriesLe, s ∈ f.series := fun s hs =>
    (perm_insertionSort SeriesLe f.series).mem_iff.mp hs
  obtain ⟨series, hseries, hreads⟩ := reads_writeSeries hfmt hf.name
    (fun s hs => hf.labels s (hmem s hs)) (fun ht s hs => hf.histogram ht s (hmem s hs))
  have htype : Reads fmt.read (typeLine f.name f.type ++ [10]) [.type f.name f.type] := by
    refine .single ?_ (parseLine_typeLine hf.name hf.type)
    intro h
    rw [typeLine, append_assoc, mem_append, mem_append, mem_cons] at h
    rcases h with h | h | h | h
    · exact absurd h (by decide)
    · exact (unbroken_of_validName hf.name 10 h).2 rfl
    · exact absurd h (by decide)
    · exact ((typeString_word f.type).2 10 h).2 rfl
  rw [writeFamily, if_neg hf.type, hseries]
  refine ⟨_, rfl, ?_⟩
  have hlines : (f.sorted.exposed fmt.formatFloat).lines = [.type f.name f.type] ++
      ((f.series.insertionSort SeriesLe).flatMap (f.samplesOf fmt.formatFloat)).map .sample := rfl
  rw [hlines]
  simpa [typeLine] using htype.append hreads

variable {fs : List Family}

/-- **Families are read as they were written.** -/
theorem reads_writeAll (hfmt : fmt.Lawful) (hfs : ∀ f ∈ fs, Exposable f) :
    ∃ written, writeAll fmt.formatFloat fs = .ok written ∧
      Reads fmt.read written (fs.flatMap fun f => (f.sorted.exposed fmt.formatFloat).lines) := by
  induction fs with
  | nil => exact ⟨[], rfl, .nil⟩
  | cons f fs ih =>
    obtain ⟨first, hfirst, hreads⟩ := reads_writeFamily hfmt (hfs f (mem_cons_self ..))
    obtain ⟨after, hafter, hrest⟩ := ih fun f' hf' => hfs f' (mem_cons_of_mem _ hf')
    rw [writeAll, hfirst, hafter]
    exact ⟨_, rfl, hreads.append hrest⟩

/-! ### Families of lines -/

theorem groupLines_samples {typ : MetricType} {samples : List Sample}
    (hsamples : ∀ s ∈ samples, s.name ∈ seriesNames name typ) (done : List Sample)
    (fams : List ParsedFamily) (rest : List Line) :
    groupLines (⟨name, typ, done⟩ :: fams) (samples.map .sample ++ rest) =
      groupLines (⟨name, typ, done ++ samples⟩ :: fams) rest := by
  induction samples generalizing done with
  | nil => simp
  | cons s samples ih =>
    rw [map_cons, cons_append, groupLines, addLine,
      if_pos (hsamples s (mem_cons_self ..)), Option.bind_some,
      ih fun s' hs' => hsamples s' (mem_cons_of_mem _ hs'), append_assoc]
    rfl

/-- **The lines of families are those families.** -/
theorem groupLines_families {fs : List ParsedFamily}
    (hsamples : ∀ f ∈ fs, ∀ s ∈ f.samples, s.name ∈ seriesNames f.name f.type)
    {fams : List ParsedFamily} (hnames : ((fs ++ fams).map ParsedFamily.name).Nodup) :
    groupLines fams (fs.flatMap ParsedFamily.lines) = some (fams.reverse ++ fs) := by
  induction fs generalizing fams with
  | nil => simp [groupLines]
  | cons f fs ih =>
    have hnew : ∀ fam ∈ fams, fam.name ≠ f.name := by
      intro fam hfam heq
      rw [cons_append, map_cons, nodup_cons] at hnames
      exact hnames.1 (mem_map.mpr ⟨fam, mem_append_right _ hfam, heq⟩)
    have hnames' : ((fs ++ f :: fams).map ParsedFamily.name).Nodup :=
      (List.Perm.nodup_iff (perm_middle.map _)).mpr hnames
    rw [flatMap_cons, ParsedFamily.lines, cons_append, groupLines, addLine,
      if_pos hnew, Option.bind_some, groupLines_samples (hsamples f (mem_cons_self ..)),
      nil_append, ih (fun f' hf' => hsamples f' (mem_cons_of_mem _ hf')) hnames']
    simp

/-- **Families with different names are read back from their text.** -/
theorem parseText_writeAll (hfmt : fmt.Lawful) (hfs : ∀ f ∈ fs, Exposable f)
    (hnames : (fs.map Family.name).Nodup) :
    ∃ written, writeAll fmt.formatFloat fs = .ok written ∧
      parseText fmt.read written = some (fs.map fun f => f.sorted.exposed fmt.formatFloat) := by
  obtain ⟨written, hwritten, hreads⟩ := reads_writeAll hfmt hfs
  refine ⟨written, hwritten, ?_⟩
  have hlines : (fs.flatMap fun f => (f.sorted.exposed fmt.formatFloat).lines) =
      (fs.map fun f => f.sorted.exposed fmt.formatFloat).flatMap ParsedFamily.lines :=
    (flatMap_map ..).symm
  rw [parseText_of_reads hreads, hlines]
  refine groupLines_families ?_ ?_
  · intro f hf s hs
    obtain ⟨f, -, rfl⟩ := mem_map.mp hf
    obtain ⟨series, -, hs⟩ := mem_flatMap.mp hs
    exact name_of_mem_samplesOf hs
  · rw [append_nil, map_map]
    exact hnames

/-! ### No two samples are the same -/

/-- Two samples with the same name and set of labels. -/
def Clash (x y : Sample) : Prop := x.name = y.name ∧ x.labels.toFinset = y.labels.toFinset

variable {as bs : List Label}

/-- Labels sorted by name are determined by their set. -/
theorem eq_of_toFinset_eq (has : as.Pairwise fun a b => a.name < b.name)
    (hbs : bs.Pairwise fun a b => a.name < b.name) (h : as.toFinset = bs.toFinset) : as = bs := by
  have hnodup : ∀ {ls : List Label}, ls.Pairwise (fun a b => a.name < b.name) → ls.Nodup := by
    intro ls hls
    refine hls.imp fun hlt heq => ?_
    rw [heq] at hlt
    exact List.lt_irrefl _ hlt
  refine List.Perm.eq_of_pairwise ?_ has hbs
    (perm_of_nodup_nodup_toFinset_eq (hnodup has) (hnodup hbs) h)
  rintro a b - - hab hba
  exact absurd hba (List.lt_asymm hab)

/-- Labels without `le` are determined by their set together with `le`. -/
theorem eq_of_toFinset_le_eq {v w : Bytes} (has : ExposedFor .histogram as)
    (hbs : ExposedFor .histogram bs)
    (h : (as ++ [leLabel v]).toFinset = (bs ++ [leLabel w]).toFinset) : as = bs ∧ v = w := by
  have hmem : ∀ l : Label, l ∈ as ∨ l = leLabel v ↔ l ∈ bs ∨ l = leLabel w := by
    intro l
    simpa [or_comm] using Finset.ext_iff.mp h l
  have hle : ∀ {ls : List Label}, ExposedFor .histogram ls → ∀ u, leLabel u ∉ ls :=
    fun hls u hu => hls.not_le rfl _ hu rfl
  have hvw : v = w := by
    rcases (hmem (leLabel v)).mp (.inr rfl) with hin | heq
    · exact absurd hin (hle hbs v)
    · exact congrArg Label.value heq
  subst hvw
  refine ⟨eq_of_toFinset_eq has.sorted hbs.sorted (Finset.ext fun l => ?_), rfl⟩
  rw [mem_toFinset, mem_toFinset]
  by_cases hl : l = leLabel v
  · rw [hl]
    exact iff_of_false (hle has v) (hle hbs v)
  · simpa [hl] using hmem l

theorem suffixes_ne (name : Bytes) :
    name ++ text "_bucket" ≠ name ++ text "_sum" ∧ name ++ text "_bucket" ≠ name ++ text "_count" ∧
      name ++ text "_sum" ≠ name ++ text "_count" := by
  simp only [ne_eq, append_cancel_left_eq]
  decide

/-- The samples of one histogram series differ. -/
theorem pairwise_bucketSamples (hfmt : fmt.Lawful) (hlabels : ExposedFor .histogram labels)
    (sum : Float64) (cum : ℕ) (hbounds : bounds.IsChain (· < ·)) (counts : List ℕ) :
    (bucketSamples fmt.formatFloat name labels sum cum bounds counts).Pairwise
      fun x y => ¬ Clash x y := by
  obtain ⟨hbs, hbc, hsc⟩ := suffixes_ne name
  -- a bucket differs from the sum and the count by its name, and from a bucket by `le`
  have hbucket : ∀ {v : Bytes} {value : Float64} {y : Sample},
      (y.name = name ++ text "_bucket" ∧ ∃ w, y.labels = labels ++ [leLabel w] ∧ w ≠ v) ∨
        ((y.name = name ++ text "_sum" ∨ y.name = name ++ text "_count") ∧ y.labels = labels) →
      ¬ Clash ⟨name ++ text "_bucket", labels ++ [leLabel v], value⟩ y := by
    rintro v value y (⟨-, w, hw, hne⟩ | ⟨hname, -⟩) ⟨hxy, hset⟩
    · dsimp only at hset
      rw [hw] at hset
      exact hne (eq_of_toFinset_le_eq hlabels hlabels hset).2.symm
    · dsimp only at hxy
      rcases hname with hname | hname
      · exact hbs (hxy.trans hname)
      · exact hbc (hxy.trans hname)
  fun_induction bucketSamples fmt.formatFloat name labels sum cum bounds counts with
  | case1 cum b bounds c counts ih =>
    refine pairwise_cons.mpr ⟨fun y hy => hbucket ?_, ih (isChain_of_isChain_cons hbounds)⟩
    rcases mem_bucketSamples hy with ⟨hname, w, hw, hval⟩ | hrest
    · refine .inl ⟨hname, w, hw, ?_⟩
      rcases hval with rfl | ⟨b', hb', rfl⟩
      · exact (hfmt.formatFloat_ne_inf b).symm
      · intro heq
        have hlt := rel_of_pairwise_cons (isChain_iff_pairwise.mp hbounds) hb'
        rw [hfmt.injective heq] at hlt
        exact lt_irrefl b hlt
    · exact .inr hrest
  | case2 =>
    refine pairwise_cons.mpr ⟨fun y hy => hbucket (.inr ?_), pairwise_pair.mpr ?_⟩
    · simp only [mem_cons, not_mem_nil, or_false] at hy
      rcases hy with rfl | rfl
      · exact ⟨.inl rfl, rfl⟩
      · exact ⟨.inr rfl, rfl⟩
    · exact fun hclash => hsc hclash.1

/-- Samples of two histogram series that clash are of the same labels. -/
theorem labels_of_clash_buckets {sum sum' : Float64} {cum cum' : ℕ} {bounds' : List ℚ}
    {counts' : List ℕ} {y : Sample} (has : ExposedFor .histogram as)
    (hbs : ExposedFor .histogram bs)
    (hx : x ∈ bucketSamples formatFloat name as sum cum bounds counts)
    (hy : y ∈ bucketSamples formatFloat name bs sum' cum' bounds' counts') (h : Clash x y) :
    as = bs := by
  obtain ⟨hbs', hbc, hsc⟩ := suffixes_ne name
  obtain ⟨hname, hset⟩ := h
  rcases mem_bucketSamples hx with ⟨hxn, v, hxl, -⟩ | ⟨hxn, hxl⟩ <;>
    rcases mem_bucketSamples hy with ⟨hyn, w, hyl, -⟩ | ⟨hyn, hyl⟩
  · rw [hxl, hyl] at hset
    exact (eq_of_toFinset_le_eq has hbs hset).1
  · rw [hxn] at hname
    rcases hyn with hyn | hyn
    · exact absurd (hname.trans hyn) hbs'
    · exact absurd (hname.trans hyn) hbc
  · rw [hyn] at hname
    rcases hxn with hxn | hxn
    · exact absurd (hname.symm.trans hxn) hbs'
    · exact absurd (hname.symm.trans hxn) hbc
  · rw [hxl, hyl] at hset
    exact eq_of_toFinset_eq has.sorted hbs.sorted hset

/-- **The samples of one family differ.** -/
theorem pairwise_exposed (hfmt : fmt.Lawful) (hf : Exposable f)
    (hdistinct : (f.series.map Series.labels).Nodup) :
    (f.exposed fmt.formatFloat).samples.Pairwise fun x y => ¬ Clash x y := by
  rw [Family.exposed, pairwise_flatMap]
  constructor
  · intro s hs
    rw [Family.samplesOf]
    split
    · exact pairwise_singleton _ _
    · rename_i htype
      have htype := not_not.mp htype
      obtain ⟨h, hh, -, hchain⟩ := hf.histogram htype s hs
      rw [hh]
      exact pairwise_bucketSamples hfmt (htype ▸ hf.labels s hs) h.sum 0 hchain h.counts
  · refine (pairwise_map.mp hdistinct).imp_of_mem ?_
    intro s t hs ht hne x hx y hy hclash
    rw [Family.samplesOf] at hx hy
    split at hx
    · rename_i htype
      rw [if_pos htype] at hy
      rw [mem_singleton.mp hx, mem_singleton.mp hy] at hclash
      exact hne (eq_of_toFinset_eq (hf.labels s hs).sorted (hf.labels t ht).sorted hclash.2)
    · rename_i htype
      rw [if_neg htype] at hy
      have htype := not_not.mp htype
      obtain ⟨h, hh, -⟩ := hf.histogram htype s hs
      obtain ⟨h', hh', -⟩ := hf.histogram htype t ht
      rw [hh] at hx
      rw [hh'] at hy
      exact hne (labels_of_clash_buckets (htype ▸ hf.labels s hs) (htype ▸ hf.labels t ht) hx hy
        hclash)

/-- **The samples of families with different exposed names differ.** -/
theorem pairwise_samples (hfmt : fmt.Lawful) (hfs : ∀ f ∈ fs, Exposable f)
    (hlabels : ∀ f ∈ fs, (f.series.map Series.labels).Nodup)
    (hnames : fs.Pairwise fun f g =>
      (exposedNames f.name f.type).Disjoint (exposedNames g.name g.type)) :
    (fs.flatMap fun f => (f.exposed fmt.formatFloat).samples).Pairwise fun x y => ¬ Clash x y := by
  rw [pairwise_flatMap]
  refine ⟨fun f hf => pairwise_exposed hfmt (hfs f hf) (hlabels f hf), hnames.imp ?_⟩
  intro f g hdisjoint x hx y hy hclash
  obtain ⟨s, -, hx⟩ := mem_flatMap.mp hx
  obtain ⟨t, -, hy⟩ := mem_flatMap.mp hy
  refine hdisjoint (mem_exposedNames_of_mem_seriesNames (name_of_mem_samplesOf hx)) ?_
  rw [hclash.1]
  exact mem_exposedNames_of_mem_seriesNames (name_of_mem_samplesOf hy)

end ConvoyStats.Prometheus
