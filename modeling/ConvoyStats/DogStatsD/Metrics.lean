import ConvoyStats.DogStatsD.Packets
import ConvoyStats.DogStatsD.Parser

/-!
# Metrics over the wire

A batch of metrics is serialized, packed into datagrams and read back.

* `collect_packetize`: packing is invisible.  What is read from the packets is what is read
  from the lines that fit, one after the other.
* `parse_line`: a line is read as the metric it was written for.

The name ends at the first colon and the sections at the bars, so neither may contain its own
delimiter.  A carriage return is harmful only at the end of a line, which is in the type or in the
last tag.
-/

namespace ConvoyStats.DogStatsD

open List Models Outcome

variable {Other : Type} {parseFloat : Bytes → Option Float64}

/-! ### Datagrams -/

theorem dispatchDatagram_joinLines {lines : List Bytes} (hne : lines ≠ [])
    (hlines : ∀ line ∈ lines, 10 ∉ line) :
    dispatchDatagram parseFloat (joinLines lines) = collect (dispatchLine parseFloat) lines := by
  rw [dispatchDatagram_eq, joinLines, splitOn_intercalate 10 hlines hne]

/-- What is read from groups of lines is what is read from the lines. -/
theorem collect_joinLines {groups : List (List Bytes)} (hne : ∀ g ∈ groups, g ≠ [])
    (hlines : ∀ line ∈ groups.flatten, 10 ∉ line) :
    collect (dispatchDatagram parseFloat) (groups.map joinLines) =
      collect (dispatchLine parseFloat) groups.flatten := by
  induction groups with
  | nil => rfl
  | cons g groups ih =>
    rw [flatten_cons, forall_mem_append] at hlines
    rw [map_cons, collect, flatten_cons, collect_append,
      dispatchDatagram_joinLines (hne g (mem_cons_self ..)) hlines.1,
      ih (fun g hg => hne g (mem_cons_of_mem _ hg)) hlines.2]

/-- **Packing is invisible.** -/
theorem collect_packetize {lines : List Bytes} (hlines : ∀ line ∈ lines, 10 ∉ line) (size : ℤ) :
    collect (dispatchDatagram parseFloat) (packetize lines size).1 =
      collect (dispatchLine parseFloat) (packed lines size) := by
  obtain ⟨groups, hpackets, hpacked, hne⟩ := packetize_eq lines size
  rw [hpackets, ← hpacked]
  refine collect_joinLines hne fun line hline => hlines line ?_
  rw [hpacked] at hline
  exact mem_of_mem_filter hline

/-! ### Tags -/

/-- The bytes that no tag may contain: comma, bar, line feed and carriage return. -/
def tagDelimiters : List UInt8 := [44, 124, 10, 13]

/-- A tag that can be sent. -/
structure CleanTag (s : DogStatsDSerializer Other) (attr : KeyValue Other) : Prop where
  key : Cardinality.validTagKey attr.key = true
  value : ∀ c ∈ tagDelimiters, c ∉ s.emit attr.value

theorem not_mem_validTagKey {key : Bytes} (h : Cardinality.validTagKey key = true) :
    ∀ c ∈ tagDelimiters, c ∉ key := by
  intro c hc hmem
  have hchar := Cardinality.chars_of_validTagKey h hmem
  simp only [tagDelimiters, mem_cons, not_mem_nil, or_false] at hc
  rcases hc with rfl | rfl | rfl | rfl <;> revert hchar <;> decide

variable {s : DogStatsDSerializer Other}

theorem CleanTag.not_mem {attr : KeyValue Other} (h : CleanTag s attr) :
    ∀ c ∈ tagDelimiters, c ∉ s.tagText attr := by
  intro c hc hmem
  rcases mem_append.mp hmem with hmem | hmem
  · exact not_mem_validTagKey h.key c hc hmem
  · rcases mem_cons.mp hmem with rfl | hmem
    · revert hc
      decide
    · exact h.value c hc hmem

/-- No global tags and no filters. -/
structure DogStatsDSerializer.Plain (s : DogStatsDSerializer Other) : Prop where
  globalTags : s.globalTags = []
  filters : s.filters = []

theorem DogStatsDSerializer.Plain.tagTexts (h : s.Plain) (attrs : List (KeyValue Other)) :
    s.tagTexts attrs = attrs.map s.tagText := by
  have hfiltered : ∀ key, s.filtered key = false := by
    intro key
    rw [DogStatsDSerializer.filtered, h.filters]
    rfl
  rw [DogStatsDSerializer.tagTexts, h.globalTags, filter_nil, nil_append,
    filter_eq_self.mpr]
  intro attr _
  rw [hfiltered]
  rfl

variable {c : UInt8}

/-- The section of tags contains no bar, line feed or carriage return that is in no tag. -/
theorem not_mem_tagSection {tags : List Bytes} (hc : c ∈ [124, 10, 13])
    (h : ∀ tag ∈ tags, c ∉ tag) :
    ∀ sec ∈ tagSection tags, c ∉ sec := by
  intro sec hsec hmem
  rw [tagSection] at hsec
  split_ifs at hsec
  · cases hsec
  · obtain rfl := mem_singleton.mp hsec
    rcases mem_cons.mp hmem with rfl | hmem
    · revert hc
      decide
    · rcases mem_intercalate_singleton hmem with rfl | ⟨tag, htag, hmem⟩
      · revert hc
        decide
      · exact h tag htag hmem

theorem CleanTag.not_mem_of {attrs : List (KeyValue Other)} (h : ∀ attr ∈ attrs, CleanTag s attr)
    (hc : c ∈ [124, 10, 13]) : ∀ tag ∈ attrs.map s.tagText, c ∉ tag := by
  rw [forall_mem_map]
  exact fun attr hattr => (h attr hattr).not_mem c (mem_cons_of_mem _ hc)

/-- **Tags are read back**, in their order. -/
theorem splitTags_intercalate {tags : List Bytes} (hcomma : ∀ tag ∈ tags, 44 ∉ tag)
    (hfilled : ∀ tag ∈ tags, tag ≠ []) (hne : tags ≠ []) :
    splitTags ([44].intercalate tags) = tags := by
  rw [splitTags, splitOn_intercalate 44 hcomma hne]
  exact filter_eq_self.mpr fun tag htag => decide_eq_true (hfilled tag htag)

theorem splitTags_tagTexts {attrs : List (KeyValue Other)} (h : ∀ attr ∈ attrs, CleanTag s attr)
    (hne : attrs.map s.tagText ≠ []) :
    splitTags ([44].intercalate (attrs.map s.tagText)) = attrs.map s.tagText := by
  refine splitTags_intercalate ?_ ?_ hne
  · rw [forall_mem_map]
    exact fun attr hattr => (h attr hattr).not_mem 44 (mem_cons_self ..)
  · rw [forall_mem_map]
    exact fun attr _ => append_ne_nil_of_right_ne_nil _ (cons_ne_nil _ _)

/-! ### Lines -/

/-- A metric that can be sent. -/
structure Sendable (s : DogStatsDSerializer Other) (m : TextMetric Other) : Prop where
  name_ne : m.name ≠ []
  colon : 58 ∉ m.name
  newline : 10 ∉ m.name
  event : ¬ text "_e\x7b" <+: m.name
  tags : ∀ attr ∈ m.attributes, CleanTag s attr
  finite : ∃ q, m.value = .finite q

/-- `%g` of this value is read back, and contains no delimiter of the sections. -/
structure ReadBack (s : DogStatsDSerializer Other) (parseFloat : Bytes → Option Float64)
    (v : Float64) : Prop where
  read : parseFloat (s.formatG v) = some v
  bar : 124 ∉ s.formatG v
  newline : 10 ∉ s.formatG v

/-- The metric is received as it was sent. -/
structure Carries (s : DogStatsDSerializer Other) (m : TextMetric Other) (d : DogStatsDMetric) :
    Prop where
  name : d.name = m.name
  value : d.value = m.value
  type : d.type.code = s.metricType m
  tags : d.tags = m.attributes.map fun attr => attr.key ++ 58 :: s.emit attr.value
  sampleRate : d.sampleRate = .finite 1

/-- The type that `metricType` is the code of. -/
def wireType (s : DogStatsDSerializer Other) (m : TextMetric Other) : DogStatsDMetricType :=
  match m.type with
  | .counter => .counter
  | .gauge => .gauge
  | .histogram => if s.isDistribution m.name then .distribution else .histogram
  | .unknown => .counter

/-- What the metric is received as. -/
def received (s : DogStatsDSerializer Other) (m : TextMetric Other) : DogStatsDMetric :=
  ⟨m.name, m.value, wireType s m, m.attributes.map s.tagText, .finite 1⟩

theorem ofCode_code (typ : DogStatsDMetricType) :
    DogStatsDMetricType.ofCode typ.code = some typ := by
  cases typ <;> rfl

theorem code_wireType (s : DogStatsDSerializer Other) (m : TextMetric Other) :
    (wireType s m).code = s.metricType m := by
  rw [wireType, DogStatsDSerializer.metricType]
  cases m.type with
  | histogram =>
    dsimp only
    split_ifs <;> rfl
  | _ => rfl

theorem carries_received (s : DogStatsDSerializer Other) (m : TextMetric Other) :
    Carries s m (received s m) :=
  ⟨rfl, rfl, code_wireType s m, rfl, rfl⟩

/-- The sections after the value. -/
def sectionsOf (s : DogStatsDSerializer Other) (m : TextMetric Other) : List Bytes :=
  (wireType s m).code :: tagSection (m.attributes.map s.tagText)

theorem line_eq (hs : s.Plain) (m : TextMetric Other) :
    s.line m = m.name ++ 58 :: (s.formatG m.value ++ barred (sectionsOf s m)) := by
  rw [DogStatsDSerializer.line, s.writeTags_eq, hs.tagTexts, ← code_wireType, sectionsOf]
  simp [barred]

theorem not_mem_code {typ : DogStatsDMetricType} (hc : c ∈ [124, 10, 13]) : c ∉ typ.code := by
  simp only [mem_cons, not_mem_nil, or_false] at hc
  cases typ <;> rcases hc with rfl | rfl | rfl <;> decide

variable {m : TextMetric Other}

/-- No section contains a bar, a line feed or a carriage return. -/
theorem not_mem_sectionsOf (h : Sendable s m) (hc : c ∈ [124, 10, 13]) :
    ∀ sec ∈ sectionsOf s m, c ∉ sec := by
  exact forall_mem_cons.mpr
    ⟨not_mem_code hc, not_mem_tagSection hc (CleanTag.not_mem_of h.tags hc)⟩

theorem metricSection_tags (d : DogStatsDMetric) (tags : Bytes) :
    metricSection parseFloat d (35 :: tags) = .ok { d with tags := splitTags tags } := by
  have hslice : (35 :: tags).sliceFrom 1 = .ok tags := sliceFrom_append [35] tags
  have hrate : ¬ (text "@").isPrefixOf (35 :: tags) = true := Bool.false_ne_true
  have htags : (text "#").isPrefixOf (35 :: tags) = true := rfl
  rw [metricSection, if_neg hrate, if_pos htags, hslice]
  rfl

/-- The tags are the only section after the type. -/
theorem foldlM_tagSection (h : Sendable s m) :
    (tagSection (m.attributes.map s.tagText)).foldlM (metricSection parseFloat)
      ⟨m.name, m.value, wireType s m, [], .finite 1⟩ = .ok (received s m) := by
  rw [tagSection, received]
  split_ifs with hnil
  · rw [hnil]
    rfl
  · rw [foldlM_cons, metricSection_tags, splitTags_tagTexts h.tags hnil]
    rfl

/-- **What a line is read as**: the name, the value and the type, and then one section after the
other. -/
theorem parse_sections {name value : Bytes} {v : Float64} (typ : DogStatsDMetricType)
    {secs : List Bytes} (hname : name ≠ []) (hcolon : 58 ∉ name) (hbar : 124 ∉ value)
    (hsecs : ∀ sec ∈ secs, 124 ∉ sec) (hread : parseFloat value = some v) (hnan : v ≠ .nan) :
    parseDogStatsDMetric parseFloat (name ++ 58 :: (value ++ barred (typ.code :: secs))) =
      secs.foldlM (metricSection parseFloat) ⟨name, v, typ, [], .finite 1⟩ := by
  have hcut : (name ++ 58 :: (value ++ barred (typ.code :: secs))).cut [58] =
      some (name, value ++ barred (typ.code :: secs)) := cut_append [] _ hcolon
  have hsplit : (value ++ barred (typ.code :: secs)).splitOn 124 = value :: typ.code :: secs :=
    splitOn_append_flatMap hbar (forall_mem_cons.mpr ⟨not_mem_code (by decide), hsecs⟩)
  have htail : (value :: typ.code :: secs).sliceFrom 2 = .ok secs :=
    sliceFrom_append [value, typ.code] _
  have hvalue : (value :: typ.code :: secs).index 0 = .ok value := rfl
  have htype : (value :: typ.code :: secs).index 1 = .ok typ.code := rfl
  have htwo : 2 ≤ (value :: typ.code :: secs).length := Nat.le_add_left 2 _
  simp only [parseDogStatsDMetric, hcut, orReject_some, ok_bind, require_of hname, hsplit,
    require_of htwo, hvalue, hread, require_of hnan, htype, ofCode_code, htail]

/-- **A line is read as the metric it was written for.** -/
theorem parse_line (hs : s.Plain) (h : Sendable s m) (hread : ReadBack s parseFloat m.value) :
    parseDogStatsDMetric parseFloat (s.line m) = .ok (received s m) := by
  have hnan : m.value ≠ .nan := by
    obtain ⟨q, hq⟩ := h.finite
    rw [hq]
    exact nofun
  have hsecs := not_mem_tagSection (c := 124) (by decide) (CleanTag.not_mem_of h.tags (by decide))
  rw [line_eq hs, sectionsOf,
    parse_sections (wireType s m) h.name_ne h.colon hread.bar hsecs hread.read hnan]
  exact foldlM_tagSection h

theorem line_ne_nil (hs : s.Plain) (h : Sendable s m) : s.line m ≠ [] := by
  rw [line_eq hs]
  exact append_ne_nil_of_left_ne_nil h.name_ne _

/-- The line of a metric makes one call of the handler. -/
theorem dispatchLine_line (hs : s.Plain) (h : Sendable s m)
    (hread : ReadBack s parseFloat m.value) :
    dispatchLine parseFloat (s.line m) = .ok [.metric (received s m)] := by
  have htrim : (s.line m).trimSuffix [13] = s.line m := by
    rw [line_eq hs, ← cons_append, ← append_assoc]
    exact trimSuffix_append (cons_ne_nil _ _)
      (not_mem_barred (by decide) (not_mem_sectionsOf h (by decide)))
  have hevent : ¬ (text "_e\x7b").isPrefixOf (s.line m) = true := by
    intro hopen
    have hpre := isPrefixOf_iff_prefix.mp hopen
    rw [line_eq hs] at hpre
    exact h.event (isPrefix_of_append_cons (by decide) hpre)
  rw [dispatchLine, htrim, if_neg (line_ne_nil hs h), if_neg hevent, parse_line hs h hread]
  rfl

theorem not_mem_line (hs : s.Plain) (h : Sendable s m) (hread : ReadBack s parseFloat m.value) :
    10 ∉ s.line m := by
  rw [line_eq hs]
  intro hmem
  rcases mem_append.mp hmem with hmem | hmem
  · exact h.newline hmem
  rcases mem_cons.mp hmem with hcolon | hmem
  · revert hcolon
    decide
  rcases mem_append.mp hmem with hmem | hmem
  · exact hread.newline hmem
  · exact not_mem_barred (by decide) (not_mem_sectionsOf h (by decide)) hmem

/-! ### Batches -/

/-- **Metrics survive the wire.**  What the handler is called with is the metrics whose lines fit,
in their order. -/
theorem metrics_survive_the_wire (s : DogStatsDSerializer Other) (hs : s.Plain)
    (parseFloat : Bytes → Option Float64) (batch : List (TextMetric Other))
    (hbatch : ∀ m ∈ batch, Sendable s m) (hread : ∀ m ∈ batch, ReadBack s parseFloat m.value)
    (size : ℤ) :
    ∃ ds : List DogStatsDMetric,
      collect (dispatchDatagram parseFloat) (packetize (s.serialize batch) size).1 =
        .ok (ds.map .metric) ∧
      Forall₂ (Carries s) (batch.filter fun m => ((s.line m).length : ℤ) ≤ size) ds := by
  have hpacked : packed (s.serialize batch) size =
      (batch.filter fun m => ((s.line m).length : ℤ) ≤ size).map s.line := by
    rw [packed, DogStatsDSerializer.serialize, filter_map]
    refine congrArg _ (filter_congr fun m hm => ?_)
    exact decide_eq_decide.mpr (and_iff_right (line_ne_nil hs (hbatch m hm)))
  refine ⟨(batch.filter fun m => ((s.line m).length : ℤ) ≤ size).map (received s), ?_, ?_⟩
  · rw [collect_packetize, hpacked, collect_map_ok (g := fun m => [.metric (received s m)])]
    · rw [← map_eq_flatMap, map_map]
      rfl
    · intro m hm
      have hm := mem_of_mem_filter hm
      exact dispatchLine_line hs (hbatch m hm) (hread m hm)
    · rw [DogStatsDSerializer.serialize, forall_mem_map]
      exact fun m hm => not_mem_line hs (hbatch m hm) (hread m hm)
  · rw [forall₂_map_right_iff, forall₂_same]
    exact fun m _ => carries_received s m

/-- `%g` for whole numbers. -/
def formatWhole : Float64 → Bytes
  | .finite q => itoa q.num
  | _ => text "NaN"

/-- `ParseFloat` for whole numbers. -/
def parseWhole (s : Bytes) : Option Float64 := (parseInt s).map fun n => .finite n

/-- A serializer without global tags and filters. -/
def plainSerializer : DogStatsDSerializer Empty where
  globalTags := []
  distributions := false
  distributionPrefixes := [text "http."]
  filters := []
  formatG := formatWhole
  emit
    | .string value => value
    | .other value => value.elim

/-- A distribution with a tag, a gauge, and a name that is too long for 30 bytes. -/
def threeMetrics : List (TextMetric Empty) :=
  [⟨text "http.wait", .histogram, .finite 12, [⟨text "env", .string (text "a b:c")⟩], 0⟩,
    ⟨text "up|x", .gauge, .finite (-3), [], 0⟩,
    ⟨text "a.very.long.name.of.a.counter", .counter, .finite 1, [], 0⟩]

theorem threeMetrics_sendable : ∀ m ∈ threeMetrics, Sendable plainSerializer m := by
  have hclean : CleanTag plainSerializer ⟨text "env", .string (text "a b:c")⟩ := by
    refine ⟨rfl, ?_⟩
    simp only [tagDelimiters, forall_mem_cons]
    exact ⟨by decide, by decide, by decide, by decide, nofun⟩
  simp only [threeMetrics, forall_mem_cons]
  refine ⟨?_, ?_, ?_, nofun⟩
  · exact ⟨by decide, by decide, by decide, by decide, forall_mem_singleton.mpr hclean, _, rfl⟩
  · exact ⟨by decide, by decide, by decide, by decide, nofun, _, rfl⟩
  · exact ⟨by decide, by decide, by decide, by decide, nofun, _, rfl⟩

theorem threeMetrics_readBack :
    ∀ m ∈ threeMetrics, ReadBack plainSerializer parseWhole m.value := by
  simp only [threeMetrics, forall_mem_cons]
  refine ⟨?_, ?_, ?_, nofun⟩ <;> exact ⟨by decide +kernel, by decide +kernel, by decide +kernel⟩

/-- In packets of 30 bytes the first two arrive, each in its own packet. -/
theorem metrics_survive_the_wire_two :
    (packetize (plainSerializer.serialize threeMetrics) 30).1 =
        [text "http.wait:12|d|#env:a b:c", text "up|x:-3|g"] ∧
      ∃ ds : List DogStatsDMetric,
        collect (dispatchDatagram parseWhole)
            (packetize (plainSerializer.serialize threeMetrics) 30).1 = .ok (ds.map .metric) ∧
        Forall₂ (Carries plainSerializer) (threeMetrics.take 2) ds := by
  refine ⟨by decide +kernel, ?_⟩
  exact metrics_survive_the_wire plainSerializer ⟨rfl, rfl⟩ parseWhole threeMetrics
    threeMetrics_sendable threeMetrics_readBack 30

end ConvoyStats.DogStatsD
