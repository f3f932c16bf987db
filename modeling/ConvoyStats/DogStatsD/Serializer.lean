import ConvoyStats.Library.Splitting
import ConvoyStats.Models.Text

/-!
# Writing DogStatsD

`serializers/dogstatsd.go` and `serializers/dogstatsd_event.go`.  The buffers come from a pool and
are copied before they go back, so a line is what was written to an empty buffer.  `%g` and
`Value.Emit` are given.

Tags are written one after the other, with a mark before the first and a comma before the others;
`writeTags_eq` says what the section is as a whole.
-/

namespace ConvoyStats.DogStatsD

open List Models

/-! ### Metrics -/

/-- `DogStatsDSerializer`. -/
structure DogStatsDSerializer (Other : Type) where
  globalTags : List Bytes
  distributions : Bool
  distributionPrefixes : List Bytes
  /-- The keys of `filters`. -/
  filters : List Bytes
  /-- `%g`. -/
  formatG : Float64 → Bytes
  /-- `Value.Emit`. -/
  emit : Value Other → Bytes

/-- `globalTagKey`. -/
def globalTagKey (tag : Bytes) : Bytes := ((tag.cut [58]).map Prod.fst).getD tag

/-- The separator before a tag and the tag; the flag is `wrote`. -/
def writeTag : Bytes × Bool → Bytes → Bytes × Bool
  | (buf, wrote), tag => (buf ++ (if wrote then [44] else text "|#") ++ tag, true)

/-- A `|`-section with these tags, and none where there are no tags. -/
def tagSection (tags : List Bytes) : List Bytes :=
  if tags = [] then [] else [35 :: [44].intercalate tags]

variable {Other : Type}

namespace DogStatsDSerializer

variable (s : DogStatsDSerializer Other)

/-- `isDistribution`. -/
def isDistribution (name : Bytes) : Bool :=
  s.distributions || s.distributionPrefixes.any fun p => p.isPrefixOf name

/-- `metricType`. -/
def metricType (m : TextMetric Other) : Bytes :=
  match m.type with
  | .counter => text "c"
  | .gauge => text "g"
  | .histogram => if s.isDistribution m.name then text "d" else text "h"
  | .unknown => text "c"

/-- `filtered`. -/
def filtered (key : Bytes) : Bool := s.filters.contains key

/-- The text of a tag. -/
def tagText (attr : KeyValue Other) : Bytes := attr.key ++ 58 :: s.emit attr.value

/-- The tags that `writeTags` writes, in its order. -/
def tagTexts (attrs : List (KeyValue Other)) : List Bytes :=
  (s.globalTags.filter fun tag => !s.filtered (globalTagKey tag)) ++
    (attrs.filter fun attr => !s.filtered attr.key).map s.tagText

/-- `writeTags`. -/
def writeTags (buf : Bytes) (attrs : List (KeyValue Other)) : Bytes :=
  ((s.tagTexts attrs).foldl writeTag (buf, false)).1

/-- The line of a metric. -/
def line (m : TextMetric Other) : Bytes :=
  s.writeTags (m.name ++ 58 :: s.formatG m.value ++ 124 :: s.metricType m) m.attributes

/-- `Serialize`. -/
def serialize (metrics : List (TextMetric Other)) : List Bytes := metrics.map s.line

end DogStatsDSerializer

/-! ### Events -/

/-- `time.Time`: seconds since the zero time, as the `int64` they are, and nanoseconds. -/
structure Instant where
  sec : Int64
  nsec : ℕ
  deriving DecidableEq

/-- The seconds from the zero time to the epoch. -/
def unixToInternal : Int64 := 62135596800

/-- `IsZero`. -/
def Instant.isZero (t : Instant) : Bool := t.sec = 0 && t.nsec = 0

/-- `Unix`. -/
def Instant.unix (t : Instant) : Int64 := t.sec - unixToInternal

/-- `time.Unix(sec, 0)`. -/
def unixTime (sec : Int64) : Instant := ⟨sec + unixToInternal, 0⟩

/-- `DatadogEvent`. -/
structure DatadogEvent (Other : Type) where
  title : Bytes
  text : Bytes
  timestamp : Instant
  host : Bytes
  priority : Bytes
  alertType : Bytes
  aggregationKey : Bytes
  sourceTypeName : Bytes
  tags : List (KeyValue Other)

/-- `eventNewlineEscaper`. -/
def escapeNewline (c : UInt8) : Bytes := if c = 10 then [92, 110] else [c]

def escapeEvent (s : Bytes) : Bytes := s.flatMap escapeNewline

/-- `writeEventField`. -/
def writeEventField (buf pre value : Bytes) : Bytes :=
  if value = [] then buf else buf ++ pre ++ value

/-- `SerializeEvent`. -/
def DogStatsDSerializer.serializeEvent (s : DogStatsDSerializer Other) (e : DatadogEvent Other) :
    Bytes :=
  let title := escapeEvent e.title
  let body := escapeEvent e.text
  let buf := text "_e\x7b" ++ itoa title.length ++ 44 :: itoa body.length ++ text "\x7d:" ++
    title ++ 124 :: body
  let buf := if e.timestamp.isZero then buf else buf ++ text "|d:" ++ itoa e.timestamp.unix.toInt
  let buf := writeEventField buf (text "|h:") e.host
  let buf := writeEventField buf (text "|p:") e.priority
  let buf := writeEventField buf (text "|t:") e.alertType
  let buf := writeEventField buf (text "|k:") e.aggregationKey
  let buf := writeEventField buf (text "|s:") e.sourceTypeName
  s.writeTags buf e.tags

/-! ### The sections of a line -/

/-- Sections, each with a bar before it. -/
def barred (sections : List Bytes) : Bytes := sections.flatMap (124 :: ·)

theorem not_mem_barred {c : UInt8} {sections : List Bytes} (hbar : c ≠ 124)
    (h : ∀ sec ∈ sections, c ∉ sec) : c ∉ barred sections := by
  intro hmem
  obtain ⟨sec, hsec, hmem⟩ := mem_flatMap.mp hmem
  exact (mem_cons.mp hmem).elim hbar (h sec hsec)

theorem foldl_writeTag (buf : Bytes) (tags : List Bytes) :
    (tags.foldl writeTag (buf, true)).1 = buf ++ tags.flatMap (44 :: ·) := by
  induction tags generalizing buf with
  | nil => exact (append_nil buf).symm
  | cons tag tags ih =>
    rw [foldl_cons, writeTag, ih, flatMap_cons]
    simp

/-- **The tags are one section.** -/
theorem DogStatsDSerializer.writeTags_eq (s : DogStatsDSerializer Other) (buf : Bytes)
    (attrs : List (KeyValue Other)) :
    s.writeTags buf attrs = buf ++ barred (tagSection (s.tagTexts attrs)) := by
  rw [writeTags]
  cases s.tagTexts attrs with
  | nil => exact (append_nil buf).symm
  | cons tag tags =>
    rw [foldl_cons, writeTag, foldl_writeTag, tagSection, if_neg (cons_ne_nil _ _),
      intercalate_singleton_cons]
    show buf ++ [124, 35] ++ tag ++ _ = buf ++ (124 :: (35 :: (tag ++ _)) ++ [])
    simp

end ConvoyStats.DogStatsD
