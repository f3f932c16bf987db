import Mathlib.Data.List.TakeWhile
import ConvoyStats.Prometheus.Registry
import ConvoyStats.Prometheus.Write

/-!
# Reading the text exposition

A reference parser of the text format, version 0.0.4, which the repository does not have: lines
end in a line feed, tokens are separated by blanks and tabs, a backslash escapes itself, a
quote and a line feed (as `n`) in label values, a `# TYPE` line opens a family and the samples
after it are its own.  `Reads` says that a text is a sequence of whole lines and what they
stand for; the lines that `writeSample` and `writeFamily` write are read as what they were
written for.
-/

namespace ConvoyStats.Prometheus

open List Models

/-! ### The parser -/

/-- A sample of the text. -/
structure Sample where
  name : Bytes
  labels : List Label
  value : Float64
  deriving DecidableEq

/-- A family of the text. -/
structure ParsedFamily where
  name : Bytes
  type : MetricType
  samples : List Sample
  deriving DecidableEq

/-- A line that is neither blank nor a comment. -/
inductive Line
  | type (name : Bytes) (type : MetricType)
  | sample (s : Sample)
  deriving DecidableEq

def isBlank (c : UInt8) : Bool := c = 32 || c = 9

def skipBlanks (input : Bytes) : Bytes := input.dropWhile isBlank

/-- The rest after the byte `c`, which must come first. -/
def expect (c : UInt8) : Bytes → Option Bytes
  | [] => none
  | d :: rest => if d = c then some rest else none

/-- What a backslash and this byte stand for. -/
def unescapeByte (c : UInt8) : Option UInt8 :=
  if c = 92 then some 92 else if c = 34 then some 34 else if c = 110 then some 10 else none

/-- A label value, up to and with the quote that ends it; `escaped` tells that a backslash has
just been read. -/
def parseQuoted : (escaped : Bool) → Bytes → Option (Bytes × Bytes)
  | _, [] => none
  | true, c :: rest =>
    (unescapeByte c).bind fun d => (parseQuoted false rest).map fun p => (d :: p.1, p.2)
  | false, c :: rest =>
    if c = 34 then some ([], rest)
    else if c = 92 then parseQuoted true rest
    else if c = 10 then none
    else (parseQuoted false rest).map fun p => (c :: p.1, p.2)

/-- A label. -/
def parseLabel (input : Bytes) : Option (Label × Bytes) :=
  let name := input.takeWhile (isNameChar false)
  if validLabelName name then
    (expect 61 (skipBlanks (input.dropWhile (isNameChar false)))).bind fun rest =>
      (expect 34 (skipBlanks rest)).bind fun rest =>
        (parseQuoted false rest).map fun p => (⟨name, p.1⟩, p.2)
  else none

/-- The labels after an opening brace, up to and with the closing one; a comma may stand
before it.  Every round reads a label, so the length of the input is enough fuel. -/
def parseLabels : (fuel : ℕ) → Bytes → Option (List Label × Bytes)
  | 0, _ => none
  | fuel + 1, input =>
    match expect 125 (skipBlanks input) with
    | some rest => some ([], rest)
    | none =>
      (parseLabel (skipBlanks input)).bind fun (label, rest) =>
        match expect 44 (skipBlanks rest) with
        | some rest => (parseLabels fuel rest).map fun p => (label :: p.1, p.2)
        | none => (expect 125 (skipBlanks rest)).map fun rest => ([label], rest)

/-- The words of a line. -/
def tokens : (current : Bytes) → Bytes → List Bytes
  | [], [] => []
  | c :: current, [] => [c :: current]
  | current, c :: rest =>
    if isBlank c then
      if current = [] then tokens [] rest else current :: tokens [] rest
    else tokens (current ++ [c]) rest

/-- A timestamp: an integer. -/
def isTimestamp : Bytes → Bool
  | [] => false
  | c :: ds =>
    if c = 43 || c = 45 then ds ≠ [] && ds.all Cardinality.isTagDigit
    else (c :: ds).all Cardinality.isTagDigit

/-- What may follow a value: nothing, or a timestamp. -/
def endsSample (rest : Bytes) : Bool :=
  match tokens [] rest with
  | [] => true
  | [timestamp] => isTimestamp timestamp
  | _ => false

/-- A sample: the name, the labels right after it, the value. -/
def parseSample (read : Bytes → Option Float64) (line : Bytes) : Option Sample :=
  let name := line.takeWhile (isNameChar true)
  let rest := line.dropWhile (isNameChar true)
  if validMetricName name then
    let labels :=
      match expect 123 rest with
      | some rest => parseLabels rest.length rest
      | none => if rest.head?.any isBlank then some ([], rest) else none
    labels.bind fun (labels, rest) =>
      let rest := skipBlanks rest
      if endsSample (rest.dropWhile fun c => !isBlank c) then
        (read (rest.takeWhile fun c => !isBlank c)).map fun value => ⟨name, labels, value⟩
      else none
  else none

/-- A metric type; those the store does not have are untyped. -/
def parseType (word : Bytes) : Option MetricType :=
  if word = text "counter" then some .counter
  else if word = text "gauge" then some .gauge
  else if word = text "histogram" then some .histogram
  else if word = text "summary" ∨ word = text "untyped" then some .unknown
  else none

/-- What follows a number sign. -/
def parseComment (rest : Bytes) : Option (Option Line) :=
  match tokens [] rest with
  | first :: words =>
    if first = text "TYPE" then
      match words with
      | [name, word] =>
        if validMetricName name then (parseType word).map fun typ => some (.type name typ)
        else none
      | _ => none
    else some none
  | [] => some none

/-- A line; blank lines and comments stand for nothing. -/
def parseLine (read : Bytes → Option Float64) (line : Bytes) : Option (Option Line) :=
  match skipBlanks line with
  | [] => some none
  | c :: rest =>
    if c = 35 then parseComment rest
    else (parseSample read (c :: rest)).map fun s => some (.sample s)

/-- The lines of a text, the last of which ends in a line feed, too. -/
def splitLines : (current : Bytes) → Bytes → Option (List Bytes)
  | [], [] => some []
  | _ :: _, [] => none
  | current, c :: rest =>
    if c = 10 then (splitLines [] rest).map (current :: ·) else splitLines (current ++ [c]) rest

/-- A line is added to the families read so far, the last one first. -/
def addLine : List ParsedFamily → Line → Option (List ParsedFamily)
  | fams, .type name typ =>
    if ∀ fam ∈ fams, fam.name ≠ name then some (⟨name, typ, []⟩ :: fams) else none
  | [], .sample s => some [⟨s.name, .unknown, [s]⟩]
  | fam :: fams, .sample s =>
    if s.name ∈ seriesNames fam.name fam.type then
      some ({ fam with samples := fam.samples ++ [s] } :: fams)
    else if ∀ other ∈ fam :: fams, other.name ≠ s.name then
      some (⟨s.name, .unknown, [s]⟩ :: fam :: fams)
    else none

/-- The families of a list of lines. -/
def groupLines : List ParsedFamily → List Line → Option (List ParsedFamily)
  | fams, [] => some fams.reverse
  | fams, line :: rest => (addLine fams line).bind fun fams => groupLines fams rest

/-- **The reference parser.** -/
def parseText (read : Bytes → Option Float64) (input : Bytes) : Option (List ParsedFamily) :=
  (splitLines [] input).bind fun rows =>
    (rows.mapM (parseLine read)).bind fun lines => groupLines [] lines.reduceOption

/-! ### Label values -/

theorem parseQuoted_escape (v rest : Bytes) :
    parseQuoted false (escapeLabelValue v ++ 34 :: rest) = some (v, rest) := by
  induction v with
  | nil => simp [escapeLabelValue, parseQuoted]
  | cons c v ih =>
    have hcons : escapeLabelValue (c :: v) ++ 34 :: rest =
        escapeByte c ++ (escapeLabelValue v ++ 34 :: rest) := by
      rw [escapeLabelValue, flatMap_cons, append_assoc]
      rfl
    rw [hcons, escapeByte]
    split_ifs with hslash hquote hfeed
    · subst hslash
      simp [parseQuoted, unescapeByte, ih]
    · subst hquote
      simp [parseQuoted, unescapeByte, ih]
    · subst hfeed
      simp [parseQuoted, unescapeByte, ih]
    · simp [parseQuoted, ih, hslash, hquote, hfeed]

theorem notMem_escapeLabelValue (v : Bytes) : 10 ∉ escapeLabelValue v := by
  intro h
  obtain ⟨c, -, hc⟩ := mem_flatMap.mp h
  rw [escapeByte] at hc
  split_ifs at hc with hslash hquote hfeed
  · simp at hc
  · simp at hc
  · simp at hc
  · exact hfeed (mem_singleton.mp hc).symm

/-! ### Words -/

variable {w name : Bytes} {allowColon : Bool} {c : UInt8} {l : Label}

theorem tokens_append {current : Bytes} (hw : ∀ c ∈ w, isBlank c = false) (rest : Bytes) :
    tokens current (w ++ rest) = tokens (current ++ w) rest := by
  induction w generalizing current with
  | nil => simp
  | cons c w ih =>
    have hc : isBlank c = false := hw c (mem_cons_self ..)
    rw [cons_append, tokens, hc, if_neg Bool.false_ne_true,
      ih fun d hd => hw d (mem_cons_of_mem _ hd), append_assoc]
    rfl

theorem tokens_word (hne : w ≠ []) (hw : ∀ c ∈ w, isBlank c = false) (rest : Bytes) :
    tokens [] (w ++ 32 :: rest) = w :: tokens [] rest := by
  have hblank : isBlank 32 = true := by decide
  rw [tokens_append hw, nil_append, tokens, if_pos hblank, if_neg hne]

theorem tokens_last (hne : w ≠ []) (hw : ∀ c ∈ w, isBlank c = false) : tokens [] w = [w] := by
  have h : tokens [] (w ++ []) = tokens ([] ++ w) [] := tokens_append hw []
  rw [append_nil, nil_append] at h
  rw [h]
  cases w with
  | nil => exact absurd rfl hne
  | cons c w => rfl

/-! ### Names -/

theorem ne_of_isNameChar {d : UInt8} (hc : isNameChar allowColon c = true)
    (hd : isNameChar allowColon d = false) : c ≠ d := by
  rintro rfl
  rw [hc] at hd
  cases hd

theorem isBlank_of_isNameChar (hc : isNameChar allowColon c = true) : isBlank c = false := by
  have hspace : c ≠ 32 := ne_of_isNameChar hc (by cases allowColon <;> rfl)
  have htab : c ≠ 9 := ne_of_isNameChar hc (by cases allowColon <;> rfl)
  simp [isBlank, hspace, htab]

section

variable (hname : validName allowColon name = true)
include hname

theorem isNameChar_of_mem (hc : c ∈ name) :
    isNameChar allowColon c = true :=
  all_eq_true.mp (all_of_validName hname) c hc

/-- A name ends at the first byte that cannot be part of it. -/
theorem span_name (hc : isNameChar allowColon c = false)
    (rest : Bytes) :
    (name ++ c :: rest).takeWhile (isNameChar allowColon) = name ∧
      (name ++ c :: rest).dropWhile (isNameChar allowColon) = c :: rest := by
  have hall : ∀ x ∈ name, isNameChar allowColon x = true := fun x hx => isNameChar_of_mem hname hx
  rw [takeWhile_append_of_pos hall, dropWhile_append_of_pos hall]
  simp [hc]

/-- A text that starts with a name starts with a byte of it. -/
theorem exists_cons_of_validName (rest : Bytes) :
    ∃ c tail, name ++ rest = c :: tail ∧ isNameChar allowColon c = true := by
  cases name with
  | nil => cases hname
  | cons c name => exact ⟨c, name ++ rest, rfl, isNameChar_of_mem hname (mem_cons_self ..)⟩

end

theorem skipBlanks_cons (hc : isBlank c = false) (rest : Bytes) :
    skipBlanks (c :: rest) = c :: rest := by
  simp [skipBlanks, hc]

theorem skipBlanks_name (hname : validName allowColon name = true) (rest : Bytes) :
    skipBlanks (name ++ rest) = name ++ rest := by
  obtain ⟨c, tail, htail, hc⟩ := exists_cons_of_validName hname rest
  rw [htail, skipBlanks_cons (isBlank_of_isNameChar hc)]

/-! ### Labels -/

section

variable (hl : validLabelName l.name = true)
include hl

theorem parseLabel_writeLabel (rest : Bytes) :
    parseLabel (writeLabel l ++ rest) = some (l, rest) := by
  have htext : writeLabel l ++ rest =
      l.name ++ 61 :: (34 :: (escapeLabelValue l.value ++ 34 :: rest)) := by
    simp [writeLabel]
  obtain ⟨htake, hdrop⟩ :=
    span_name hl (c := 61) rfl (34 :: (escapeLabelValue l.value ++ 34 :: rest))
  rw [parseLabel, htext, htake, hdrop, if_pos hl, skipBlanks_cons rfl]
  rw [expect, if_pos rfl, Option.bind_some, skipBlanks_cons rfl, expect, if_pos rfl,
    Option.bind_some, parseQuoted_escape]
  rfl

theorem skipBlanks_writeLabel (rest : Bytes) :
    skipBlanks (writeLabel l ++ rest) = writeLabel l ++ rest := by
  rw [writeLabel, append_assoc, append_assoc]
  exact skipBlanks_name hl _

/-- A label does not look like the end of the labels. -/
theorem expect_writeLabel (rest : Bytes) :
    expect 125 (writeLabel l ++ rest) = none := by
  rw [writeLabel, append_assoc, append_assoc]
  obtain ⟨c, tail, htail, hc⟩ := exists_cons_of_validName hl _
  rw [htail, expect, if_neg (ne_of_isNameChar hc rfl)]

end

/-- **Labels are read as they were written.** -/
theorem parseLabels_writeLabels {ls : List Label}
    (hls : ∀ l' ∈ l :: ls, validLabelName l'.name = true) {fuel : ℕ} (hfuel : ls.length < fuel)
    (rest : Bytes) :
    parseLabels fuel (writeLabel l ++ (ls.flatMap fun l => 44 :: writeLabel l) ++ 125 :: rest) =
      some (l :: ls, rest) := by
  induction ls generalizing l fuel with
  | nil =>
    obtain ⟨fuel, rfl⟩ : ∃ k, fuel = k + 1 := ⟨fuel - 1, by omega⟩
    have hl := hls l (mem_cons_self ..)
    rw [flatMap_nil, append_nil, parseLabels,
      skipBlanks_writeLabel hl, expect_writeLabel hl]
    dsimp only
    rw [parseLabel_writeLabel hl, Option.bind_some, skipBlanks_cons rfl]
    rfl
  | cons l' ls ih =>
    obtain ⟨fuel, rfl⟩ : ∃ k, fuel = k + 1 := ⟨fuel - 1, by omega⟩
    have hl := hls l (mem_cons_self ..)
    rw [length_cons] at hfuel
    rw [flatMap_cons, append_assoc, parseLabels,
      skipBlanks_writeLabel hl, expect_writeLabel hl]
    dsimp only
    rw [parseLabel_writeLabel hl, Option.bind_some, append_assoc, cons_append,
      skipBlanks_cons rfl]
    dsimp only
    rw [expect, if_pos rfl]
    dsimp only
    rw [← append_assoc, ih (fun l'' hl'' => hls l'' (mem_cons_of_mem _ hl'')) (by omega)]
    rfl

/-! ### Lines -/

/-- The line of a sample, without the line feed. -/
def sampleLine (name : Bytes) (labels : List Label) (value : Bytes) : Bytes :=
  name ++ writeLabels labels ++ 32 :: value

/-- A text without blanks, tabs and line feeds. -/
def Unbroken (v : Bytes) : Prop := ∀ c ∈ v, isBlank c = false ∧ c ≠ 10

instance (v : Bytes) : Decidable (Unbroken v) := List.decidableBAll _ v

variable {v : Bytes}

theorem skipBlanks_value (hv : Unbroken v) : skipBlanks (32 :: v) = v := by
  have hfirst : isBlank 32 = true := by decide
  rw [skipBlanks, dropWhile_cons_of_pos hfirst]
  cases v with
  | nil => rfl
  | cons c v => exact skipBlanks_cons (hv c (mem_cons_self ..)).1 v

/-- The end of a sample: a blank and the value. -/
theorem value_spec (hv : Unbroken v) :
    (v.takeWhile fun c => !isBlank c) = v ∧
      endsSample (v.dropWhile fun c => !isBlank c) = true := by
  have hall : ∀ c ∈ v, (!isBlank c) = true := fun c hc => by rw [(hv c hc).1]; rfl
  rw [takeWhile_eq_self_iff.mpr hall, dropWhile_eq_nil_iff.mpr hall]
  exact ⟨rfl, rfl⟩

variable {read : Bytes → Option Float64}

/-- **A sample is read as it was written.** -/
theorem parseSample_sampleLine {labels : List Label} {value : Float64}
    (hname : validMetricName name = true) (hlabels : ∀ l ∈ labels, validLabelName l.name = true)
    (hv : Unbroken v) (hread : read v = some value) :
    parseSample read (sampleLine name labels v) = some ⟨name, labels, value⟩ := by
  obtain ⟨htake, hends⟩ := value_spec hv
  cases labels with
  | nil =>
    have htext : sampleLine name [] v = name ++ 32 :: v := by simp [sampleLine, writeLabels]
    obtain ⟨hspan, hrest⟩ := span_name hname (c := 32) rfl v
    have hblank : ((32 :: v : Bytes).head?.any isBlank) = true := rfl
    rw [parseSample, htext, hspan, hrest, if_pos hname, expect, if_neg (by decide)]
    dsimp only
    rw [if_pos hblank, Option.bind_some]
    dsimp only
    rw [skipBlanks_value hv, htake, if_pos hends, hread]
    rfl
  | cons l ls =>
    have htext : sampleLine name (l :: ls) v = name ++ 123 ::
        (writeLabel l ++ (ls.flatMap fun l => 44 :: writeLabel l) ++ 125 :: (32 :: v)) := by
      simp [sampleLine, writeLabels]
    obtain ⟨hspan, hrest⟩ := span_name hname (c := 123) rfl
      (writeLabel l ++ (ls.flatMap fun l => 44 :: writeLabel l) ++ 125 :: (32 :: v))
    have hfuel : ls.length <
        (writeLabel l ++ (ls.flatMap fun l => 44 :: writeLabel l) ++ 125 :: (32 :: v)).length := by
      have hflat : ls.length ≤ (ls.flatMap fun l => 44 :: writeLabel l).length := by
        rw [length_flatMap, ← length_map (fun l : Label => (44 :: writeLabel l).length)]
        refine length_le_sum_of_one_le _ fun n hn => ?_
        obtain ⟨l', -, rfl⟩ := mem_map.mp hn
        rw [length_cons]
        omega
      simp only [length_append, length_cons]
      omega
    rw [parseSample, htext, hspan, hrest, if_pos hname, expect, if_pos rfl]
    dsimp only
    rw [parseLabels_writeLabels hlabels hfuel, Option.bind_some]
    dsimp only
    rw [skipBlanks_value hv, htake, if_pos hends, hread]
    rfl

/-- The line of a sample is neither blank nor a comment. -/
theorem parseLine_sampleLine {labels : List Label} {value : Float64}
    (hname : validMetricName name = true) (hlabels : ∀ l ∈ labels, validLabelName l.name = true)
    (hv : Unbroken v) (hread : read v = some value) :
    parseLine read (sampleLine name labels v) = some (some (.sample ⟨name, labels, value⟩)) := by
  have hsample := parseSample_sampleLine hname hlabels hv hread
  have hassoc : sampleLine name labels v = name ++ (writeLabels labels ++ 32 :: v) := by
    rw [sampleLine, append_assoc]
  rw [parseLine, hassoc, skipBlanks_name hname]
  rw [hassoc] at hsample
  obtain ⟨c, tail, htail, hc⟩ := exists_cons_of_validName hname (writeLabels labels ++ 32 :: v)
  rw [htail] at hsample ⊢
  dsimp only
  rw [if_neg (ne_of_isNameChar hc rfl), hsample]
  rfl

theorem parseType_typeString {typ : MetricType} (h : typ ≠ .unknown) :
    parseType (typeString typ) = some typ := by
  cases typ with
  | counter => decide
  | gauge => decide
  | histogram => decide
  | unknown => exact absurd rfl h

/-- The line that opens a family, without the line feed. -/
def typeLine (name : Bytes) (typ : MetricType) : Bytes :=
  text "# TYPE " ++ name ++ 32 :: typeString typ

theorem typeString_word (typ : MetricType) :
    typeString typ ≠ [] ∧ Unbroken (typeString typ) := by
  cases typ <;> decide

/-- **The line that opens a family is read as it was written.** -/
theorem parseLine_typeLine {typ : MetricType} (hname : validMetricName name = true)
    (htyp : typ ≠ .unknown) :
    parseLine read (typeLine name typ) = some (some (.type name typ)) := by
  have htext : typeLine name typ =
      35 :: 32 :: (text "TYPE" ++ 32 :: (name ++ 32 :: typeString typ)) := by
    rw [typeLine, append_assoc]
    rfl
  have hne : name ≠ [] := by
    rintro rfl
    cases hname
  have hword : ∀ c ∈ name, isBlank c = false := fun c hc =>
    isBlank_of_isNameChar (isNameChar_of_mem hname hc)
  obtain ⟨htne, htword⟩ := typeString_word typ
  have htokens : tokens [] (32 :: (text "TYPE" ++ 32 :: (name ++ 32 :: typeString typ))) =
      [text "TYPE", name, typeString typ] := by
    have hskip : ∀ rest, tokens [] (32 :: rest) = tokens [] rest := fun rest => rfl
    have htype : Unbroken (text "TYPE") := by decide
    rw [hskip, tokens_word (by decide) fun c hc => (htype c hc).1, tokens_word hne hword,
      tokens_last htne fun c hc => (htword c hc).1]
  rw [parseLine, htext, skipBlanks_cons (by decide)]
  dsimp only
  rw [if_pos rfl, parseComment, htokens]
  dsimp only
  rw [if_pos rfl, if_pos hname, parseType_typeString htyp]
  rfl

/-! ### Texts -/

/-- A text of whole lines that stand for `lines`. -/
def Reads (read : Bytes → Option Float64) (input : Bytes) (lines : List Line) : Prop :=
  ∃ rows : List Bytes, input = rows.flatMap (· ++ [10]) ∧
    Forall₂ (fun row line => 10 ∉ row ∧ parseLine read row = some (some line)) rows lines

namespace Reads

theorem nil : Reads read [] [] := ⟨[], rfl, .nil⟩

theorem single {row : Bytes} {line : Line} (hrow : 10 ∉ row)
    (hline : parseLine read row = some (some line)) : Reads read (row ++ [10]) [line] :=
  ⟨[row], by simp, .cons ⟨hrow, hline⟩ .nil⟩

theorem append {input input' : Bytes} {lines lines' : List Line} (h : Reads read input lines)
    (h' : Reads read input' lines') : Reads read (input ++ input') (lines ++ lines') := by
  obtain ⟨rows, rfl, hrows⟩ := h
  obtain ⟨rows', rfl, hrows'⟩ := h'
  exact ⟨rows ++ rows', by rw [flatMap_append], rel_append hrows hrows'⟩

end Reads

theorem splitLines_row {row : Bytes} (hrow : 10 ∉ row) (current rest : Bytes) :
    splitLines current (row ++ 10 :: rest) =
      (splitLines [] rest).map ((current ++ row) :: ·) := by
  induction row generalizing current with
  | nil =>
    rw [nil_append, append_nil, splitLines, if_pos rfl]
  | cons c row ih =>
    have hc : c ≠ 10 := fun h => hrow (h ▸ mem_cons_self ..)
    rw [cons_append, splitLines, if_neg hc, ih fun h => hrow (mem_cons_of_mem _ h),
      append_assoc]
    rfl

/-- **A text of whole lines is read line by line.** -/
theorem parseText_of_reads {input : Bytes} {lines : List Line} (h : Reads read input lines) :
    parseText read input = groupLines [] lines := by
  obtain ⟨rows, rfl, hrows⟩ := h
  have hboth : splitLines [] (rows.flatMap (· ++ [10])) = some rows ∧
      rows.mapM (parseLine read) = some (lines.map some) := by
    induction hrows with
    | nil => exact ⟨rfl, rfl⟩
    | @cons _ _ _ _ hrow _ ih =>
      obtain ⟨hsplit, hlines⟩ := ih
      rw [flatMap_cons, append_assoc, singleton_append, splitLines_row hrow.1,
        hsplit, mapM_cons, hrow.2, hlines]
      exact ⟨rfl, rfl⟩
  rw [parseText, hboth.1, Option.bind_some, hboth.2, Option.bind_some]
  congr 1
  exact (filterMap_map ..).trans filterMap_some

end ConvoyStats.Prometheus
