import ConvoyStats.Models.Text

/-!
# Exposed names

`exporters/prometheus/exposition.go`: the metric and label names of the text exposition and
the families that are rendered.  A name that comes out of `NormalizeMetricName` or
`NormalizeLabelName` is valid, whatever bytes went in; no label of a histogram is called
`le`, and the labels of an observation are strictly sorted by name.

The text of an attribute value (`Value.String`) is the SDK's.
-/

namespace ConvoyStats.Prometheus

open List Models

/-! ### Families -/

/-- `Label`. -/
structure Label where
  name : Bytes
  value : Bytes
  deriving DecidableEq

/-- `HistogramData`. -/
structure HistogramData where
  bounds : List ℚ
  counts : List ℕ
  sum : Float64
  deriving DecidableEq

/-- `Series`. -/
structure Series where
  labels : List Label
  value : Float64
  histogram : Option HistogramData
  deriving DecidableEq

/-- `Family`. -/
structure Family where
  name : Bytes
  type : MetricType
  series : List Series
  deriving DecidableEq

/-! ### Valid names -/

/-- A character of a metric name after the first one; a label name has no colon. -/
def isNameChar (allowColon : Bool) (c : UInt8) : Bool :=
  Cardinality.isTagLetter c || Cardinality.isTagDigit c || (c = 58 && allowColon)

/-- `[a-zA-Z_:][a-zA-Z0-9_:]*`, without the colons for a label name. -/
def validName (allowColon : Bool) : Bytes → Bool
  | [] => false
  | c :: rest =>
    (Cardinality.isTagLetter c || (c = 58 && allowColon)) && rest.all (isNameChar allowColon)

/-- A valid metric name. -/
abbrev validMetricName : Bytes → Bool := validName true

/-- A valid label name. -/
abbrev validLabelName : Bytes → Bool := validName false

theorem validName_append {allowColon : Bool} {name suffix : Bytes}
    (hname : validName allowColon name = true)
    (hsuffix : suffix.all (isNameChar allowColon) = true) :
    validName allowColon (name ++ suffix) = true := by
  cases name with
  | nil => cases hname
  | cons c rest =>
    rw [validName, Bool.and_eq_true] at hname
    rw [cons_append, validName, all_append, hname.1, hname.2, hsuffix]
    rfl

theorem all_of_validName {allowColon : Bool} {name : Bytes}
    (hname : validName allowColon name = true) : name.all (isNameChar allowColon) = true := by
  cases name with
  | nil => rfl
  | cons c rest =>
    rw [validName, Bool.and_eq_true] at hname
    rw [all_cons, hname.2, Bool.and_true, isNameChar]
    have hfirst := hname.1
    revert hfirst
    cases Cardinality.isTagLetter c <;> cases Cardinality.isTagDigit c <;> simp

/-! ### Normalization -/

/-- The loop of `normalizeName`.  `first` tells that no byte has been read, `skip` counts the
bytes left of the character read last. -/
def normalizeLoop (allowColon : Bool) : (first : Bool) → (skip : ℕ) → Bytes → Bytes
  | _, _, [] => []
  | first, skip + 1, _ :: rest => normalizeLoop allowColon first skip rest
  | first, 0, c :: rest =>
    let after := normalizeLoop allowColon false (Cardinality.runeWidth (c :: rest) - 1) rest
    if Cardinality.isTagLetter c then c :: after
    else if Cardinality.isTagDigit c then (if first then [95] else []) ++ c :: after
    else if c = 58 && allowColon then c :: after
    else 95 :: after

/-- `normalizeName`. -/
def normalizeName (name : Bytes) (allowColon : Bool) : Bytes :=
  if name = [] then [95] else normalizeLoop allowColon true 0 name

/-- `NormalizeMetricName`. -/
def normalizeMetricName (name : Bytes) : Bytes := normalizeName name true

/-- `NormalizeLabelName`. -/
def normalizeLabelName (name : Bytes) : Bytes := normalizeName name false

theorem all_normalizeLoop (allowColon first : Bool) (skip : ℕ) (name : Bytes) :
    (normalizeLoop allowColon first skip name).all (isNameChar allowColon) = true := by
  fun_induction normalizeLoop allowColon first skip name with
  | case1 => rfl
  | case2 first skip c rest ih => exact ih
  | case3 first c rest after hletter ih =>
    rw [all_cons, ih, isNameChar, hletter]
    rfl
  | case4 first c rest after hletter hdigit ih =>
    have hc : isNameChar allowColon c = true := by
      rw [isNameChar, hdigit, Bool.or_true, Bool.true_or]
    rw [all_append, all_cons, ih, hc]
    cases first <;> rfl
  | case5 first c rest after hletter hdigit hcolon ih =>
    rw [all_cons, ih, isNameChar, hcolon, Bool.or_true]
    rfl
  | case6 first c rest after hletter hdigit hcolon ih =>
    rw [all_cons, ih]
    rfl

/-- **A normalized name is valid.** -/
theorem validName_normalizeName (name : Bytes) (allowColon : Bool) :
    validName allowColon (normalizeName name allowColon) = true := by
  rw [normalizeName]
  split
  · rfl
  · rename_i hne
    cases name with
    | nil => exact absurd rfl hne
    | cons c rest =>
      have hafter := all_normalizeLoop allowColon false
        (Cardinality.runeWidth (c :: rest) - 1) rest
      simp only [normalizeLoop]
      split
      · rename_i hletter
        rw [validName, hafter, hletter]
        rfl
      · split
        · rename_i hletter hdigit
          rw [if_pos trivial, singleton_append, validName, all_cons, hafter, isNameChar,
            hdigit, Bool.or_true]
          rfl
        · split
          · rename_i hcolon
            rw [validName, hafter, hcolon, Bool.or_true]
            rfl
          · rw [validName, hafter]
            rfl

/-- `CounterFamilyName`. -/
def counterFamilyName (name : Bytes) : Bytes :=
  let n := normalizeMetricName name
  if (text "_total").isSuffixOf n then n else n ++ text "_total"

/-! ### Labels -/

/-- What `ErrLabelCollision` is wrapped with. -/
structure LabelCollision where
  metric : Bytes
  label : Bytes
  deriving DecidableEq

/-- The exposed name of an attribute. -/
def exposedLabelName (typ : MetricType) (key : Bytes) : Bytes :=
  let name := normalizeLabelName key
  if (text "__").isPrefixOf name || (typ = .histogram && name = text "le") then 95 :: name
  else name

/-- The first name that stands twice, side by side. -/
def repeatedName : List Label → Option Bytes
  | a :: b :: rest => if b.name = a.name then some b.name else repeatedName (b :: rest)
  | _ => none

/-- `ExposedLabels`. -/
def exposedLabels {Other : Type} (valueString : Value Other → Bytes) (metric : Bytes)
    (typ : MetricType) (attrs : List (KeyValue Other)) : Except LabelCollision (List Label) :=
  let labels := (attrs.map fun kv => Label.mk (exposedLabelName typ kv.key) (valueString kv.value))
    |>.insertionSort fun a b => a.name ≤ b.name
  match repeatedName labels with
  | some label => .error ⟨metric, label⟩
  | none => .ok labels

/-- A list of labels as observations have them: sorted, without a repeated name, every name
valid and none of them reserved for the buckets of a histogram. -/
structure ExposedFor (typ : MetricType) (labels : List Label) : Prop where
  sorted : labels.Pairwise fun a b => a.name < b.name
  valid : ∀ l ∈ labels, validLabelName l.name = true
  not_le : typ = .histogram → ∀ l ∈ labels, l.name ≠ text "le"

theorem exposedLabelName_valid (typ : MetricType) (key : Bytes) :
    validLabelName (exposedLabelName typ key) = true := by
  have hvalid := validName_normalizeName key false
  rw [exposedLabelName]
  split
  · exact all_of_validName hvalid
  · exact hvalid

theorem exposedLabelName_ne_le (key : Bytes) : exposedLabelName .histogram key ≠ text "le" := by
  rw [exposedLabelName]
  split
  · intro heq
    cases heq
  · rename_i hreserved
    intro heq
    exact hreserved (by simp [heq])

/-- Sorted labels without a repetition side by side have no repetition. -/
theorem pairwise_lt_of_repeatedName {labels : List Label}
    (hsorted : labels.Pairwise fun a b => a.name ≤ b.name) (h : repeatedName labels = none) :
    labels.Pairwise fun a b => a.name < b.name := by
  induction labels with
  | nil => exact .nil
  | cons a rest ih =>
    cases rest with
    | nil => exact pairwise_singleton _ _
    | cons b rest =>
      rw [repeatedName] at h
      split at h
      · cases h
      · rename_i hne
        obtain ⟨hle, htail⟩ := pairwise_cons.mp hsorted
        have hlt := ih htail h
        have hab : a.name < b.name :=
          Std.lt_of_le_of_ne (hle b (mem_cons_self ..)) (Ne.symm hne)
        refine pairwise_cons.mpr ⟨fun c hc => ?_, hlt⟩
        rcases mem_cons.mp hc with rfl | hc
        · exact hab
        · exact Std.lt_trans hab (rel_of_pairwise_cons hlt hc)

/-- **The labels of an observation are in order.** -/
theorem exposedFor_of_ok {Other : Type} {valueString : Value Other → Bytes} {metric : Bytes}
    {typ : MetricType} {attrs : List (KeyValue Other)} {labels : List Label}
    (h : exposedLabels valueString metric typ attrs = .ok labels) : ExposedFor typ labels := by
  rw [exposedLabels] at h
  split at h
  · cases h
  · rename_i hnone
    cases h
    have hmem : ∀ l ∈ (attrs.map fun kv =>
        Label.mk (exposedLabelName typ kv.key) (valueString kv.value)).insertionSort
          (fun a b => a.name ≤ b.name), ∃ kv ∈ attrs, l.name = exposedLabelName typ kv.key := by
      intro l hl
      obtain ⟨kv, hkv, rfl⟩ := mem_map.mp ((perm_insertionSort _ _).mem_iff.mp hl)
      exact ⟨kv, hkv, rfl⟩
    refine ⟨pairwise_lt_of_repeatedName ?_ hnone, ?_, ?_⟩
    · have : Std.Total fun a b : Label => a.name ≤ b.name := ⟨fun a b => List.le_total ..⟩
      have : IsTrans Label fun a b => a.name ≤ b.name := ⟨fun a b c => List.le_trans⟩
      exact pairwise_insertionSort _ _
    · intro l hl
      obtain ⟨kv, -, hname⟩ := hmem l hl
      rw [hname]
      exact exposedLabelName_valid typ kv.key
    · rintro rfl l hl
      obtain ⟨kv, -, hname⟩ := hmem l hl
      rw [hname]
      exact exposedLabelName_ne_le kv.key

end ConvoyStats.Prometheus
