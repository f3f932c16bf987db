import Mathlib.Data.List.Basic

/-!
# Tags

What `cardinality.go` does to the attributes of an observation before it looks for a slot:
`admitKeys`, `capTagValue` and the cut to ten labels.  Strings are Go's, lists of bytes.
`attribute.NewSet` and the key of a set are the SDK's.
-/

namespace ConvoyStats.Cardinality

/-- A Go string. -/
abbrev Bytes := List UInt8

/-- An attribute value: a string, or a value of another type. -/
inductive Value (Other : Type)
  | string (text : Bytes)
  | other (value : Other)
  deriving DecidableEq

/-- `attribute.KeyValue`. -/
structure KeyValue (Other : Type) where
  key : Bytes
  value : Value Other
  deriving DecidableEq

/-- `maxLabelsPerObservation`. -/
def maxLabelsPerObservation : ℕ := 10

/-- `maxLabelValueChars`. -/
def maxLabelValueChars : ℕ := 256

/-! ### Keys -/

def isTagLetter (c : UInt8) : Bool :=
  c = 95 || (97 ≤ c && c ≤ 122) || (65 ≤ c && c ≤ 90)

def isTagDigit (c : UInt8) : Bool := 48 ≤ c && c ≤ 57

/-- The loop of `validTagKey` from byte `i` on: the last `segmentStart`, or `none` where it
returns. -/
def tagKeyLoop (i segmentStart : ℕ) : Bytes → Option ℕ
  | [] => some segmentStart
  | c :: rest =>
    if isTagLetter c then tagKeyLoop (i + 1) segmentStart rest
    else if isTagDigit c && segmentStart < i then tagKeyLoop (i + 1) segmentStart rest
    else if c = 46 && segmentStart < i then tagKeyLoop (i + 1) (i + 1) rest
    else none

/-- `validTagKey`. -/
def validTagKey (key : Bytes) : Bool :=
  match tagKeyLoop 0 0 key with
  | some segmentStart => segmentStart < key.length
  | none => false

theorem tagKeyLoop_chars {i start n : ℕ} {key : Bytes} (h : tagKeyLoop i start key = some n)
    {c : UInt8} (hc : c ∈ key) : isTagLetter c = true ∨ isTagDigit c = true ∨ c = 46 := by
  induction key generalizing i start with
  | nil => cases hc
  | cons d key ih =>
    rw [tagKeyLoop] at h
    split_ifs at h with hletter hdigit hdot
    · rcases List.mem_cons.mp hc with rfl | hc
      · exact .inl hletter
      · exact ih h hc
    · rcases List.mem_cons.mp hc with rfl | hc
      · exact .inr (.inl (Bool.and_eq_true_iff.mp hdigit).1)
      · exact ih h hc
    · rcases List.mem_cons.mp hc with rfl | hc
      · exact .inr (.inr (of_decide_eq_true (Bool.and_eq_true_iff.mp hdot).1))
      · exact ih h hc

/-- A valid key is made of letters, digits, underscores and dots. -/
theorem chars_of_validTagKey {key : Bytes} (h : validTagKey key = true) {c : UInt8} (hc : c ∈ key) :
    isTagLetter c = true ∨ isTagDigit c = true ∨ c = 46 := by
  rw [validTagKey] at h
  split at h
  · rename_i n hloop
    exact tagKeyLoop_chars hloop hc
  · cases h

/-- `admitKeys`: the first invalid key, which `ErrInvalidTagKey` names. -/
def admitKeys {Other : Type} (attrs : List (KeyValue Other)) : Option Bytes :=
  (attrs.find? fun kv => !validTagKey kv.key).map (·.key)

/-! ### Values -/

def isContinuation (c : UInt8) : Bool := 128 ≤ c && c ≤ 191

/-- The bytes of the first character, one where they are no UTF-8. -/
def runeWidth : Bytes → ℕ
  | [] => 0
  | a :: rest =>
    match rest with
    | b :: c :: d :: _ =>
      if 194 ≤ a && a ≤ 223 && isContinuation b then 2
      else if isThree a b c then 3
      else if isFour a b c d then 4
      else 1
    | [b, c] =>
      if 194 ≤ a && a ≤ 223 && isContinuation b then 2
      else if isThree a b c then 3
      else 1
    | [b] => if 194 ≤ a && a ≤ 223 && isContinuation b then 2 else 1
    | [] => 1
where
  /-- Three bytes, neither overlong nor a surrogate. -/
  isThree (a b c : UInt8) : Bool :=
    224 ≤ a && a ≤ 239 && isContinuation b && isContinuation c &&
      (a ≠ 224 || 160 ≤ b) && (a ≠ 237 || b ≤ 159)
  /-- Four bytes, neither overlong nor past the last character. -/
  isFour (a b c d : UInt8) : Bool :=
    240 ≤ a && a ≤ 244 && isContinuation b && isContinuation c && isContinuation d &&
      (a ≠ 240 || 144 ≤ b) && (a ≠ 244 || b ≤ 143)

/-- `range value`: the indexes at which characters start, in at most `fuel` bytes. -/
def runeStarts : ℕ → ℕ → Bytes → List ℕ
  | 0, _, _ => []
  | _, _, [] => []
  | fuel + 1, i, c :: rest =>
    let width := runeWidth (c :: rest)
    i :: runeStarts fuel (i + width) ((c :: rest).drop width)

/-- `capTagValue`. -/
def capTagValue (value : Bytes) : Bytes :=
  let starts := runeStarts value.length 0 value
  if value.length ≤ maxLabelValueChars || starts.length ≤ maxLabelValueChars then value
  else
    match starts[maxLabelValueChars]? with
    | some i => value.take i
    | none => value

/-! ### The set -/

/-- What the SDK does: the attributes of a set in order, and its `Equivalent`. -/
structure SetOps (Other Distinct : Type) where
  newSet : List (KeyValue Other) → List (KeyValue Other)
  equivalent : List (KeyValue Other) → Distinct

/-- What is known of an observation once its tags are in order. -/
structure TagSet (Other Distinct : Type) where
  /-- What `admit` writes back. -/
  attributes : List (KeyValue Other)
  key : Distinct
  labelsDropped : ℕ

variable {Other Distinct : Type}

def capValue (kv : KeyValue Other) : KeyValue Other :=
  match kv.value with
  | .string text => { kv with value := .string (capTagValue text) }
  | .other _ => kv

/-- The part of `admit` that looks at the tags alone. -/
def admitTags (ops : SetOps Other Distinct) (attrs : List (KeyValue Other)) :
    Except Bytes (TagSet Other Distinct) :=
  match admitKeys attrs with
  | some key => .error key
  | none =>
    let set := ops.newSet (attrs.map capValue)
    if maxLabelsPerObservation < set.length then
      let trimmed := set.take maxLabelsPerObservation
      .ok ⟨trimmed, ops.equivalent (ops.newSet trimmed), set.length - maxLabelsPerObservation⟩
    else .ok ⟨set, ops.equivalent set, 0⟩

end ConvoyStats.Cardinality
