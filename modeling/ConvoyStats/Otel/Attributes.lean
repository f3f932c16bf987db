import ConvoyStats.Library.NodupLists
import ConvoyStats.Models.Text

/-!
# Attributes of the OpenTelemetry bridge

`convertAttributes` of `otel/instruments.go`, followed by what the limiter does to the tags.  An
`attribute.Set` has its attributes sorted by key, each key once.  `AsString` is the SDK's: the
stored string of a STRING, and the empty string for every other type.

`convertAttributes` takes `AsString` of every value.  So two sets are recorded as one exactly when
they have the same keys and the same `AsString` at each: all values that are no strings look
alike.
-/

namespace ConvoyStats.Otel

open Cardinality List Models

/-! ### Sets -/

/-- `attribute.Value`. -/
inductive AttributeValue (Slice : Type)
  | bool (b : Bool)
  | int64 (n : ℤ)
  | float64 (x : Float64)
  | string (text : Bytes)
  /-- The types of slices. -/
  | slice (s : Slice)

/-- `AsString`. -/
def AttributeValue.asString {Slice : Type} : AttributeValue Slice → Bytes
  | .string text => text
  | _ => []

/-- `attribute.KeyValue`. -/
structure Attribute (Slice : Type) where
  key : Bytes
  value : AttributeValue Slice

/-- `attribute.Set`. -/
structure AttributeSet (Slice : Type) where
  attributes : List (Attribute Slice)
  sorted : attributes.Pairwise fun a b => a.key < b.key

variable {Slice Other Distinct : Type}

/-- `convertAttributes`: what the options append to the metric. -/
def convertAttributes (attrSet : AttributeSet Slice) : List (KeyValue Other) :=
  attrSet.attributes.map fun attr =>
    match attr.value with
    | .string _ => ⟨attr.key, .string attr.value.asString⟩
    | .int64 _ => ⟨attr.key, .string attr.value.asString⟩
    | .float64 _ => ⟨attr.key, .string attr.value.asString⟩
    | .bool _ => ⟨attr.key, .string attr.value.asString⟩
    | .slice _ => ⟨attr.key, .string attr.value.asString⟩

/-- What is recorded of a set: the tags after the limiter, with their key. -/
def recorded (ops : SetOps Other Distinct) (attrSet : AttributeSet Slice) :
    Except Bytes (TagSet Other Distinct) :=
  admitTags ops (convertAttributes attrSet)

/-! ### What the limiter leaves -/

/-- The number of characters of a value. -/
def runeCount (value : Bytes) : ℕ := (runeStarts value.length 0 value).length

/-- A set within the limits of the limiter.  `stringForm` is what the SDK shows of a value. -/
structure Admissible (stringForm : AttributeValue Slice → Bytes) (s : AttributeSet Slice) :
    Prop where
  labels : s.attributes.length ≤ maxLabelsPerObservation
  keys : ∀ attr ∈ s.attributes, validTagKey attr.key = true
  values : ∀ attr ∈ s.attributes, runeCount (stringForm attr.value) ≤ maxLabelValueChars

/-- What is assumed of the SDK: a list that is sorted by key, each key once, is a set as it is;
and `Equivalent` tells sets apart.  The second is an idealisation: `attribute.Distinct` may be
a hash of the set, and then it holds only of sets whose hashes do not collide. -/
structure LawfulOps (ops : SetOps Other Distinct) : Prop where
  newSet : ∀ kvs : List (KeyValue Other), (kvs.Pairwise fun a b => a.key < b.key) →
    ops.newSet kvs = kvs
  equivalent : Function.Injective ops.equivalent

theorem convertAttributes_eq (s : AttributeSet Slice) :
    (convertAttributes s : List (KeyValue Other)) =
      s.attributes.map fun attr => ⟨attr.key, .string attr.value.asString⟩ := by
  refine map_congr_left fun attr _ => ?_
  cases attr.value <;> rfl

theorem capTagValue_of_runeCount {value : Bytes} (h : runeCount value ≤ maxLabelValueChars) :
    capTagValue value = value := by
  rw [capTagValue, if_pos]
  simp only [Bool.or_eq_true, decide_eq_true_eq]
  exact .inr h

section

variable {stringForm : AttributeValue Slice → Bytes} {s t : AttributeSet Slice}
  {ops : SetOps Other Distinct}

theorem runeCount_asString (hform : ∀ text, stringForm (.string text) = text)
    {v : AttributeValue Slice} (h : runeCount (stringForm v) ≤ maxLabelValueChars) :
    runeCount v.asString ≤ maxLabelValueChars := by
  cases v with
  | string text => rwa [hform] at h
  | _ => exact Nat.zero_le _

/-- **The limiter keeps what `convertAttributes` made of an admissible set.** -/
theorem recorded_eq (hops : LawfulOps ops)
    (hform : ∀ text, stringForm (.string text) = text) (hs : Admissible stringForm s) :
    recorded ops s = .ok ⟨convertAttributes s, ops.equivalent (convertAttributes s), 0⟩ := by
  have hkeys : admitKeys (convertAttributes s : List (KeyValue Other)) = none := by
    rw [admitKeys, convertAttributes_eq, Option.map_eq_none_iff, find?_eq_none]
    intro kv hkv
    obtain ⟨attr, hattr, rfl⟩ := mem_map.mp hkv
    simp [hs.keys attr hattr]
  have hcap : (convertAttributes s : List (KeyValue Other)).map capValue = convertAttributes s := by
    rw [convertAttributes_eq, map_map]
    refine map_congr_left fun attr hattr => ?_
    have hcount := runeCount_asString hform (hs.values attr hattr)
    simp only [Function.comp_apply, capValue, capTagValue_of_runeCount hcount]
  have hset : ops.newSet (convertAttributes s) = convertAttributes s := by
    refine hops.newSet _ ?_
    rw [convertAttributes_eq, pairwise_map]
    exact s.sorted
  have hlength : ¬ maxLabelsPerObservation <
      (convertAttributes s : List (KeyValue Other)).length := by
    rw [convertAttributes_eq, length_map]
    exact Nat.not_lt.mpr hs.labels
  rw [recorded, admitTags, hkeys]
  dsimp only
  rw [hcap, hset, if_neg hlength]

/-! ### Sets that stay apart -/

/-- One of the sets has a key, with this `AsString`, that the other has not. -/
def Apart (s t : AttributeSet Slice) : Prop :=
  (∃ a ∈ s.attributes, ∀ b ∈ t.attributes, b.key = a.key → b.value.asString ≠ a.value.asString) ∨
    ∃ b ∈ t.attributes, ∀ a ∈ s.attributes, a.key = b.key → a.value.asString ≠ b.value.asString

theorem mem_convertAttributes {kv : KeyValue Other} :
    kv ∈ (convertAttributes s : List (KeyValue Other)) ↔
      ∃ a ∈ s.attributes, kv = ⟨a.key, .string a.value.asString⟩ := by
  rw [convertAttributes_eq, mem_map]
  exact ⟨fun ⟨a, ha, heq⟩ => ⟨a, ha, heq.symm⟩, fun ⟨a, ha, heq⟩ => ⟨a, ha, heq.symm⟩⟩

/-- A set that has nothing the other has not, in its keys and their `AsString`. -/
theorem convertAttributes_subset
    (h : ¬ ∃ a ∈ s.attributes, ∀ b ∈ t.attributes, b.key = a.key →
      b.value.asString ≠ a.value.asString)
    {kv : KeyValue Other} (hkv : kv ∈ (convertAttributes s : List (KeyValue Other))) :
    kv ∈ (convertAttributes t : List (KeyValue Other)) := by
  obtain ⟨a, ha, rfl⟩ := mem_convertAttributes.mp hkv
  push Not at h
  obtain ⟨b, hb, hkey, hvalue⟩ := h a ha
  exact mem_convertAttributes.mpr ⟨b, hb, by rw [hkey, hvalue]⟩

theorem convertAttributes_ne (Other : Type)
    (h : ∃ a ∈ s.attributes, ∀ b ∈ t.attributes, b.key = a.key →
      b.value.asString ≠ a.value.asString) :
    (convertAttributes s : List (KeyValue Other)) ≠ convertAttributes t := by
  obtain ⟨a, ha, hother⟩ := h
  intro heq
  have hmem : (⟨a.key, .string a.value.asString⟩ : KeyValue Other) ∈ convertAttributes s :=
    mem_convertAttributes.mpr ⟨a, ha, rfl⟩
  rw [heq] at hmem
  obtain ⟨b, hb, hkv⟩ := mem_convertAttributes.mp hmem
  simp only [KeyValue.mk.injEq, Value.string.injEq] at hkv
  exact hother b hb hkv.1.symm hkv.2.symm

/-- **Two sets are converted alike exactly if they are not apart.** -/
theorem convertAttributes_ne_iff (Other : Type) (s t : AttributeSet Slice) :
    (convertAttributes s : List (KeyValue Other)) ≠ convertAttributes t ↔ Apart s t := by
  constructor
  · intro hne
    by_contra hapart
    obtain ⟨hst, hts⟩ := not_or.mp hapart
    refine hne (eq_of_pairwise_of_mem_iff (r := fun a b => a.key < b.key)
      (fun a b => List.lt_asymm) ?_ ?_ fun kv => ⟨convertAttributes_subset hst,
        convertAttributes_subset hts⟩)
    · rw [convertAttributes_eq, pairwise_map]
      exact s.sorted
    · rw [convertAttributes_eq, pairwise_map]
      exact t.sorted
  · rintro (hst | hts)
    · exact convertAttributes_ne Other hst
    · exact (convertAttributes_ne Other hts).symm

/-- **Series stay apart exactly if their sets do.**  Two admissible sets are recorded with different
attributes, and under different keys, if and only if one has a key with an `AsString` that the
other has not. -/
theorem series_apart_iff (hops : LawfulOps ops)
    (hform : ∀ text, stringForm (.string text) = text) (hs : Admissible stringForm s)
    (ht : Admissible stringForm t) :
    ∃ a b, recorded ops s = .ok a ∧ recorded ops t = .ok b ∧
      (a.attributes ≠ b.attributes ↔ Apart s t) ∧ (a.key ≠ b.key ↔ Apart s t) := by
  refine ⟨_, _, recorded_eq hops hform hs, recorded_eq hops hform ht, ?_, ?_⟩
  · exact convertAttributes_ne_iff Other s t
  · rw [← convertAttributes_ne_iff Other s t]
    exact hops.equivalent.ne_iff

end

/-- The string form of a value without slices; floats are left out. -/
def plainForm : AttributeValue Empty → Bytes
  | .bool b => text (if b then "true" else "false")
  | .int64 n => if n < 0 then 45 :: decimal n.natAbs else decimal n.natAbs
  | .float64 _ => []
  | .string text => text

/-- One attribute. -/
def single (value : AttributeValue Empty) : AttributeSet Empty :=
  ⟨[⟨text "code", value⟩], pairwise_singleton _ _⟩

/-- Sets as they are. -/
def plainOps : SetOps Empty (List (KeyValue Empty)) := ⟨id, id⟩

theorem series_apart_iff_strings :
    Admissible plainForm (single (.string (text "a"))) ∧
      ∃ a b, recorded plainOps (single (.string (text "a"))) = .ok a ∧
        recorded plainOps (single (.string (text "b"))) = .ok b ∧ a.key ≠ b.key := by
  have hs : ∀ value, runeCount (plainForm value) ≤ maxLabelValueChars →
      Admissible plainForm (single value) := fun value hvalue =>
    ⟨show 1 ≤ 10 by decide,
      fun attr hattr => by
        rw [mem_singleton.mp hattr]
        exact show validTagKey (text "code") = true by decide,
      fun attr hattr => by rw [mem_singleton.mp hattr]; exact hvalue⟩
  have ha := hs (.string (text "a")) (by decide)
  have hb := hs (.string (text "b")) (by decide)
  have hops : LawfulOps plainOps := ⟨fun _ _ => rfl, Function.injective_id⟩
  obtain ⟨a, b, hra, hrb, -, hkey⟩ := series_apart_iff hops (fun _ => rfl) ha hb
  refine ⟨ha, a, b, hra, hrb, hkey.mpr (.inl ⟨_, mem_singleton_self _, fun b hb _ => ?_⟩)⟩
  rw [mem_singleton.mp hb]
  decide

/-- **Two codes are one series.**  Both are recorded with the empty string. -/
theorem codes_merge :
    plainForm (.int64 200) ≠ plainForm (.int64 500) ∧
      recorded plainOps (single (.int64 200)) =
        .ok ⟨[⟨text "code", .string []⟩], [⟨text "code", .string []⟩], 0⟩ ∧
      recorded plainOps (single (.int64 500)) =
        .ok ⟨[⟨text "code", .string []⟩], [⟨text "code", .string []⟩], 0⟩ :=
  ⟨by decide, rfl, rfl⟩

end ConvoyStats.Otel
