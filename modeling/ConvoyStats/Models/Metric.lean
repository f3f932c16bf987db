import Mathlib.Algebra.BigOperators.Group.List.Basic
import Mathlib.Algebra.Order.Field.Rat

/-!
# Metrics

`Metric` of `models/metric.go` and the histogram bounds of `models/otlp_config.go`,
which the exporters share.

A `float64` is `nan`, an infinity or a rational; operations on finite values are exact.
Bounds are finite, since configurations with other ones are refused.
-/

namespace ConvoyStats.Models

/-! ### Values -/

/-- A `float64` in exact arithmetic. -/
inductive Float64
  | nan
  | negInf
  | finite (q : ℚ)
  | posInf
  deriving DecidableEq

namespace Float64

/-- `a <= b`: false where one of them is `nan`. -/
protected def le : Float64 → Float64 → Prop
  | .finite p, .finite q => p ≤ q
  | .negInf, .negInf | .negInf, .finite _ | .negInf, .posInf => True
  | .finite _, .posInf | .posInf, .posInf => True
  | _, _ => False

/-- `a < b`: false where one of them is `nan`. -/
protected def lt : Float64 → Float64 → Prop
  | .finite p, .finite q => p < q
  | .negInf, .finite _ | .negInf, .posInf | .finite _, .posInf => True
  | _, _ => False

instance : LE Float64 := ⟨Float64.le⟩

instance : LT Float64 := ⟨Float64.lt⟩

instance : DecidableLE Float64
  | .finite p, .finite q => inferInstanceAs (Decidable (p ≤ q))
  | .negInf, .negInf | .negInf, .finite _ | .negInf, .posInf => isTrue trivial
  | .finite _, .posInf | .posInf, .posInf => isTrue trivial
  | .nan, _ => isFalse (by rintro ⟨⟩)
  | .negInf, .nan | .finite _, .nan | .posInf, .nan => isFalse (by rintro ⟨⟩)
  | .finite _, .negInf | .posInf, .negInf | .posInf, .finite _ => isFalse (by rintro ⟨⟩)

instance : DecidableLT Float64
  | .finite p, .finite q => inferInstanceAs (Decidable (p < q))
  | .negInf, .finite _ | .negInf, .posInf | .finite _, .posInf => isTrue trivial
  | .nan, _ => isFalse (by rintro ⟨⟩)
  | .negInf, .nan | .finite _, .nan => isFalse (by rintro ⟨⟩)
  | .posInf, _ => isFalse (by rintro ⟨⟩)
  | .finite _, .negInf | .negInf, .negInf => isFalse (by rintro ⟨⟩)

/-- `a + b`. -/
protected def add : Float64 → Float64 → Float64
  | .finite p, .finite q => .finite (p + q)
  | .nan, _ | _, .nan => .nan
  | .posInf, .negInf | .negInf, .posInf => .nan
  | .posInf, _ | _, .posInf => .posInf
  | .negInf, _ | _, .negInf => .negInf

instance : Add Float64 := ⟨Float64.add⟩

@[simp] theorem finite_le_finite {p q : ℚ} : finite p ≤ finite q ↔ p ≤ q := Iff.rfl

@[simp] theorem finite_lt_finite {p q : ℚ} : finite p < finite q ↔ p < q := Iff.rfl

@[simp] theorem finite_add_finite (p q : ℚ) : finite p + finite q = finite (p + q) := rfl

instance : Zero Float64 := ⟨.finite 0⟩

/-- Exact addition is associative and commutative, infinities and `nan` included. -/
instance : AddCommMonoid Float64 where
  add_assoc a b c := by
    cases a <;> cases b <;> cases c <;> first | rfl | exact congrArg finite (add_assoc ..)
  zero_add a := by
    cases a <;> first | rfl | exact congrArg finite (zero_add _)
  add_zero a := by
    cases a <;> first | rfl | exact congrArg finite (add_zero _)
  add_comm a b := by
    cases a <;> cases b <;> first | rfl | exact congrArg finite (add_comm ..)
  nsmul := nsmulRec

theorem sum_map_finite (qs : List ℚ) : (qs.map finite).sum = finite qs.sum := by
  induction qs with
  | nil => rfl
  | cons q qs ih => rw [List.map_cons, List.sum_cons, List.sum_cons, ih, finite_add_finite]

end Float64

/-! ### Metrics -/

/-- `MetricType`; a value that is none of the constants is `unknown`. -/
inductive MetricType
  | counter
  | gauge
  | histogram
  | unknown
  deriving DecidableEq

/-- Nanoseconds since the zero time. -/
abbrev Time := ℤ

/-- `Metric`. -/
structure Metric (KeyValue : Type) where
  name : String
  type : MetricType
  value : Float64
  attributes : List KeyValue
  timestamp : Time
  traceID : BitVec 128
  spanID : BitVec 64
  description : String
  unit : String
  deriving DecidableEq

/-- `HasExemplar`. -/
def Metric.hasExemplar {KeyValue : Type} (m : Metric KeyValue) : Bool :=
  m.traceID != 0 && m.spanID != 0

/-- `EstimateSize`; `attributeSize` is the length of an attribute's key and of its value as
`Emit` writes it. -/
def Metric.estimateSize {KeyValue : Type} (attributeSize : KeyValue → ℕ) (m : Metric KeyValue) :
    ℤ :=
  (m.name.utf8ByteSize + m.description.utf8ByteSize + m.unit.utf8ByteSize : ℕ) +
    8 + 8 + 4 + 4 + (if m.hasExemplar then 16 + 8 else 0) +
    ((m.attributes.map attributeSize).sum : ℕ)

theorem Metric.estimateSize_nonneg {KeyValue : Type} (attributeSize : KeyValue → ℕ)
    (m : Metric KeyValue) : 0 ≤ m.estimateSize attributeSize := by
  unfold estimateSize
  split_ifs <;> omega

/-! ### Histogram bounds -/

/-- `DefaultHistogramBuckets`: 0.005, 0.01, 0.025, 0.05, 0.1, 0.25, 0.5, 1, 2.5, 5 and 10,
as the doubles they are. -/
def defaultHistogramBuckets : List ℚ :=
  [5764607523034235 / 2 ^ 60, 5764607523034235 / 2 ^ 59, 3602879701896397 / 2 ^ 57,
    3602879701896397 / 2 ^ 56, 3602879701896397 / 2 ^ 55, 1 / 4, 1 / 2, 1, 5 / 2, 5, 10]

/-- `ValidateHistogramBuckets` accepts: not empty, strictly increasing. -/
def ValidBuckets (bounds : List ℚ) : Prop := bounds ≠ [] ∧ bounds.IsChain (· < ·)

instance (bounds : List ℚ) : Decidable (ValidBuckets bounds) :=
  inferInstanceAs (Decidable (_ ∧ _))

theorem validBuckets_default : ValidBuckets defaultHistogramBuckets := by decide +kernel

/-- `UnprefixedBucketsKey`. -/
def unprefixedBucketsKey (name : String) : String := "*." ++ name

/-- The loop of `unprefixedBuckets`: the whole name and every suffix after a dot, the
longest first.  `start` says that the characters left begin such a suffix. -/
def unprefixedBuckets (byName : String → List ℚ) : (start : Bool) → List Char → List ℚ
  | true, [] => byName (unprefixedBucketsKey "")
  | false, [] => []
  | start, c :: rest =>
    let bounds := byName (unprefixedBucketsKey (String.ofList (c :: rest)))
    if start && bounds ≠ [] then bounds
    else unprefixedBuckets byName (c == '.') rest

/-- `NamedBuckets`; a name without an entry has no bounds in `byName`. -/
def namedBuckets (byName : String → List ℚ) (name : String) : Option (List ℚ) :=
  if byName name ≠ [] then some (byName name)
  else
    let bounds := unprefixedBuckets byName true name.toList
    if bounds ≠ [] then some bounds else none

/-- `BucketsFor`. -/
def bucketsFor (byName : String → List ℚ) (global : List ℚ) (name : String) : List ℚ :=
  match namedBuckets byName name with
  | some bounds => bounds
  | none => if global ≠ [] then global else defaultHistogramBuckets

/-- The bucket of a value: the first bound it does not exceed, or the last bucket.
`sort.Search` with `value <= bounds[i]` and `sort.SearchFloat64s` both find it, the
bounds being increasing. -/
def bucketOf (bounds : List ℚ) (v : Float64) : ℕ := bounds.findIdx fun b => decide (v ≤ .finite b)

theorem bucketOf_lt (bounds : List ℚ) (v : Float64) : bucketOf bounds v < bounds.length + 1 :=
  Nat.lt_succ_of_le List.findIdx_le_length

end ConvoyStats.Models
