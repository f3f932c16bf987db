import Mathlib.Data.Nat.Digits.Lemmas
import ConvoyStats.Cardinality.Tags
import ConvoyStats.Models.Metric

/-!
# Texts

Go strings are lists of bytes, compared byte by byte as `strings.Compare` does.  Here are the
texts the source spells out, decimal numerals as `strconv` and `fmt` write and read them, and
`Metric` as the text formats read it.
-/

namespace ConvoyStats.Models

open List

export Cardinality (Bytes KeyValue Value)

/-- A string literal. -/
def text (s : String) : Bytes := s.toUTF8.data.toList

/-- `Metric`, its strings as bytes. -/
structure TextMetric (Other : Type) where
  name : Bytes
  type : MetricType
  value : Float64
  attributes : List (KeyValue Other)
  timestamp : Time
  deriving DecidableEq

/-! ### Numerals -/

def digit (d : ℕ) : UInt8 := (48 + d).toUInt8

/-- The numeral of a natural number. -/
def decimal (n : ℕ) : Bytes :=
  if n = 0 then [48] else ((Nat.digits 10 n).map digit).reverse

/-- The number that a list of digits stands for. -/
def digitsValue (ds : Bytes) : ℕ := ds.foldl (fun n c => 10 * n + (c.toNat - 48)) 0

/-- The number that a numeral stands for. -/
def readDecimal (ds : Bytes) : Option ℕ :=
  if ds ≠ [] ∧ ds.all Cardinality.isTagDigit then some (digitsValue ds) else none

theorem isTagDigit_digit {d : ℕ} (h : d < 10) : Cardinality.isTagDigit (digit d) = true := by
  interval_cases d <;> rfl

theorem toNat_digit {d : ℕ} (h : d < 10) : (digit d).toNat - 48 = d := by
  interval_cases d <;> rfl

theorem decimal_ne_nil (n : ℕ) : decimal n ≠ [] := by
  rw [decimal]
  split
  · exact cons_ne_nil _ _
  · rename_i hn
    simpa [Nat.digits_eq_nil_iff_eq_zero] using hn

theorem isTagDigit_of_mem_decimal {n : ℕ} {c : UInt8} (h : c ∈ decimal n) :
    Cardinality.isTagDigit c = true := by
  rw [decimal] at h
  split at h
  · rw [mem_singleton.mp h]
    rfl
  · rw [mem_reverse] at h
    obtain ⟨d, hd, rfl⟩ := mem_map.mp h
    exact isTagDigit_digit (Nat.digits_lt_base (by decide) hd)

theorem digitsValue_reverse {ds : List ℕ} (h : ∀ d ∈ ds, d < 10) :
    digitsValue (ds.map digit).reverse = Nat.ofDigits 10 ds := by
  induction ds with
  | nil => rfl
  | cons d ds ih =>
    have hih := ih fun e he => h e (mem_cons_of_mem _ he)
    rw [digitsValue] at hih ⊢
    rw [map_cons, reverse_cons, foldl_append, hih, foldl_cons,
      foldl_nil, toNat_digit (h d (mem_cons_self ..)), Nat.ofDigits_cons, add_comm]

/-- **A numeral is read as the number it was written for.** -/
theorem readDecimal_decimal (n : ℕ) : readDecimal (decimal n) = some n := by
  have hdigits : (decimal n).all Cardinality.isTagDigit = true :=
    all_eq_true.mpr fun c hc => isTagDigit_of_mem_decimal hc
  rw [readDecimal, if_pos ⟨decimal_ne_nil n, hdigits⟩, decimal]
  split
  · rename_i hn
    rw [hn]
    rfl
  · rw [digitsValue_reverse fun d hd => Nat.digits_lt_base (by decide) hd, Nat.ofDigits_digits]

theorem decimal_injective : Function.Injective decimal := by
  intro m n h
  have hread := readDecimal_decimal m
  rw [h, readDecimal_decimal] at hread
  exact (Option.some.inj hread).symm

/-! ### Integers -/

/-- `strconv.Itoa` and `strconv.FormatInt`. -/
def itoa (n : ℤ) : Bytes := if n < 0 then 45 :: decimal n.natAbs else decimal n.natAbs

/-- `strconv.ParseInt` with base 10 and 64 bits, which is `strconv.Atoi` too. -/
def parseInt (s : Bytes) : Option ℤ :=
  match s with
  | [] => none
  | c :: ds =>
    let neg := c = 45
    (readDecimal (if c = 43 ∨ c = 45 then ds else s)).bind fun n =>
      if neg then if n ≤ 2 ^ 63 then some (-n) else none
      else if n < 2 ^ 63 then some n else none

theorem parseInt_neg {n : ℕ} (h : n ≤ 2 ^ 63) : parseInt (45 :: decimal n) = some (-(n : ℤ)) := by
  rw [parseInt, if_pos (.inr rfl), readDecimal_decimal, Option.bind_some, if_pos rfl, if_pos h]

theorem parseInt_decimal {n : ℕ} (h : n < 2 ^ 63) : parseInt (decimal n) = some (n : ℤ) := by
  have hread := readDecimal_decimal n
  have hdigit : ∀ c ∈ decimal n, Cardinality.isTagDigit c = true := fun c =>
    isTagDigit_of_mem_decimal
  have hne := decimal_ne_nil n
  generalize decimal n = ds at *
  cases ds with
  | nil => exact absurd rfl hne
  | cons c ds =>
    have hc := hdigit c (mem_cons_self ..)
    have hplus : c ≠ 43 := by
      rintro rfl
      cases hc
    have hminus : c ≠ 45 := by
      rintro rfl
      cases hc
    rw [parseInt, if_neg (not_or.mpr ⟨hplus, hminus⟩), hread, Option.bind_some, if_neg hminus,
      if_pos h]

/-- **A numeral of an `int64` is read as the number it was written for.** -/
theorem parseInt_itoa {n : ℤ} (hlow : -2 ^ 63 ≤ n) (hhigh : n < 2 ^ 63) :
    parseInt (itoa n) = some n := by
  rw [itoa]
  split_ifs with hneg
  · rw [parseInt_neg (by omega)]
    exact congrArg some (by omega)
  · rw [parseInt_decimal (by omega)]
    exact congrArg some (by omega)

theorem mem_itoa {n : ℤ} {c : UInt8} (h : c ∈ itoa n) :
    c = 45 ∨ Cardinality.isTagDigit c = true := by
  rw [itoa] at h
  split_ifs at h
  · exact (mem_cons.mp h).imp_right isTagDigit_of_mem_decimal
  · exact .inr (isTagDigit_of_mem_decimal h)

end ConvoyStats.Models
