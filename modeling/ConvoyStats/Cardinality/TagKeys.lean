import Mathlib.Computability.Language
import ConvoyStats.Cardinality.Tags

/-!
# The pattern of tag keys

`validTagKey` is documented by a pattern, `^[a-zA-Z_][a-zA-Z0-9_]*(\.[a-zA-Z_][a-zA-Z0-9_]*)*$`.
Here the pattern is read as a language over bytes, and the loop accepts exactly its words.

The loop has two states, told apart by whether the segment has begun: a byte of the segment has been
read where `segmentStart < i`, and none where they are equal.  The rest of the key is then in
`segmentRest`, and in `tagKeyPattern` itself.
-/

namespace ConvoyStats.Cardinality

open List Computability

/-- The one-byte words of a class of bytes. -/
def oneOf (p : UInt8 → Bool) : Language UInt8 := {w | ∃ c, p c = true ∧ w = [c]}

/-- The range from `low` to `high` of a class. -/
def between (low high : Char) (c : UInt8) : Bool := low.toNat ≤ c.toNat && c.toNat ≤ high.toNat

/-- The class `[a-zA-Z_]`. -/
def letterClass : Language UInt8 :=
  oneOf fun c => between 'a' 'z' c || between 'A' 'Z' c || between '_' '_' c

/-- The class `[a-zA-Z0-9_]`. -/
def wordClass : Language UInt8 :=
  oneOf fun c => between 'a' 'z' c || between 'A' 'Z' c || between '0' '9' c || between '_' '_' c

/-- The dot, `\.`. -/
def dotClass : Language UInt8 := oneOf fun c => between '.' '.' c

/-- The pattern `[a-zA-Z_][a-zA-Z0-9_]*(\.[a-zA-Z_][a-zA-Z0-9_]*)*`. -/
def tagKeyPattern : Language UInt8 :=
  letterClass * wordClass∗ * (dotClass * (letterClass * wordClass∗))∗

/-- What may follow the first byte of a segment. -/
def segmentRest : Language UInt8 := wordClass∗ * (dotClass * (letterClass * wordClass∗))∗

/-- **The classes are those that the loop asks for.** -/
theorem classes_eq :
    letterClass = oneOf isTagLetter ∧
      wordClass = oneOf (fun c => isTagLetter c || isTagDigit c) ∧
      dotClass = oneOf fun c => c = 46 := by
  refine ⟨congrArg oneOf ?_, congrArg oneOf ?_, congrArg oneOf ?_⟩ <;> funext c <;>
    rw [Bool.eq_iff_iff] <;>
    simp [between, isTagLetter, isTagDigit, UInt8.le_iff_toNat_le, ← UInt8.toNat_inj] <;> omega

section

variable {p : UInt8 → Bool} {L : Language UInt8} {c : UInt8} {w : Bytes}

theorem nil_notMem_oneOf_mul : [] ∉ oneOf p * L := by
  intro h
  obtain ⟨_, ⟨c, -, rfl⟩, b, -, heq⟩ := Language.mem_mul.mp h
  cases heq

theorem cons_mem_oneOf_mul : c :: w ∈ oneOf p * L ↔ p c = true ∧ w ∈ L := by
  constructor
  · intro h
    obtain ⟨_, ⟨d, hd, rfl⟩, b, hb, heq⟩ := Language.mem_mul.mp h
    cases heq
    exact ⟨hd, hb⟩
  · rintro ⟨hc, hw⟩
    exact Language.append_mem_mul (a := [c]) ⟨c, hc, rfl⟩ hw

end

theorem tagKeyPattern_eq : tagKeyPattern = letterClass * segmentRest := mul_assoc ..

/-- Past its first byte a segment ends, is followed by another one, or goes on. -/
theorem segmentRest_eq :
    segmentRest = 1 + dotClass * tagKeyPattern + wordClass * segmentRest := by
  calc segmentRest
      = (1 + wordClass * wordClass∗) * (dotClass * (letterClass * wordClass∗))∗ := by
        rw [Language.one_add_self_mul_kstar_eq_kstar, segmentRest]
    _ = (dotClass * (letterClass * wordClass∗))∗ + wordClass * segmentRest := by
        rw [add_mul, one_mul, mul_assoc, segmentRest]
    _ = 1 + dotClass * tagKeyPattern + wordClass * segmentRest := by
        rw [← Language.one_add_self_mul_kstar_eq_kstar, mul_assoc]
        rfl

theorem nil_mem_segmentRest : [] ∈ segmentRest := by
  rw [segmentRest_eq]
  exact .inl (.inl rfl)

theorem cons_mem_segmentRest {c : UInt8} {w : Bytes} : c :: w ∈ segmentRest ↔
    (isTagLetter c = true ∨ isTagDigit c = true) ∧ w ∈ segmentRest ∨
      c = 46 ∧ w ∈ tagKeyPattern := by
  have hone : c :: w ∉ (1 : Language UInt8) := nofun
  calc c :: w ∈ segmentRest
      ↔ c :: w ∈ 1 + dotClass * tagKeyPattern + wordClass * segmentRest := by rw [← segmentRest_eq]
    _ ↔ _ := by
      rw [Language.mem_add, Language.mem_add, or_iff_right hone, classes_eq.2.1, classes_eq.2.2,
        cons_mem_oneOf_mul, cons_mem_oneOf_mul, Bool.or_eq_true, decide_eq_true_iff, or_comm]

theorem cons_mem_tagKeyPattern {c : UInt8} {w : Bytes} :
    c :: w ∈ tagKeyPattern ↔ isTagLetter c = true ∧ w ∈ segmentRest := by
  rw [tagKeyPattern_eq, classes_eq.1, cons_mem_oneOf_mul]

theorem nil_notMem_tagKeyPattern : [] ∉ tagKeyPattern := by
  rw [tagKeyPattern_eq]
  exact nil_notMem_oneOf_mul

/-- **The loop from byte `i` on**, inside a segment and at the start of one. -/
theorem tagKeyLoop_accepts_iff {i start : ℕ} (w : Bytes) (hstart : start ≤ i) :
    (∃ n, tagKeyLoop i start w = some n ∧ n < i + w.length) ↔
      w ∈ if start < i then segmentRest else tagKeyPattern := by
  induction w generalizing i start with
  | nil =>
    by_cases hlt : start < i
    · simp [tagKeyLoop, hlt, nil_mem_segmentRest]
    · simp [tagKeyLoop, hlt, nil_notMem_tagKeyPattern]
  | cons c w ih =>
    have hlength : i + (c :: w).length = i + 1 + w.length := by
      rw [length_cons]
      omega
    -- a segment goes on, or the next one begins
    have hgoes : (∃ n, tagKeyLoop (i + 1) start w = some n ∧ _) ↔ _ := ih (by omega)
    have hnext : (∃ n, tagKeyLoop (i + 1) (i + 1) w = some n ∧ _) ↔ _ := ih le_rfl
    rw [if_pos (by omega)] at hgoes
    rw [if_neg (lt_irrefl _)] at hnext
    have hdot : isTagLetter 46 = false ∧ isTagDigit 46 = false := by decide
    rw [tagKeyLoop, hlength]
    by_cases hlt : start < i
    · simp only [hlt, if_true, cons_mem_segmentRest, ← hgoes, ← hnext]
      split_ifs <;> grind
    · simp only [hlt, if_false, cons_mem_tagKeyPattern, ← hgoes]
      split_ifs <;> grind

/-- **`validTagKey` accepts exactly the words of the pattern.** -/
theorem validTagKey_iff_mem_tagKeyPattern (key : Bytes) :
    validTagKey key = true ↔ key ∈ tagKeyPattern := by
  have hloop := tagKeyLoop_accepts_iff key (le_refl 0)
  rw [if_neg (lt_irrefl 0), zero_add] at hloop
  rw [← hloop, validTagKey]
  cases tagKeyLoop 0 0 key <;> simp

end ConvoyStats.Cardinality
