import Mathlib.Data.List.Pairwise
import Mathlib.Order.Nat
import ConvoyStats.Cardinality.Tags

/-!
# Characters

What `capTagValue` makes of a string.  The string need not be UTF-8: `range` goes over it character
by character, and a byte that starts none is a character by itself.  A prefix that ends where
`range` starts a character, or at the end, has the characters of the whole string up to there
(`runeStarts_take`), because the bytes of a character tell its width without those behind them
(`runeWidth_take`).
-/

namespace ConvoyStats.Cardinality

open List

/-! ### The width of a character -/

theorem runeWidth_pos (c : UInt8) (rest : Bytes) : 0 < runeWidth (c :: rest) := by
  rcases rest with _ | ⟨b, _ | ⟨c', _ | ⟨d, rest⟩⟩⟩ <;> grind [runeWidth]

theorem runeWidth_le_length (v : Bytes) : runeWidth v ≤ v.length := by
  rcases v with _ | ⟨a, _ | ⟨b, _ | ⟨c, _ | ⟨d, rest⟩⟩⟩⟩ <;> grind [runeWidth]

/-- The bytes of a character tell its width. -/
theorem runeWidth_take {v : Bytes} {n : ℕ} (h : runeWidth v ≤ n) :
    runeWidth (v.take n) = runeWidth v := by
  rcases v with _ | ⟨a, _ | ⟨b, _ | ⟨c, _ | ⟨d, rest⟩⟩⟩⟩ <;> rcases n with _ | _ | _ | _ | n <;>
    grind [runeWidth]

/-! ### Where characters start -/

theorem length_runeStarts_le (fuel o : ℕ) (v : Bytes) : (runeStarts fuel o v).length ≤ fuel := by
  induction fuel generalizing o v with
  | zero => exact Nat.le_refl 0
  | succ fuel ih =>
    cases v with
    | nil => exact Nat.zero_le _
    | cons c rest => exact Nat.succ_le_succ (ih _ _)

theorem le_of_mem_runeStarts {fuel o i : ℕ} {v : Bytes} (h : i ∈ runeStarts fuel o v) : o ≤ i := by
  induction fuel generalizing o v with
  | zero => cases h
  | succ fuel ih =>
    cases v with
    | nil => cases h
    | cons c rest =>
      rcases mem_cons.mp h with rfl | h
      · exact Nat.le_refl _
      · exact Nat.le_trans (Nat.le_add_right _ _) (ih h)

/-- Every character starts behind the one before. -/
theorem pairwise_runeStarts (fuel o : ℕ) (v : Bytes) : (runeStarts fuel o v).Pairwise (· < ·) := by
  induction fuel generalizing o v with
  | zero => exact .nil
  | succ fuel ih =>
    cases v with
    | nil => exact .nil
    | cons c rest =>
      refine .cons (fun i hi => ?_) (ih _ _)
      exact Nat.lt_of_lt_of_le (Nat.lt_add_of_pos_right (runeWidth_pos c rest))
        (le_of_mem_runeStarts hi)

theorem runeStarts_cons (fuel o : ℕ) {v : Bytes} (h : v ≠ []) :
    runeStarts (fuel + 1) o v = o :: runeStarts fuel (o + runeWidth v) (v.drop (runeWidth v)) := by
  cases v with
  | nil => exact absurd rfl h
  | cons c rest => rfl

/-- **A prefix cut where a character starts** has the characters that start before. -/
theorem runeStarts_take {fuel fuel' o i : ℕ} {v : Bytes} (hfuel : v.length ≤ fuel)
    (hfuel' : (v.take (i - o)).length ≤ fuel') (h : i ∈ runeStarts fuel o v ∨ i = o + v.length) :
    runeStarts fuel' o (v.take (i - o)) = (runeStarts fuel o v).filter (· < i) := by
  induction fuel generalizing fuel' o v with
  | zero =>
    obtain rfl := length_eq_zero_iff.mp (Nat.le_zero.mp hfuel)
    cases fuel' <;> simp [runeStarts]
  | succ fuel ih =>
    by_cases hv : v = []
    · subst hv
      cases fuel' <;> simp [runeStarts]
    have hpos : 0 < runeWidth v := by
      obtain ⟨c, rest, rfl⟩ := exists_cons_of_ne_nil hv
      exact runeWidth_pos c rest
    have hle := runeWidth_le_length v
    rw [runeStarts_cons fuel o hv] at h ⊢
    by_cases hi : i = o
    · -- Nothing starts before the first character.
      subst hi
      have hnone :
          ((runeStarts fuel (i + runeWidth v) (v.drop (runeWidth v))).filter (· < i)) = [] := by
        rw [filter_eq_nil_iff]
        intro j hj
        have hij := le_of_mem_runeStarts hj
        simp only [decide_eq_true_eq]
        omega
      rw [Nat.sub_self, take_zero, filter_cons_of_neg (by simp), hnone]
      cases fuel' <;> rfl
    · have hrest : i ∈ runeStarts fuel (o + runeWidth v) (v.drop (runeWidth v)) ∨
          i = o + runeWidth v + (v.drop (runeWidth v)).length := by
        rw [length_drop]
        rcases h with h | h
        · exact .inl ((mem_cons.mp h).resolve_left hi)
        · exact .inr (by omega)
      have hge : o + runeWidth v ≤ i := by
        rcases hrest with h | h
        · exact le_of_mem_runeStarts h
        · omega
      have hwidth : runeWidth (v.take (i - o)) = runeWidth v := runeWidth_take (by omega)
      have hne : v.take (i - o) ≠ [] := by
        intro hnil
        rw [hnil] at hwidth
        exact absurd hwidth hpos.ne
      have hdrop : (v.take (i - o)).drop (runeWidth v) =
          (v.drop (runeWidth v)).take (i - (o + runeWidth v)) := by
        rw [drop_take, Nat.sub_sub]
      cases fuel' with
      | zero => exact absurd (length_eq_zero_iff.mp (Nat.le_zero.mp hfuel')) hne
      | succ fuel' =>
        have hlt : o < i := by omega
        have hlength : (v.drop (runeWidth v)).length ≤ fuel := by
          rw [length_drop]
          omega
        have hlength' : ((v.drop (runeWidth v)).take (i - (o + runeWidth v))).length ≤ fuel' := by
          rw [← hdrop, length_drop]
          omega
        rw [runeStarts_cons fuel' o hne, hwidth, hdrop, filter_cons, if_pos (decide_eq_true hlt),
          ih hlength hlength' hrest]

/-! ### Prefixes -/

/-- `utf8.RuneCountInString`. -/
def runeCountInString (v : Bytes) : ℕ := (runeStarts v.length 0 v).length

/-- A character of the value starts at `i`, or the value ends there. -/
def IsBoundary (v : Bytes) (i : ℕ) : Prop := i ∈ runeStarts v.length 0 v ∨ i = v.length

/-- `p` is the longest prefix of `v` of at most `chars` characters that is cut at a boundary. -/
structure LongestPrefix (chars : ℕ) (v p : Bytes) : Prop where
  cut : ∃ i, IsBoundary v i ∧ p = v.take i
  count : runeCountInString p ≤ chars
  longest : ∀ i, IsBoundary v i → runeCountInString (v.take i) ≤ chars →
    (v.take i).length ≤ p.length

/-- A prefix cut at a boundary has the characters that start before. -/
theorem runeCountInString_take {v : Bytes} {i : ℕ} (h : IsBoundary v i) :
    runeCountInString (v.take i) = (runeStarts v.length 0 v).countP (· < i) := by
  have hend : i ∈ runeStarts v.length 0 v ∨ i = 0 + v.length := by rwa [Nat.zero_add]
  rw [runeCountInString, countP_eq_length_filter,
    ← runeStarts_take (Nat.le_refl v.length) (Nat.le_refl _) hend]
  rfl

/-- In an ascending list, more than `n` numbers are below a bound if the one at place `n` is. -/
theorem lt_countP_iff {l : List ℕ} (h : l.Pairwise (· < ·)) {n i j : ℕ} (hj : l[n]? = some j) :
    n < l.countP (· < i) ↔ j < i := by
  induction l generalizing n with
  | nil => cases hj
  | cons a l ih =>
    obtain ⟨hlt, hl⟩ := pairwise_cons.mp h
    by_cases ha : a < i
    · rw [countP_cons, if_pos (decide_eq_true ha)]
      cases n with
      | zero =>
        cases hj
        exact iff_of_true (Nat.succ_pos _) ha
      | succ n => exact Nat.add_lt_add_iff_right.trans (ih hl hj)
    · -- No number of the list is below the bound.
      have hge : ∀ b ∈ a :: l, ¬ b < i := by
        intro b hb
        rcases mem_cons.mp hb with rfl | hb
        · exact ha
        · have hab := hlt b hb
          omega
      have hnone : (a :: l).countP (· < i) = 0 := by simpa using hge
      rw [hnone]
      exact iff_of_false (Nat.not_lt_zero n) (hge j (mem_of_getElem? hj))

/-- **`capTagValue`** cuts a value to its longest prefix of 256 characters. -/
theorem capTagValue_longest (v : Bytes) : LongestPrefix maxLabelValueChars v (capTagValue v) := by
  have hcount : (runeStarts v.length 0 v).length ≤ v.length := length_runeStarts_le _ _ _
  rw [capTagValue]
  split_ifs with hshort
  · have hle : runeCountInString v ≤ maxLabelValueChars := by
      rw [Bool.or_eq_true, decide_eq_true_eq, decide_eq_true_eq] at hshort
      exact hshort.elim hcount.trans id
    refine ⟨⟨v.length, .inr rfl, (take_length).symm⟩, hle, fun i _ _ => ?_⟩
    exact length_take_le' i v
  · have hlong : maxLabelValueChars < (runeStarts v.length 0 v).length := by
      rw [Bool.or_eq_true, decide_eq_true_eq, decide_eq_true_eq, not_or] at hshort
      exact Nat.lt_of_not_le hshort.2
    have hget := getElem?_eq_getElem hlong
    have hsorted := pairwise_runeStarts v.length 0 v
    have hboundary : IsBoundary v (runeStarts v.length 0 v)[maxLabelValueChars] :=
      .inl (getElem_mem hlong)
    rw [hget]
    refine ⟨⟨_, hboundary, rfl⟩, ?_, fun i hi hchars => ?_⟩
    · rw [runeCountInString_take hboundary]
      exact Nat.le_of_not_lt fun hlt => Nat.lt_irrefl _ ((lt_countP_iff hsorted hget).mp hlt)
    · rw [runeCountInString_take hi] at hchars
      have hle := Nat.le_of_not_lt (mt (lt_countP_iff hsorted hget).mpr (Nat.not_lt_of_le hchars))
      rw [length_take, length_take]
      omega

theorem capTagValue_capTagValue (v : Bytes) : capTagValue (capTagValue v) = capTagValue v := by
  have hcount := (capTagValue_longest v).count
  rw [capTagValue, if_pos]
  rw [Bool.or_eq_true, decide_eq_true_eq, decide_eq_true_eq]
  exact .inr hcount

end ConvoyStats.Cardinality
