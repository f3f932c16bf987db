import ConvoyStats.Library.NodupLists
import ConvoyStats.Prometheus.Exposition

/-!
# Writing the text exposition

`exporters/prometheus/exposition_write.go`.  `slices.SortStableFunc` and `sort.SliceStable`
are insertion sort, which is stable.  Finite numbers are written by `strconv.FormatFloat`,
which is given; counts are decimal numerals.
-/

namespace ConvoyStats.Prometheus

open List Models

/-- What `ErrInvalidFamily` is wrapped with. -/
inductive InvalidFamily
  | unsupportedType (name : Bytes) (typ : MetricType)
  | noData (name : Bytes)
  | lengths (name : Bytes) (bounds counts : ℕ)
  | notIncreasing (name : Bytes)
  deriving DecidableEq

/-- `MetricType.String`. -/
def typeString : MetricType → Bytes
  | .counter => text "counter"
  | .gauge => text "gauge"
  | .histogram => text "histogram"
  | .unknown => text "unknown"

/-! ### Samples -/

/-- `labelValueEscaper`. -/
def escapeByte (c : UInt8) : Bytes :=
  if c = 92 then [92, 92] else if c = 34 then [92, 34] else if c = 10 then [92, 110] else [c]

/-- `escapeLabelValue`. -/
def escapeLabelValue (v : Bytes) : Bytes := v.flatMap escapeByte

/-- `writeLabel`. -/
def writeLabel (l : Label) : Bytes := l.name ++ 61 :: 34 :: escapeLabelValue l.value ++ [34]

/-- The labels in braces, with a comma between two of them. -/
def writeLabels : List Label → Bytes
  | [] => []
  | l :: rest => 123 :: writeLabel l ++ (rest.flatMap fun l => 44 :: writeLabel l) ++ [125]

/-- `writeSample`. -/
def writeSample (name : Bytes) (labels : List Label) (extra : Option Label) (value : Bytes) :
    Bytes :=
  name ++ writeLabels (labels ++ extra.toList) ++ 32 :: value ++ [10]

/-! ### Histograms -/

variable (formatFloat : ℚ → Bytes)

/-- `formatValue`. -/
def formatValue : Float64 → Bytes
  | .nan => text "NaN"
  | .posInf => text "+Inf"
  | .negInf => text "-Inf"
  | .finite q => formatFloat q

/-- The label `le` of a bucket. -/
def leLabel (value : Bytes) : Label := ⟨text "le", value⟩

/-- The loop of `writeHistogram` over the bounds, with `cum` counted so far. -/
def writeBuckets (name : Bytes) (labels : List Label) : (cum : ℕ) → List ℚ → List ℕ → Bytes × ℕ
  | cum, b :: bounds, c :: counts =>
    let after := writeBuckets name labels (cum + c) bounds counts
    (writeSample (name ++ text "_bucket") labels (some (leLabel (formatFloat b)))
      (decimal (cum + c)) ++ after.1, after.2)
  | cum, _, counts => ([], cum + counts.headD 0)

/-- `writeHistogram`. -/
def writeHistogram (name : Bytes) (s : Series) : Except InvalidFamily Bytes :=
  match s.histogram with
  | none => .error (.noData name)
  | some h =>
    if h.counts.length ≠ h.bounds.length + 1 then
      .error (.lengths name h.bounds.length h.counts.length)
    else if ¬ h.bounds.IsChain (· < ·) then .error (.notIncreasing name)
    else
      let (buckets, cum) := writeBuckets formatFloat name s.labels 0 h.bounds h.counts
      .ok (buckets ++
        writeSample (name ++ text "_bucket") s.labels (some (leLabel (text "+Inf")))
          (decimal cum) ++
        writeSample (name ++ text "_sum") s.labels none (formatValue formatFloat h.sum) ++
        writeSample (name ++ text "_count") s.labels none (decimal cum))

/-! ### Families -/

/-- `strings.Compare`. -/
def compareBytes (a b : Bytes) : ℤ := if a = b then 0 else if a < b then -1 else 1

/-- `compareLabels`. -/
def compareLabels : List Label → List Label → ℤ
  | a :: as, b :: bs =>
    if compareBytes a.name b.name ≠ 0 then compareBytes a.name b.name
    else if compareBytes a.value b.value ≠ 0 then compareBytes a.value b.value
    else compareLabels as bs
  | as, bs => as.length - bs.length

/-- The order of the series: the second is not less than the first. -/
def SeriesLe (a b : Series) : Prop := 0 ≤ compareLabels b.labels a.labels

instance : DecidableRel SeriesLe := fun _ _ => inferInstanceAs (Decidable (_ ≤ _))

/-- The order of the families. -/
def FamilyLe (a b : Family) : Prop := a.name ≤ b.name

instance : DecidableRel FamilyLe := fun a b => inferInstanceAs (Decidable (a.name ≤ b.name))

/-- The series of a family, one after the other. -/
def writeSeries (f : Family) : List Series → Except InvalidFamily Bytes
  | [] => .ok []
  | s :: rest => do
      let written ←
        if f.type ≠ .histogram then
          .ok (writeSample f.name s.labels none (formatValue formatFloat s.value))
        else writeHistogram formatFloat f.name s
      let after ← writeSeries f rest
      return written ++ after

/-- `writeFamily`. -/
def writeFamily (f : Family) : Except InvalidFamily Bytes :=
  if f.type = .unknown then .error (.unsupportedType f.name f.type)
  else do
    let series ← writeSeries formatFloat f (f.series.insertionSort SeriesLe)
    return text "# TYPE " ++ f.name ++ 32 :: typeString f.type ++ 10 :: series

/-- The families, one after the other. -/
def writeAll : List Family → Except InvalidFamily Bytes
  | [] => .ok []
  | f :: rest => do
      let written ← writeFamily formatFloat f
      let after ← writeAll rest
      return written ++ after

/-- `WriteFamilies`: what is written, or the error with nothing written. -/
def writeFamilies (families : List Family) : Except InvalidFamily Bytes :=
  writeAll formatFloat (families.insertionSort FamilyLe)

/-! ### The order does not matter -/

/-- The names and values of a list of labels, in order. -/
def labelTexts (labels : List Label) : List Bytes := labels.flatMap fun l => [l.name, l.value]

theorem labelTexts_injective : Function.Injective labelTexts := by
  intro as
  induction as with
  | nil =>
    intro bs h
    cases bs with
    | nil => rfl
    | cons b bs => cases h
  | cons a as ih =>
    intro bs h
    cases bs with
    | nil => cases h
    | cons b bs =>
      simp only [labelTexts, flatMap_cons, cons_append, nil_append,
        List.cons.injEq] at h
      obtain ⟨hname, hvalue, hrest⟩ := h
      have hlabel : a = b := by
        cases a
        cases b
        cases hname
        cases hvalue
        rfl
      rw [hlabel, ih hrest]

theorem compareBytes_neg {a b : Bytes} : compareBytes a b < 0 ↔ a < b := by
  rw [compareBytes]
  split_ifs with heq hlt
  · subst heq
    simp [List.lt_irrefl]
  · simp [hlt]
  · simp [hlt]

theorem compareBytes_eq_zero {a b : Bytes} : compareBytes a b = 0 ↔ a = b := by
  rw [compareBytes]
  split_ifs with heq hlt
  · simp [heq]
  · simp [heq]
  · simp [heq]

/-- `compareLabels` is the lexicographic order of the names and values. -/
theorem compareLabels_neg (as bs : List Label) :
    compareLabels as bs < 0 ↔ labelTexts as < labelTexts bs := by
  fun_induction compareLabels as bs with
  | case1 a as b bs hname =>
    have hne : a.name ≠ b.name := fun h => hname (compareBytes_eq_zero.mpr h)
    simp [labelTexts, compareBytes_neg, cons_lt_cons_iff, hne]
  | case2 a as b bs hname hvalue =>
    have heq : a.name = b.name := compareBytes_eq_zero.mp (not_not.mp hname)
    have hne : a.value ≠ b.value := fun h => hvalue (compareBytes_eq_zero.mpr h)
    simp [labelTexts, compareBytes_neg, cons_lt_cons_iff, heq, hne]
  | case3 a as b bs hname hvalue ih =>
    have heq : a.name = b.name := compareBytes_eq_zero.mp (not_not.mp hname)
    have heq' : a.value = b.value := compareBytes_eq_zero.mp (not_not.mp hvalue)
    rw [ih]
    simp [labelTexts, heq, heq']
  | case4 as bs hshort =>
    cases as with
    | nil =>
      cases bs with
      | nil => simp [labelTexts]
      | cons b bs => simp [labelTexts]; omega
    | cons a as =>
      cases bs with
      | nil => simp [labelTexts]; omega
      | cons b bs => exact absurd rfl (hshort a as b bs rfl)

theorem seriesLe_iff {a b : Series} : SeriesLe a b ↔ labelTexts a.labels ≤ labelTexts b.labels := by
  rw [SeriesLe, ← not_lt, compareLabels_neg, List.not_lt]

instance : Std.Total SeriesLe :=
  ⟨fun a b => by simpa only [seriesLe_iff] using List.le_total _ _⟩

instance : IsTrans Series SeriesLe :=
  ⟨fun a b c => by simpa only [seriesLe_iff] using List.le_trans⟩

instance : Std.Total FamilyLe := ⟨fun _ _ => List.le_total _ _⟩

instance : IsTrans Family FamilyLe := ⟨fun _ _ _ => List.le_trans⟩

/-- Two series of one order have the same labels. -/
theorem labels_eq_of_seriesLe {a b : Series} (hab : SeriesLe a b) (hba : SeriesLe b a) :
    a.labels = b.labels :=
  labelTexts_injective (List.le_antisymm (seriesLe_iff.mp hab) (seriesLe_iff.mp hba))

/-- The same family, its series in any order. -/
structure SameFamily (f g : Family) : Prop where
  name : f.name = g.name
  type : f.type = g.type
  series : f.series.Perm g.series

/-- The same families, in any order, with their series in any order. -/
def SameFamilies (fs gs : List Family) : Prop := ∃ hs, fs.Perm hs ∧ Forall₂ SameFamily hs gs

/-- Families that a sort puts into one order: no two have one name, and no two series of one
family have the same labels. -/
structure Distinct (fs : List Family) : Prop where
  names : (fs.map Family.name).Nodup
  labels : ∀ f ∈ fs, (f.series.map Series.labels).Nodup

theorem writeFamily_congr {f g : Family} (h : SameFamily f g)
    (hlabels : (f.series.map Series.labels).Nodup) :
    writeFamily formatFloat f = writeFamily formatFloat g := by
  have hsort : f.series.insertionSort SeriesLe = g.series.insertionSort SeriesLe :=
    insertionSort_eq_of_perm h.series fun a ha b hb hab hba =>
      inj_on_of_nodup_map hlabels ha hb (labels_eq_of_seriesLe hab hba)
  have hseries : ∀ ss, writeSeries formatFloat f ss = writeSeries formatFloat g ss := by
    intro ss
    induction ss with
    | nil => rfl
    | cons s ss ih => rw [writeSeries, writeSeries, ih, h.name, h.type]
  rw [writeFamily, writeFamily, hsort, hseries, h.name, h.type]

theorem forall₂_orderedInsert {f g : Family} {fs gs : List Family} (hfg : SameFamily f g)
    (h : Forall₂ SameFamily fs gs) :
    Forall₂ SameFamily (fs.orderedInsert FamilyLe f) (gs.orderedInsert FamilyLe g) := by
  induction h with
  | nil => exact .cons hfg .nil
  | @cons a b _ _ hab hrest ih =>
    have hiff : FamilyLe f a ↔ FamilyLe g b := by
      rw [FamilyLe, FamilyLe, hfg.name, hab.name]
    rw [orderedInsert, orderedInsert]
    by_cases hle : FamilyLe f a
    · rw [if_pos hle, if_pos (hiff.mp hle)]
      exact .cons hfg (.cons hab hrest)
    · rw [if_neg hle, if_neg (mt hiff.mpr hle)]
      exact .cons hab ih

theorem forall₂_insertionSort {fs gs : List Family} (h : Forall₂ SameFamily fs gs) :
    Forall₂ SameFamily (fs.insertionSort FamilyLe) (gs.insertionSort FamilyLe) := by
  induction h with
  | nil => exact .nil
  | cons hfg hrest ih => exact forall₂_orderedInsert hfg ih

theorem writeAll_congr {fs gs : List Family} (h : Forall₂ SameFamily fs gs)
    (hlabels : ∀ f ∈ fs, (f.series.map Series.labels).Nodup) :
    writeAll formatFloat fs = writeAll formatFloat gs := by
  induction h with
  | nil => rfl
  | @cons f g _ _ hfg _ ih =>
    rw [writeAll, writeAll, writeFamily_congr formatFloat hfg (hlabels f (mem_cons_self ..)),
      ih fun f' hf' => hlabels f' (mem_cons_of_mem _ hf')]

/-- **The text does not depend on the order of the families and series.** -/
theorem writeFamilies_congr {fs gs : List Family} (h : SameFamilies fs gs) (hfs : Distinct fs) :
    writeFamilies formatFloat fs = writeFamilies formatFloat gs := by
  obtain ⟨hs, hperm, hsame⟩ := h
  have hsort : fs.insertionSort FamilyLe = hs.insertionSort FamilyLe :=
    insertionSort_eq_of_perm hperm fun a ha b hb hab hba =>
      inj_on_of_nodup_map hfs.names ha hb (List.le_antisymm hab hba)
  rw [writeFamilies, hsort]
  refine writeAll_congr formatFloat (forall₂_insertionSort hsame) fun f hf => ?_
  exact hfs.labels f (hperm.mem_iff.mpr ((perm_insertionSort _ _).mem_iff.mp hf))

end ConvoyStats.Prometheus
