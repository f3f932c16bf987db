import ConvoyStats.Library.Splitting
import ConvoyStats.Otlp.Histograms
import ConvoyStats.Prometheus.Faithful

/-!
# What the exposed values are

While every observation is accepted and no series expires, a series of the store is what its
own observations make of it: `Summarizes`.  An observation belongs to the series of its family
and exposed labels; that the store finds that series under the key of the labels needs the key
to determine them (`eq_of_labelsKey_eq`).

The cumulative samples of a histogram count the observations up to each bound, and its
per-bucket counts are those of the OTLP histogram of the same values.
-/

namespace ConvoyStats.Prometheus

open List Models

/-! ### Keys -/

theorem notMem_decimal {c : UInt8} (hc : Cardinality.isTagDigit c = false) (n : ℕ) :
    c ∉ decimal n := by
  intro h
  rw [isTagDigit_of_mem_decimal h] at hc
  cases hc

/-- A text with its length before it ends where it ends. -/
theorem eq_of_counted_eq {a b x y : Bytes}
    (h : decimal a.length ++ 58 :: (a ++ x) = decimal b.length ++ 58 :: (b ++ y)) :
    a = b ∧ x = y := by
  obtain ⟨hlength, hrest⟩ := eq_and_eq_of_append_cons_eq (notMem_decimal rfl _)
    (notMem_decimal rfl _) h
  exact append_inj hrest (decimal_injective hlength)

/-- **The key of a list of labels determines it.** -/
theorem eq_of_labelsKey_eq {as bs : List Label} (h : labelsKey as = labelsKey bs) : as = bs := by
  have hcons : ∀ (l : Label) (ls : List Label), labelsKey (l :: ls) =
      decimal l.name.length ++ 58 :: (l.name ++ 61 ::
        (decimal l.value.length ++ 58 :: (l.value ++ 59 :: labelsKey ls))) := by
    intro l ls
    simp [labelsKey]
  induction as generalizing bs with
  | nil =>
    cases bs with
    | nil => rfl
    | cons b bs =>
      rw [hcons] at h
      simp [labelsKey] at h
  | cons a as ih =>
    cases bs with
    | nil =>
      rw [hcons] at h
      simp [labelsKey] at h
    | cons b bs =>
      rw [hcons, hcons] at h
      obtain ⟨hname, hrest⟩ := eq_of_counted_eq h
      obtain ⟨hvalue, hrest⟩ := eq_of_counted_eq (List.cons.inj hrest).2
      have hlabel : a = b := by
        cases a
        cases b
        cases hname
        cases hvalue
        rfl
      rw [hlabel, ih (List.cons.inj hrest).2]

/-- **Series identity is injective.**  Lists of labels with equal keys are equal, whatever bytes
their names and values have, so that in every reachable store the series found under the key of some
labels has these labels. -/
theorem series_identity_injective :
    Function.Injective labelsKey ∧
      ∀ {Other : Type} {cfg : HandlerConfig Other} {h : Handler}, (store cfg).Reach h →
        ∀ {name fam labels s}, h.families.lookup name = some fam →
          fam.series.lookup (labelsKey labels) = some s → s.labels = labels := by
  refine ⟨fun _ _ => eq_of_labelsKey_eq, ?_⟩
  intro Other cfg h hreach name fam labels s hfam hs
  exact (eq_of_labelsKey_eq (((valid_of_reach hreach).families hfam).series hs).1).symm

/-- One label whose value spells out a second one. -/
theorem series_identity_injective_spelled_out :
    labelsKey [⟨text "a", text "1;1:b=1:2"⟩] ≠
      labelsKey [⟨text "a", text "1"⟩, ⟨text "b", text "2"⟩] :=
  fun h => absurd (series_identity_injective.1 h) (by decide)

/-! ### Buckets -/

theorem le_finite_trans {v : Float64} {p q : ℚ} (h : v ≤ .finite p) (hpq : p ≤ q) :
    v ≤ .finite q := by
  cases v with
  | nan => cases h
  | negInf => trivial
  | finite r => exact le_trans h hpq
  | posInf => cases h

theorem getElem_le_of_chain {bounds : List ℚ} (hbounds : bounds.IsChain (· < ·)) {i j : ℕ}
    (hij : i ≤ j) (hj : j < bounds.length) : bounds[i] ≤ bounds[j] := by
  rcases hij.eq_or_lt with rfl | hlt
  · exact le_rfl
  · exact (pairwise_iff_getElem.mp (isChain_iff_pairwise.mp hbounds) i j _ hj hlt).le

/-- **Binary search finds the bucket.** -/
theorem searchFloat64s_eq {bounds : List ℚ} (hbounds : bounds.IsChain (· < ·)) (v : Float64) :
    searchFloat64s bounds v = bucketOf bounds v := by
  refine BinarySearch.search_eq_findIdx bounds _ _ ?_ ?_
  · intro i hi
    rw [getD_eq_getElem _ _ hi]
  · intro i j hij hj hi
    rw [getD_eq_getElem _ _ (hij.trans_lt hj), decide_eq_true_iff] at hi
    rw [getD_eq_getElem _ _ hj, decide_eq_true_iff]
    exact le_finite_trans hi (getElem_le_of_chain hbounds hij hj)

/-- A value is in a bucket up to a bound if it does not exceed it. -/
theorem bucketOf_le_iff {bounds : List ℚ} (hbounds : bounds.IsChain (· < ·)) {v : Float64} {i : ℕ}
    (hi : i < bounds.length) : bucketOf bounds v < i + 1 ↔ v ≤ .finite bounds[i] := by
  rw [Nat.lt_succ_iff]
  constructor
  · intro hle
    have hlt : bucketOf bounds v < bounds.length := hle.trans_lt hi
    have hfound := findIdx_getElem (w := hlt)
    rw [decide_eq_true_iff] at hfound
    exact le_finite_trans hfound (getElem_le_of_chain hbounds hle hi)
  · intro hv
    by_contra hlt
    have hnot := not_of_lt_findIdx (not_le.mp hlt)
    exact absurd (decide_eq_true hv) (by simpa using hnot)

/-! ### Series -/

variable {Other : Type}

/-- How many of the observations are in each bucket. -/
def bucketCounts (bounds : List ℚ) (own : List (TextMetric Other)) : List ℕ :=
  (range (bounds.length + 1)).map fun i => own.countP fun m => bucketOf bounds m.value = i

/-- `m` is the newest of the observations, and the first of the newest. -/
def Newest (own : List (TextMetric Other)) (m : TextMetric Other) : Prop :=
  ∃ before after, own = before ++ m :: after ∧ (∀ x ∈ before, x.timestamp < m.timestamp) ∧
    ∀ x ∈ after, x.timestamp ≤ m.timestamp

/-- A series is what its observations make of it. -/
structure Summarizes (typ : MetricType) (bounds : List ℚ) (own : List (TextMetric Other))
    (s : StoreSeries) : Prop where
  counter : typ = .counter → s.value = (own.map (·.value)).sum
  gauge : typ = .gauge → ∃ m, Newest own m ∧ s.value = m.value ∧ s.gaugeTime = m.timestamp
  counts : typ = .histogram → s.counts = bucketCounts bounds own
  sum : typ = .histogram → s.sum = (own.map (·.value)).sum

theorem Newest.single (m : TextMetric Other) : Newest [m] m := ⟨[], [], rfl, nofun, nofun⟩

/-- One more observation that is not newer. -/
theorem Newest.keep {own : List (TextMetric Other)} {m x : TextMetric Other} (h : Newest own m)
    (hx : x.timestamp ≤ m.timestamp) : Newest (own ++ [x]) m := by
  obtain ⟨before, after, rfl, hbefore, hafter⟩ := h
  refine ⟨before, after ++ [x], by simp, hbefore, fun y hy => ?_⟩
  rcases mem_append.mp hy with hy | hy
  · exact hafter y hy
  · rw [mem_singleton.mp hy]
    exact hx

/-- One more observation that is newer. -/
theorem Newest.replace {own : List (TextMetric Other)} {m x : TextMetric Other} (h : Newest own m)
    (hx : m.timestamp < x.timestamp) : Newest (own ++ [x]) x := by
  obtain ⟨before, after, rfl, hbefore, hafter⟩ := h
  refine ⟨before ++ m :: after, [], rfl, fun y hy => ?_, nofun⟩
  rcases mem_append.mp hy with hy | hy
  · exact (hbefore y hy).trans hx
  · rcases mem_cons.mp hy with rfl | hy
    · exact hx
    · exact (hafter y hy).trans_lt hx

theorem bucketCounts_append {bounds : List ℚ} (hbounds : bounds.IsChain (· < ·))
    (own : List (TextMetric Other)) (m : TextMetric Other) :
    (bucketCounts bounds own).modify (searchFloat64s bounds m.value) (· + 1) =
      bucketCounts bounds (own ++ [m]) := by
  rw [searchFloat64s_eq hbounds]
  refine ext_getElem (by simp [bucketCounts]) fun i hi hi' => ?_
  simp only [bucketCounts, getElem_modify, getElem_map, getElem_range,
    countP_append, countP_singleton, decide_eq_true_eq]
  split <;> rfl

/-- **One more observation of a series.** -/
theorem Summarizes.apply {bounds : List ℚ} {own : List (TextMetric Other)} {s : StoreSeries}
    {m : TextMetric Other} (h : Summarizes m.type bounds own s)
    (hbounds : m.type = .histogram → bounds.IsChain (· < ·)) (now : Time) :
    Summarizes m.type bounds (own ++ [m]) (s.apply bounds m now) where
  counter ht := by
    rw [StoreSeries.apply, ht]
    dsimp only
    rw [h.counter ht, map_append, sum_append, map_singleton, sum_singleton]
  gauge ht := by
    obtain ⟨x, hnewest, hvalue, htime⟩ := h.gauge ht
    rw [StoreSeries.apply, ht]
    dsimp only
    split
    · rename_i hlater
      exact ⟨m, hnewest.replace (htime ▸ hlater), rfl, rfl⟩
    · rename_i hlater
      exact ⟨x, hnewest.keep (htime ▸ not_lt.mp hlater), hvalue, htime⟩
  counts ht := by
    rw [StoreSeries.apply, ht]
    dsimp only
    rw [h.counts ht, bucketCounts_append (hbounds ht)]
  sum ht := by
    rw [StoreSeries.apply, ht]
    dsimp only
    rw [h.sum ht, map_append, sum_append, map_singleton, sum_singleton]

/-- **The first observation of a series.** -/
theorem Summarizes.first {fam : StoreFamily} {labels : List Label} {m : TextMetric Other}
    (hbounds : m.type = .histogram → fam.bounds.IsChain (· < ·)) (now : Time) :
    Summarizes m.type fam.bounds [m] ((newSeries fam labels m).apply fam.bounds m now) where
  counter ht := by
    rw [StoreSeries.apply, newSeries, ht]
    simp
  gauge ht := by
    refine ⟨m, .single m, ?_⟩
    rw [StoreSeries.apply, newSeries, ht]
    simp
  counts ht := by
    have hempty : replicate (fam.bounds.length + 1) 0 =
        bucketCounts fam.bounds ([] : List (TextMetric Other)) := by
      simp [bucketCounts, map_const']
    rw [StoreSeries.apply, newSeries, ht]
    dsimp only
    rw [if_pos rfl, hempty, bucketCounts_append (hbounds ht)]
    rfl
  sum ht := by
    rw [StoreSeries.apply, newSeries, ht]
    simp

/-! ### The store -/

variable (cfg : HandlerConfig Other)

/-- The observation is one of the series with these labels in this family. -/
def HandlerConfig.Belongs (family : Bytes) (labels : List Label) (m : TextMetric Other) : Prop :=
  cfg.familyOf m = family ∧ cfg.labelsOf m = .ok labels

instance (family : Bytes) (labels : List Label) :
    DecidablePred (cfg.Belongs family labels) := fun _ => inferInstanceAs (Decidable (_ ∧ _))

/-- The observations of a series. -/
def HandlerConfig.own (family : Bytes) (labels : List Label) (obs : List (TextMetric Other)) :
    List (TextMetric Other) :=
  obs.filter (cfg.Belongs family labels)

/-- **The invariant**: the series of the store are those of the observations, and each is what
its own observations make of it. -/
structure Recorded (h : Handler) (obs : List (TextMetric Other)) : Prop where
  valid : h.Valid
  series : ∀ {name fam key s}, h.families.lookup name = some fam →
    fam.series.lookup key = some s → cfg.own name s.labels obs ≠ [] ∧
      Summarizes fam.typ fam.bounds (cfg.own name s.labels obs) s
  stored : ∀ m ∈ obs, ∃ labels fam, cfg.labelsOf m = .ok labels ∧
    h.families.lookup (cfg.familyOf m) = some fam ∧ (fam.series.lookup (labelsKey labels)).isSome

variable {cfg}

theorem Recorded.zero : Recorded cfg .zero [] where
  valid := .zero
  series h := by cases h
  stored m hm := by cases hm

theorem own_append_same {family : Bytes} {labels : List Label} {obs : List (TextMetric Other)}
    {m : TextMetric Other} (h : cfg.Belongs family labels m) :
    cfg.own family labels (obs ++ [m]) = cfg.own family labels obs ++ [m] := by
  simp [HandlerConfig.own, filter_append, h]

theorem own_append_other {family : Bytes} {labels : List Label} {obs : List (TextMetric Other)}
    {m : TextMetric Other} (h : ¬ cfg.Belongs family labels m) :
    cfg.own family labels (obs ++ [m]) = cfg.own family labels obs := by
  simp [HandlerConfig.own, filter_append, h]

variable {h : Handler} {obs : List (TextMetric Other)}

section

variable (hr : Recorded cfg h obs)
include hr

/-- A series that the store does not have has no observations. -/
theorem Recorded.own_eq_nil {m : TextMetric Other} {labels : List Label}
    {fam : StoreFamily} (hfam : h.family cfg (cfg.familyOf m) m = .ok fam)
    (hnone : fam.series.lookup (labelsKey labels) = none) :
    cfg.own (cfg.familyOf m) labels obs = [] := by
  rw [HandlerConfig.own, filter_eq_nil_iff]
  intro x hx hbelongs
  obtain ⟨hname, hlabels⟩ := of_decide_eq_true hbelongs
  obtain ⟨labels', fam', hlabels', hfam', hsome⟩ := hr.stored x hx
  obtain rfl := Except.ok.inj (hlabels.symm.trans hlabels')
  rw [hname] at hfam'
  rcases family_cases hfam with hold | ⟨hnew, -⟩
  · obtain rfl := Option.some.inj (hold.symm.trans hfam')
    rw [hnone] at hsome
    cases hsome
  · rw [hnew] at hfam'
    cases hfam'

/-- A series other than that of the observation has the observations it had. -/
theorem Recorded.other {m : TextMetric Other} {labels : List Label}
    (hlabels : cfg.labelsOf m = .ok labels) {name key : Bytes} {s : StoreSeries}
    (hne : name ≠ cfg.familyOf m ∨ key ≠ labelsKey labels) {fam : StoreFamily}
    (hfam : h.families.lookup name = some fam) (hs : fam.series.lookup key = some s) :
    cfg.own name s.labels (obs ++ [m]) ≠ [] ∧
      Summarizes fam.typ fam.bounds (cfg.own name s.labels (obs ++ [m])) s := by
  rw [own_append_other]
  · exact hr.series hfam hs
  · rintro ⟨hname, hlabels'⟩
    obtain rfl := Except.ok.inj (hlabels.symm.trans hlabels')
    rcases hne with hne | hne
    · exact hne hname.symm
    · exact hne ((hr.valid.families hfam).series hs).1

/-- The series of the observation has one more. -/
theorem Recorded.put {m : TextMetric Other} {labels : List Label}
    {fam : StoreFamily} (hlabels : cfg.labelsOf m = .ok labels)
    (hfam : h.family cfg (cfg.familyOf m) m = .ok fam) (hvalid : fam.Valid)
    (htyp : fam.typ = m.type) {now : Time} {s : StoreSeries}
    (hs : (fam.put labels m now).series.lookup (labelsKey labels) = some s) :
    cfg.own (cfg.familyOf m) s.labels (obs ++ [m]) ≠ [] ∧
      Summarizes fam.typ fam.bounds (cfg.own (cfg.familyOf m) s.labels (obs ++ [m])) s := by
  have hbounds : m.type = .histogram → fam.bounds.IsChain (· < ·) := fun ht =>
    (hvalid.bounds (htyp ▸ ht)).2
  have hgoal : ∀ s', s'.labels = labels →
      Summarizes m.type fam.bounds (cfg.own (cfg.familyOf m) labels obs ++ [m]) s' →
      cfg.own (cfg.familyOf m) s'.labels (obs ++ [m]) ≠ [] ∧
        Summarizes fam.typ fam.bounds (cfg.own (cfg.familyOf m) s'.labels (obs ++ [m])) s' := by
    intro s' hs' hsum
    rw [hs', own_append_same ⟨rfl, hlabels⟩, htyp]
    exact ⟨by simp, hsum⟩
  rw [StoreFamily.put, AList.lookup_insert, Option.some.injEq] at hs
  cases hold : fam.series.lookup (labelsKey labels) with
  | none =>
    rw [hold, Option.getD_none] at hs
    subst hs
    refine hgoal _ (by simp [newSeries]) ?_
    rw [hr.own_eq_nil hfam hold, nil_append]
    exact .first hbounds now
  | some t =>
    rw [hold, Option.getD_some] at hs
    subst hs
    have ht : t.labels = labels := (eq_of_labelsKey_eq (hvalid.series hold).1).symm
    have hfamily : h.families.lookup (cfg.familyOf m) = some fam := by
      rcases family_cases hfam with hfamily | ⟨-, -, hempty, -⟩
      · exact hfamily
      · rw [hempty] at hold
        cases hold
    refine hgoal _ (by simpa using ht) ?_
    have hsum := (hr.series hfamily hold).2
    rw [htyp, ht] at hsum
    exact hsum.apply hbounds now

/-- An observation that has its series keeps it. -/
theorem Recorded.stored_put {m x : TextMetric Other}
    {labels : List Label} {fam : StoreFamily}
    (hfam : h.family cfg (cfg.familyOf m) m = .ok fam) (now : Time) (hx : x ∈ obs) :
    ∃ labels' fam', cfg.labelsOf x = .ok labels' ∧
      (h.families.insert (cfg.familyOf m) (fam.put labels m now)).lookup (cfg.familyOf x) =
        some fam' ∧ (fam'.series.lookup (labelsKey labels')).isSome := by
  obtain ⟨labels', fam', hlabels', hfam', hsome⟩ := hr.stored x hx
  by_cases hname : cfg.familyOf x = cfg.familyOf m
  · rw [hname] at hfam' ⊢
    refine ⟨labels', fam.put labels m now, hlabels', AList.lookup_insert _, ?_⟩
    by_cases hkey : labelsKey labels' = labelsKey labels
    · rw [hkey, StoreFamily.put, AList.lookup_insert]
      rfl
    · rw [StoreFamily.put, AList.lookup_insert_ne hkey]
      rcases family_cases hfam with hfamily | ⟨hnew, -⟩
      · rwa [Option.some.inj (hfamily.symm.trans hfam')]
      · rw [hnew] at hfam'
        cases hfam'
  · exact ⟨labels', fam', hlabels', (AList.lookup_insert_ne hname).trans hfam', hsome⟩

/-- **An accepted observation is one more of its series.** -/
theorem Recorded.observe {m : TextMetric Other} {now : Time}
    {h' : Handler} (hobs : Observed cfg h m now h' none) : Recorded cfg h' (obs ++ [m]) := by
  have hvalid' := hr.valid.observed hobs
  cases hobs with
  | @accepted labels fam _ htype _ hlabels hregister hfam =>
    obtain ⟨hvalid, htyp⟩ := hr.valid.family htype hregister hfam
    refine ⟨hvalid', fun {name fam' key s} hfam' hs => ?_, fun x hx => ?_⟩
    · by_cases hname : name = cfg.familyOf m
      · subst hname
        rw [AList.lookup_insert, Option.some.injEq] at hfam'
        subst hfam'
        by_cases hkey : key = labelsKey labels
        · subst hkey
          exact hr.put hlabels hfam hvalid htyp hs
        · rw [StoreFamily.put, AList.lookup_insert_ne hkey] at hs
          rcases family_cases hfam with hfamily | ⟨-, -, hempty, -⟩
          · have hseries := hr.other hlabels (.inr hkey) hfamily hs
            exact hseries
          · rw [hempty] at hs
            cases hs
      · rw [AList.lookup_insert_ne hname] at hfam'
        exact hr.other hlabels (.inl hname) hfam' hs
    · rcases mem_append.mp hx with hx | hx
      · exact hr.stored_put hfam now hx
      · rw [mem_singleton.mp hx]
        refine ⟨labels, fam.put labels m now, hlabels, AList.lookup_insert _, ?_⟩
        rw [StoreFamily.put, AList.lookup_insert]
        rfl

/-- The metrics of a batch that are all accepted. -/
theorem Recorded.observeAll {ms : List (TextMetric Other)} {now : Time}
    (hall : (h.observeAll cfg ms now).2 = []) :
    Recorded cfg (h.observeAll cfg ms now).1 (obs ++ ms) := by
  induction ms generalizing h obs with
  | nil =>
    rw [append_nil]
    exact hr
  | cons m ms ih =>
    rw [Handler.observeAll, append_eq_nil_iff, Option.toList_eq_nil_iff] at hall
    have hobs := Observed.of_observe cfg h m now
    rw [hall.1] at hobs
    have hrest := ih (hr.observe hobs) hall.2
    rwa [append_assoc, singleton_append] at hrest

end

/-- No series of the store is older than the cutoff. -/
def Handler.Fresh (h : Handler) (cutoff : Time) : Prop :=
  ∀ {name fam key s}, h.families.lookup name = some fam → fam.series.lookup key = some s →
    cutoff ≤ s.updated

/-- A scrape that lets no series expire. -/
theorem Recorded.snapshot (hr : Recorded cfg h obs) {clock : Time}
    (hfresh : h.Fresh (clock - cfg.timeout)) : Recorded cfg (h.snapshot cfg clock).1 obs where
  valid := hr.valid.snapshot clock
  series hfam hs := by
    rw [Handler.lookup_snapshot] at hfam
    obtain ⟨fam, hold, rfl⟩ := Option.map_eq_some_iff.mp hfam
    rw [StoreFamily.live, AList.lookup_filterValues, Option.filter_eq_some_iff] at hs
    have hseries := hr.series hold hs.1
    exact hseries
  stored m hm := by
    obtain ⟨labels, fam, hlabels, hfam, hsome⟩ := hr.stored m hm
    refine ⟨labels, { fam with series := fam.live (clock - cfg.timeout) }, hlabels, ?_, ?_⟩
    · rw [Handler.lookup_snapshot, hfam]
      rfl
    · obtain ⟨s, hs⟩ := Option.isSome_iff_exists.mp hsome
      have hlive : ¬ s.updated < clock - cfg.timeout := not_lt.mpr (hfresh hfam hs)
      rw [StoreFamily.live, AList.lookup_filterValues, hs]
      simp [hlive]

/-! ### Cumulative samples -/

theorem sum_countP_eq {α : Type*} (l : List α) (f : α → ℕ) (k : ℕ) :
    ((range k).map fun i => l.countP fun x => f x = i).sum = l.countP fun x => f x < k := by
  induction k with
  | zero => simp
  | succ k ih =>
    rw [range_succ, map_append, sum_append, ih, map_singleton,
      sum_singleton]
    clear ih
    induction l with
    | nil => rfl
    | cons x l ih =>
      simp only [countP_cons, decide_eq_true_eq] at ih ⊢
      rcases lt_trichotomy (f x) k with hlt | heq | hgt
      · simp only [hlt, hlt.ne, Nat.lt_succ_of_lt hlt, if_true, if_false]
        omega
      · simp only [heq, lt_irrefl, Nat.lt_succ_self, if_true, if_false]
        omega
      · simp only [hgt.not_gt, hgt.ne', Nat.not_lt.mpr (Nat.succ_le_of_lt hgt), if_false]
        omega

/-- The samples of a histogram series, one by one. -/
theorem bucketSamples_eq (formatFloat : ℚ → Bytes) (name : Bytes) (labels : List Label)
    (sum : Float64) (cum : ℕ) {bounds : List ℚ} {counts : List ℕ}
    (hlength : counts.length = bounds.length + 1) :
    bucketSamples formatFloat name labels sum cum bounds counts =
      ((range bounds.length).map fun i =>
        (⟨name ++ text "_bucket", labels ++ [leLabel (formatFloat (bounds.getD i 0))],
          .finite (cum + (counts.take (i + 1)).sum : ℕ)⟩ : Sample)) ++
      [⟨name ++ text "_bucket", labels ++ [leLabel (text "+Inf")], .finite (cum + counts.sum : ℕ)⟩,
        ⟨name ++ text "_sum", labels, sum⟩,
        ⟨name ++ text "_count", labels, .finite (cum + counts.sum : ℕ)⟩] := by
  induction bounds generalizing cum counts with
  | nil =>
    obtain ⟨c, rfl⟩ := length_eq_one_iff.mp hlength
    simp [bucketSamples]
  | cons b bounds ih =>
    obtain ⟨c, counts, rfl⟩ := exists_cons_of_length_eq_add_one hlength
    rw [bucketSamples, ih (cum + c) (Nat.succ_injective hlength), length_cons,
      range_succ_eq_map, map_cons, map_map, cons_append]
    simp [Function.comp_def, add_assoc]

/-- How many observations do not exceed a bound. -/
def countUpTo (own : List (TextMetric Other)) (b : ℚ) : ℕ := own.countP fun m => m.value ≤ .finite b

/-- **The cumulative samples count the observations up to each bound.** -/
theorem bucketSamples_bucketCounts (formatFloat : ℚ → Bytes) (name : Bytes) (labels : List Label)
    (sum : Float64) {bounds : List ℚ} (hbounds : bounds.IsChain (· < ·))
    (own : List (TextMetric Other)) :
    bucketSamples formatFloat name labels sum 0 bounds (bucketCounts bounds own) =
      (bounds.map fun b => (⟨name ++ text "_bucket", labels ++ [leLabel (formatFloat b)],
        .finite (countUpTo own b)⟩ : Sample)) ++
      [⟨name ++ text "_bucket", labels ++ [leLabel (text "+Inf")], .finite own.length⟩,
        ⟨name ++ text "_sum", labels, sum⟩,
        ⟨name ++ text "_count", labels, .finite own.length⟩] := by
  have htotal : (bucketCounts bounds own).sum = own.length := by
    rw [bucketCounts, sum_countP_eq, countP_eq_length]
    exact fun m _ => decide_eq_true (bucketOf_lt bounds m.value)
  rw [bucketSamples_eq _ _ _ _ _ (by simp [bucketCounts]), htotal]
  simp only [Nat.zero_add]
  congr 1
  refine ext_getElem (by simp) fun i hi hi' => ?_
  have hi : i < bounds.length := by simpa using hi
  have hcum : ((bucketCounts bounds own).take (i + 1)).sum = countUpTo own bounds[i] := by
    rw [bucketCounts, ← map_take, take_range, min_eq_left (by omega), sum_countP_eq,
      countUpTo]
    refine countP_congr fun m _ => ?_
    rw [decide_eq_true_iff, decide_eq_true_iff]
    exact bucketOf_le_iff hbounds hi
  simp only [getElem_map, getElem_range, getD_eq_getElem _ _ hi, hcum]

/-- The counts up to the bounds do not go down, and the last is at most all. -/
theorem pairwise_countUpTo {bounds : List ℚ} (hbounds : bounds.IsChain (· < ·))
    (own : List (TextMetric Other)) :
    (bounds.map (countUpTo own) ++ [own.length]).Pairwise (· ≤ ·) := by
  rw [pairwise_append, pairwise_map]
  refine ⟨(isChain_iff_pairwise.mp hbounds).imp fun hlt => ?_, pairwise_singleton _ _, ?_⟩
  · refine countP_mono_left fun m _ hm => ?_
    rw [decide_eq_true_iff] at hm ⊢
    exact le_finite_trans hm hlt.le
  · intro n hn total htotal
    obtain ⟨b, -, rfl⟩ := mem_map.mp hn
    rw [mem_singleton.mp htotal]
    exact countP_le_length

/-! ### Runs -/

variable (cfg) in
/-- Every observation of the step is accepted, and no series expires. -/
def Complete (h : Handler) : StoreLabel Other → Prop
  | .export metrics now => (h.export cfg metrics now).2 = []
  | .scrape clock => h.Fresh (clock - cfg.timeout)

/-- The observations of a step. -/
def exportedBy (_ : Handler) : StoreLabel Other → List (TextMetric Other)
  | .export metrics _ => metrics.filterMap id
  | .scrape _ => []

/-- **Along a complete run the store is what was exported.** -/
theorem recorded_of_reachable {p : Handler × List (TextMetric Other)}
    (hrun : ((store cfg).recording exportedBy).Reachable (fun p l => Complete cfg p.1 l) p) :
    Recorded cfg p.1 p.2 := by
  refine hrun.invariant (I := fun p => Recorded cfg p.1 p.2) .zero ?_
  rintro ⟨h, obs⟩ l ⟨h', obs'⟩ - hr hcomplete hstep
  cases l with
  | «export» metrics now =>
    cases hstep
    exact hr.observeAll hcomplete
  | scrape clock =>
    cases hstep
    rw [exportedBy, append_nil]
    exact hr.snapshot hcomplete

/-- A batch that is accepted is a step of a complete run. -/
theorem reachable_export {p : Handler × List (TextMetric Other)}
    (hp : ((store cfg).recording exportedBy).Reachable (fun p l => Complete cfg p.1 l) p)
    {metrics : List (Option (TextMetric Other))} {now : Time}
    (hall : (p.1.export cfg metrics now).2 = []) :
    ((store cfg).recording exportedBy).Reachable (fun p l => Complete cfg p.1 l)
      ((p.1.export cfg metrics now).1, p.2 ++ metrics.filterMap id) := by
  have hcomplete : Complete cfg p.1 (.export metrics now) := hall
  exact .step hp hcomplete rfl

section

variable {KeyValue AttributeSet Distinct : Type} [DecidableEq Distinct]
variable (sdk : Otlp.Sdk KeyValue AttributeSet Distinct) (config : Otlp.OTLPConfig)

/-- The OTLP histogram of the same values has the same counts. -/
theorem otlp_bucketCounts {ms : List (Metric KeyValue)} {key : Otlp.HistogramKey Distinct}
    {own : List (TextMetric Other)} (hne : own ≠ [])
    (hvalues : (Otlp.explicitObservations sdk config key ms).map (·.value) = own.map (·.value)) :
    ∃ point, Otlp.ofSeries sdk key
        ((Otlp.explicitHistograms sdk config ms key.name).getD []) = [point] ∧
      point.value.bucketCounts = bucketCounts (config.bounds key.name) own := by
  have hname : ∀ m ∈ Otlp.explicitObservations sdk config key ms, m.name = key.name := by
    intro m hm
    have hkey : Otlp.keyOf sdk m = key := (of_decide_eq_true (mem_filter.mp hm).2).2.2
    rw [← hkey]
    rfl
  have hne' : Otlp.explicitObservations sdk config key ms ≠ [] := by
    intro hnil
    rw [hnil] at hvalues
    exact hne (map_eq_nil_iff.mp hvalues.symm)
  obtain ⟨point, hpoint, hhistogram, -⟩ := Otlp.explicitPoint_spec sdk config hne' hname
  refine ⟨point, by rw [Otlp.explicitHistograms_view, hpoint], ?_⟩
  rw [hhistogram.bucketCounts, hvalues, bucketCounts]
  simp [countP_map, Function.comp_def]

/-- **What is exposed.**  After exports whose observations are all accepted and scrapes at which
no series expires, a series that a scrape exposes has observations; a counter is their sum, a
gauge the first of the newest, and a histogram counts them up to each bound.  Its buckets hold
what the OTLP histogram of the same values and bounds holds. -/
theorem exposed_values {h : Handler} {obs : List (TextMetric Other)}
    (hrun : ((store cfg).recording exportedBy).Reachable (fun p l => Complete cfg p.1 l) (h, obs))
    {clock : Time} {f : Family} (hf : f ∈ (h.snapshot cfg clock).2) {s : Series}
    (hs : s ∈ f.series) :
    cfg.own f.name s.labels obs ≠ [] ∧
    (f.type = .counter → s.value = ((cfg.own f.name s.labels obs).map (·.value)).sum) ∧
    (f.type = .gauge → ∃ m, Newest (cfg.own f.name s.labels obs) m ∧ s.value = m.value) ∧
    (f.type = .histogram → ∃ bounds counts sum, s.histogram = some ⟨bounds, counts, sum⟩ ∧
      (∀ formatFloat, f.samplesOf formatFloat s =
        (bounds.map fun b => (⟨f.name ++ text "_bucket", s.labels ++ [leLabel (formatFloat b)],
          .finite (countUpTo (cfg.own f.name s.labels obs) b)⟩ : Sample)) ++
        [⟨f.name ++ text "_bucket", s.labels ++ [leLabel (text "+Inf")],
            .finite (cfg.own f.name s.labels obs).length⟩,
          ⟨f.name ++ text "_sum", s.labels, sum⟩,
          ⟨f.name ++ text "_count", s.labels, .finite (cfg.own f.name s.labels obs).length⟩]) ∧
      (bounds.map (countUpTo (cfg.own f.name s.labels obs)) ++
        [(cfg.own f.name s.labels obs).length]).Pairwise (· ≤ ·) ∧
      ∀ (ms : List (Metric KeyValue)) (key : Otlp.HistogramKey Distinct),
        config.bounds key.name = bounds →
        (Otlp.explicitObservations sdk config key ms).map (·.value) =
          (cfg.own f.name s.labels obs).map (·.value) →
        ∃ point, Otlp.ofSeries sdk key
            ((Otlp.explicitHistograms sdk config ms key.name).getD []) = [point] ∧
          point.value.bucketCounts = counts) := by
  have hr := recorded_of_reachable hrun
  obtain ⟨fam, hfam, hexpose, -⟩ := mem_snapshot.mp hf
  have htype : f.type = fam.typ := congrArg Family.type hexpose
  have hs' := hs
  rw [hexpose] at hs'
  obtain ⟨key, t, ht, -, rfl⟩ := mem_series_expose.mp hs'
  obtain ⟨hne, hsum⟩ := hr.series hfam ht
  have hlabels : (t.expose fam).labels = t.labels := rfl
  have hvalue : (t.expose fam).value = t.value := rfl
  rw [htype, hlabels, hvalue]
  refine ⟨hne, hsum.counter, ?_, ?_⟩
  · intro hgauge
    obtain ⟨m, hnewest, hm, -⟩ := hsum.gauge hgauge
    exact ⟨m, hnewest, hm⟩
  · intro hhist
    have hchain := ((hr.valid.families hfam).bounds hhist).2
    have hdata : (t.expose fam).histogram = some ⟨fam.bounds, t.counts, t.sum⟩ := if_pos hhist
    refine ⟨fam.bounds, t.counts, t.sum, hdata, fun formatFloat => ?_,
      pairwise_countUpTo hchain _, ?_⟩
    · rw [Family.samplesOf, if_neg (not_not.mpr (htype.trans hhist)), hdata, hsum.counts hhist]
      exact bucketSamples_bucketCounts formatFloat f.name t.labels t.sum hchain _
    · rintro ms key hbounds hvalues
      rw [hsum.counts hhist, ← hbounds]
      exact otlp_bucketCounts sdk config hne hvalues

end

/-- Two batches of one histogram and one gauge, the second with an older gauge. -/
def latencyBatch (v : ℚ) (time : Time) : List (Option (TextMetric Empty)) :=
  [some ⟨text "lat", .histogram, .finite v, [⟨text "path", .string (text "a")⟩], time⟩,
    some ⟨text "temp", .gauge, .finite v, [], time⟩]

/-- The store after both. -/
def latencyStore : Handler :=
  ((Handler.zero.export plainConfig (latencyBatch 3 20) 1).1.export plainConfig
    (latencyBatch 4 10) 2).1

/-- What was exported to it. -/
def latencyObservations : List (TextMetric Empty) :=
  (latencyBatch 3 20).filterMap id ++ (latencyBatch 4 10).filterMap id

theorem latencyStore_reachable :
    ((store plainConfig).recording exportedBy).Reachable (fun p l => Complete plainConfig p.1 l)
      (latencyStore, latencyObservations) := by
  have hfirst : (Handler.zero.export plainConfig (latencyBatch 3 20) 1).2 = [] := by decide +kernel
  have hsecond : ((Handler.zero.export plainConfig (latencyBatch 3 20) 1).1.export plainConfig
      (latencyBatch 4 10) 2).2 = [] := by decide +kernel
  exact reachable_export (reachable_export .init hfirst) hsecond

theorem exposed_values_latencyStore :
    ∃ f ∈ (latencyStore.snapshot plainConfig 3).2, ∃ s ∈ f.series, f.type = .histogram ∧
      ∃ bounds counts sum, s.histogram = some ⟨bounds, counts, sum⟩ ∧
        counts = [0, 0, 0, 0, 0, 0, 0, 0, 0, 2, 0, 0] ∧
        (bounds.map (countUpTo (plainConfig.own f.name s.labels latencyObservations)) ++
          [(plainConfig.own f.name s.labels latencyObservations).length]).Pairwise (· ≤ ·) := by
  have hf : (⟨text "lat", .histogram, [⟨[⟨text "path", text "a"⟩], .finite 0,
      some ⟨defaultHistogramBuckets, [0, 0, 0, 0, 0, 0, 0, 0, 0, 2, 0, 0], .finite 7⟩⟩]⟩ : Family) ∈
      (latencyStore.snapshot plainConfig 3).2 := by
    decide +kernel
  refine ⟨_, hf, _, mem_singleton_self _, rfl, ?_⟩
  obtain ⟨-, -, -, hhistogram⟩ := exposed_values
    (⟨id, id, fun _ => 0⟩ : Otlp.Sdk String (List String) (List String))
    ⟨true, false, [], fun _ => [], none, .inl rfl, fun _ => .inl rfl, by simp⟩
    latencyStore_reachable hf (mem_singleton_self _)
  obtain ⟨bounds, counts, sum, hdata, -, hmono, -⟩ := hhistogram rfl
  exact ⟨bounds, counts, sum, hdata, by cases hdata; rfl, hmono⟩

end ConvoyStats.Prometheus
