import ConvoyStats.Prometheus.Faithful

/-!
# Expiry

`Export` and `snapshot` read the clock and then wait for `mu`, so the store sees their
readings in another order than they were made in.  The run is that of any number of calls over
one clock, which only goes forward; a call that has read it goes on when it gets the lock.

An observation sets `updated` to its own reading, also where that is older than what is there.
So a series can expire although an `Export` with a reading after the cutoff has updated it.
As long as the readings that reach a series come in order, `updated` is the newest of them and
no such series expires.
-/

namespace ConvoyStats.Prometheus

open List Models

variable {Other : Type}

/-! ### Calls -/

/-- Where a call of `Export` is. -/
inductive ExportPc (Other : Type)
  | notCalled
  /-- It has read the clock. -/
  | locking (metrics : List (Option (TextMetric Other))) (now : Time)
  | returned

/-- Where a call of `WriteStats` is. -/
inductive ScrapePc
  | notCalled
  /-- It has read the clock. -/
  | locking (clock : Time)
  /-- It has left the lock; what it writes is its own. -/
  | returned

/-- The clock, the store and the calls on it. -/
structure Scraped (Other : Type) where
  time : Time
  handler : Handler
  exports : ℕ → ExportPc Other
  scrapes : ℕ → ScrapePc

/-- The steps. -/
inductive ScrapedLabel (Other : Type)
  | tick (d : ℕ)
  | callExport (i : ℕ) (metrics : List (Option (TextMetric Other)))
  | export (i : ℕ)
  | callScrape (j : ℕ)
  | scrape (j : ℕ)

section

variable (cfg : HandlerConfig Other)

def scrapedStep (s : Scraped Other) : ScrapedLabel Other → Option (Scraped Other)
  | .tick d => some { s with time := s.time + d }
  | .callExport i metrics =>
    match s.exports i with
    | .notCalled => some { s with exports := Function.update s.exports i (.locking metrics s.time) }
    | _ => none
  | .export i =>
    match s.exports i with
    | .locking metrics now =>
      some { s with
        handler := (s.handler.export cfg metrics now).1
        exports := Function.update s.exports i .returned }
    | _ => none
  | .callScrape j =>
    match s.scrapes j with
    | .notCalled => some { s with scrapes := Function.update s.scrapes j (.locking s.time) }
    | _ => none
  | .scrape j =>
    match s.scrapes j with
    | .locking clock =>
      some { s with
        handler := (s.handler.snapshot cfg clock).1
        scrapes := Function.update s.scrapes j .returned }
    | _ => none

/-- The store under concurrent calls. -/
def scraped : TransitionSystem (Scraped Other) (ScrapedLabel Other) where
  init := ⟨0, .zero, fun _ => .notCalled, fun _ => .notCalled⟩
  step := scrapedStep cfg

/-! ### Updates -/

/-- A series was updated by an `Export` that had read `now`. -/
structure Update where
  family : Bytes
  key : Bytes
  now : Time
  deriving DecidableEq

/-- The update that an observation makes, if it is accepted. -/
def updateOf (h : Handler) (m : TextMetric Other) (now : Time) : List Update :=
  match (h.observe cfg m now).2, cfg.labelsOf m with
  | none, .ok labels => [⟨cfg.familyOf m, labelsKey labels, now⟩]
  | _, _ => []

/-- The updates that a batch makes. -/
def updatesOf (h : Handler) : List (TextMetric Other) → Time → List Update
  | [], _ => []
  | m :: rest, now => updateOf cfg h m now ++ updatesOf (h.observe cfg m now).1 rest now

/-- The updates of a step. -/
def updatesBy (s : Scraped Other) : ScrapedLabel Other → List Update
  | .export i =>
    match s.exports i with
    | .locking metrics now => updatesOf cfg s.handler (metrics.filterMap id) now
    | _ => []
  | _ => []

/-- No series of the step has been updated with a later reading. -/
def InOrder (p : Scraped Other × List Update) (l : ScrapedLabel Other) : Prop :=
  ∀ v ∈ updatesBy cfg p.1 l, ∀ u ∈ p.2, u.family = v.family → u.key = v.key → u.now ≤ v.now

instance : DecidableRel (InOrder cfg) := fun p l =>
  inferInstanceAs (Decidable (∀ v ∈ updatesBy cfg p.1 l, _))

end

/-- The series of the store under a key. -/
def Handler.seriesAt (h : Handler) (family key : Bytes) : Option StoreSeries :=
  (h.families.lookup family).bind fun fam => fam.series.lookup key

variable {cfg : HandlerConfig Other} {h : Handler}

/-! ### What a step does to a series -/

theorem lookup_put (fam : StoreFamily) (labels : List Label) (m : TextMetric Other) (now : Time) :
    ∃ s, (fam.put labels m now).series.lookup (labelsKey labels) = some s ∧ s.updated = now :=
  ⟨_, AList.lookup_insert _, StoreSeries.apply_updated ..⟩

/-- What an observation does to the series under a key. -/
theorem seriesAt_observe (cfg : HandlerConfig Other) (h : Handler) (m : TextMetric Other)
    (now : Time) (family key : Bytes) :
    ((h.observe cfg m now).1.seriesAt family key = h.seriesAt family key ∧
      ⟨family, key, now⟩ ∉ updateOf cfg h m now) ∨
    ⟨family, key, now⟩ ∈ updateOf cfg h m now ∧
      ∃ s, (h.observe cfg m now).1.seriesAt family key = some s ∧ s.updated = now := by
  have hobs := Observed.of_observe cfg h m now
  rw [updateOf]
  revert hobs
  generalize (h.observe cfg m now).1 = h'
  generalize (h.observe cfg m now).2 = err
  rintro (⟨err, -⟩ | @⟨labels, fam, registry, -, -, hlabels, -, hfam⟩)
  · exact .inl ⟨rfl, not_mem_nil⟩
  · rw [hlabels]
    simp only [mem_singleton, Update.mk.injEq, and_true, Handler.seriesAt]
    by_cases hfamily : family = cfg.familyOf m
    · subst hfamily
      rw [AList.lookup_insert, Option.bind_some]
      by_cases hkey : key = labelsKey labels
      · subst hkey
        exact .inr ⟨⟨rfl, rfl⟩, lookup_put fam labels m now⟩
      · refine .inl ⟨?_, fun heq => hkey heq.2⟩
        rw [StoreFamily.put, AList.lookup_insert_ne hkey]
        rcases family_cases hfam with hold | ⟨hnew, -, hempty, -⟩
        · rw [hold, Option.bind_some]
        · rw [hnew, hempty]
          rfl
    · exact .inl ⟨by rw [AList.lookup_insert_ne hfamily], fun heq => hfamily heq.1⟩

/-- What a batch does to the series under a key. -/
theorem seriesAt_observeAll (cfg : HandlerConfig Other) (h : Handler) (ms : List (TextMetric Other))
    (now : Time)
    (family key : Bytes) :
    ((h.observeAll cfg ms now).1.seriesAt family key = h.seriesAt family key ∧
      ⟨family, key, now⟩ ∉ updatesOf cfg h ms now) ∨
    ⟨family, key, now⟩ ∈ updatesOf cfg h ms now ∧
      ∃ s, (h.observeAll cfg ms now).1.seriesAt family key = some s ∧ s.updated = now := by
  induction ms generalizing h with
  | nil => exact .inl ⟨rfl, not_mem_nil⟩
  | cons m ms ih =>
    rw [updatesOf, mem_append]
    rcases ih (h.observe cfg m now).1 with ⟨hsame, hrest⟩ | ⟨hrest, hupdated⟩
    · rcases seriesAt_observe cfg h m now family key with
        ⟨hfirst, hm⟩ | ⟨hm, s, hs, hnow⟩
      · exact .inl ⟨hsame.trans hfirst, fun hv => hv.elim hm hrest⟩
      · exact .inr ⟨.inl hm, s, hsame.trans hs, hnow⟩
    · exact .inr ⟨.inr hrest, hupdated⟩

/-- The updates of a batch carry its reading. -/
theorem now_of_mem_updatesOf {h : Handler} {ms : List (TextMetric Other)} {now : Time} {v : Update}
    (hv : v ∈ updatesOf cfg h ms now) : v.now = now := by
  induction ms generalizing h with
  | nil => cases hv
  | cons m ms ih =>
    rcases mem_append.mp hv with hv | hv
    · rw [updateOf] at hv
      split at hv
      · rw [mem_singleton.mp hv]
      · cases hv
    · exact ih hv

theorem updatesBy_export {s : Scraped Other} {i : ℕ} {metrics : List (Option (TextMetric Other))}
    {now : Time} (hi : s.exports i = .locking metrics now) :
    updatesBy cfg s (.export i) = updatesOf cfg s.handler (metrics.filterMap id) now := by
  rw [updatesBy, hi]

/-- What a scrape leaves of the series under a key. -/
theorem seriesAt_snapshot (h : Handler) (clock : Time) (family key : Bytes) :
    (h.snapshot cfg clock).1.seriesAt family key =
      (h.seriesAt family key).filter fun s => !decide (s.updated < clock - cfg.timeout) := by
  rw [Handler.seriesAt, Handler.lookup_snapshot, Handler.seriesAt]
  cases h.families.lookup family with
  | none => rfl
  | some fam => exact AList.lookup_filterValues _ _ _

/-! ### Runs -/

/-- What a step does to the store: nothing, or what its call does. -/
inductive StoreMove (cfg : HandlerConfig Other) (s : Scraped Other) :
    ScrapedLabel Other → Handler → Prop
  | quiet {l : ScrapedLabel Other} (hby : updatesBy cfg s l = []) :
      StoreMove cfg s l s.handler
  | export {i : ℕ} {metrics : List (Option (TextMetric Other))} {now : Time}
      (hi : s.exports i = .locking metrics now) :
      StoreMove cfg s (.export i) (s.handler.export cfg metrics now).1
  | scrape {j : ℕ} {clock : Time} (hj : s.scrapes j = .locking clock) :
      StoreMove cfg s (.scrape j) (s.handler.snapshot cfg clock).1

theorem StoreMove.of_step {s s' : Scraped Other} {l : ScrapedLabel Other}
    (hs : (scraped cfg).step s l = some s') : StoreMove cfg s l s'.handler := by
  cases l with
  | tick d =>
    cases hs
    exact .quiet rfl
  | callExport i metrics | callScrape j =>
    simp only [scraped, scrapedStep] at hs
    split at hs
    · cases hs
      exact .quiet rfl
    · cases hs
  | «export» i =>
    simp only [scraped, scrapedStep] at hs
    split at hs
    · rename_i hi
      cases hs
      exact .export hi
    · cases hs
  | scrape j =>
    simp only [scraped, scrapedStep] at hs
    split at hs
    · rename_i hj
      cases hs
      exact .scrape hj
    · cases hs

/-- **The invariant.**  A series is as new as the newest update of it. -/
def UpToDate (h : Handler) (us : List Update) : Prop :=
  ∀ u ∈ us, ∀ s, h.seriesAt u.family u.key = some s → u.now ≤ s.updated

/-- A batch keeps the invariant if no update in it is older than one before. -/
theorem UpToDate.observeAll {us : List Update} (hI : UpToDate h us)
    {ms : List (TextMetric Other)} {now : Time}
    (hord : ∀ v ∈ updatesOf cfg h ms now, ∀ u ∈ us,
      u.family = v.family → u.key = v.key → u.now ≤ v.now) :
    UpToDate (h.observeAll cfg ms now).1 (us ++ updatesOf cfg h ms now) := by
  intro u hu s hs
  rcases seriesAt_observeAll cfg h ms now u.family u.key with
    ⟨hsame, hnone⟩ | ⟨hmem, t, ht, hnow⟩
  · -- The batch leaves the series alone, so none of the updates of it is new.
    rcases mem_append.mp hu with hu | hu
    · exact hI u hu s (hsame.symm.trans hs)
    · exact absurd (now_of_mem_updatesOf hu ▸ hu) hnone
  · obtain rfl := Option.some.inj (ht.symm.trans hs)
    rw [hnow]
    rcases mem_append.mp hu with hu | hu
    · exact hord _ hmem u hu rfl rfl
    · exact (now_of_mem_updatesOf hu).le

/-- A scrape takes series away, and changes none. -/
theorem UpToDate.snapshot {us : List Update} (hI : UpToDate h us) (clock : Time) :
    UpToDate (h.snapshot cfg clock).1 us := by
  intro u hu s hs
  rw [seriesAt_snapshot, Option.filter_eq_some_iff] at hs
  exact hI u hu s hs.1

/-- **A series is as new as the newest update of it**, in every run in which the updates of a
series come in the order of their readings. -/
theorem upToDate_of_reachable {p : Scraped Other × List Update}
    (h : ((scraped cfg).recording (updatesBy cfg)).Reachable (InOrder cfg) p) :
    UpToDate p.1.handler p.2 := by
  refine h.invariant (I := fun p => UpToDate p.1.handler p.2) (fun u hu => by cases hu) ?_
  rintro ⟨s, us⟩ l ⟨s', us'⟩ - hI hord hs
  obtain ⟨t, ht, heq⟩ := Option.map_eq_some_iff.mp hs
  cases heq
  have hmove := StoreMove.of_step ht
  dsimp only
  revert hmove
  generalize s'.handler = h'
  rintro (hby | hi | hj)
  · rw [hby, append_nil]
    exact hI
  · rw [InOrder, updatesBy_export hi] at hord
    rw [updatesBy_export hi]
    exact hI.observeAll hord
  · show UpToDate _ (us ++ [])
    rw [append_nil]
    exact hI.snapshot _

/-- **Expiry.**  In every run in which the updates of a series come in the order of their
readings, a scrape keeps every series that an `Export` has updated whose reading is the cutoff
or later. -/
theorem scrape_keeps_fresh {p p' : Scraped Other × List Update}
    (h : ((scraped cfg).recording (updatesBy cfg)).Reachable (InOrder cfg) p)
    {j : ℕ} {clock : Time} (hj : p.1.scrapes j = .locking clock)
    (hs : ((scraped cfg).recording (updatesBy cfg)).step p (.scrape j) = some p')
    {u : Update} (hu : u ∈ p.2) (hfresh : clock - cfg.timeout ≤ u.now) :
    p'.1.handler.seriesAt u.family u.key = p.1.handler.seriesAt u.family u.key := by
  obtain ⟨t, ht, rfl⟩ := Option.map_eq_some_iff.mp hs
  have ht' : some t = some { p.1 with
      handler := (p.1.handler.snapshot cfg clock).1
      scrapes := Function.update p.1.scrapes j .returned } := by
    rw [← ht]
    simp only [scraped, scrapedStep, hj]
  cases ht'
  rw [seriesAt_snapshot]
  cases hs : p.1.handler.seriesAt u.family u.key with
  | none => rfl
  | some s =>
    have hle : u.now ≤ s.updated := upToDate_of_reachable h u hu s hs
    rw [Option.filter_some, if_pos]
    simpa using hfresh.trans hle

/-- A store whose series expire after ten. -/
def shortConfig : HandlerConfig Empty := { plainConfig with metricTimeout := 10 }

/-- One counter. -/
def hit : List (Option (TextMetric Empty)) := [some ⟨text "hits", .counter, .finite 1, [], 0⟩]

/-- Two exports, one after the other, and a scrape. -/
def timely : List (ScrapedLabel Empty) :=
  [.tick 10, .callExport 0 hit, .export 0, .tick 10, .callExport 1 hit, .export 1, .tick 5,
    .callScrape 0]

theorem scrape_keeps_fresh_timely :
    ∃ p p' : Scraped Empty × List Update,
      ((scraped shortConfig).recording (updatesBy shortConfig)).Reachable (InOrder shortConfig) p ∧
      ((scraped shortConfig).recording (updatesBy shortConfig)).step p (.scrape 0) = some p' ∧
      (p.1.handler.seriesAt (text "hits_total") []).isSome ∧
      p'.1.handler.seriesAt (text "hits_total") [] =
        p.1.handler.seriesAt (text "hits_total") [] := by
  have hreach : ((scraped shortConfig).recording (updatesBy shortConfig)).Reachable
      (InOrder shortConfig) _ := .of_labels_within _ timely rfl
  refine ⟨_, _, hreach, rfl, by decide +kernel, ?_⟩
  exact scrape_keeps_fresh (u := ⟨text "hits_total", [], 20⟩) hreach (j := 0)
    (show _ = ScrapePc.locking 25 from rfl) rfl (by decide +kernel) (by decide +kernel)

/-- The first export reads the clock, and gets the lock after the second. -/
def late : List (ScrapedLabel Empty) :=
  [.tick 10, .callExport 0 hit, .tick 10, .callExport 1 hit, .export 1, .export 0, .tick 5,
    .callScrape 0]

/-- **A fresh series expires.**  The export that read 20 has updated the series; that of 10
then makes it look older, and a scrape at 25 removes it. -/
theorem scrape_drops_fresh :
    ∃ p p' : Scraped Empty × List Update,
      ((scraped shortConfig).recording (updatesBy shortConfig)).Reach p ∧
      p.1.scrapes 0 = .locking 25 ∧
      ((scraped shortConfig).recording (updatesBy shortConfig)).step p (.scrape 0) = some p' ∧
      ∃ u ∈ p.2, 25 - shortConfig.timeout ≤ u.now ∧
        (p.1.handler.seriesAt u.family u.key).isSome ∧
        p'.1.handler.seriesAt u.family u.key = none := by
  have hreach : ((scraped shortConfig).recording (updatesBy shortConfig)).Reach _ :=
    .of_labels late rfl
  refine ⟨_, _, hreach, rfl, rfl, ⟨text "hits_total", [], 20⟩, ?_, ?_, ?_, ?_⟩
  all_goals decide +kernel

end ConvoyStats.Prometheus
