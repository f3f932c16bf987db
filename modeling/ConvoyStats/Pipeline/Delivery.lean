import ConvoyStats.Pipeline.CallResults

/-!
# Delivery

What a call that has heard from every worker can promise: every observation
accepted before it, unless evicted, and every drop counted before it has been
passed to every exporter, and the exporters have returned.

It takes every acknowledgement.  One worker's says that the ring has been read up to the
mark, so each position below it is claimed; but what another worker has claimed there may
still be in that worker's batch, and only its own acknowledgement says that it has been
exported.

`flush_barrier` is that promise for a `Flush` that runs undisturbed.
-/

namespace ConvoyStats.Pipeline

open Transport

/-- A `Record` call has taken the observation `x` out of the ring to make room. -/
def Evicted (s : State) (x : ℕ) : Prop :=
  ∃ r n p, .effect (.recorder r, n) (.claimed p) ∈ s.ring.history ∧
    Published s.ring.history p x

/-- A batch with the entry has been passed to the `Export` of every exporter. -/
def Passed (cfg : Config) (log : List Event) (entry : Entry) : Prop :=
  ∃ k batch, entry ∈ batch ∧ ∀ e < cfg.exporters, .exportStarted k e batch ∈ log

/-- A batch with the entry has been passed to the `Export` of every exporter, and
those calls have returned. -/
def Exported (cfg : Config) (log : List Event) (entry : Entry) : Prop :=
  ∃ k batch, entry ∈ batch ∧ ∀ e < cfg.exporters, .exportStarted k e batch ∈ log ∧
    ∃ failed, .exportReturned k e batch failed ∈ log

variable {cfg : Config} {log : List Event} {entry : Entry}

theorem Exported.passed (h : Exported cfg log entry) : Passed cfg log entry := by
  obtain ⟨k, batch, hmem, hall⟩ := h
  exact ⟨k, batch, hmem, fun e he => (hall e he).1⟩

/-- A log that has grown by something other than an export has the same exports. -/
theorem Exported.of_append {events : List Event} (hnone : ∀ ev ∈ events, ev.byWorker = false)
    (h : Exported cfg (log ++ events) entry) : Exported cfg log entry := by
  have hold : ∀ ev : Event, ev.byWorker → ev ∈ log ++ events → ev ∈ log := by
    intro ev hby hmem
    refine (List.mem_append.mp hmem).resolve_right fun hnew => ?_
    rw [hnone ev hnew] at hby
    cases hby
  obtain ⟨k, batch, hmem, hall⟩ := h
  refine ⟨k, batch, hmem, fun e he => ?_⟩
  obtain ⟨hstarted, failed, hreturned⟩ := hall e he
  exact ⟨hold _ rfl hstarted, failed, hold _ rfl hreturned⟩

section

variable {cfg : Config} {s : State} {c : Caller}

/-- What a worker has exported is with every exporter. -/
theorem exported_of_mem (he : Exports cfg s) {k : ℕ} (h : entry ∈ (s.workers k).exported.flatten) :
    Exported cfg s.log entry := by
  obtain ⟨batch, hbatch, hmem⟩ := List.mem_flatten.mp h
  refine ⟨k, batch, hmem, fun e hlt => ⟨?_, ?_⟩⟩
  · rw [← mem_startedBy, he.started k e hlt]
    exact List.mem_append_left _ hbatch
  · obtain ⟨err, hship⟩ := he.exported k batch hbatch
    obtain ⟨failed, hret, -⟩ := hship e hlt
    exact ⟨failed, hret⟩

/-- With every acknowledgement in, the ring has been read up to the mark. -/
theorem mark_le_readPos (hb : Barrier cfg s) (hall : AllAcked cfg s c)
    (hstop : ∀ k, .drainStopped c k ∉ s.log) :
    (s.calls c).mark ≤ s.ring.ring.readPos :=
  ((hb.acked c 0 (hall 0 cfg.workers_pos)).observations.resolve_left (hstop 0)).1

/-- With every acknowledgement in, an observation below the mark is evicted or in a
batch some worker has exported. -/
theorem exported_of_allAcked (hu : RingUse cfg s) (hb : Barrier cfg s)
    (hall : AllAcked cfg s c) (hstop : ∀ k, .drainStopped c k ∉ s.log) {p x : ℕ}
    (hp : p < (s.calls c).mark) (hpub : Published s.ring.history p x) :
    Evicted s x ∨ ∃ k < cfg.workers, .observation x ∈ (s.workers k).exported.flatten := by
  have hread := mark_le_readPos hb hall hstop
  obtain ⟨⟨g, n⟩, hclaim⟩ := hu.ring.sound.exists_claimed_iff.mpr (hp.trans_le hread)
  cases g with
  | recorder r => exact .inl ⟨r, n, p, hclaim, hpub⟩
  | worker k =>
    right
    have hk := hu.lt_workers_of_claimed hclaim
    obtain ⟨-, hdel⟩ := (hb.acked c k (hall k hk)).observations.resolve_left (hstop k)
    obtain ⟨y, hobt, hmem⟩ := hdel n p hclaim hp
    -- the item obtained at a position is the one published there
    obtain rfl := hu.ring.sound.item_unique hpub (hu.ring.sound.published_of_obtained hobt)
    exact ⟨k, hk, hmem⟩

/-- **Observations below the mark are delivered.** -/
theorem delivered_of_allAcked (hu : RingUse cfg s) (he : Exports cfg s) (hb : Barrier cfg s)
    (hall : AllAcked cfg s c) (hstop : ∀ k, .drainStopped c k ∉ s.log) {p x : ℕ}
    (hp : p < (s.calls c).mark) (hpub : Published s.ring.history p x) :
    Evicted s x ∨ Exported cfg s.log (.observation x) := by
  refine (exported_of_allAcked hu hb hall hstop hp hpub).imp_right ?_
  rintro ⟨k, -, hmem⟩
  exact exported_of_mem he hmem

/-- **Drops counted before the call are delivered.** -/
theorem drops_of_allAcked (he : Exports cfg s) (hb : Barrier cfg s) (hall : AllAcked cfg s c)
    {reason : DropReason} {u : ℕ} (hu : u < (s.calls c).counted reason) :
    ∃ first count, first ≤ u ∧ u < first + count ∧
      Exported cfg s.log (.dropCount reason first count) := by
  have htaken := (hb.acked c 0 (hall 0 cfg.workers_pos)).counted reason
  obtain ⟨k, hk, first, count, hmem, hle, hlt⟩ := hb.taken reason u (hu.trans_le htaken)
  exact ⟨first, count, hle, hlt, exported_of_mem he
    ((hb.acked c k (hall k hk)).drops reason first count hmem (hle.trans_lt hu))⟩

end

/-! ### The barrier of an undisturbed flush -/

/-- The barrier of a flush that has just returned with every acknowledgement. -/
theorem barrier_of_allAcked {s : State} {n : ℕ} {err : Err} (hreach : (pipelineSystem cfg).Reach s)
    (hreturned : s.log = log ++ [.callReturned (.flush n) err])
    (hctx : .contextEnded (.flush n) ∉ log) (hall : AllAcked cfg s (.flush n)) :
    (∀ x, log.Precedes (.recordReturned x none) (.called (.flush n)) → ¬ Evicted s x →
      Exported cfg log (.observation x)) ∧
    ∀ reason u, u < (s.calls (.flush n)).counted reason → ∃ first count,
      first ≤ u ∧ u < first + count ∧ Exported cfg log (.dropCount reason first count) := by
  have hu := ringUse_of_reach hreach
  have he := exports_of_reach hreach
  have hb := barrier_of_reach hreach
  have hlg := logged_of_reach hreach
  have hstop : ∀ k, .drainStopped (.flush n) k ∉ s.log := by
    intro k hk
    have := hlg.stopped _ k hk
    rw [hreturned] at this
    exact hctx (by simpa using this)
  have hlog : ∀ {entry}, Exported cfg s.log entry → Exported cfg log entry := by
    intro entry h
    rw [hreturned] at h
    exact h.of_append (by simp [Event.byWorker])
  refine ⟨?_, ?_⟩
  · intro x hprec hev
    have hprec : s.log.Precedes (.recordReturned x none) (.called (.flush n)) :=
      hprec.mono (hreturned ▸ List.prefix_append _ _)
    obtain ⟨p, hp, hpub⟩ := hlg.before _ x hprec
    exact hlog ((delivered_of_allAcked hu he hb hall hstop hp hpub).resolve_left hev)
  · intro reason u hlt
    obtain ⟨first, count, hle, hlt, hexp⟩ := drops_of_allAcked he hb hall hlt
    exact ⟨first, count, hle, hlt, hlog hexp⟩

/-- **Flush is a barrier.**  Whatever else goes on, when a `Flush` returns whose
context has not ended and that has met no `Shutdown`, every observation whose
`Record` returned nil before the call is evicted or exported by every exporter, and
so is every drop counted before the call. -/
theorem flush_barrier {cfg : Config} {s : State} {log : List Event} {n : ℕ} {err : Err}
    (hreach : (pipelineSystem cfg).Reach s)
    (hreturned : s.log = log ++ [.callReturned (.flush n) err])
    (hctx : .contextEnded (.flush n) ∉ log) (hshutdown : ∀ m, .called (.shutdown m) ∉ log) :
    (∀ x, log.Precedes (.recordReturned x none) (.called (.flush n)) → ¬ Evicted s x →
      Exported cfg log (.observation x)) ∧
    ∀ reason u, u < (s.calls (.flush n)).counted reason → ∃ first count,
      first ≤ u ∧ u < first + count ∧ Exported cfg log (.dropCount reason first count) := by
  have hmem : ∀ {ev : Event}, ev ∈ s.log → ev ≠ .callReturned (.flush n) err → ev ∈ log := by
    intro ev hev hne
    rw [hreturned] at hev
    simpa [hne] using hev
  refine barrier_of_allAcked hreach hreturned hctx ?_
  -- the call was not interrupted, so every worker has acknowledged
  have hpc := (logged_of_reach hreach).returned (.flush n) err (by rw [hreturned]; simp)
  rcases concluded_of_reach hreach (.flush n) err (by rw [hpc]; rfl) (.inl rfl) with
    hall | ⟨-, hended | ⟨-, m, hcalled⟩⟩
  · exact hall
  · exact absurd (hmem hended nofun) hctx
  · exact absurd (hmem hcalled nofun) (hshutdown m)

/-- One worker, one exporter and a ring of two slots. -/
def smallConfig : Config where
  workers := 1
  workers_pos := Nat.one_pos
  bufferSize := 2
  exporters := 1
  idleExporter := fun _ => false
  adaptiveBatching := false
  dropOldest := false
  maxMemoryBytes := 1000
  rateLimiter := false

/-- An observation with one dropped label is recorded, then flushed. -/
def quietFlush : List Label :=
  .record 0 1 :: List.replicate 18 (.recorder 0 { admission := .admitted 1 }) ++
    [.call (.flush 0), .caller (.flush 0) {}, .caller (.flush 0) {}, .request (.flush 0) 0] ++
    List.replicate 24 (.worker 0 {}) ++
    [.startExport 0 0, .finishExport 0 0 false, .worker 0 {}, .worker 0 {}, .caller (.flush 0) {}]

/-- What `quietFlush` logs before the call returns. -/
def quietFlushLog : List Event :=
  [.recordCalled 0, .recordReturned 0 none, .called (.flush 0),
    .exportStarted 0 0 [.observation 0, .dropCount .labelLimit 0 1],
    .exportReturned 0 0 [.observation 0, .dropCount .labelLimit 0 1] false]

/-- No `Record` call has taken anything out of the ring. -/
def evictionFree (s : State) : Bool :=
  s.ring.history.all fun
    | .effect (.recorder _, _) (.claimed _) => false
    | _ => true

theorem not_evicted {s : State} (h : evictionFree s = true) (x : ℕ) : ¬ Evicted s x := by
  rintro ⟨r, n, p, hclaim, -⟩
  exact absurd (List.all_eq_true.mp h _ hclaim) (by simp)

theorem exists_evictionFree {o : Option State} {log : List Event}
    (h : o.map (fun s => (s.log, evictionFree s)) = some (log, true)) :
    ∃ s, o = some s ∧ s.log = log ∧ ∀ x, ¬ Evicted s x := by
  obtain ⟨s, hs, heq⟩ := Option.map_eq_some_iff.mp h
  obtain ⟨hlog, hfree⟩ := Prod.mk.inj heq
  exact ⟨s, hs, hlog, not_evicted hfree⟩

theorem flush_barrier_quietFlush :
    ∃ s, (pipelineSystem smallConfig).run (State.init smallConfig) quietFlush = some s ∧
      s.log = quietFlushLog ++ [.callReturned (.flush 0) []] ∧
      Exported smallConfig quietFlushLog (.observation 0) ∧
      ∃ first count, first ≤ 0 ∧ 0 < first + count ∧
        Exported smallConfig quietFlushLog (.dropCount .labelLimit first count) := by
  have hrun : ((pipelineSystem smallConfig).run (State.init smallConfig) quietFlush).map
      (fun s => (s.log, evictionFree s, (s.calls (.flush 0)).counted .labelLimit)) =
      some (quietFlushLog ++ [.callReturned (.flush 0) []], true, 1) := by decide +kernel
  obtain ⟨s, hs, heq⟩ := Option.map_eq_some_iff.mp hrun
  simp only [Prod.mk.injEq] at heq
  obtain ⟨hlog, hevicted, hcounted⟩ := heq
  have hbarrier := flush_barrier (.of_run .init hs) hlog (by decide) (by simp [quietFlushLog])
  refine ⟨s, hs, hlog, hbarrier.1 0 (by decide) (not_evicted hevicted 0), ?_⟩
  exact hbarrier.2 .labelLimit 0 (by rw [hcounted]; exact Nat.one_pos)

end ConvoyStats.Pipeline
