import ConvoyStats.Pipeline.Retirement

/-!
# Shutdown

`shutdown_loses_nothing`: a `Shutdown` whose context stays live leaves nothing
behind.  Three facts carry it.  The mutex puts every accepted observation below the
mark the call has taken (`Closing`); every worker has drained up to that mark, since
all of them have acknowledged (`Concluded`, `Barrier`); and an observation is taken
out of the ring once, so no two exports carry it.
-/

namespace ConvoyStats.Pipeline

open List Transport

/-! ### Nothing is passed to an exporter twice -/

/-- The batches passed to exporter `e`, each with its worker. -/
def exportsTo (e : ℕ) (log : List Event) : List (ℕ × List Entry) :=
  log.filterMap fun
    | .exportStarted k e' batch => if e' = e then some (k, batch) else none
    | _ => none

/-- Everything passed to exporter `e`, in order. -/
def passedTo (e : ℕ) (log : List Event) : List Entry := (exportsTo e log).flatMap Prod.snd

variable {k e : ℕ}

theorem mem_exportsTo {log : List Event} {batch : List Entry} :
    (k, batch) ∈ exportsTo e log ↔ .exportStarted k e batch ∈ log := by
  rw [exportsTo, mem_filterMap]
  constructor
  · rintro ⟨ev, hmem, hev⟩
    split at hev
    · obtain ⟨rfl, heq⟩ := Option.ite_none_right_eq_some.mp hev
      cases heq
      exact hmem
    · cases hev
  · exact fun hmem => ⟨_, hmem, if_pos rfl⟩

theorem startedBy_eq (k e : ℕ) (log : List Event) :
    startedBy k e log = ((exportsTo e log).filter fun b => b.1 = k).map Prod.snd := by
  rw [startedBy, exportsTo, filter_filterMap, map_filterMap]
  refine filterMap_congr fun ev _ => ?_
  cases ev with
  | exportStarted k' e' batch => by_cases hk : k' = k <;> by_cases he : e' = e <;> simp [hk, he]
  | _ => rfl

theorem observations_flatMap {α : Type} (l : List α) (f : α → List Entry) :
    observations (l.flatMap f) = l.flatMap fun a => observations (f a) := by
  induction l with
  | nil => rfl
  | cons a l ih => rw [flatMap_cons, flatMap_cons, observations_append, ih]

theorem count_observation (x : ℕ) (entries : List Entry) :
    entries.count (.observation x) = (observations entries).count x := by
  induction entries with
  | nil => rfl
  | cons entry entries ih =>
    cases entry with
    | observation y =>
      have hcons : observations (.observation y :: entries) = y :: observations entries := rfl
      rw [hcons, count_cons, count_cons, ih]
      simp
    | dropCount reason first count =>
      have hcons : observations (.dropCount reason first count :: entries) =
        observations entries := rfl
      rw [hcons, count_cons, ih]
      simp

namespace RingUse

variable {cfg : Config} {s : State}

/-- No observation is popped twice. -/
theorem popped_nodup (hu : RingUse cfg s) : ((popped s.ring.history).map Prod.snd).Nodup := by
  have hcalls : ((popped s.ring.history).map Prod.fst).Nodup := by
    refine hu.ring.sound.ledger.nodup.sublist ?_
    rw [popped, map_filterMap, returnedCalls]
    refine filterMap_sublist_filterMap (fun ev call hev => ?_) _
    cases ev with
    | effect => cases hev
    | returned call' op result =>
      rcases result with _ | _ | (_ | x) <;> cases hev
      rfl
  refine Nodup.map_on ?_ (Nodup.of_map _ hcalls)
  rintro ⟨call, x⟩ hx ⟨call', x'⟩ hx' (rfl : x = x')
  obtain ⟨p, hobt⟩ := hu.ring.sound.obtained_of_returned (.inl hx)
  obtain ⟨q, hobt'⟩ := hu.ring.sound.obtained_of_returned (.inl hx')
  -- both calls have read the one position of `x`
  obtain rfl := hu.position_unique (hu.ring.sound.published_of_obtained hobt)
    (hu.ring.sound.published_of_obtained hobt')
  rw [hu.ring.sound.obtained_inj hobt hobt']

/-- No worker takes an observation twice. -/
theorem intake_nodup (hu : RingUse cfg s) (k : ℕ) :
    (observations (s.workers k).intake).Nodup := by
  rw [(hu.workers k).intake]
  refine hu.popped_nodup.sublist ?_
  rw [poppedBy, ← filterMap_eq_map]
  refine filterMap_sublist_filterMap (fun a x hx => ?_) _
  obtain ⟨-, hx⟩ := Option.ite_none_right_eq_some.mp hx
  exact hx

/-- No two workers take the same observation. -/
theorem intake_disjoint (hu : RingUse cfg s) {j x : ℕ} (hj : .observation x ∈ (s.workers j).intake)
    (hk : .observation x ∈ (s.workers k).intake) : j = k := by
  obtain ⟨n, p, hclaim, hpub⟩ := hu.claimed_of_intake hj
  obtain ⟨m, q, hclaim', hpub'⟩ := hu.claimed_of_intake hk
  obtain rfl := hu.position_unique hpub hpub'
  cases hu.ring.sound.claimed_inj hclaim hclaim'
  rfl

end RingUse

variable {cfg : Config} {s : State}

/-- What has been passed to an exporter has been taken by a worker. -/
theorem intake_of_started (he : Exports cfg s) (hw : ∀ k, (s.workers k).Accounts)
    (hlt : e < cfg.exporters) : (startedBy k e s.log).flatten <+: (s.workers k).intake := by
  rw [he.started k e hlt, (hw k).intake, flatten_append]
  refine (prefix_append_right_inj _).mpr ?_
  rw [Worker.undelivered, Worker.shipping]
  -- the batch in shipping is the one not yet put away
  have hlost : (s.workers k).pc.gone = false → (s.workers k).lost = [] := (hw k).lost
  cases hpc : (s.workers k).pc with
  | exporting job status =>
    rw [hlost (by rw [hpc]; rfl)]
    dsimp only
    split
    · exact nil_prefix
    · simp
  | recordFailure err =>
    rw [hlost (by rw [hpc]; rfl)]
    simp
  | _ => exact nil_prefix

/-- **No observation is passed to an exporter twice.** -/
theorem passedTo_nodup (hu : RingUse cfg s) (he : Exports cfg s) (hw : ∀ k, (s.workers k).Accounts)
    (hlt : e < cfg.exporters) : (observations (passedTo e s.log)).Nodup := by
  rw [passedTo, observations_flatMap]
  refine nodup_flatMap_of_fibers Prod.fst (fun k => ?_) ?_
  · have hpre := intake_of_started he hw (k := k) hlt
    rw [startedBy_eq, ← flatMap_def] at hpre
    rw [← observations_flatMap]
    exact (hu.intake_nodup k).sublist (hpre.sublist.filterMap _)
  · rintro ⟨j, batch⟩ hj ⟨k, batch'⟩ hk hne x hx hx'
    have hin : ∀ {k batch}, (k, batch) ∈ exportsTo e s.log → x ∈ observations batch →
        .observation x ∈ (s.workers k).intake := by
      intro k batch hmem hobs
      rw [mem_exportsTo, ← mem_startedBy] at hmem
      exact (intake_of_started he hw hlt).subset
        (mem_flatten.mpr ⟨batch, hmem, mem_observations.mp hobs⟩)
    exact hne (hu.intake_disjoint (hin hj hx) (hin hk hx'))

/-! ### A Record that comes too late -/

/-- Left alone, the `Record` call `r` returns `result` after `n` steps of its own. -/
def Returns (cfg : Config) (s : State) (r n : ℕ) (result : Option RecordError) : Prop :=
  ∃ s', (pipelineSystem cfg).run s (replicate n (.recorder r {})) = some s' ∧
    (s'.recorders r).pc = .returned result

theorem Returns.succ {s' : State} {r n : ℕ} {result : Option RecordError}
    (hstep : recorderStep cfg s r {} = some s') (h : Returns cfg s' r n result) :
    Returns cfg s r (n + 1) result := by
  obtain ⟨t, hrun, hpc⟩ := h
  refine ⟨t, ?_, hpc⟩
  rw [replicate_succ, TransitionSystem.run_cons]
  have hstep' : (pipelineSystem cfg).step s (.recorder r {}) = some s' := hstep
  rw [hstep']
  exact hrun

/-- **A late `Record` is not held up.**  In a pipeline that has been shut down it
reaches its return in at most three steps of its own. -/
theorem returns_of_late {r : ℕ} (hclosed : s.closed = true) (hwaiting : s.closeMu.waiting = false)
    (hlocked : s.closeMu.locked = false) (hlate : (s.recorders r).pc.late) :
    ∃ n ≤ 3, Returns cfg s r n (some .clientClosed) := by
  have hunlock : ∀ {t : State}, (t.recorders r).pc = .unlock (some .clientClosed) →
      Returns cfg t r 1 (some .clientClosed) := by
    intro t hpc
    refine .succ (by simp only [recorderStep, hpc]; rfl) ⟨_, rfl, ?_⟩
    simp [State.emit, State.recordTo, State.setRecorder]
  have hcheck : ∀ {t : State}, t.closed = true → (t.recorders r).pc = .checkClosed →
      Returns cfg t r 2 (some .clientClosed) := by
    intro t hclosed hpc
    have hstep : recorderStep cfg t r {} =
        some (t.recordTo r (.unlock (some .clientClosed))) := by
      simp only [recorderStep, hpc, hclosed, if_true]
    exact .succ hstep (hunlock (by simp [State.recordTo, State.setRecorder]))
  cases hpc : (s.recorders r).pc with
  | rlock =>
    have hstep : recorderStep cfg s r {} = some { s.recordTo r .checkClosed with
        closeMu := { s.closeMu with readers := r :: s.closeMu.readers } } := by
      simp [recorderStep, hpc, hwaiting, hlocked]
    refine ⟨3, le_rfl, .succ hstep (hcheck hclosed ?_)⟩
    simp [State.recordTo, State.setRecorder]
  | checkClosed => exact ⟨2, by decide, hcheck hclosed hpc⟩
  | unlock result =>
    rcases result with _ | (_ | _ | _ | _ | _ | _) <;> rw [hpc] at hlate <;> first
      | exact ⟨1, by decide, hunlock hpc⟩
      | cases hlate
  | returned result =>
    rcases result with _ | (_ | _ | _ | _ | _ | _) <;> rw [hpc] at hlate <;> first
      | exact ⟨0, by decide, s, rfl, hpc⟩
      | cases hlate
  | _ =>
    rw [hpc] at hlate
    cases hlate

/-! ### The theorem -/

/-- **Shutdown loses nothing** while its context stays live.  When the one `Shutdown`
call returns, every observation whose `Record` returned nil is evicted or has been
passed to every exporter exactly once, the ring is empty, and no worker was left
when the first exporter was shut down; and a `Record` that starts later returns
`ErrClientClosed`, after at most three steps of its own. -/
theorem shutdown_loses_nothing {cfg : Config} {s : State} {log : List Event} {n : ℕ} {err : Err}
    (hreach : (pipelineSystem cfg).Reach s)
    (hreturned : s.log = log ++ [.callReturned (.shutdown n) err])
    (hctx : .contextEnded (.shutdown n) ∉ log)
    (hone : ∀ m, .called (.shutdown m) ∈ log → m = n) :
    (∀ x, .recordReturned x none ∈ log →
      Evicted s x ∨ ∀ e < cfg.exporters, (passedTo e log).count (.observation x) = 1) ∧
    s.ring.ring.readPos = s.ring.ring.writePos ∧
    (∀ k < cfg.workers, .workerExited k ∈ log ∧
      ∀ e, ¬ log.Precedes (.exporterShutdown e) (.workerExited k)) ∧
    ∀ t, (pipelineSystem cfg).Reach t → s.log <+: t.log →
      ∀ r, .recordCalled r ∉ s.log → .recordCalled r ∈ t.log →
        (∀ result, .recordReturned r result ∈ t.log → result = some .clientClosed) ∧
        ∃ m ≤ 3, Returns cfg t r m (some .clientClosed) := by
  have hu := ringUse_of_reach hreach
  have he := exports_of_reach hreach
  have hb := barrier_of_reach hreach
  have hl := lifecycle_of_reach hreach
  have hlg := logged_of_reach hreach
  have hc := closing_of_reach hreach
  have hmem : ∀ {ev : Event}, ev ∈ s.log → ev ≠ .callReturned (.shutdown n) err → ev ∈ log := by
    intro ev hev hne
    rw [hreturned] at hev
    simpa [hne] using hev
  have hpre : log <+: s.log := hreturned ▸ prefix_append _ _
  have hctx' : .contextEnded (.shutdown n) ∉ s.log := fun h => hctx (hmem h nofun)
  -- the call has run: nobody else could have
  have hpc := hlg.returned (.shutdown n) err (by rw [hreturned]; simp)
  obtain ⟨hclosed, -, c, honce, hstage⟩ := hl.ended (c := .shutdown n) rfl (by rw [hpc]; rfl)
  have hstop := (hl.once c honce).1
  obtain rfl : c = .shutdown n := by
    cases c with
    | flush m => cases hstop
    | shutdown m =>
      have hcalled := hlg.called (.shutdown m) (by intro h; rw [h] at hstage; cases hstage)
      rw [hone m (hmem hcalled nofun)]
  have hall : AllAcked cfg s (.shutdown n) := by
    refine (concluded_of_reach hreach (.shutdown n) err (by rw [hpc]; rfl)
      (.inr honce)).resolve_right ?_
    rintro ⟨-, hended | ⟨hflush, -⟩⟩
    · exact hctx' hended
    · cases hflush
  have hmark := hc.mark _ honce hclosed
  have hnostop : ∀ k, .drainStopped (.shutdown n) k ∉ s.log :=
    fun k hk => hctx' (hlg.stopped _ k hk)
  obtain ⟨hretired, hquiet⟩ := retired_of_context hreach honce hctx'
  refine ⟨?_, ?_, ?_, ?_⟩
  · intro x hx
    obtain ⟨p, hpub⟩ := hu.published_of_returned (hpre.subset hx)
    have hp : p < (s.calls (.shutdown n)).mark := hmark ▸ hu.ring.sound.published_lt hpub
    refine (delivered_of_allAcked hu he hb hall hnostop hp hpub).imp_right ?_
    rintro ⟨k, batch, hentry, hstarted⟩ e hlt
    have hlog : passedTo e s.log = passedTo e log := by
      rw [hreturned, passedTo, exportsTo, filterMap_append]
      simp [passedTo, exportsTo]
    have hnodup := passedTo_nodup hu he (accounts_of_reach hreach) hlt
    rw [← hlog, count_observation]
    refine count_eq_one_of_mem hnodup (mem_observations.mpr ?_)
    exact mem_flatMap.mpr ⟨(k, batch), mem_exportsTo.mpr (hstarted e hlt).1, hentry⟩
  · have hread := mark_le_readPos hb hall hnostop
    have := hu.ring.sound.readPos_le_writePos
    omega
  · intro k hk
    have hexited := hretired _ honce (by omega) k hk
    refine ⟨hmem ((retirement_of_reach hreach).exited k hexited) nofun, fun e hprec => ?_⟩
    exact hquiet e _ rfl (hprec.mono hpre)
  · intro t ht hext r hnew hcalled
    have hlt := lifecycle_of_reach ht
    have hct := closing_of_reach ht
    obtain ⟨rest, hrest⟩ := hext
    have hret : .callReturned (.shutdown n) err ∈ s.log := by rw [hreturned]; simp
    have hprec : t.log.Precedes (.callReturned (.shutdown n) err) (.recordCalled r) := by
      rw [← hrest] at hcalled ⊢
      exact precedes_append hret ((mem_append.mp hcalled).resolve_left hnew)
    have hlate := hct.late _ _ r rfl hprec
    refine ⟨fun result hres => ?_, ?_⟩
    · rw [(ringUse_of_reach ht).returned r result hres] at hlate
      rcases result with _ | (_ | _ | _ | _ | _ | _) <;> first | rfl | cases hlate
    · -- the mutex is free for good
      have hpct := (logged_of_reach ht).returned _ _ hprec.left_mem
      obtain ⟨hclosed, -, c', honce', hstage'⟩ :=
        hlt.ended (c := .shutdown n) rfl (by rw [hpct]; rfl)
      obtain ⟨hwaiting, hlocked⟩ := hct.writer c' honce'
      rw [hstage'] at hwaiting hlocked
      refine returns_of_late hclosed ?_ ?_ hlate
      · exact Bool.eq_false_iff.mpr fun h => absurd (hwaiting.mp h) (by decide)
      · exact Bool.eq_false_iff.mpr fun h => absurd (hlocked.mp h) (by decide)

theorem shutdown_loses_nothing_quietShutdown :
    ∃ s, (pipelineSystem smallConfig).run (State.init smallConfig) quietShutdown = some s ∧
      s.log = quietShutdownLog ++ [.callReturned (.shutdown 0) []] ∧
      (passedTo 0 quietShutdownLog).count (.observation 0) = 1 := by
  have hrun : ((pipelineSystem smallConfig).run (State.init smallConfig) quietShutdown).map
      (fun s => (s.log, evictionFree s)) =
      some (quietShutdownLog ++ [.callReturned (.shutdown 0) []], true) := by decide +kernel
  obtain ⟨s, hs, hlog, hevicted⟩ := exists_evictionFree hrun
  have hshut := shutdown_loses_nothing (.of_run .init hs) hlog (by decide)
    (by simp [quietShutdownLog])
  exact ⟨s, hs, hlog,
    (hshut.1 0 (by decide)).resolve_left (hevicted 0) 0 (by decide)⟩

end ConvoyStats.Pipeline
