import ConvoyStats.Pipeline.Evictions
import ConvoyStats.Pipeline.Race

/-!
# Conservation

Every observation the pipeline has accepted is at one place (`At.unique`), and its metric
goes back to the pool at most once.  Metrics are released at three points: by the `Record`
call that evicts one, at the end of an export, and by a worker that drops its batch.
`Released` says of a state what has been released by then; a step releases exactly what it
adds to it, and adds nothing that is there already.

`pipeline_conserves` puts this together for every run.
-/

namespace ConvoyStats.Pipeline

open List Transport

/-! ### The pool -/

/-- What a worker is about to return to the pool: the batch of an export that ends, or
the batch it drops. -/
def Worker.releasing (w : Worker) : List Entry :=
  match w.pc with
  | .exporting .. | .dropping => w.batch
  | _ => []

/-- What a worker has returned to the pool. -/
def Worker.released (w : Worker) : List Entry :=
  w.exported.flatten ++ (match w.pc with
    | .recordFailure _ => w.batch
    | _ => []) ++ w.lost

/-- A worker that notes no errors has released what it has exported and what it has
dropped. -/
theorem Worker.released_of_not_recording {w : Worker} (h : ∀ err, w.pc ≠ .recordFailure err) :
    w.released = w.exported.flatten ++ w.lost := by
  unfold released
  split
  · exact absurd ‹_› (h _)
  · rw [append_nil]

/-- A worker releases what it has taken. -/
theorem Worker.Accounts.released {w : Worker} (h : w.Accounts) :
    (w.released ++ w.releasing).Sublist w.intake := by
  rw [h.intake, Worker.undelivered]
  have hlost := h.lost
  unfold Worker.releasing
  split
  · rename_i job status hpc
    rw [Worker.released_of_not_recording (by rw [hpc]; simp), hlost (by rw [hpc]; rfl)]
    simp
  · rename_i hpc
    rw [Worker.released_of_not_recording (by rw [hpc]; simp), hlost (by rw [hpc]; rfl)]
    simp
  · unfold Worker.released
    split
    · rename_i err hpc
      rw [hlost (by rw [hpc]; rfl)]
      simp
    · simp

variable {s : State} {k : ℕ}

theorem WorkerMove.lost {s' : State} (h : WorkerMove s k s') (hpc : (s.workers k).pc ≠ .dropping) :
    (s'.workers k).lost = (s.workers k).lost := by
  cases h with
  | keep w' stats' log' hpop hlive hplace hheld
  | empty result ring' w' hpop hemptied hresult hring hheld
  | loopEnds request n err w' log' hpc' hemptied hheld | ack request err w' hpc' hpc'' hheld =>
    simpa using hheld.lost
  | access => rfl
  | took x _ _ _ _ _ _ _ _ hlost => simpa using hlost
  | append x _ _ _ _ _ _ _ _ hlost => simpa using hlost
  | count _ _ _ _ _ _ _ _ _ _ _ hlost =>
    simpa using hlost
  | «export» _ _ _ _ _ _ _ _ _ _ hlost =>
    simpa using hlost
  | drop w' stats' hpc' => exact absurd hpc' hpc

section

variable {cfg : Config} {s s' : State} {k : ℕ} {ch : Choice}

/-- **A step of a worker** releases what it was about to. -/
theorem workerStep_released (hw : (s.workers k).Accounts) (h : workerStep cfg s k ch = some s') :
    (s'.workers k).released = (s.workers k).released ++ (s.workers k).releasing := by
  have hlost : ∀ {pc}, (s.workers k).pc = pc → pc.gone = false → (s.workers k).lost = [] :=
    fun hpc hgone => hw.lost (hpc ▸ hgone)
  replace h := WorkerStep.of_workerStep h
  cases h with
  | pass hpc h | took hpc _ h | stops hpc _ _ h =>
    cases h <;> simp [Worker.released, Worker.releasing, hpc, State.setWorker, exportingPc]
  | count hpc _ _ _ h =>
    cases h <;> simp [Worker.released, Worker.releasing, hpc, State.setWorker, exportingPc]
  | join hpc | joinChunk hpc | joinLast hpc | drop hpc =>
    simp [Worker.released, Worker.releasing, hpc, hlost hpc rfl, State.setWorker, Worker.reset]
  | recordFailure hpc =>
    simp [Worker.released, Worker.releasing, hpc, State.setWorker, Worker.reset]
  | @ack request _ hpc =>
    cases request.caller.stop <;>
      simp [Worker.released, Worker.releasing, hpc, State.setWorker, State.setCall]
  | access hpc | tick hpc | append hpc | idleEnds hpc | idleStarts hpc | loopEnds hpc
  | loopStops hpc | leave hpc =>
    simp [Worker.released, Worker.releasing, hpc, State.setWorker, State.emit]

end

/-! ### What has been released -/

/-- The metric of the observation has been returned to the pool. -/
def Released (s : State) (x : ℕ) : Prop := Settled (fun w x => .observation x ∈ w.released) s x

/-- The observations whose metrics a step hands to `ReleaseMetric`: what a `Record` call has
evicted, and what a worker is releasing. -/
def releases (s : State) (l : Label) : List ℕ := settles (fun w => observations w.releasing) s l

section

variable {cfg : Config} {s s' : State} {x : ℕ} {l : Label}

theorem intake_of_released (hw : ∀ k, (s.workers k).Accounts) (k : ℕ)
    (h : .observation x ∈ (s.workers k).released) : .observation x ∈ (s.workers k).intake :=
  (hw k).released.subset (mem_append_left _ h)

/-- **A step adds what it releases.** -/
theorem released_step (hu : RingUse cfg s) (hrep : Reports s) (hw : ∀ k, (s.workers k).Accounts)
    (h : step cfg s l = some s') : Released s' x ↔ Released s x ∨ x ∈ releases s l := by
  refine Settled.step hu hrep h (fun k ch hstep => ?_) ?_ ?_ fun w => Iff.rfl
  · rw [workerStep_released (hw k) hstep, mem_append, mem_observations]
  · intro w job status status' hpc
    simp [Worker.released, hpc]
  · intro w request err hpc
    simp [Worker.released, hpc]

/-- **A step releases nothing that has been released.** -/
theorem not_released_of_releases (hu : RingUse cfg s) (hrep : Reports s)
    (hw : ∀ k, (s.workers k).Accounts) (hx : x ∈ releases s l) : ¬ Released s x := by
  refine Settled.fresh hu hrep (intake_of_released hw) (fun k hk => ?_) hx
  refine ⟨(hw k).released.subset (mem_append_right _ (mem_observations.mp hk)), fun hmem => ?_⟩
  have hnodup := (hu.intake_nodup k).sublist ((hw k).released.filterMap _)
  rw [filterMap_append] at hnodup
  exact disjoint_of_nodup_append hnodup (mem_observations.mpr hmem) hk

/-- Nor does it release anything twice. -/
theorem releases_nodup (hu : RingUse cfg s) (hw : ∀ k, (s.workers k).Accounts) (l : Label) :
    (releases s l).Nodup := by
  cases l with
  | recorder r ch =>
    rw [releases, settles]
    cases (s.recorders r).pc.evicting <;> simp
  | worker k ch =>
    have hsub := (sublist_append_right _ _).trans (hw k).released
    exact (hu.intake_nodup k).sublist (hsub.filterMap _)
  | _ => exact nodup_nil

end

variable {cfg : Config}

/-- **The pool.**  What a run has released, none of it twice. -/
theorem released_of_recording {released : List ℕ}
    (h : ((pipelineSystem cfg).recording releases).Reach (s, released)) :
    (pipelineSystem cfg).Reach s ∧ released.Nodup ∧ ∀ x, x ∈ released ↔ Released s x := by
  refine TransitionSystem.recording_invariant
    (I := fun s released => released.Nodup ∧ ∀ x, x ∈ released ↔ Released s x) ?_ ?_ h
  · refine ⟨nodup_nil, fun x => iff_of_false not_mem_nil ?_⟩
    rintro (⟨k, hmem⟩ | ⟨r, n, hmem, -⟩)
    · cases hmem
    · cases hmem
  · intro s released l s' hreach hI hstep
    have hu := ringUse_of_reach hreach
    have hrep := reports_of_reach hreach
    have hw := accounts_of_reach hreach
    refine ⟨hI.1.append (releases_nodup hu hw l) ?_, fun x => ?_⟩
    · intro x hold hnew
      exact not_released_of_releases hu hrep hw hnew ((hI.2 x).mp hold)
    · rw [mem_append, hI.2 x, released_step hu hrep hw hstep]

/-! ### Discards -/

/-- A worker discards only with the pipeline context cancelled. -/
theorem cancelled_of_lost (h : (pipelineSystem cfg).Reach s) (hlost : (s.workers k).lost ≠ []) :
    s.cancelled = true := by
  revert k
  refine h.invariant (I := fun s => ∀ {k}, (s.workers k).lost ≠ [] → s.cancelled = true)
    (fun hlost => absurd rfl hlost) ?_
  intro s l s' hreach hI _ hstep k hlost
  have hmove := StepMove.of_step hstep
  have hkept : (s'.workers k).lost = (s.workers k).lost → s'.cancelled = true :=
    fun hsame => hmove.cancelled (hI (hsame ▸ hlost))
  cases hmove with
  | recorder h => cases h <;> exact hkept rfl
  | @worker j _ hj h =>
    by_cases hjk : k = j
    · subst hjk
      by_cases hpc : (s.workers k).pc = .dropping
      · exact (StepMove.worker hj h).cancelled ((departures_of_reach hreach).dropping k hpc)
      · exact hkept (h.lost hpc)
    · exact hkept (by rw [h.workers_ne hjk])
  | caller h => exact hkept (by rw [(CallerFrame.of_move h).workers])
  | request c j hj hcall hworker | tick j =>
    refine hkept ?_
    by_cases hjk : k = j
    · subst hjk
      simp
    · simp [hjk]
  | contextEnds c => exact hkept rfl

/-! ### The theorem -/

/-- What exporter `e` has been passed by worker `k` are the first of the batches the worker
has handed over. -/
theorem started_prefix_handed (he : Exports cfg s) {e : ℕ} (hlt : e < cfg.exporters) :
    startedBy k e s.log <+: (s.workers k).handed := by
  rw [he.started k e hlt, Worker.handed]
  refine (prefix_append_right_inj _).mpr ?_
  unfold Worker.shipping
  split
  · rename_i job status hpc
    rw [hpc]
    split
    · exact nil_prefix
    · exact prefix_rfl
  · rename_i err hpc
    rw [hpc]
    exact prefix_rfl
  · exact nil_prefix

/-- No observation is evicted twice. -/
theorem evicted_nodup (hu : RingUse cfg s) : ((evicted s.ring.history).map Prod.snd).Nodup := by
  refine Nodup.map_on ?_ (hu.ring.sound.nodup_rejected_evicted.of_append_right.of_map _)
  rintro ⟨call, x⟩ hx ⟨call', x'⟩ hx' (rfl : x = x')
  obtain ⟨p, hobt⟩ := hu.ring.sound.obtained_of_returned (.inr hx)
  obtain ⟨q, hobt'⟩ := hu.ring.sound.obtained_of_returned (.inr hx')
  rw [hu.claimed_once (hu.ring.sound.obtained_claimed hobt)
    (hu.ring.sound.published_of_obtained hobt) (hu.ring.sound.obtained_claimed hobt')
    (hu.ring.sound.published_of_obtained hobt')]

/-- **Conservation.**  In every state of every run:

* an observation whose `Record` returned nil is at exactly one place;
* it occurs at most once in what a worker has handed over, discarded and still holds, and
  the ring hands no observation to two evictions;
* what an exporter is passed are the batches handed over, and no observation is passed to it
  twice;
* a worker discards only with the pipeline context cancelled;
* the pipeline has returned no metric to the pool twice, and none whose `Record` failed. -/
theorem pipeline_conserves {cfg : Config} {s : State} {released : List ℕ}
    (h : ((pipelineSystem cfg).recording releases).Reach (s, released)) :
    (∀ x, .recordReturned x none ∈ s.log → ∃! place, At s x place) ∧
    (∀ k x, ((s.workers k).handed.flatten ++ ((s.workers k).lost ++
      (s.workers k).holding)).count (.observation x) ≤ 1) ∧
    ((evicted s.ring.history).map Prod.snd).Nodup ∧
    (∀ e < cfg.exporters, (∀ k, startedBy k e s.log <+: (s.workers k).handed) ∧
      ∀ x, (passedTo e s.log).count (.observation x) ≤ 1) ∧
    (∀ k, (s.workers k).lost ≠ [] → s.cancelled = true) ∧
    released.Nodup ∧ ∀ x error, .recordReturned x (some error) ∈ s.log → x ∉ released := by
  obtain ⟨hreach, hnodup, hreleased⟩ := released_of_recording h
  have hu := ringUse_of_reach hreach
  have hw := accounts_of_reach hreach
  have he := exports_of_reach hreach
  refine ⟨?_, ?_, evicted_nodup hu, ?_, fun k => cancelled_of_lost hreach, hnodup, ?_⟩
  · intro x hx
    obtain ⟨p, hpub⟩ := hu.published_of_returned hx
    obtain ⟨place, hat⟩ := At.of_published hu hw hpub
    exact ⟨place, hat, fun place' hat' => hat'.unique hu hw hat⟩
  · intro k x
    rw [count_observation, observations_append, observations_append]
    exact nodup_iff_count_le_one.mp (at_worker_unique hu hw k) x
  · intro e hlt
    refine ⟨fun k => started_prefix_handed he hlt, fun x => ?_⟩
    rw [count_observation]
    exact nodup_iff_count_le_one.mp (passedTo_nodup hu he hw hlt) x
  · intro x error hx hmem
    obtain ⟨g, n, p, -, hpub⟩ := Settled.takenBy hu (intake_of_released hw) ((hreleased x).mp hmem)
    have hpc := (reports_of_reach hreach).of_published hu hpub
    rw [hu.returned x _ hx] at hpc
    rcases hpc with hpc | hpc <;> cases hpc

/-- `smallConfig` with the drop-oldest strategy. -/
def evictingConfig : Config := { smallConfig with dropOldest := true }

/-- Three observations for a ring of two: the first is evicted, the others are exported
on the next tick. -/
def evictThenExport : List Label :=
  .record 0 1 :: replicate 16 (.recorder 0 {}) ++
    .record 1 1 :: replicate 16 (.recorder 1 {}) ++
    .record 2 1 :: replicate 22 (.recorder 2 {}) ++ replicate 28 (.worker 0 {}) ++
    [.tick 0, .worker 0 { select := .tick }, .worker 0 {}, .worker 0 {}, .startExport 0 0,
      .finishExport 0 0 false, .worker 0 {}]

theorem pipeline_conserves_evictThenExport :
    ∃ s, ((pipelineSystem evictingConfig).recording releases).run (State.init evictingConfig, [])
        evictThenExport = some (s, [0, 1, 2]) ∧
      .recordReturned 0 none ∈ s.log ∧ .recordReturned 2 none ∈ s.log ∧
      (∃! place, At s 0 place) ∧ (∃! place, At s 2 place) ∧
      (passedTo 0 s.log).count (.observation 2) ≤ 1 := by
  have hrun : (((pipelineSystem evictingConfig).recording releases).run
      (State.init evictingConfig, []) evictThenExport).map (fun p => (p.1.log, p.2)) =
      some ([.recordCalled 0, .recordReturned 0 none, .recordCalled 1, .recordReturned 1 none,
        .recordCalled 2, .recordReturned 2 none,
        .exportStarted 0 0 [.observation 1, .observation 2],
        .exportReturned 0 0 [.observation 1, .observation 2] false], [0, 1, 2]) := by
    decide +kernel
  obtain ⟨⟨s, released⟩, hs, heq⟩ := Option.map_eq_some_iff.mp hrun
  simp only [Prod.mk.injEq] at heq
  obtain ⟨hlog, rfl⟩ := heq
  obtain ⟨hplace, -, -, hpassed, -⟩ := pipeline_conserves (.of_run .init hs)
  have hmem : ∀ x < 3, .recordReturned x none ∈ s.log := by
    rw [hlog]
    decide
  exact ⟨s, hs, hmem 0 (by decide), hmem 2 (by decide), hplace 0 (hmem 0 (by decide)),
    hplace 2 (hmem 2 (by decide)), (hpassed 0 (by decide)).2 2⟩

end ConvoyStats.Pipeline
