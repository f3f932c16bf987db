import ConvoyStats.Pipeline.Delivery

/-!
# Results of calls whose context ends

A drain whose context is done stops popping, and nothing in its acknowledgement
says so.  `StopsShort` is that step where it matters: the ring has not been read up
to where it was filled when the call started.  In the runs without it a call that
leaves something undelivered returns an error; `cutShortFlush` is a run with it, in
which `Flush` returns nil over an observation that was never exported.
-/

namespace ConvoyStats.Pipeline

open Transport

/-- A drain for the call `c` leaves its loop because the context is done, with the
ring not read up to the mark of the call. -/
def StopsShort (c : Caller) (s : State) : Label → Prop
  | .worker k _ =>
    match (s.workers k).pc with
    | .drainLoop request popped _ => request.caller = c ∧ stopsShort s request popped = true
    | _ => False
  | _ => False

instance (c : Caller) (s : State) (l : Label) : Decidable (StopsShort c s l) := by
  unfold StopsShort
  split
  · split <;> infer_instance
  · infer_instance

/-- Without such a step the log has no such line. -/
theorem not_stopped_of_reachable {cfg : Config} {c : Caller} {s : State}
    (h : (pipelineSystem cfg).Reachable (fun s l => ¬ StopsShort c s l) s) (k : ℕ) :
    .drainStopped c k ∉ s.log := by
  refine h.invariant (I := fun s => .drainStopped c k ∉ s.log) List.not_mem_nil ?_
  intro s l s' _ hnone hkeep hstep
  -- a worker writes the line only in that step
  have hworker : ∀ {j : ℕ}, WorkerMove s j s' → (∀ request n err,
      (s.workers j).pc = .drainLoop request n err → request.caller = c →
      stopsShort s request n = false) → .drainStopped c k ∉ s'.log := by
    intro j hmove hshort hmem
    obtain ⟨request, n, err, hpc, hcaller, hstop⟩ := (hmove.stopped hmem).resolve_left hnone
    rw [hshort request n err hpc hcaller] at hstop
    cases hstop
  cases LabelMove.of_step hstep with
  | record h | recorder h => exact fun hmem => hnone (h.log.mem rfl hmem)
  | worker _ h =>
    refine hworker h fun request n err hpc hcaller => ?_
    refine Bool.eq_false_iff.mpr fun hstop => hkeep ?_
    simp only [StopsShort, hpc]
    exact ⟨hcaller, hstop⟩
  | startExport _ h hstart =>
    refine hworker h fun request n err hpc _ => ?_
    simp [startExport, hpc] at hstart
  | finishExport _ h hfinish =>
    refine hworker h fun request n err hpc _ => ?_
    simp [finishExport, hpc] at hfinish
  | call h | caller h => exact fun hmem => hnone ((CallerFrame.of_move h).log.mem rfl hmem)
  | request | tick => exact hnone
  | contextEnds => simpa using hnone

/-- **An undelivered observation is reported**, in the runs in which no drain for the
call stops short: a `Flush`, or the first `Shutdown`, that returns while some
observation accepted before the call is neither evicted nor passed to every exporter
returns an error. -/
theorem error_of_undelivered {cfg : Config} {c : Caller} {s : State} {log : List Event} {err : Err}
    {x : ℕ} (hreach : (pipelineSystem cfg).Reachable (fun s l => ¬ StopsShort c s l) s)
    (hreturned : s.log = log ++ [.callReturned c err]) (hruns : Runs s c)
    (hbefore : log.Precedes (.recordReturned x none) (.called c)) (hevicted : ¬ Evicted s x)
    (hpassed : ¬ Passed cfg log (.observation x)) : err ≠ [] := by
  have hr := hreach.reach
  have hlg := logged_of_reach hr
  have hpc := hlg.returned c err (by rw [hreturned]; simp)
  rcases concluded_of_reach hr c err (by rw [hpc]; rfl) hruns with hall | ⟨hne, -⟩
  · -- every worker has acknowledged, so the observation would have been delivered
    obtain ⟨p, hp, hpub⟩ := hlg.before c x (hbefore.mono (hreturned ▸ List.prefix_append _ _))
    rcases delivered_of_allAcked (ringUse_of_reach hr) (exports_of_reach hr) (barrier_of_reach hr)
      hall (not_stopped_of_reachable hreach) hp hpub with hev | hexp
    · exact absurd hev hevicted
    · rw [hreturned] at hexp
      exact absurd (hexp.of_append (by simp [Event.byWorker])).passed hpassed
  · exact hne

/-- An observation is recorded and `Flush` is called.  Its context ends when the worker has its
request, and `broadcast` takes the context's case before the worker has moved. -/
def abandonedFlush : List Label :=
  .record 0 1 :: List.replicate 16 (.recorder 0 {}) ++
    [.call (.flush 0), .caller (.flush 0) {}, .caller (.flush 0) {}, .request (.flush 0) 0,
      .contextEnds (.flush 0), .caller (.flush 0) { select := .contextDone }]

/-- What `abandonedFlush` logs before the call returns. -/
def abandonedFlushLog : List Event :=
  [.recordCalled 0, .recordReturned 0 none, .called (.flush 0), .contextEnded (.flush 0)]

/-- A log without exports has nothing passed to an exporter. -/
theorem not_passed {log : List Event} {entry : Entry}
    (h : ∀ k batch, .exportStarted k 0 batch ∉ log) : ¬ Passed smallConfig log entry := by
  rintro ⟨k, batch, -, hall⟩
  exact h k batch (hall 0 Nat.one_pos)

/-- The observation is still in the ring, and the call returns the error of its context. -/
theorem error_of_undelivered_abandonedFlush :
    ∃ s err, (pipelineSystem smallConfig).Reachable (fun s l => ¬ StopsShort (.flush 0) s l) s ∧
      s.log = abandonedFlushLog ++ [.callReturned (.flush 0) err] ∧ ¬ Evicted s 0 ∧
      ¬ Passed smallConfig abandonedFlushLog (.observation 0) ∧ err ≠ [] := by
  have hrun : ((pipelineSystem smallConfig).runWithin
      (fun s l => decide (¬ StopsShort (.flush 0) s l)) (State.init smallConfig)
      abandonedFlush).map (fun s => (s.log, evictionFree s)) =
      some (abandonedFlushLog ++
        [.callReturned (.flush 0) (errorf "flush: " [⟨[], .contextDone⟩])], true) := by
    decide +kernel
  obtain ⟨s, hs, hlog, hevicted⟩ := exists_evictionFree hrun
  have hreach : (pipelineSystem smallConfig).Reachable (fun s l => ¬ StopsShort (.flush 0) s l) s :=
    (TransitionSystem.Reachable.of_runWithin .init hs).mono fun _ _ h => of_decide_eq_true h
  have hpassed : ¬ Passed smallConfig abandonedFlushLog (.observation 0) :=
    not_passed (by simp [abandonedFlushLog])
  exact ⟨s, _, hreach, hlog, hevicted 0, hpassed,
    error_of_undelivered hreach hlog (.inl rfl) (by decide) (hevicted 0) hpassed⟩

/-- The context of a `Flush` ends when the worker has its request and has not popped
anything yet. -/
def cutShortFlush : List Label :=
  .record 0 1 :: List.replicate 16 (.recorder 0 {}) ++
    [.call (.flush 0), .caller (.flush 0) {}, .caller (.flush 0) {}, .request (.flush 0) 0,
      .contextEnds (.flush 0)] ++
    List.replicate 4 (.worker 0 {}) ++ [.caller (.flush 0) {}]

/-- What `cutShortFlush` logs before the call returns. -/
def cutShortFlushLog : List Event :=
  [.recordCalled 0, .recordReturned 0 none, .called (.flush 0), .contextEnded (.flush 0),
    .drainStopped (.flush 0) 0]

/-- The call returns nil and the observation has not been passed to any exporter. -/
theorem nil_over_undelivered :
    ∃ s, (pipelineSystem smallConfig).run (State.init smallConfig) cutShortFlush = some s ∧
      s.log = cutShortFlushLog ++ [.callReturned (.flush 0) []] ∧
      cutShortFlushLog.Precedes (.recordReturned 0 none) (.called (.flush 0)) ∧
      ¬ Evicted s 0 ∧ ¬ Passed smallConfig cutShortFlushLog (.observation 0) := by
  have hrun : ((pipelineSystem smallConfig).run (State.init smallConfig) cutShortFlush).map
      (fun s => (s.log, evictionFree s)) =
      some (cutShortFlushLog ++ [.callReturned (.flush 0) []], true) := by decide +kernel
  obtain ⟨s, hs, hlog, hevicted⟩ := exists_evictionFree hrun
  exact ⟨s, hs, hlog, by decide, hevicted 0, not_passed (by simp [cutShortFlushLog])⟩

end ConvoyStats.Pipeline
