import ConvoyStats.Pipeline.Retirement

/-!
# Flush against Shutdown

A `Flush` that has passed its check of `shutdownCh` may still be in its broadcast
when `Shutdown` has cancelled the pipeline context and the workers have exited.
What keeps it from waiting for ever is that `broadcast` selects on the pipeline
context while it sends, and that a worker that has its request acknowledges before
it exits.  `Stopped` is that state of the pipeline, and `Call.rank` bounds the steps
the flush has left in it.

`Shutdown` in turn selects on no pipeline context, since it cancels it itself:
`Departures` is what keeps its broadcast from waiting for a worker that has exited.
-/

namespace ConvoyStats.Pipeline

open Function List Transport

/-- The pipeline context is cancelled and every worker has exited. -/
structure Stopped (cfg : Config) (s : State) : Prop where
  cancelled : s.cancelled = true
  exited : ∀ k < cfg.workers, (s.workers k).pc = .exited

/-- A bound on the steps a flush has left once the pipeline has stopped. -/
def Call.rank (call : Call) : ℕ :=
  match call.pc with
  | .notCalled | .checkClosed | .send _ => 1
  | .generation => 2
  | .collect _ => call.done.length
  | _ => 0

namespace Stopped

variable {cfg : Config} {s s' : State} {n : ℕ} {ch : Choice} {l : Label}

theorem step (hs : Stopped cfg s) (h : StepMove cfg s s') : Stopped cfg s' := by
  cases h with
  | recorder h => cases h <;> exact ⟨hs.cancelled, hs.exited⟩
  | worker hk h => exact absurd (hs.exited _ hk) h.live
  | caller h =>
    refine ⟨h.cancelled hs.cancelled, ?_⟩
    rw [(CallerFrame.of_move h).workers]
    exact hs.exited
  | request c k hk _ hworker =>
    rw [hs.exited k hk] at hworker
    cases hworker
  | tick k =>
    refine ⟨hs.cancelled, fun j hj => ?_⟩
    have hpc := hs.exited j hj
    by_cases hjk : j = k <;> simpa [hjk] using hpc
  | contextEnds c => exact ⟨hs.cancelled, hs.exited⟩

theorem closed (hs : Stopped cfg s) (hl : Lifecycle s) : s.closed = true := by
  cases honce : s.shutdownOnce with
  | none =>
    have := (hl.idle honce).2
    rw [hs.cancelled] at this
    cases this
  | some c =>
    obtain ⟨-, -, hclosed, hcancelled⟩ := hl.once c honce
    have := hcancelled.mp hs.cancelled
    exact hclosed.mpr (by omega)

/-- Every worker has acknowledged a call that collects, so an acknowledgement it has
not received is in its channel. -/
theorem done_ne_nil (hs : Stopped cfg s) (hreach : (pipelineSystem cfg).Reach s) {c : Caller}
    {err : Err} (hpc : (s.calls c).pc = .collect err) : (s.calls c).done ≠ [] := by
  intro hnil
  have hh := handshake_of_reach hreach
  have hsub : range cfg.workers ⊆ (s.calls c).got := by
    intro k hk
    have hk := mem_range.mp hk
    rcases hh.awaited c k (by rw [hpc]; exact hk) with hserving | hacked
    · rw [State.serving, hs.exited k hk] at hserving
      cases hserving
    · simpa [Call.acked, hnil] using hacked
  have hlen := (subperm_of_subset nodup_range hsub).length_le
  have := (receipts_of_reach hreach).during c err hpc
  rw [length_range] at hlen
  omega

/-- Not more acknowledgements wait than there are workers. -/
theorem rank_le (hreach : (pipelineSystem cfg).Reach s) (c : Caller) :
    (s.calls c).rank ≤ cfg.workers + 1 := by
  have hlen := (handshake_of_reach hreach).acked_length_le c
  rw [Call.acked, length_append, length_map] at hlen
  have hpos := cfg.workers_pos
  unfold Call.rank
  split <;> omega

/-- **A flush's own step brings it closer to its return.** -/
theorem rank_lt (hs : Stopped cfg s) (hreach : (pipelineSystem cfg).Reach s)
    (h : callerStep cfg s (.flush n) ch = some s') :
    (s'.calls (.flush n)).rank < (s.calls (.flush n)).rank := by
  have hl := lifecycle_of_reach hreach
  have hnot : (s.calls (.flush n)).pc ≠ .notCalled := by
    intro hpc
    simp [callerStep, hpc] at h
  -- the points of `Shutdown` are not met
  have hflush : ∀ pc : CallPc, (s.calls (.flush n)).pc = pc → pc.ofFlush = true := by
    rintro pc rfl
    exact hl.flush (.flush n) rfl
  have hreturns : ∀ (call : Call) (err : Err),
      (((s.setCall (.flush n) call).broadcastReturns (.flush n) err).calls
        (.flush n)).rank = 0 := by
    intro call err
    simp [State.broadcastReturns, State.returnCall, State.emit, State.callTo, State.setCall,
      Call.rank]
  have hself : s.setCall (.flush n) (s.calls (.flush n)) = s := by simp [State.setCall]
  have hreturns' : ∀ err, ((s.broadcastReturns (.flush n) err).calls (.flush n)).rank = 0 := by
    intro err
    have := hreturns (s.calls (.flush n)) err
    rwa [hself] at this
  cases CallerMove.of_callerStep h with
  | start hpc => exact absurd hpc hnot
  | refused hpc hclosed =>
    simp [State.returnCall, State.emit, State.callTo, State.setCall, Call.rank, hpc]
  | admitted hpc hclosed =>
    rw [hs.closed hl] at hclosed
    cases hclosed
  | generation hpc => simp [State.setCall, Call.rank, hpc]
  | contextDone hpc hctx =>
    rw [hreturns']
    rcases hpc with ⟨k, hpc⟩ | ⟨err, hpc⟩
    · simp [Call.rank, hpc]
    · simpa [Call.rank, hpc] using length_pos_of_ne_nil (hs.done_ne_nil hreach hpc)
  | clientClosed k hpc hcancelled =>
    rw [hreturns']
    simp [Call.rank, hpc]
  | received _ _ k _ hpc hdone => simp [State.setCall, Call.rank, hpc, hdone]
  | receivedLast _ _ k _ hpc hdone =>
    rw [hreturns]
    simp [Call.rank, hpc, hdone]
  | enter hpc | joined _ hpc | lock hpc | acquire hpc | close hpc | unlock hpc | cancel _ hpc
  | skipWait _ hpc | wait _ hpc | waited _ hpc | stopWait _ hpc | shutExporter _ _ hpc
  | exporterShut _ _ _ hpc | finish _ _ _ hpc =>
    exact absurd (hflush _ hpc) (by simp [CallPc.ofFlush])

/-- **No other step sets it back.** -/
theorem rank_kept (hs : Stopped cfg s) (h : Pipeline.step cfg s l = some s')
    (hother : ∀ ch, l ≠ .caller (.flush n) ch) :
    (s'.calls (.flush n)).rank ≤ (s.calls (.flush n)).rank := by
  cases LabelMove.of_step h with
  | record h | recorder h => rw [h.calls]
  | worker hk h | startExport hk h | finishExport hk h => exact absurd (hs.exited _ hk) h.live
  | @call c _ h hstep =>
    by_cases hc : Caller.flush n = c
    · subst hc
      unfold startCall at hstep
      split at hstep
      · rename_i hpc
        cases hstep
        simp [State.emit, State.setCall, Call.rank, hpc]
      · cases hstep
    · rw [(CallerFrame.of_move h).others _ hc]
  | @caller c ch _ h =>
    have hc : Caller.flush n ≠ c := fun hc => hother ch (by rw [hc])
    rw [(CallerFrame.of_move h).others _ hc]
  | request c k hk _ hselect =>
    rw [hs.exited k hk] at hselect
    cases hselect
  | tick => exact le_rfl
  | contextEnds c =>
    by_cases hc : Caller.flush n = c <;> simp [hc, Call.rank]

/-- **A flush that has not returned can take a step.** -/
theorem enabled (hs : Stopped cfg s) (hreach : (pipelineSystem cfg).Reach s)
    (hcalled : (s.calls (.flush n)).pc ≠ .notCalled) :
    (∃ err, (s.calls (.flush n)).pc = .returned err) ∨ 0 < (s.calls (.flush n)).rank ∧
      ∃ ch s', Pipeline.step cfg s (.caller (.flush n) ch) = some s' := by
  have hflush := (lifecycle_of_reach hreach).flush (.flush n) rfl
  -- a step that is enabled has a rank to lose
  have hstep : ∀ ch, (callerStep cfg s (.flush n) ch).isSome → 0 < (s.calls (.flush n)).rank ∧
      ∃ ch s', Pipeline.step cfg s (.caller (.flush n) ch) = some s' := by
    intro ch hsome
    obtain ⟨s', h⟩ := Option.isSome_iff_exists.mp hsome
    exact ⟨Nat.zero_lt_of_lt (hs.rank_lt hreach h), ch, s', h⟩
  cases hpc : (s.calls (.flush n)).pc with
  | notCalled => exact absurd hpc hcalled
  | returned err => exact .inl ⟨err, rfl⟩
  | checkClosed | generation => exact .inr (hstep {} (by simp [callerStep, hpc]))
  | send k =>
    -- the pipeline context is done
    exact .inr (hstep { select := .closed } (by simp [callerStep, hpc, hs.cancelled]))
  | collect err =>
    obtain ⟨⟨k, err'⟩, rest, hdone⟩ := exists_cons_of_ne_nil (hs.done_ne_nil hreach hpc)
    exact .inr (hstep {} (by simp [callerStep, hpc, receiveAck, hdone]))
  | _ =>
    rw [hpc] at hflush
    cases hflush

end Stopped

/-! ### The broadcast of Shutdown -/

/-- **Why a worker leaves**: the pipeline context is cancelled, or the worker has
acknowledged a `Shutdown`. -/
structure Departures (s : State) : Prop where
  dropping : ∀ k, (s.workers k).pc = .dropping → s.cancelled = true
  gone : ∀ k, (s.workers k).pc.gone → s.cancelled = true ∨
    ∃ c, c.stop = true ∧ k ∈ (s.calls c).acked

namespace Departures

variable {cfg : Config} {s s' : State} {k : ℕ}

theorem init : Departures (State.init cfg) := ⟨nofun, nofun⟩

variable (hd : Departures s)
include hd

/-- The worker that moves, with where it comes to. -/
theorem of_worker {w' : Worker} (h : StepMove cfg s s')
    (hworkers : s'.workers = update s.workers k w')
    (hdropping : w'.pc = .dropping → s.cancelled = true)
    (hgone : w'.pc.gone → s.cancelled = true ∨ ∃ c, c.stop = true ∧ k ∈ (s'.calls c).acked) :
    Departures s' := by
  have hcases := update_cases hworkers
  refine ⟨fun j hj => h.cancelled ?_, fun j hj => ?_⟩
  · rcases hcases j with ⟨rfl, hw⟩ | ⟨-, hw⟩ <;> rw [hw] at hj
    · exact hdropping hj
    · exact hd.dropping j hj
  · rcases hcases j with ⟨rfl, hw⟩ | ⟨-, hw⟩ <;> rw [hw] at hj
    · exact (hgone hj).imp_left h.cancelled
    · refine (hd.gone j hj).imp h.cancelled ?_
      rintro ⟨c, hstop, hmem⟩
      exact ⟨c, hstop, h.acked_subset c hmem⟩

/-- What was known of a worker that stays where it is. -/
theorem gone_kept (h : StepMove cfg s s') (hgone : (s.workers k).pc.gone) :
    s.cancelled = true ∨ ∃ c, c.stop = true ∧ k ∈ (s'.calls c).acked := by
  refine (hd.gone k hgone).imp_right ?_
  rintro ⟨c, hstop, hmem⟩
  exact ⟨c, hstop, h.acked_subset c hmem⟩

theorem of_same (h : StepMove cfg s s') (hworkers : s'.workers = s.workers) : Departures s' :=
  hd.of_worker (k := 0) h (by rw [hworkers, update_eq_self]) (hd.dropping 0) (hd.gone_kept h)

theorem worker (hmove : StepMove cfg s s') (h : WorkerMove s k s') : Departures s' := by
  have hlive : ∀ {pc : WorkerPc} {P : Prop}, pc.emptied = false → pc.gone → P := by
    intro pc P hemptied hgone
    cases pc <;> simp_all [WorkerPc.emptied, WorkerPc.gone]
  cases h with
  | keep _ _ _ _ _ hplace _ hdropping =>
    refine hd.of_worker hmove rfl hdropping fun hgone => ?_
    rw [hplace.gone] at hgone
    exact hd.gone_kept hmove hgone
  | access => exact hd.of_same hmove rfl
  | took x _ _ _ hemptied _ _ _ _ _ hitems =>
    refine hd.of_worker hmove rfl (fun hpc => ?_) (hlive hemptied)
    rw [hpc] at hitems
    exact absurd hitems.symm (append_ne_nil_of_right_ne_nil _ nofun)
  | empty result ring' w' hpop hemptied hresult hring hheld hitems hout hdrain hstay
  | append x _ _ _ hemptied _ _ _ _ _ _ hstay =>
    exact hd.of_worker hmove rfl (fun hpc => absurd hpc hstay) (hlive hemptied)
  | count reason w' hpop hlive' hgone hemptied hitems hitems' hbatch hintake hexported hlost
      hdrain hstay
  | «export» w' stats' hpop hlive' hgone hitems hitems' hbatch hexported hintake hlost hdrain
      hstay =>
    refine hd.of_worker hmove rfl (fun hpc => absurd hpc hstay) fun h => ?_
    rw [hgone] at h
    cases h
  | loopEnds _ n _ _ _ hpc hemptied _ _ hdrain =>
    refine hd.of_worker hmove rfl (fun hpc => ?_) (hlive hemptied)
    rw [hpc] at hdrain
    cases hdrain
  | ack request err _ _ hpc' =>
    refine hd.of_worker hmove rfl (fun hw => ?_) fun hw => .inr ⟨request.caller, ?_⟩
    · rw [hw] at hpc'
      split at hpc' <;> cases hpc'
    · rw [hpc'] at hw
      cases hstop : request.caller.stop with
      | false =>
        rw [hstop] at hw
        cases hw
      | true => exact ⟨rfl, by simp [Call.acked]⟩
  | drop _ _ hpc hpc' =>
    refine hd.of_worker hmove rfl (fun hw => ?_) fun _ => .inl (hd.dropping k hpc)
    rw [hw] at hpc'
    cases hpc'

theorem step (h : StepMove cfg s s') : Departures s' := by
  have hmove := h
  cases h with
  | recorder h => exact hd.of_same hmove h.workers
  | worker hk h => exact hd.worker hmove h
  | caller h => exact hd.of_same hmove (CallerFrame.of_move h).workers
  | request c => exact hd.of_worker hmove rfl nofun nofun
  | tick k => exact hd.of_worker hmove rfl (hd.dropping k) (hd.gone k)
  | contextEnds c => exact hd.of_same hmove rfl

end Departures

variable {cfg : Config} {s : State}

theorem departures_of_reach (h : (pipelineSystem cfg).Reach s) : Departures s :=
  h.invariant .init fun _ _ _ _ hd _ hstep => hd.step (.of_step hstep)

/-- **A broadcast of `Shutdown` never waits for a worker that has exited**: the worker
it sends to has not, and one it collects from has acknowledged before. -/
theorem shutdown_awaits_live (hreach : (pipelineSystem cfg).Reach s) {c : Caller}
    (hstop : c.stop = true) :
    (∀ k, (s.calls c).pc = .send k → (s.workers k).pc ≠ .exited) ∧
      ∀ err, (s.calls c).pc = .collect err → ∀ k < cfg.workers, (s.workers k).pc = .exited →
        k ∈ (s.calls c).acked := by
  have hl := lifecycle_of_reach hreach
  have hh := handshake_of_reach hreach
  refine ⟨fun k hpc hexited => ?_, fun err hpc k hk hexited => ?_⟩
  · have honce := hl.inside c hstop (by simp [hpc, CallPc.stage]) (by simp [hpc, CallPc.stage])
    have hnot : s.cancelled ≠ true := by
      rw [Ne, (hl.once c honce).2.2.2, hpc]
      simp [CallPc.stage]
    rcases (departures_of_reach hreach).gone k (by rw [hexited]; rfl) with h | ⟨c', hstop', hmem⟩
    · exact hnot h
    · -- the `Shutdown` the worker has acknowledged is this one, which has not sent to it yet
      have hsent := (hh.acked c' k hmem).1
      have hsame : s.shutdownOnce = some c' := by
        have hstage : 7 ≤ (s.calls c').pc.stage := by
          cases hpc' : (s.calls c').pc <;> rw [hpc'] at hsent <;>
            first | exact hsent.elim | simp [CallPc.stage]
        by_cases hlt : (s.calls c').pc.stage ≤ 11
        · exact hl.inside c' hstop' (by omega) hlt
        · have hle : (s.calls c').pc.stage ≤ 12 := by
            cases (s.calls c').pc <;> simp [CallPc.stage]
          obtain ⟨c'', honce', hstage'⟩ := hl.done (hl.returned c' hstop' (by omega))
          cases honce.symm.trans honce'
          rw [hpc] at hstage'
          cases hstage'
      cases honce.symm.trans hsame
      rw [hpc] at hsent
      exact Nat.lt_irrefl k hsent
  · rcases hh.awaited c k (by rw [hpc]; exact hk) with hserving | hacked
    · rw [State.serving, hexited] at hserving
      cases hserving
    · exact hacked

/-! ### The race -/

theorem StepMove.called_kept {s' : State} {c : Caller} (h : StepMove cfg s s')
    (hcalled : (s.calls c).pc ≠ .notCalled) : (s'.calls c).pc ≠ .notCalled := by
  cases h with
  | recorder h => rwa [h.calls]
  | worker hk h => rwa [h.calls_pc]
  | @caller c' s' h =>
    by_cases hc : c = c'
    · subst hc
      exact h.called
    · rwa [(CallerFrame.of_move h).others c hc]
  | request c' =>
    by_cases hc : c = c'
    · subst hc
      simp only [update_self]
      split <;> nofun
    · simpa [hc] using hcalled
  | tick k => exact hcalled
  | contextEnds c' => by_cases hc : c = c' <;> simpa [hc] using hcalled

/-- In a run in which no context ends, none is logged. -/
theorem contextEnded_not_mem
    (h : (pipelineSystem cfg).Reachable (fun _ l => ∀ c, l ≠ .contextEnds c) s) (c : Caller) :
    .contextEnded c ∉ s.log := by
  refine h.invariant (I := fun s => .contextEnded c ∉ s.log) not_mem_nil ?_
  intro s l s' _ hnot hlive hstep hmem
  cases LabelMove.of_step hstep with
  | record h | recorder h => exact hnot (h.log.mem rfl hmem)
  | worker _ h | startExport _ h | finishExport _ h => exact hnot (h.log.mem rfl hmem)
  | call h | caller h => exact hnot ((CallerFrame.of_move h).log.mem rfl hmem)
  | request | tick => exact hnot hmem
  | contextEnds c' => exact hlive c' rfl

/-- A step of flush `n` itself. -/
def Label.isFlush (n : ℕ) : Label → Bool
  | .caller (.flush m) _ => m == n
  | _ => false

section

variable {cfg : Config} {s t : State} {n : ℕ} {ls : List Label}

/-- The calls of a stopped pipeline, in any run from there on. -/
theorem Stopped.run (hs : Stopped cfg s) (hreach : (pipelineSystem cfg).Reach s)
    (hcalled : (s.calls (.flush n)).pc ≠ .notCalled)
    (hrun : (pipelineSystem cfg).run s ls = some t) :
    ((pipelineSystem cfg).Reach t ∧ Stopped cfg t ∧ (t.calls (.flush n)).pc ≠ .notCalled) ∧
      ls.countP (Label.isFlush n) + (t.calls (.flush n)).rank ≤ (s.calls (.flush n)).rank := by
  refine TransitionSystem.run_countP_le (fun s => (pipelineSystem cfg).Reach s ∧
    Stopped cfg s ∧ (s.calls (.flush n)).pc ≠ .notCalled) (fun s => (s.calls (.flush n)).rank)
    (Label.isFlush n) ?_ ?_ ?_ ⟨hreach, hs, hcalled⟩ hrun
  · rintro s l s' ⟨hreach, hs, hcalled⟩ hstep
    have hmove : StepMove cfg s s' := .of_step hstep
    exact ⟨.step hreach trivial hstep, hs.step hmove, hmove.called_kept hcalled⟩
  · rintro s l s' ⟨hreach, hs, -⟩ hstep hown
    unfold Label.isFlush at hown
    split at hown
    · cases beq_iff_eq.mp hown
      exact hs.rank_lt hreach hstep
    · cases hown
  · rintro s l s' ⟨-, hs, -⟩ hstep hother
    refine hs.rank_kept hstep fun ch hl => ?_
    rw [hl, Label.isFlush, beq_self_eq_true] at hother
    cases hother

/-- **A flush of a stopped pipeline returns.**  As long as it has not returned it can
take a step, and it has returned after `workers + 1` of its own steps, whatever else
happens between them. -/
theorem Stopped.returns (hs : Stopped cfg s) (hreach : (pipelineSystem cfg).Reach s)
    (hcalled : (s.calls (.flush n)).pc ≠ .notCalled)
    (hrun : (pipelineSystem cfg).run s ls = some t) :
    (∃ err, (t.calls (.flush n)).pc = .returned err) ∨
      ls.countP (Label.isFlush n) ≤ cfg.workers ∧
        ∃ ch t', Pipeline.step cfg t (.caller (.flush n) ch) = some t' := by
  obtain ⟨⟨hreach', hs', hcalled'⟩, hle⟩ := hs.run hreach hcalled hrun
  have hbound := Stopped.rank_le hreach (.flush n)
  refine (hs'.enabled hreach' hcalled').imp_right ?_
  rintro ⟨hpos, hstep⟩
  exact ⟨by omega, hstep⟩

end

/-- **A flush that races a shutdown is not stuck.**  When no context ends: with the
pipeline context cancelled and every worker gone, every flush that has been called and
has not returned can take a step and has at most `workers` more after it; no broadcast
of a shutdown waits for a worker that has exited; and a flush that returns nil is a
barrier, shutdown or not. -/
theorem racing_flush_not_stuck {cfg : Config} {s : State}
    (hreach : (pipelineSystem cfg).Reachable (fun _ l => ∀ c, l ≠ .contextEnds c) s) :
    (Stopped cfg s → ∀ n, (s.calls (.flush n)).pc ≠ .notCalled →
      ∀ ls t, (pipelineSystem cfg).run s ls = some t →
        (∃ err, (t.calls (.flush n)).pc = .returned err) ∨
          ls.countP (Label.isFlush n) ≤ cfg.workers ∧
            ∃ ch t', step cfg t (.caller (.flush n) ch) = some t') ∧
    (∀ c, c.stop = true →
      (∀ k, (s.calls c).pc = .send k → (s.workers k).pc ≠ .exited) ∧
        ∀ err, (s.calls c).pc = .collect err → ∀ k < cfg.workers, (s.workers k).pc = .exited →
          k ∈ (s.calls c).acked) ∧
    ∀ n log, s.log = log ++ [.callReturned (.flush n) []] →
      (∀ x, log.Precedes (.recordReturned x none) (.called (.flush n)) → ¬ Evicted s x →
        Exported cfg log (.observation x)) ∧
      ∀ reason u, u < (s.calls (.flush n)).counted reason → ∃ first count,
        first ≤ u ∧ u < first + count ∧ Exported cfg log (.dropCount reason first count) := by
  refine ⟨fun hs n hcalled ls t => hs.returns hreach.reach hcalled,
    fun c hstop => shutdown_awaits_live hreach.reach hstop, fun n log hreturned => ?_⟩
  have hctx : .contextEnded (.flush n) ∉ log := by
    intro hmem
    exact contextEnded_not_mem hreach (.flush n)
      (by rw [hreturned]; exact mem_append_left _ hmem)
  refine barrier_of_allAcked hreach.reach hreturned hctx ?_
  have hpc := (logged_of_reach hreach.reach).returned (.flush n) [] (by rw [hreturned]; simp)
  exact (concluded_of_reach hreach.reach (.flush n) [] (by rw [hpc]; rfl) (.inl rfl)).resolve_right
    fun h => h.1 rfl

/-- A flush has its acknowledgement in the channel when a shutdown stops the pipeline. -/
def lateFlush : List Label :=
  .record 0 1 :: replicate 16 (.recorder 0 {}) ++
    [.call (.flush 0), .caller (.flush 0) {}, .caller (.flush 0) {}, .request (.flush 0) 0] ++
    replicate 24 (.worker 0 {}) ++
    [.startExport 0 0, .finishExport 0 0 false, .worker 0 {}, .worker 0 {}] ++
    .call (.shutdown 0) :: replicate 6 (.caller (.shutdown 0) {}) ++
    .request (.shutdown 0) 0 :: replicate 9 (.worker 0 {}) ++
    replicate 2 (.caller (.shutdown 0) {})

/-- What `lateFlush` logs. -/
def lateFlushLog : List Event :=
  [.recordCalled 0, .recordReturned 0 none, .called (.flush 0),
    .exportStarted 0 0 [.observation 0], .exportReturned 0 0 [.observation 0] false,
    .called (.shutdown 0), .workerExited 0]

/-- Not the end of a context. -/
def keepsContexts (_ : State) : Label → Bool
  | .contextEnds _ => false
  | _ => true

theorem racing_flush_not_stuck_lateFlush :
    (∃ s, (pipelineSystem smallConfig).run (State.init smallConfig) lateFlush = some s ∧
      Stopped smallConfig s ∧ ∃ ch t, step smallConfig s (.caller (.flush 0) ch) = some t) ∧
    ∃ s, (pipelineSystem smallConfig).run (State.init smallConfig)
        (lateFlush ++ [.caller (.flush 0) {}]) = some s ∧
      s.log = lateFlushLog ++ [.callReturned (.flush 0) []] ∧
      Exported smallConfig lateFlushLog (.observation 0) := by
  have hreachable : ∀ {ls s}, (pipelineSystem smallConfig).runWithin keepsContexts
      (State.init smallConfig) ls = some s →
      (pipelineSystem smallConfig).Reachable (fun _ l => ∀ c, l ≠ .contextEnds c) s := by
    intro ls s hs
    refine (TransitionSystem.Reachable.of_runWithin .init hs).mono ?_
    rintro s _ hl c rfl
    cases hl
  constructor
  · have hrun : ((pipelineSystem smallConfig).runWithin keepsContexts (State.init smallConfig)
        lateFlush).map (fun s => (s.cancelled, decide ((s.workers 0).pc = .exited),
          (s.calls (.flush 0)).pc matches .collect _)) = some (true, true, true) := by
      decide +kernel
    obtain ⟨s, hs, heq⟩ := Option.map_eq_some_iff.mp hrun
    simp only [Prod.mk.injEq] at heq
    obtain ⟨hcancelled, hexited, hcollect⟩ := heq
    have hstopped : Stopped smallConfig s := by
      refine ⟨hcancelled, fun k hk => ?_⟩
      obtain rfl : k = 0 := Nat.lt_one_iff.mp hk
      exact of_decide_eq_true hexited
    obtain ⟨err, hpc⟩ : ∃ err, (s.calls (.flush 0)).pc = .collect err := by
      split at hcollect
      · exact ⟨_, ‹_›⟩
      · cases hcollect
    refine ⟨s, TransitionSystem.run_of_runWithin hs, hstopped, ?_⟩
    rcases (racing_flush_not_stuck (hreachable hs)).1 hstopped 0 (by rw [hpc]; nofun) [] s rfl with
      ⟨err', hreturned⟩ | ⟨-, hstep⟩
    · rw [hpc] at hreturned
      cases hreturned
    · exact hstep
  · have hrun : ((pipelineSystem smallConfig).runWithin keepsContexts (State.init smallConfig)
        (lateFlush ++ [.caller (.flush 0) {}])).map (fun s => (s.log, evictionFree s)) =
        some (lateFlushLog ++ [.callReturned (.flush 0) []], true) := by decide +kernel
    obtain ⟨s, hs, hlog, hevicted⟩ := exists_evictionFree hrun
    exact ⟨s, TransitionSystem.run_of_runWithin hs, hlog,
      ((racing_flush_not_stuck (hreachable hs)).2.2 0 lateFlushLog hlog).1 0 (by decide)
        (hevicted 0)⟩

end ConvoyStats.Pipeline
