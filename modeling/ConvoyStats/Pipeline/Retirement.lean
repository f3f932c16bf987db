import ConvoyStats.Pipeline.Closing

/-!
# The end of the workers

`Shutdown` shuts the exporters down last.  By then every worker has exited, unless
the call has stopped waiting for them because its context is done: `Abandons` is
that step, and `Retired` is what every run without it keeps.  From there on no
worker calls an exporter any more.
-/

namespace ConvoyStats.Pipeline

open Function Transport

/-- The call is about to wait, or waits, for the workers. -/
def CallPc.waiting : CallPc → Bool
  | .checkContext _ | .waitWorkers _ => true
  | _ => false

/-- A step of `Shutdown` that goes on to the exporters because its context is done,
while a worker has not exited. -/
def Abandons (cfg : Config) (s : State) : Label → Prop
  | .caller c _ => (s.calls c).pc.waiting ∧ (s.calls c).ctxDone = true ∧
      ∃ k < cfg.workers, (s.workers k).pc ≠ .exited
  | _ => False

instance (pc : WorkerPc) : Decidable (pc = .exited) :=
  decidable_of_iff ((pc matches .exited) = true) ⟨by cases pc <;> simp, by rintro rfl; rfl⟩

instance (cfg : Config) (s : State) (l : Label) : Decidable (Abandons cfg s l) := by
  unfold Abandons
  split <;> infer_instance

/-- Every worker has exited by the time `Shutdown` comes to the exporters. -/
def Retired (cfg : Config) (s : State) : Prop :=
  ∀ c, s.shutdownOnce = some c → 11 ≤ (s.calls c).pc.stage →
    ∀ k < cfg.workers, (s.workers k).pc = .exited

section

variable {cfg : Config} {s s' : State} {k : ℕ} {c : Caller}

/-- A worker that has exited takes no step. -/
theorem WorkerMove.live (h : WorkerMove s k s') : (s.workers k).pc ≠ .exited := by
  intro hpc
  cases h with
  | keep _ _ _ _ hlive => exact hlive hpc
  | access ring' hpop | took x ring' w' hpop | empty result ring' w' hpop =>
    rw [hpc] at hpop
    cases hpop
  | append x _ _ _ _ hitems =>
    rw [hpc] at hitems
    cases hitems
  | count reason w' hpop hlive | «export» w' stats' hpop hlive =>
    rw [hpc] at hlive
    cases hlive
  | loopEnds request n err w' log' hpc' | ack request err w' hpc' | drop w' stats' hpc' =>
    rw [hpc] at hpc'
    cases hpc'

/-- A worker exits from one point only, and says so. -/
theorem WorkerMove.exits (h : WorkerMove s k s') (hpc : (s'.workers k).pc = .exited) :
    (s.workers k).pc = .leaving ∧ .workerExited k ∈ s'.log := by
  cases h with
  | keep _ _ _ _ hlive hplace _ _ hexited =>
    simp only [update_self] at hpc
    refine ⟨?_, by simp [hexited hpc]⟩
    have hgone := hplace.gone
    rw [hpc] at hgone
    cases hw : (s.workers k).pc with
    | leaving => rfl
    | exited => exact absurd hw hlive
    | _ =>
      rw [hw] at hgone
      cases hgone
  | access ring' hpop hring =>
    rw [show (s.workers k).pc = .exited from hpc] at hpop
    cases hpop
  | took x ring' w' hpop hemptied | empty result ring' w' hpop hemptied
  | append x w' stats' hpop hemptied | loopEnds request n err w' log' hpc' hemptied =>
    simp only [update_self] at hpc
    rw [hpc] at hemptied
    cases hemptied
  | count reason w' hpop hlive hgone | «export» w' stats' hpop hlive hgone =>
    simp only [update_self] at hpc
    rw [hpc] at hgone
    cases hgone
  | ack _ _ _ _ hpc'' =>
    simp only [update_self] at hpc
    rw [hpc] at hpc''
    split at hpc'' <;> cases hpc''
  | drop _ _ _ hpc'' =>
    simp only [update_self] at hpc
    rw [hpc] at hpc''
    cases hpc''

/-- The call that runs comes to the exporters from its wait. -/
theorem CallerMove.stage_shut (h : CallerMove cfg s c s') (hl : Lifecycle s)
    (honce : s'.shutdownOnce = some c) (hstage : 11 ≤ (s'.calls c).pc.stage) :
    11 ≤ (s.calls c).pc.stage ∨ (s.calls c).pc.waiting ∧
      ((s.calls c).ctxDone = true ∨ ∀ k < cfg.workers, (s.workers k).pc = .exited) := by
  have hstop := ((hl.caller h).once c honce).1
  cases c with
  | flush n => cases hstop
  | shutdown n =>
    cases h with
    | refused hpc hclosed =>
      rw [hl.not_shutdown hpc] at hstop
      cases hstop
    | joined _ hpc =>
      have := (hl.once _ honce).2.1
      rw [hpc] at this
      exact absurd this (by decide)
    | skipWait err hpc hctx | stopWait err hpc hctx =>
      exact .inr ⟨by rw [hpc]; rfl, .inl hctx⟩
    | waited err hpc hexited => exact .inr ⟨by rw [hpc]; rfl, .inr hexited⟩
    | shutExporter e err hpc he | exporterShut e err err' hpc herr | finish e running err hpc =>
      left
      rw [hpc]
      simp [CallPc.stage]
    -- every other step ends at an earlier point
    | _ =>
      simp [State.broadcastReturns, State.emit, State.callTo, State.setCall, Caller.entry,
        CallPc.stage] at hstage

/-- The call that runs does not come back from the exporters. -/
theorem CallerMove.stage_kept (h : CallerMove cfg s c s') (hstage : 11 ≤ (s.calls c).pc.stage) :
    11 ≤ (s'.calls c).pc.stage := by
  cases h with
  | shutExporter => simp [State.emit, State.callTo, State.setCall, CallPc.stage]
  | exporterShut => simp [State.callTo, State.setCall, CallPc.stage]
  | finish =>
    simp [State.returnCall, State.emit, State.callTo, State.setCall, CallPc.stage]
  | contextDone hpc hctx =>
    rcases hpc with ⟨k, hpc⟩ | ⟨err, hpc⟩ <;> rw [hpc] at hstage <;> simp [CallPc.stage] at hstage
  | start hpc | refused hpc | admitted hpc | enter hpc | joined _ hpc | lock hpc | acquire hpc
  | close hpc | unlock hpc | generation hpc | clientClosed _ hpc | received _ _ _ _ hpc
  | receivedLast _ _ _ _ hpc | cancel _ hpc | skipWait _ hpc | wait _ hpc | waited _ hpc
  | stopWait _ hpc =>
    rw [hpc] at hstage
    simp [CallPc.stage] at hstage

/-- `shutdownOnce` is entered once. -/
theorem CallerMove.once_kept (h : CallerMove cfg s c s') {c' : Caller}
    (honce : s.shutdownOnce = some c') : s'.shutdownOnce = some c' := by
  cases h with
  | enter hpc hnone =>
    rw [hnone] at honce
    cases honce
  | contextDone | clientClosed | receivedLast => cases c <;> exact honce
  | _ => exact honce

theorem WorkerMove.once_eq (h : WorkerMove s k s') : s'.shutdownOnce = s.shutdownOnce := by
  cases h <;> rfl

end

/-! ### Runs without the step -/

namespace Retired

variable {cfg : Config} {s s' : State} {k : ℕ} {c : Caller} {l : Label}

theorem init : Retired cfg (State.init cfg) := nofun

variable (hr : Retired cfg s)
include hr

/-- The workers that have exited and the calls are where they were. -/
theorem of_same (honce : s'.shutdownOnce = s.shutdownOnce)
    (hpc : ∀ c, (s'.calls c).pc.stage = (s.calls c).pc.stage)
    (hworkers : ∀ k, (s.workers k).pc = .exited → (s'.workers k).pc = .exited) :
    Retired cfg s' := by
  intro c honce' hstage k hk
  rw [honce] at honce'
  rw [hpc] at hstage
  exact hworkers k (hr c honce' hstage k hk)

/-- A worker that moves has not exited, so the exporters are still in use. -/
theorem worker (hk : k < cfg.workers) (h : WorkerMove s k s') :
    Retired cfg s' := by
  intro c honce hstage
  rw [h.once_eq] at honce
  rw [h.calls_pc] at hstage
  exact absurd (hr c honce hstage k hk) h.live

theorem caller (hl : Lifecycle s) (h : CallerMove cfg s c s')
    (hwait : (s.calls c).pc.waiting → (s.calls c).ctxDone = true →
      ∀ k < cfg.workers, (s.workers k).pc = .exited) : Retired cfg s' := by
  intro c' honce hstage
  have hf := CallerFrame.of_move h
  rw [hf.workers]
  by_cases hc : c' = c
  · subst hc
    rcases h.stage_shut hl honce hstage with hold | ⟨hpc, hctx | hexited⟩
    · -- the call has come to the exporters before
      cases hnone : s.shutdownOnce with
      | none => exact absurd hnone (hl.entered c' ((hl.caller h).once c' honce).1 (by omega))
      | some c'' =>
        cases (h.once_kept hnone).symm.trans honce
        exact hr c' hnone hold
    · exact hwait hpc hctx
    · exact hexited
  · rw [hf.others c' hc] at hstage
    cases hnone : s.shutdownOnce with
    | none =>
      have hstop := ((hl.caller h).once c' honce).1
      exact absurd hnone (hl.entered c' hstop (by omega))
    | some c'' =>
      cases (h.once_kept hnone).symm.trans honce
      exact hr c' hnone hstage

/-- **Every step but `Abandons` keeps it.** -/
theorem step (hl : Lifecycle s) (h : step cfg s l = some s')
    (hkeep : ¬ Abandons cfg s l) : Retired cfg s' := by
  cases LabelMove.of_step h with
  | record h | recorder h => cases h <;> exact hr.of_same rfl (fun _ => rfl) fun _ => id
  | worker hk h | startExport hk h | finishExport hk h => exact hr.worker hk h
  | tick k =>
    refine hr.of_same rfl (fun _ => rfl) fun j hj => ?_
    by_cases hjk : j = k
    · subst hjk
      simpa using hj
    · simpa [hjk] using hj
  | call h hstep =>
    refine hr.caller hl h fun hpc => ?_
    unfold startCall at hstep
    split at hstep
    · rename_i hnot
      rw [hnot] at hpc
      cases hpc
    · cases hstep
  | caller h =>
    refine hr.caller hl h fun hpc hctx k hk => ?_
    by_contra hne
    exact hkeep ⟨hpc, hctx, k, hk, hne⟩
  | request c k hk hcall hworker =>
    refine hr.of_same rfl (fun c' => ?_) fun j hj => ?_
    · by_cases hcc : c' = c
      · subst hcc
        simp only [update_self, hcall]
        split <;> rfl
      · simp [hcc]
    · have hne : j ≠ k := by
        rintro rfl
        rw [hworker] at hj
        cases hj
      simpa [hne] using hj
  | contextEnds c =>
    refine hr.of_same rfl (fun c' => ?_) fun _ => id
    by_cases hcc : c' = c
    · subst hcc
      simp
    · simp [hcc]

end Retired

/-! ### What the log says -/

/-- **The log of the end.** -/
structure Retirement (s : State) : Prop where
  exited : ∀ k, (s.workers k).pc = .exited → .workerExited k ∈ s.log
  shut : ∀ e, .exporterShutdown e ∈ s.log →
    ∃ c, s.shutdownOnce = some c ∧ 11 ≤ (s.calls c).pc.stage

namespace Retirement

variable {cfg : Config} {s s' : State} {k : ℕ} {c : Caller}

theorem init : Retirement (State.init cfg) := ⟨nofun, nofun⟩

variable (hr : Retirement s)
include hr

/-- The workers and the calls are where they were. -/
theorem of_same (hsub : s.log ⊆ s'.log)
    (hworkers : ∀ k, (s'.workers k).pc = .exited → (s.workers k).pc = .exited)
    (honce : s'.shutdownOnce = s.shutdownOnce)
    (hpc : ∀ c, (s'.calls c).pc.stage = (s.calls c).pc.stage)
    (hlog : ∀ e, .exporterShutdown e ∈ s'.log → .exporterShutdown e ∈ s.log) :
    Retirement s' := by
  refine ⟨fun k hk => hsub (hr.exited k (hworkers k hk)), fun e he => ?_⟩
  obtain ⟨c, hc, hstage⟩ := hr.shut e (hlog e he)
  exact ⟨c, honce.trans hc, by rw [hpc]; exact hstage⟩

theorem worker (hg : Grows s s') (h : WorkerMove s k s') :
    Retirement s' := by
  refine ⟨fun j hj => ?_, fun e he => ?_⟩
  · by_cases hjk : j = k
    · subst hjk
      exact (h.exits hj).2
    · rw [h.workers_ne hjk] at hj
      exact hg.log.subset (hr.exited j hj)
  · obtain ⟨c, hc, hstage⟩ := hr.shut e (h.log.mem rfl he)
    exact ⟨c, h.once_eq.trans hc, by rw [h.calls_pc]; exact hstage⟩

theorem caller (hl : Lifecycle s) (h : CallerMove cfg s c s') :
    Retirement s' := by
  have hf := CallerFrame.of_move h
  refine ⟨fun k hk => ?_, fun e he => ?_⟩
  · rw [hf.workers] at hk
    exact hf.log.le.subset (hr.exited k hk)
  · have hkept : ∀ c', s.shutdownOnce = some c' → 11 ≤ (s.calls c').pc.stage →
        ∃ c', s'.shutdownOnce = some c' ∧ 11 ≤ (s'.calls c').pc.stage := by
      intro c' honce hstage
      refine ⟨c', h.once_kept honce, ?_⟩
      by_cases hc : c' = c
      · subst hc
        exact h.stage_kept hstage
      · rw [hf.others c' hc]
        exact hstage
    by_cases hold : .exporterShutdown e ∈ s.log
    · obtain ⟨c', honce, hstage⟩ := hr.shut e hold
      exact hkept c' honce hstage
    · -- the event is new: the call is at the exporter
      cases h with
      | shutExporter _ _ hpc =>
        have hstop := hl.not_flush (c := c) (by rw [hpc]; rfl)
        refine hkept c (hl.inside c hstop ?_ ?_) ?_ <;> rw [hpc] <;> simp [CallPc.stage]
      | contextDone | clientClosed | receivedLast =>
        cases c <;> refine absurd ?_ hold <;>
          simpa [State.broadcastReturns, State.returnCall, State.emit, State.callTo,
            State.setCall] using he
      | _ =>
        refine absurd ?_ hold
        simpa [State.returnCall, State.emit, State.callTo, State.setCall] using he

/-- **Every step keeps it.** -/
theorem step (hu : RingUse cfg s) (hl : Lifecycle s)
    (h : StepMove cfg s s') : Retirement s' := by
  have hg := Grows.of_step hu h
  cases h with
  | recorder h =>
    exact hr.of_same hg.log.subset (by rw [h.workers]; exact fun _ => id) h.once_eq
      (by rw [h.calls]; exact fun _ => rfl) fun e he => h.log.mem rfl he
  | worker hk h => exact hr.worker hg h
  | caller h => exact hr.caller hl h
  | request c k _ hcall =>
    refine hr.of_same hg.log.subset (fun j hj => ?_) rfl (fun c' => ?_) fun _ => id
    · have hne : j ≠ k := by
        rintro rfl
        simp at hj
      simpa [hne] using hj
    · by_cases hcc : c' = c
      · subst hcc
        simp only [update_self, hcall]
        split <;> rfl
      · simp [hcc]
  | tick k =>
    refine hr.of_same hg.log.subset (fun j hj => ?_) rfl (fun _ => rfl) fun _ => id
    by_cases hjk : j = k <;> simpa [hjk] using hj
  | contextEnds c =>
    exact hr.of_same hg.log.subset (fun _ => id) rfl
      (congr_of_update (fun call : Call => call.pc.stage) rfl rfl) fun _ he => by simpa using he

end Retirement

theorem retirement_of_reach {cfg : Config} {s : State} (h : (pipelineSystem cfg).Reach s) :
    Retirement s :=
  h.invariant .init fun _ _ _ hr hret _ hstep =>
    hret.step (ringUse_of_reach hr) (lifecycle_of_reach hr) (.of_step hstep)

/-- No worker has done anything after an exporter was shut down. -/
def Quiet (s : State) : Prop :=
  ∀ e ev, ev.byWorker → ¬ s.log.Precedes (.exporterShutdown e) ev

/-- With every worker gone in time, it stays quiet. -/
theorem Quiet.step {cfg : Config} {s s' : State} (hq : Quiet s) (hret : Retirement s)
    (hr : Retired cfg s) (h : StepMove cfg s s') : Quiet s' := by
  -- a step whose event is not a worker's
  have hother : LogGrows (fun ev => !ev.byWorker) s.log s'.log → Quiet s' :=
    fun hlog e ev hby hprec => hq e ev hby (hlog.precedes (by simp [hby]) hprec)
  cases h with
  | recorder h =>
    refine hother (h.log.mono fun ev hev => ?_)
    cases ev <;> first | rfl | cases hev
  | @worker k _ hk h =>
    -- an exporter that is shut down has seen every worker go
    intro e ev hby hprec
    obtain ⟨c, honce, hstage⟩ := hret.shut e (h.log.mem rfl hprec.left_mem)
    exact h.live (hr c honce hstage k hk)
  | caller h =>
    refine hother ((CallerFrame.of_move h).log.mono fun ev hev => ?_)
    cases ev <;> first | rfl | cases hev
  | request => exact hq
  | tick k => exact hq
  | contextEnds c => exact hother (.emit rfl)

/-- Once entered, `shutdownOnce` stays with its call. -/
theorem StepMove.once_kept {cfg : Config} {s s' : State} {c : Caller} (h : StepMove cfg s s')
    (honce : s.shutdownOnce = some c) : s'.shutdownOnce = some c := by
  cases h with
  | recorder h => exact h.once_eq.trans honce
  | worker hk h => exact h.once_eq.trans honce
  | caller h => exact h.once_kept honce
  | request | tick | contextEnds => exact honce

/-- A shutdown whose context has not ended has waited for every worker. -/
theorem retired_of_context {cfg : Config} {s : State} {c : Caller}
    (h : (pipelineSystem cfg).Reach s) (honce : s.shutdownOnce = some c)
    (hctx : .contextEnded c ∉ s.log) : Retired cfg s ∧ Quiet s := by
  have hinv : (∃ c, s.shutdownOnce = some c ∧ .contextEnded c ∈ s.log) ∨
      Retired cfg s ∧ Quiet s := by
    refine h.invariant (I := fun s => (∃ c, s.shutdownOnce = some c ∧ .contextEnded c ∈ s.log) ∨
      Retired cfg s ∧ Quiet s) (.inr ⟨.init, fun _ _ _ h => absurd h.left_mem List.not_mem_nil⟩) ?_
    intro s l s' hreach hinv _ hstep
    have hlog := (Grows.of_step (ringUse_of_reach hreach) (.of_step hstep)).log
    have hkept : ∀ c, s.shutdownOnce = some c → .contextEnded c ∈ s.log →
        ∃ c, s'.shutdownOnce = some c ∧ .contextEnded c ∈ s'.log :=
      fun c honce hended =>
        ⟨c, (StepMove.of_step hstep).once_kept honce, hlog.subset hended⟩
    rcases hinv with ⟨c, honce, hended⟩ | ⟨hr, hq⟩
    · exact .inl (hkept c honce hended)
    · have hl := lifecycle_of_reach hreach
      by_cases hab : Abandons cfg s l
      · -- the call that gives up runs, and its context is done
        left
        cases l with
        | caller c ch =>
          obtain ⟨hpc, hdone, -⟩ := hab
          refine hkept c ?_ ((logged_of_reach hreach).ctxDone c hdone)
          cases hw : (s.calls c).pc <;> rw [hw] at hpc <;> cases hpc <;>
            refine hl.inside c (hl.not_flush (by rw [hw]; rfl)) ?_ ?_ <;> rw [hw] <;>
            simp [CallPc.stage]
        | _ => cases hab
      · exact .inr ⟨hr.step hl hstep hab,
          hq.step (retirement_of_reach hreach) hr (.of_step hstep)⟩
  rcases hinv with ⟨c', honce', hended⟩ | h
  · cases honce.symm.trans honce'
    exact absurd hended hctx
  · exact h

/-! ### Exporters after their shutdown -/

/-- **No exporter is used after it was shut down**, in the runs in which `Shutdown`
never stops waiting for a worker that is still there. -/
theorem exporter_unused_after_shutdown {cfg : Config} {s : State}
    (h : (pipelineSystem cfg).Reachable (fun s l => ¬ Abandons cfg s l) s) (e k : ℕ) :
    (∀ batch, ¬ s.log.Precedes (.exporterShutdown e) (.exportStarted k e batch)) ∧
      ¬ s.log.Precedes (.exporterShutdown e) (.exportIdleStarted k e) := by
  have hinv : Retired cfg s ∧ Quiet s := by
    refine h.invariant (I := fun s => Retired cfg s ∧ Quiet s)
      ⟨.init, fun _ _ _ h => absurd h.left_mem List.not_mem_nil⟩ ?_
    intro s l s' hreach hinv hkeep hstep
    exact ⟨hinv.1.step (lifecycle_of_reach hreach.reach) hstep hkeep,
      hinv.2.step (retirement_of_reach hreach.reach) hinv.1 (.of_step hstep)⟩
  exact ⟨fun batch => hinv.2 e _ rfl, hinv.2 e _ rfl⟩

/-- An observation is recorded and the pipeline shut down with a context that stays
live. -/
def quietShutdown : List Label :=
  .record 0 1 :: List.replicate 16 (.recorder 0 {}) ++
    .call (.shutdown 0) :: List.replicate 6 (.caller (.shutdown 0) {}) ++
    .request (.shutdown 0) 0 :: List.replicate 24 (.worker 0 {}) ++
    [.startExport 0 0, .finishExport 0 0 false, .worker 0 {}, .worker 0 {}, .worker 0 {}] ++
    List.replicate 7 (.caller (.shutdown 0) {})

/-- What `quietShutdown` logs before the call returns. -/
def quietShutdownLog : List Event :=
  [.recordCalled 0, .recordReturned 0 none, .called (.shutdown 0),
    .exportStarted 0 0 [.observation 0], .exportReturned 0 0 [.observation 0] false,
    .workerExited 0, .exporterShutdown 0]

theorem exporter_unused_after_shutdown_quietShutdown :
    ∃ s, (pipelineSystem smallConfig).run (State.init smallConfig) quietShutdown = some s ∧
      .exporterShutdown 0 ∈ s.log ∧
      ¬ s.log.Precedes (.exporterShutdown 0) (.exportStarted 0 0 [.observation 0]) := by
  have hrun : ((pipelineSystem smallConfig).runWithin
      (fun s l => decide (¬ Abandons smallConfig s l)) (State.init smallConfig)
      quietShutdown).map (fun s => s.log) =
      some (quietShutdownLog ++ [.callReturned (.shutdown 0) []]) := by decide +kernel
  obtain ⟨s, hs, hlog⟩ := Option.map_eq_some_iff.mp hrun
  refine ⟨s, TransitionSystem.run_of_runWithin hs, by rw [hlog]; decide, ?_⟩
  have hreach : (pipelineSystem smallConfig).Reachable
      (fun s l => ¬ Abandons smallConfig s l) s :=
    (TransitionSystem.Reachable.of_runWithin .init hs).mono fun _ _ h => of_decide_eq_true h
  exact (exporter_unused_after_shutdown hreach 0 0).1 _

/-- A worker holds an observation when the context of `Shutdown` ends.  The call
gives up on its broadcast and on the worker, whose ticker is ready together with
the cancelled pipeline context. -/
def abandonedWorker : List Label :=
  .record 0 1 :: List.replicate 16 (.recorder 0 {}) ++ List.replicate 17 (.worker 0 {}) ++
    .tick 0 :: .call (.shutdown 0) :: List.replicate 6 (.caller (.shutdown 0) {}) ++
    [.contextEnds (.shutdown 0), .caller (.shutdown 0) { select := .contextDone },
      .caller (.shutdown 0) {}, .caller (.shutdown 0) {}, .caller (.shutdown 0) {},
      .worker 0 { select := .tick }, .worker 0 {}, .worker 0 {}, .startExport 0 0]

/-- The exporter is used after it was shut down. -/
theorem exporter_used_after_shutdown :
    ∃ s, (pipelineSystem smallConfig).run (State.init smallConfig) abandonedWorker = some s ∧
      s.log.Precedes (.exporterShutdown 0) (.exportStarted 0 0 [.observation 0]) := by
  have hrun : ((pipelineSystem smallConfig).run (State.init smallConfig) abandonedWorker).map
      (fun s => s.log) = some [.recordCalled 0, .recordReturned 0 none, .called (.shutdown 0),
        .contextEnded (.shutdown 0), .exporterShutdown 0,
        .exportStarted 0 0 [.observation 0]] := by decide +kernel
  obtain ⟨s, hs, hlog⟩ := Option.map_eq_some_iff.mp hrun
  exact ⟨s, hs, by rw [hlog]; decide⟩

end ConvoyStats.Pipeline
