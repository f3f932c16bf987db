import ConvoyStats.Pipeline.Failures

/-!
# Which background failures an acknowledgement carries

A worker keeps one failure of its background exports, the latest, with the flush generation at which
it was recorded.  A request is answered with that failure if the generation of the request is not
later.

The trace of a worker is what this has to be compared with: the background exports that ended, the
generations that were reached, and the requests it took, in the order in which they happened.
`Attributed` says that the pair of error and generation stands for the whole trace: for every
generation reached so far, the kept failure is at least as late as the generation exactly if an
export has failed since then (`latest`, `unhidden`).

A drain adds the errors of its own exports, which are not wrapped, so that the two kinds of error
stay apart in the acknowledgement.
-/

namespace ConvoyStats.Pipeline

open Function List Transport

/-! ### The trace of a worker -/

/-- What happens around the background exports of a worker. -/
inductive BackgroundEvent
  /-- A background export of the worker ended with this error. -/
  | ended (err : Err)
  /-- A call has taken this generation. -/
  | reached (gen : ℕ)
  /-- The worker has taken the request of this call. -/
  | taken (c : Caller)
  deriving DecidableEq

/-- What a step adds to the trace of worker `k`.  An export ends where its result is recorded. -/
def backgroundEvents (cfg : Config) (k : ℕ) (s : State) : Label → List BackgroundEvent
  | .worker j _ =>
    if j = k then
      match (s.workers k).pc with
      | .recordFailure err => [.ended err]
      | .idle e _ err => if cfg.exporters ≤ e then [.ended err] else []
      | _ => []
    else []
  | .caller c _ =>
    match (s.calls c).pc with
    | .generation => [.reached (s.flushGen + 1)]
    | _ => []
  | .request c j => if j = k then [.taken c] else []
  | _ => []

/-- After the generation was reached a background export ended with such an error. -/
def EndedSince (trace : List BackgroundEvent) (gen : ℕ) (P : Err → Prop) : Prop :=
  ∃ before after, trace = before ++ .reached gen :: after ∧ ∃ err, .ended err ∈ after ∧ P err

/-- It did so before the request was taken. -/
def EndedBetween (trace : List BackgroundEvent) (request : Request) (P : Err → Prop) : Prop :=
  ∃ earlier later, trace = earlier ++ .taken request.caller :: later ∧
    EndedSince earlier request.gen P

/-- The error of a background export, as an acknowledgement carries it. -/
def Fault.FromBackground (fault : Fault) : Prop :=
  fault.wraps.head? = some "export in progress during flush failed: "

/-- **The errors of an acknowledgement are those of the window**: some come from the background
exactly if a background export failed in it, and they are errors of such an export. -/
structure Attribution (trace : List BackgroundEvent) (request : Request) (err : Err) : Prop where
  iff : (∃ fault ∈ err, fault.FromBackground) ↔ EndedBetween trace request (· ≠ [])
  window : ∀ fault ∈ err, fault.FromBackground →
    EndedBetween trace request (fault ∈ errorf "export in progress during flush failed: " ·)

section Trace

variable {trace : List BackgroundEvent} {gen : ℕ} {P Q : Err → Prop} {request : Request}
  {ev : BackgroundEvent}

theorem EndedSince.mono (h : EndedSince trace gen P) (hle : ∀ err, P err → Q err) :
    EndedSince trace gen Q := by
  obtain ⟨before, after, heq, err, hmem, hP⟩ := h
  exact ⟨before, after, heq, err, hmem, hle err hP⟩

theorem EndedSince.append (h : EndedSince trace gen P) (more : List BackgroundEvent) :
    EndedSince (trace ++ more) gen P := by
  obtain ⟨before, after, rfl, err, hmem, hP⟩ := h
  exact ⟨before, after ++ more, by simp, err, mem_append_left _ hmem, hP⟩

/-- An export that ends has ended since every generation reached before. -/
theorem EndedSince.of_ended {err : Err} (hreached : .reached gen ∈ trace) (hP : P err) :
    EndedSince (trace ++ [.ended err]) gen P := by
  obtain ⟨before, after, rfl⟩ := append_of_mem hreached
  exact ⟨before, after ++ [.ended err], by simp, err, by simp, hP⟩

/-- What has ended since a generation had, or is the last event. -/
theorem EndedSince.of_concat (h : EndedSince (trace ++ [ev]) gen P) :
    EndedSince trace gen P ∨ .reached gen ∈ trace ∧ ∃ err, ev = .ended err ∧ P err := by
  obtain ⟨before, after, heq, err, hmem, hP⟩ := h
  rcases concat_eq_append_cons heq with ⟨rfl, -, -⟩ | ⟨after, rfl, rfl⟩
  · cases hmem
  · rcases mem_append.mp hmem with hmem | hmem
    · exact .inl ⟨before, after, rfl, err, hmem, hP⟩
    · exact .inr ⟨by simp, err, (mem_singleton.mp hmem).symm, hP⟩

theorem EndedBetween.append (h : EndedBetween trace request P) (more : List BackgroundEvent) :
    EndedBetween (trace ++ more) request P := by
  obtain ⟨earlier, later, rfl, hsince⟩ := h
  exact ⟨earlier, later ++ more, by simp, hsince⟩

theorem EndedBetween.of_concat (h : EndedBetween (trace ++ [ev]) request P)
    (hne : ev ≠ .taken request.caller) : EndedBetween trace request P := by
  obtain ⟨earlier, later, heq, hsince⟩ := h
  rcases concat_eq_append_cons heq with ⟨-, -, hlast⟩ | ⟨later, -, htrace⟩
  · exact absurd hlast hne
  · exact ⟨earlier, later, htrace, hsince⟩

/-- The request is taken. -/
theorem endedBetween_taken (request : Request) :
    EndedBetween (trace ++ [.taken request.caller]) request P ↔
      EndedSince trace request.gen P := by
  constructor
  · rintro ⟨earlier, later, heq, hsince⟩
    rcases concat_eq_append_cons heq with ⟨-, rfl, -⟩ | ⟨later, -, rfl⟩
    · exact hsince
    · exact hsince.append _
  · exact fun h => ⟨trace, [], rfl, h⟩

/-- A drain goes on: it adds errors that are not wrapped, and the trace of the worker grows by
events that take no request. -/
theorem Attribution.extend {err extra : Err} (h : Attribution trace request err)
    (hextra : ∀ fault ∈ extra, fault.wraps = []) : Attribution trace request (err ++ extra) := by
  have hnot : ∀ fault ∈ extra, ¬ fault.FromBackground := by
    intro fault hmem hback
    rw [Fault.FromBackground, hextra fault hmem] at hback
    cases hback
  constructor
  · rw [← h.iff]
    constructor
    · rintro ⟨fault, hmem, hback⟩
      exact ⟨fault, (mem_append.mp hmem).resolve_right fun hnew => hnot fault hnew hback, hback⟩
    · rintro ⟨fault, hmem, hback⟩
      exact ⟨fault, mem_append_left _ hmem, hback⟩
  · intro fault hmem hback
    exact h.window fault ((mem_append.mp hmem).resolve_right fun hnew => hnot fault hnew hback)
      hback

theorem Attribution.concat {err : Err} (h : Attribution trace request err)
    (hne : ev ≠ .taken request.caller) : Attribution (trace ++ [ev]) request err :=
  ⟨h.iff.trans ⟨fun hb => hb.append _, fun hb => hb.of_concat hne⟩,
    fun fault hmem hback => (h.window fault hmem hback).append _⟩

end Trace

/-! ### What the steps do -/

/-- The request a worker drains for, and the errors so far. -/
def WorkerPc.draining? : WorkerPc → Option (Request × Err)
  | .pop (.drain request _ err) _ _ | .append (.drain request _ err) _
  | .dropCounters (.drain request err) _ | .exporting (.chunk request _ err) _
  | .exporting (.last request err) _ | .drainLoop request _ err | .ack request err =>
    some (request, err)
  | _ => none

/-- The drain of a request goes on, if there is one. -/
def WorkerPc.DrainsOn (pc pc' : WorkerPc) : Prop :=
  ∀ request err', pc'.draining? = some (request, err') →
    ∃ err extra, pc.draining? = some (request, err) ∧ err' = err ++ extra ∧
      ∀ fault ∈ extra, fault.wraps = []

theorem WorkerPc.DrainsOn.of_eq {pc pc' : WorkerPc} (h : pc'.draining? = pc.draining?) :
    pc.DrainsOn pc' := fun _ err' hpc =>
  ⟨err', [], h ▸ hpc, (append_nil _).symm, fun _ hmem => absurd hmem not_mem_nil⟩

theorem WorkerPc.DrainsOn.of_none {pc pc' : WorkerPc} (h : pc'.draining? = none) :
    pc.DrainsOn pc' := fun _ _ hpc => by rw [h] at hpc; cases hpc

/-- **The steps, seen from the background exports of worker `k`**, with what they add to its
trace. -/
inductive BackgroundMove (k : ℕ) (s : State) : List BackgroundEvent → State → Prop
  | quiet {s' : State} (hgen : s'.flushGen = s.flushGen)
      (hin : (s'.workers k).inFlight = (s.workers k).inFlight)
      (hdrain : (s.workers k).pc.DrainsOn (s'.workers k).pc) : BackgroundMove k s [] s'
  | ended {s' : State} (err : Err) (hgen : s'.flushGen = s.flushGen)
      (hin : (s'.workers k).inFlight = (s.workers k).inFlight.record err s.flushGen)
      (hdrain : (s'.workers k).pc.draining? = none) : BackgroundMove k s [.ended err] s'
  | reached {s' : State} (hgen : s'.flushGen = s.flushGen + 1) (hworkers : s'.workers = s.workers) :
      BackgroundMove k s [.reached (s.flushGen + 1)] s'
  | taken {s' : State} (c : Caller) (hsend : (s.calls c).pc = .send k)
      (hgen : s'.flushGen = s.flushGen)
      (hin : (s'.workers k).inFlight = (s.workers k).inFlight)
      (hdrain : (s'.workers k).pc.draining? =
        some (⟨c, (s.calls c).gen⟩, (s.workers k).inFlight.since (s.calls c).gen)) :
      BackgroundMove k s [.taken c] s'

namespace BackgroundMove

variable {cfg : Config} {s s' : State} {k : ℕ} {ch : Choice}

theorem of_same (hgen : s'.flushGen = s.flushGen) (hworker : s'.workers k = s.workers k) :
    BackgroundMove k s [] s' :=
  .quiet hgen (congrArg Worker.inFlight hworker)
    (.of_eq (congrArg (fun w => w.pc.draining?) hworker))

/-- The worker goes on with its drain, or without one. -/
theorem of_setWorker {pc : WorkerPc} (hpc : (s.workers k).pc = pc) (w' : Worker)
    (hworkers : s'.workers = update s.workers k w') (hgen : s'.flushGen = s.flushGen)
    (hin : w'.inFlight = (s.workers k).inFlight) (hdrain : pc.DrainsOn w'.pc) :
    BackgroundMove k s [] s' := by
  refine .quiet hgen ?_ ?_
  · rw [hworkers, update_self, hin]
  · rw [hworkers, update_self, hpc]
    exact hdrain

/-- The errors of the exporters are not wrapped. -/
theorem exportErr_plain (exporters : ℕ) (status : ℕ → ExportStatus) :
    ∀ fault ∈ exportErr exporters status, fault.wraps = [] := by
  intro fault hmem
  obtain ⟨e, -, he⟩ := mem_filterMap.mp hmem
  split_ifs at he
  cases he
  rfl

/-- **Every step of the worker is one of them.** -/
theorem of_workerStep (h : workerStep cfg s k ch = some s') :
    BackgroundMove k s (backgroundEvents cfg k s (.worker k ch)) s' := by
  rw [backgroundEvents, if_pos rfl]
  replace h := WorkerStep.of_workerStep h
  cases h with
  | access hpc =>
    simp only [hpc]
    exact .of_same rfl rfl
  | pass hpc h =>
    cases h with
    | idle _ _ _ he =>
      simp only [hpc, if_neg (Nat.not_le.mpr he)]
      exact .of_setWorker hpc _ rfl rfl rfl (.of_eq rfl)
    | _ =>
      simp only [hpc]
      exact .of_setWorker hpc _ rfl rfl rfl (.of_eq rfl)
  | took hpc _ h =>
    cases h with
    | more job =>
      simp only [hpc]
      exact .of_setWorker hpc _ rfl rfl rfl (.of_eq (by cases job <;> rfl))
    | _ =>
      simp only [hpc]
      exact .of_setWorker hpc _ rfl rfl rfl (.of_eq rfl)
  | stops hpc _ _ h =>
    cases h <;> simp only [hpc] <;> exact .of_setWorker hpc _ rfl rfl rfl (.of_eq rfl)
  | @append job _ _ hpc =>
    simp only [hpc]
    exact .of_setWorker hpc _ rfl rfl rfl (.of_eq (by cases job <;> rfl))
  | @count job _ _ _ hpc _ _ _ h =>
    simp only [hpc]
    refine .of_setWorker hpc _ rfl rfl rfl (.of_eq ?_)
    cases h with
    | next => cases job <;> rfl
    | _ => rfl
  | joinChunk hpc | joinLast hpc =>
    simp only [hpc]
    refine .of_setWorker hpc _ rfl rfl rfl ?_
    rintro _ _ ⟨⟩
    exact ⟨_, _, rfl, rfl, exportErr_plain _ _⟩
  | recordFailure hpc =>
    simp only [hpc]
    refine .ended _ rfl ?_ ?_ <;> simp only [State.setWorker, update_self]
    rfl
  | idleEnds hpc he =>
    simp only [hpc, if_pos he]
    refine .ended _ rfl ?_ ?_ <;> simp only [State.setWorker, update_self]
    rfl
  | idleStarts hpc he =>
    simp only [hpc, if_neg (Nat.not_le.mpr he)]
    exact .of_setWorker hpc _ rfl rfl rfl (.of_eq rfl)
  | ack hpc =>
    simp only [hpc]
    exact .of_setWorker hpc _ rfl rfl rfl (.of_none (by dsimp only; split_ifs <;> rfl))
  | tick hpc | join hpc | loopEnds hpc | loopStops hpc | drop hpc | leave hpc =>
    simp only [hpc]
    exact .of_setWorker hpc _ rfl rfl rfl (.of_eq rfl)

theorem of_startExport {e : ℕ} (h : startExport cfg s k e = some s') :
    BackgroundMove k s [] s' := by
  obtain ⟨job, status, hpc, -, rfl⟩ := startExport_some h
  exact .of_setWorker hpc _ rfl rfl rfl (.of_eq (by cases job <;> rfl))

theorem of_finishExport {e : ℕ} {failed : Bool} (h : finishExport s k e failed = some s') :
    BackgroundMove k s [] s' := by
  obtain ⟨job, status, errors, exporterErrors, hpc, -, rfl⟩ := finishExport_some h
  exact .of_setWorker hpc _ rfl rfl rfl (.of_eq (by cases job <;> rfl))

/-- A step of another worker. -/
theorem of_other {j : ℕ} (h : WorkerMove s j s') (hj : k ≠ j) : BackgroundMove k s [] s' :=
  .of_same (by cases h <;> rfl) (h.workers_ne hj)

/-- Only taking a generation moves `flushGen`. -/
theorem of_callerMove {c : Caller} (h : CallerMove cfg s c s')
    (hpc : (s.calls c).pc ≠ .generation) :
    BackgroundMove k s [] s' := by
  refine .of_same ?_ (congrFun (CallerFrame.of_move h).workers k)
  cases h with
  | generation hgen => exact absurd hgen hpc
  | contextDone | clientClosed | receivedLast => cases c <;> rfl
  | _ => rfl

/-- **Every step of the pipeline is one of them.** -/
theorem of_step {l : Label} (h : step cfg s l = some s') :
    BackgroundMove k s (backgroundEvents cfg k s l) s' := by
  cases LabelMove.of_step h with
  | record h | recorder h => cases h <;> exact .of_same rfl rfl
  | @worker j _ _ _ h hstep =>
    by_cases hj : j = k
    · subst hj
      exact of_workerStep hstep
    · rw [backgroundEvents, if_neg hj]
      exact .of_other h (Ne.symm hj)
  | @startExport j _ _ _ h hstep =>
    by_cases hj : j = k
    · subst hj
      exact of_startExport hstep
    · exact .of_other h (Ne.symm hj)
  | @finishExport j _ _ _ _ h hstep =>
    by_cases hj : j = k
    · subst hj
      exact of_finishExport hstep
    · exact .of_other h (Ne.symm hj)
  | tick j =>
    by_cases hj : j = k
    · subst hj
      exact .of_setWorker rfl _ rfl rfl rfl (.of_eq rfl)
    · exact .of_same rfl (update_of_ne (Ne.symm hj) ..)
  | call h hstep =>
    refine .of_callerMove h fun hpc => ?_
    simp only [startCall, hpc] at hstep
    cases hstep
  | @caller c ch _ h hstep =>
    by_cases hpc : (s.calls c).pc = .generation
    · simp only [callerStep, hpc] at hstep
      cases hstep
      simp only [backgroundEvents, hpc]
      exact .reached rfl rfl
    · have hnone : backgroundEvents cfg k s (.caller c ch) = [] := by
        simp only [backgroundEvents]
      rw [hnone]
      exact .of_callerMove h hpc
  | request c j _ hsend =>
    rw [backgroundEvents]
    by_cases hj : j = k
    · subst hj
      rw [if_pos rfl]
      refine .taken c hsend rfl ?_ ?_ <;> simp only [update_self]
      rfl
    · rw [if_neg hj]
      exact .of_same rfl (update_of_ne (Ne.symm hj) ..)
  | contextEnds => exact .of_same rfl rfl

end BackgroundMove

/-- A call that sends requests has taken a generation. -/
theorem gen_pos_of_send {cfg : Config} {s : State} (h : (pipelineSystem cfg).Reach s) :
    ∀ c i, (s.calls c).pc = .send i → 1 ≤ (s.calls c).gen := by
  refine h.invariant (I := fun s => ∀ c i, (s.calls c).pc = .send i → 1 ≤ (s.calls c).gen) nofun ?_
  intro s l s' _ hpos _ hstep c i hsend
  cases StepMove.of_step hstep with
  | recorder h => cases h <;> exact hpos c i hsend
  | worker hk h =>
    obtain ⟨done, hcall⟩ := h.calls_same c
    rw [hcall] at hsend ⊢
    exact hpos c i hsend
  | @caller c' _ h =>
    by_cases hc : c = c'
    · subst hc
      cases h with
      | generation hpc =>
        simp only [State.setCall, update_self]
        omega
      | start | contextDone | clientClosed | receivedLast =>
        cases c <;> simp [State.broadcastReturns, State.returnCall, State.emit, State.callTo,
          State.setCall, Caller.entry] at hsend
      | _ => simp [State.returnCall, State.emit, State.callTo, State.setCall] at hsend
    · rw [(CallerFrame.of_move h).others c hc] at hsend ⊢
      exact hpos c i hsend
  | request c' k _ hcall =>
    by_cases hc : c = c'
    · subst hc
      simpa only [update_self] using hpos c k hcall
    · simp only [update_of_ne hc] at hsend ⊢
      exact hpos c i hsend
  | tick k => exact hpos c i hsend
  | contextEnds c' =>
    by_cases hc : c = c'
    · subst hc
      simp only [update_self] at hsend ⊢
      exact hpos c i hsend
    · simp only [update_of_ne hc] at hsend ⊢
      exact hpos c i hsend

/-! ### The kept failure -/

theorem ExportFailure.since_eq (f : ExportFailure) {gen : ℕ} (herr : f.err ≠ [])
    (hle : gen ≤ f.gen) :
    f.since gen = errorf "export in progress during flush failed: " f.err :=
  if_neg (not_or.mpr ⟨herr, Nat.not_lt.mpr hle⟩)

theorem ExportFailure.mem_since {f : ExportFailure} {gen : ℕ} {fault : Fault}
    (h : fault ∈ f.since gen) : f.err ≠ [] ∧ gen ≤ f.gen := by
  rw [ExportFailure.since] at h
  split_ifs at h with hnone
  · cases h
  · obtain ⟨herr, hlt⟩ := not_or.mp hnone
    exact ⟨herr, Nat.not_lt.mp hlt⟩

theorem fromBackground_of_mem {err : Err} {fault : Fault}
    (h : fault ∈ errorf "export in progress during flush failed: " err) : fault.FromBackground := by
  obtain ⟨inner, -, rfl⟩ := mem_map.mp h
  rfl

/-- **The kept failure stands for the whole trace.** -/
structure Attributed (k : ℕ) (s : State) (trace : List BackgroundEvent) : Prop where
  reached : ∀ gen, .reached gen ∈ trace ↔ 1 ≤ gen ∧ gen ≤ s.flushGen
  gen_le : (s.workers k).inFlight.gen ≤ s.flushGen
  /-- It ended after every generation that is not later. -/
  latest : ∀ gen, 1 ≤ gen → gen ≤ (s.workers k).inFlight.gen → (s.workers k).inFlight.err ≠ [] →
    EndedSince trace gen (· = (s.workers k).inFlight.err)
  /-- It hides no other failure. -/
  unhidden : ∀ gen, EndedSince trace gen (· ≠ []) →
    (s.workers k).inFlight.err ≠ [] ∧ gen ≤ (s.workers k).inFlight.gen
  drain : ∀ request err, (s.workers k).pc.draining? = some (request, err) →
    Attribution trace request err

namespace Attributed

variable {cfg : Config} {k : ℕ} {s s' : State} {trace : List BackgroundEvent}

theorem init : Attributed k (State.init cfg) [] := by
  refine ⟨fun gen => ⟨nofun, ?_⟩, le_rfl, ?_, ?_, nofun⟩
  · rintro ⟨hpos, hle⟩
    exact absurd (hpos.trans hle) (Nat.not_succ_le_zero 0)
  · intro gen _ _ herr
    exact absurd rfl herr
  · rintro gen ⟨before, after, heq, -⟩
    exact absurd heq.symm (append_ne_nil_of_right_ne_nil _ (cons_ne_nil _ _))

section

variable (h : Attributed k s trace)
include h

theorem quiet (hgen : s'.flushGen = s.flushGen)
    (hin : (s'.workers k).inFlight = (s.workers k).inFlight)
    (hdrain : (s.workers k).pc.DrainsOn (s'.workers k).pc) : Attributed k s' trace := by
  refine ⟨hgen ▸ h.reached, hin ▸ hgen ▸ h.gen_le, hin ▸ h.latest, hin ▸ h.unhidden, ?_⟩
  intro request err' hpc
  obtain ⟨err, extra, hold, rfl, hextra⟩ := hdrain request err' hpc
  exact (h.drain request err hold).extend hextra

theorem ended (err : Err) (hgen : s'.flushGen = s.flushGen)
    (hin : (s'.workers k).inFlight = (s.workers k).inFlight.record err s.flushGen)
    (hdrain : (s'.workers k).pc.draining? = none) : Attributed k s' (trace ++ [.ended err]) := by
  have hreached : ∀ gen, .reached gen ∈ trace ++ [.ended err] ↔ 1 ≤ gen ∧ gen ≤ s'.flushGen := by
    intro gen
    rw [hgen, ← h.reached gen]
    simp
  have hidle : ∀ request e, (s'.workers k).pc.draining? = some (request, e) →
      Attribution (trace ++ [.ended err]) request e := by
    intro request e hpc
    rw [hdrain] at hpc
    cases hpc
  by_cases herr : err = []
  · -- An export that succeeds leaves everything as it is.
    rw [ExportFailure.record, if_pos herr] at hin
    refine ⟨hreached, hin ▸ hgen ▸ h.gen_le, ?_, ?_, hidle⟩
    · intro gen hpos hle hne
      rw [hin] at hle hne ⊢
      exact (h.latest gen hpos hle hne).append _
    · intro gen hsince
      rw [hin]
      rcases hsince.of_concat with hold | ⟨-, err', heq, hne⟩
      · exact h.unhidden gen hold
      · cases heq
        exact absurd herr hne
  · -- A failure is as late as any generation that has been reached.
    rw [ExportFailure.record, if_neg herr] at hin
    refine ⟨hreached, by rw [hin, hgen], ?_, ?_, hidle⟩
    · intro gen hpos hle _
      rw [hin] at hle ⊢
      exact .of_ended ((h.reached gen).mpr ⟨hpos, hle⟩) rfl
    · intro gen hsince
      rw [hin]
      refine ⟨herr, ?_⟩
      rcases hsince.of_concat with hold | ⟨hmem, -⟩
      · exact (h.unhidden gen hold).2.trans h.gen_le
      · exact ((h.reached gen).mp hmem).2

theorem reachedGen (hgen : s'.flushGen = s.flushGen + 1) (hworkers : s'.workers = s.workers) :
    Attributed k s' (trace ++ [.reached (s.flushGen + 1)]) := by
  refine ⟨fun gen => ?_, ?_, ?_, ?_, ?_⟩
  · rw [hgen, mem_append, h.reached gen, mem_singleton, BackgroundEvent.reached.injEq]
    omega
  · rw [hworkers, hgen]
    exact h.gen_le.trans (Nat.le_succ _)
  · intro gen hpos hle herr
    rw [hworkers] at hle herr ⊢
    exact (h.latest gen hpos hle herr).append _
  · intro gen hsince
    rw [hworkers]
    rcases hsince.of_concat with hold | ⟨-, err, heq, -⟩
    · exact h.unhidden gen hold
    · cases heq
  · intro request err hpc
    rw [hworkers] at hpc
    exact (h.drain request err hpc).concat nofun

theorem taken (c : Caller) (hpos : 1 ≤ (s.calls c).gen)
    (hgen : s'.flushGen = s.flushGen)
    (hin : (s'.workers k).inFlight = (s.workers k).inFlight)
    (hdrain : (s'.workers k).pc.draining? =
      some (⟨c, (s.calls c).gen⟩, (s.workers k).inFlight.since (s.calls c).gen)) :
    Attributed k s' (trace ++ [.taken c]) := by
  refine ⟨fun gen => ?_, hin ▸ hgen ▸ h.gen_le, ?_, ?_, ?_⟩
  · rw [hgen, ← h.reached gen]
    simp
  · intro gen hpos hle herr
    rw [hin] at hle herr ⊢
    exact (h.latest gen hpos hle herr).append _
  · intro gen hsince
    rw [hin]
    rcases hsince.of_concat with hold | ⟨-, err, heq, -⟩
    · exact h.unhidden gen hold
    · cases heq
  · rintro request err hpc
    rw [hdrain] at hpc
    cases hpc
    -- What is carried is the kept failure, which ended in the window.
    have hwindow : ∀ fault ∈ (s.workers k).inFlight.since (s.calls c).gen,
        EndedSince trace (s.calls c).gen
          (fault ∈ errorf "export in progress during flush failed: " ·) := by
      intro fault hmem
      obtain ⟨herr, hle⟩ := ExportFailure.mem_since hmem
      refine (h.latest _ hpos hle herr).mono ?_
      rintro _ rfl
      rwa [ExportFailure.since_eq _ herr hle] at hmem
    constructor
    · rw [endedBetween_taken ⟨c, (s.calls c).gen⟩]
      constructor
      · rintro ⟨fault, hmem, -⟩
        refine (hwindow fault hmem).mono fun err hin hnil => ?_
        rw [hnil] at hin
        cases hin
      · intro hsince
        obtain ⟨herr, hle⟩ := h.unhidden _ hsince
        rw [ExportFailure.since_eq _ herr hle]
        have hwrapped :
            errorf "export in progress during flush failed: " (s.workers k).inFlight.err ≠ [] :=
          mt errorf_eq_nil.mp herr
        obtain ⟨fault, hmem⟩ := exists_mem_of_ne_nil _ hwrapped
        exact ⟨fault, hmem, fromBackground_of_mem hmem⟩
    · intro fault hmem _
      rw [endedBetween_taken ⟨c, (s.calls c).gen⟩]
      exact hwindow fault hmem

end

theorem of_reachable
    (h : ((pipelineSystem cfg).recording (backgroundEvents cfg k)).Reach (s, trace)) :
    Attributed k s trace := by
  refine (TransitionSystem.recording_invariant (I := Attributed k) init ?_ h).2
  intro s trace l s' hreach hinv hstep
  have hmove := BackgroundMove.of_step (k := k) hstep
  generalize backgroundEvents cfg k s l = events at hmove
  cases hmove with
  | quiet hgen hin hdrain =>
    rw [append_nil]
    exact hinv.quiet hgen hin hdrain
  | ended err hgen hin hdrain => exact hinv.ended err hgen hin hdrain
  | reached hgen hworkers => exact hinv.reachedGen hgen hworkers
  | taken c hsend hgen hin hdrain =>
    exact hinv.taken c (gen_pos_of_send hreach c k hsend) hgen hin hdrain

end Attributed

/-- **Background failures are attributed exactly.**  An acknowledgement carries a background failure
exactly if a background export of the worker failed after `flushGen` reached the generation of the
request and before the request was taken, and what it carries is the error of such an export. -/
theorem background_failures_attributed {cfg : Config} {k : ℕ} {s : State}
    {trace : List BackgroundEvent} {request : Request} {err : Err}
    (hreach : ((pipelineSystem cfg).recording (backgroundEvents cfg k)).Reach (s, trace))
    (hack : (s.workers k).pc = .ack request err) :
    ((∃ fault ∈ err, fault.FromBackground) ↔ EndedBetween trace request (· ≠ [])) ∧
      ∀ fault ∈ err, fault.FromBackground → EndedBetween trace request
        (fault ∈ errorf "export in progress during flush failed: " ·) := by
  have h := (Attributed.of_reachable hreach).drain request err (by rw [hack]; rfl)
  exact ⟨h.iff, h.window⟩

/-- A background export of a drop count has failed when `Flush` takes its generation; its failure is
recorded, and then the worker takes the request and drains. -/
def failureDuringFlush : List Label :=
  .record 0 1 :: replicate 5 (.recorder 0 { admission := .seriesLimit }) ++
    [.tick 0, .worker 0 { select := .tick }, .worker 0 {}, .worker 0 {}, .startExport 0 0,
      .finishExport 0 0 true, .worker 0 {}, .call (.flush 0), .caller (.flush 0) {},
      .caller (.flush 0) {}, .worker 0 {}, .request (.flush 0) 0] ++
    replicate 7 (.worker 0 {})

/-- The acknowledgement worker 0 is about to send. -/
def nextAck (s : State) : Option (Caller × ℕ × Err) :=
  match (s.workers 0).pc with
  | .ack request err => some (request.caller, request.gen, err)
  | _ => none

theorem background_failures_attributed_flush :
    ∃ s trace, ((pipelineSystem smallConfig).recording (backgroundEvents smallConfig 0)).Reach
        (s, trace) ∧
      (s.workers 0).pc = .ack ⟨.flush 0, 1⟩
        [⟨["export in progress during flush failed: "], .export 0⟩] ∧
      EndedBetween trace ⟨.flush 0, 1⟩ (· ≠ []) := by
  have hrun : (((pipelineSystem smallConfig).recording (backgroundEvents smallConfig 0)).run
      (State.init smallConfig, []) failureDuringFlush).map (fun p => nextAck p.1) =
      some (some (.flush 0, 1, [⟨["export in progress during flush failed: "], .export 0⟩])) := by
    decide +kernel
  obtain ⟨⟨s, trace⟩, hs, hnext⟩ := Option.map_eq_some_iff.mp hrun
  have hreach : ((pipelineSystem smallConfig).recording (backgroundEvents smallConfig 0)).Reach
      (s, trace) := .of_labels failureDuringFlush hs
  have hack : (s.workers 0).pc = .ack ⟨.flush 0, 1⟩
      [⟨["export in progress during flush failed: "], .export 0⟩] := by
    change nextAck s = _ at hnext
    unfold nextAck at hnext
    split at hnext
    · rename_i request err hpc
      obtain ⟨caller, gen⟩ := request
      cases hnext
      exact hpc
    · cases hnext
  exact ⟨s, trace, hreach, hack,
    (background_failures_attributed hreach hack).1.mp ⟨_, mem_singleton_self _, rfl⟩⟩

end ConvoyStats.Pipeline
