import ConvoyStats.Pipeline.Delivery

/-!
# Closing the pipeline

`Record` holds `closeMu` for reading from its check of `shutdownCh` until it
returns; `Shutdown` closes the channel with the mutex held for writing.  `Closing`
is what this buys: once the channel is closed no `Record` call is past its check,
so the ring is not pushed to any more and a `Record` that starts after a `Shutdown`
has returned is refused.
-/

namespace ConvoyStats.Pipeline

open Function Transport

namespace RecordPc

/-- The points of a call that finds the pipeline closed. -/
def late : RecordPc → Bool
  | .rlock | .checkClosed | .unlock (some .clientClosed) | .returned (some .clientClosed) => true
  | _ => false

theorem not_late_of_admitted {pc : RecordPc} (h : pc.admitted) : pc.late = false := by
  unfold late
  split <;> first | rfl | cases h

theorem holds_of_admitted {pc : RecordPc} (h : pc.admitted) : pc.holds := by
  cases pc <;> first | rfl | cases h

theorem admitted_of_pushing {pc : RecordPc} (h : pc.pushing) : pc.admitted := by
  cases pc <;> first | rfl | cases h

end RecordPc

/-- A `Record` call that finds the pipeline closed stays on its way out. -/
theorem GateMove.late {s : State} {r : ℕ} {pc pc' : RecordPc} {closeMu' : CloseMutex}
    {log' : List Event} (h : GateMove s r pc pc' closeMu' log') (hclosed : s.closed = true)
    (hlate : pc.late) : pc'.late := by
  cases h with
  | called => rfl
  | rlock hwaiting hlocked => rfl
  | refuse hclosed' => rfl
  | passClosed hopen =>
    rw [hclosed] at hopen
    cases hopen
  | inside _ _ hpc =>
    rw [RecordPc.not_late_of_admitted hpc] at hlate
    cases hlate
  | unlock result =>
    cases result with
    | none => cases hlate
    | some error => cases error <;> first | rfl | cases hlate

/-- The call waits for `closeMu` or holds it for writing. -/
def CallPc.writing : CallPc → Bool
  | .acquire | .close | .unlock => true
  | _ => false

theorem CallPc.stage_of_not_writing {pc : CallPc} (h : pc.writing = false) :
    pc.stage ≤ 2 ∨ 6 ≤ pc.stage := by
  cases pc <;> simp_all [writing, stage]

/-- A pop does not move `writePos`. -/
theorem ringStep_pop_writePos {ring ring' : World Goroutine ℕ} {k : ℕ} {cfg : Config}
    {res : Option (Result ℕ)} (hr : RingOk cfg ring)
    (h : ringStep ring (.worker k) .pop = some (ring', res)) :
    ring'.ring.writePos = ring.ring.writePos := by
  cases res with
  | none =>
    rcases ringStep_none h with ⟨-, hstart⟩ | ⟨op, pc, hrun, rfl⟩
    · obtain ⟨-, rfl⟩ := World.start_eq_some hstart
      rfl
    · obtain rfl : op = .pop := hr.running _ op pc hrun
      exact hr.sound.writePos_perform_pop hrun
  | some result =>
    obtain ⟨op, hrun, rfl⟩ := ringStep_some h
    rfl

/-! ### The invariant -/

/-- **What `closeMu` guarantees.** -/
structure Closing (s : State) : Prop where
  holds : ∀ r, (s.recorders r).pc.holds → r ∈ s.closeMu.readers
  locked : s.closeMu.locked = true → s.closeMu.readers = []
  /-- A call past its check keeps the pipeline open. -/
  admitted : ∀ r, (s.recorders r).pc.admitted → s.closed = false
  unused : s.shutdownOnce = none → s.closeMu.waiting = false ∧ s.closeMu.locked = false
  writer : ∀ c, s.shutdownOnce = some c →
    (s.closeMu.waiting = true ↔ (s.calls c).pc.stage = 3) ∧
    (s.closeMu.locked = true ↔ 4 ≤ (s.calls c).pc.stage ∧ (s.calls c).pc.stage ≤ 5)
  /-- Nothing is pushed any more once the pipeline is closed. -/
  mark : ∀ c, s.shutdownOnce = some c → s.closed = true →
    (s.calls c).mark = s.ring.ring.writePos
  /-- A `Record` that starts after a `Shutdown` has returned is on its way out. -/
  late : ∀ c err r, c.stop = true → s.log.Precedes (.callReturned c err) (.recordCalled r) →
    (s.recorders r).pc.late

namespace Closing

variable {cfg : Config} {s s' : State} {c : Caller}

theorem init : Closing (State.init cfg) where
  holds := nofun
  locked := nofun
  admitted := nofun
  unused := fun _ => ⟨rfl, rfl⟩
  writer := nofun
  mark := nofun
  late := fun _ _ _ _ h => absurd h.left_mem List.not_mem_nil

/-- A returned `Shutdown` has closed the pipeline. -/
theorem closed_of_returned (hl : Lifecycle s) (hlg : Logged s) {err : Err} (hstop : c.stop = true)
    (h : .callReturned c err ∈ s.log) : s.closed = true :=
  (hl.ended hstop (by rw [hlg.returned c err h]; rfl)).1

/-- The recorders, the mutex and the flags are as they were. -/
theorem of_same (hc : Closing s) (hrec : s'.recorders = s.recorders)
    (hmu : s'.closeMu = s.closeMu) (honce : s'.shutdownOnce = s.shutdownOnce)
    (hclosed : s'.closed = s.closed) (hring : s'.ring.ring.writePos = s.ring.ring.writePos)
    (hcalls : ∀ c, s.shutdownOnce = some c →
      ((s'.calls c).pc.stage = (s.calls c).pc.stage ∨
        (s.calls c).pc.writing = false ∧ (s'.calls c).pc.writing = false) ∧
      (s.closed = true → (s'.calls c).mark = (s.calls c).mark))
    (hlog : ∀ c err r, s'.log.Precedes (.callReturned c err) (.recordCalled r) →
      s.log.Precedes (.callReturned c err) (.recordCalled r)) : Closing s' := by
  refine ⟨?_, ?_, ?_, ?_, ?_, ?_, ?_⟩
  · rw [hrec, hmu]
    exact hc.holds
  · rw [hmu]
    exact hc.locked
  · rw [hrec, hclosed]
    exact hc.admitted
  · rw [honce, hmu]
    exact hc.unused
  · intro c honce'
    rw [honce] at honce'
    rw [hmu]
    rcases (hcalls c honce').1 with hstage | ⟨hpc, hpc'⟩
    · rw [hstage]
      exact hc.writer c honce'
    · obtain ⟨hwaiting, hlocked⟩ := hc.writer c honce'
      have hout := CallPc.stage_of_not_writing hpc
      have hout' := CallPc.stage_of_not_writing hpc'
      rw [hwaiting, hlocked]
      omega
  · intro c honce' hclosed'
    rw [honce] at honce'
    rw [hclosed] at hclosed'
    rw [hring, (hcalls c honce').2 hclosed']
    exact hc.mark c honce' hclosed'
  · rw [hrec]
    exact fun c err r hstop hprec => hc.late c err r hstop (hlog c err r hprec)

/-- A `Record` call has moved. -/
theorem of_recorder {r : ℕ} {rec' : Recorder} (hc : Closing s)
    (hrec : s'.recorders = update s.recorders r rec') (hcalls : s'.calls = s.calls)
    (honce : s'.shutdownOnce = s.shutdownOnce) (hclosed : s'.closed = s.closed)
    (hring : s.closed = true → s'.ring.ring.writePos = s.ring.ring.writePos)
    (hwaiting : s'.closeMu.waiting = s.closeMu.waiting)
    (hlocked : s'.closeMu.locked = s.closeMu.locked)
    (hreaders : ∀ r', r' ≠ r → r' ∈ s.closeMu.readers → r' ∈ s'.closeMu.readers)
    (hempty : s.closeMu.locked = true → s'.closeMu.readers = [])
    (hholds : rec'.pc.holds → r ∈ s'.closeMu.readers)
    (hadmitted : rec'.pc.admitted → s.closed = false)
    (hlate : ∀ c err r', c.stop = true →
      s'.log.Precedes (.callReturned c err) (.recordCalled r') →
      if r' = r then rec'.pc.late = true
      else s.log.Precedes (.callReturned c err) (.recordCalled r')) : Closing s' := by
  have hcases := update_cases hrec
  refine ⟨?_, ?_, ?_, ?_, ?_, ?_, ?_⟩
  · intro r' hpc
    rcases hcases r' with ⟨rfl, hr⟩ | ⟨hne, hr⟩ <;> rw [hr] at hpc
    · exact hholds hpc
    · exact hreaders r' hne (hc.holds r' hpc)
  · rw [hlocked]
    exact hempty
  · intro r' hpc
    rw [hclosed]
    rcases hcases r' with ⟨rfl, hr⟩ | ⟨-, hr⟩ <;> rw [hr] at hpc
    · exact hadmitted hpc
    · exact hc.admitted r' hpc
  · rw [honce, hwaiting, hlocked]
    exact hc.unused
  · rw [honce, hwaiting, hlocked, hcalls]
    exact hc.writer
  · intro c honce' hclosed'
    rw [honce] at honce'
    rw [hclosed] at hclosed'
    rw [hcalls, hring hclosed']
    exact hc.mark c honce' hclosed'
  · intro c err r' hstop hprec
    have hnew := hlate c err r' hstop hprec
    rcases hcases r' with ⟨rfl, hr⟩ | ⟨hne, hr⟩ <;> rw [hr]
    · simpa using hnew
    · rw [if_neg hne] at hnew
      exact hc.late c err r' hstop hnew

theorem recorder {r : ℕ} (hc : Closing s) (hl : Lifecycle s) (hlg : Logged s)
    (h : RecorderMove cfg s r s') : Closing s' := by
  -- the call of a step that writes nothing about a new call
  have hold : ∀ {rec' : Recorder} {log' : List Event},
      (s.closed = true → (s.recorders r).pc.late → rec'.pc.late) →
      (∀ c err r', log'.Precedes (.callReturned c err) (.recordCalled r') →
        s.log.Precedes (.callReturned c err) (.recordCalled r')) →
      ∀ c err r', c.stop = true → log'.Precedes (.callReturned c err) (.recordCalled r') →
        if r' = r then rec'.pc.late = true
        else s.log.Precedes (.callReturned c err) (.recordCalled r') := by
    intro rec' log' hkeep hlog c err r' hstop hprec
    have hprec := hlog c err r' hprec
    split
    · rename_i hr
      subst hr
      exact hkeep (closed_of_returned hl hlg hstop hprec.left_mem) (hc.late c err r' hstop hprec)
    · exact hprec
  cases h with
  | control rec' _ _ _ _ _ _ _ _ _ hgate =>
    have hlate := fun hclosed => GateMove.late hgate hclosed
    generalize hpc : (s.recorders r).pc = pc at hgate hlate
    generalize hpc' : rec'.pc = pc' at hgate hlate
    have hadmitted : ∀ {pc : RecordPc}, (s.recorders r).pc = pc → pc.admitted →
        s.closed = false := by
      rintro pc rfl h
      exact hc.admitted r h
    cases hgate with
    | called =>
      refine hc.of_recorder rfl rfl rfl rfl (fun _ => rfl) rfl rfl (fun _ _ => id) hc.locked
        (by rw [hpc']; nofun) (by rw [hpc']; nofun) ?_
      intro c err r' hstop hprec
      rcases List.precedes_append_singleton.mp hprec with hprec | ⟨-, heq⟩
      · have hkeep : s.closed = true → (s.recorders r).pc.late → rec'.pc.late := by
          intro _ _
          rw [hpc']
          rfl
        exact hold hkeep (fun _ _ _ => id) c err r' hstop hprec
      · cases heq
        rw [if_pos rfl, hpc']
        rfl
    | rlock hwaiting hlocked =>
      refine hc.of_recorder rfl rfl rfl rfl (fun _ => rfl) rfl rfl ?_ ?_ ?_ (by rw [hpc']; nofun)
        (hold (by rwa [hpc, hpc']) fun _ _ _ => id)
      · exact fun _ _ => List.mem_cons_of_mem _
      · rw [hlocked]
        nofun
      · exact fun _ => List.mem_cons_self
    | refuse hclosed =>
      refine hc.of_recorder rfl rfl rfl rfl (fun _ => rfl) rfl rfl (fun _ _ => id) hc.locked
        ?_ (by rw [hpc']; nofun) (hold (by rwa [hpc, hpc']) fun _ _ _ => id)
      exact fun _ => hc.holds r (by rw [hpc]; rfl)
    | passClosed hopen =>
      refine hc.of_recorder rfl rfl rfl rfl (fun _ => rfl) rfl rfl (fun _ _ => id) hc.locked
        ?_ (fun _ => hopen) (hold (by rwa [hpc, hpc']) fun _ _ _ => id)
      exact fun _ => hc.holds r (by rw [hpc]; rfl)
    | inside _ _ hin =>
      refine hc.of_recorder rfl rfl rfl rfl (fun _ => rfl) rfl rfl (fun _ _ => id) hc.locked
        ?_ (fun _ => hadmitted hpc hin) (hold (by rwa [hpc, hpc']) fun _ _ _ => id)
      exact fun _ => hc.holds r (by rw [hpc]; exact RecordPc.holds_of_admitted hin)
    | unlock result =>
      refine hc.of_recorder rfl rfl rfl rfl (fun _ => rfl) rfl rfl ?_ ?_ (by rw [hpc']; nofun)
        (by rw [hpc']; nofun) (hold (by rwa [hpc, hpc']) fun _ _ _ h => h.of_append (by simp))
      · exact fun r' hr => (List.mem_erase_of_ne hr).mpr
      · intro hlocked
        have := hc.locked hlocked
        simp [this]
  | access ring' hpush hring =>
    have hopen := hc.admitted r (RecordPc.admitted_of_pushing hpush)
    refine hc.of_recorder (update_eq_self r s.recorders).symm rfl rfl rfl ?_ rfl rfl
      (fun _ _ => id) hc.locked (hc.holds r) (fun _ => hopen) (hold (fun _ => id) fun _ _ _ => id)
    rw [hopen]
    nofun
  | pushed _ _ _ hpc =>
    have hopen := hc.admitted r (by rw [hpc]; rfl)
    refine hc.of_recorder rfl rfl rfl rfl ?_ rfl rfl (fun _ _ => id) hc.locked ?_
      (fun _ => hopen) (hold ?_ fun _ _ _ => id)
    · rw [hopen]
      nofun
    · exact fun _ => hc.holds r (by rw [hpc]; rfl)
    · rw [hopen]
      nofun

theorem worker {k : ℕ} (hc : Closing s) (hu : RingUse cfg s) (h : WorkerMove s k s') :
    Closing s' := by
  have hcalls : ∀ c, s.shutdownOnce = some c →
      ((s'.calls c).pc.stage = (s.calls c).pc.stage ∨
        (s.calls c).pc.writing = false ∧ (s'.calls c).pc.writing = false) ∧
      (s.closed = true → (s'.calls c).mark = (s.calls c).mark) := by
    intro c _
    obtain ⟨done, hcall⟩ := h.calls_same c
    rw [hcall]
    exact ⟨.inl rfl, fun _ => rfl⟩
  have hring : s'.ring.ring.writePos = s.ring.ring.writePos := by
    cases h with
    | access ring' hpop hring | took x ring' w' hpop hemptied hring
    | empty _ _ _ _ _ _ hring => exact ringStep_pop_writePos hu.ring hring
    | _ => rfl
  have hlog : ∀ c err r, s'.log.Precedes (.callReturned c err) (.recordCalled r) →
      s.log.Precedes (.callReturned c err) (.recordCalled r) := fun _ _ _ => h.log.precedes rfl
  cases h <;> exact hc.of_same rfl rfl rfl rfl hring hcalls hlog

/-- A caller moves away from the mutex. -/
theorem of_quiet (hc : Closing s) (hl : Lifecycle s) (hf : CallerFrame s c s')
    (hmu : s'.closeMu = s.closeMu) (honce : s'.shutdownOnce = s.shutdownOnce)
    (hclosed : s'.closed = s.closed) (hpc : (s.calls c).pc.writing = false)
    (hpc' : (s'.calls c).pc.writing = false) : Closing s' := by
  refine hc.of_same hf.recorders hmu honce hclosed (by rw [hf.ring]) ?_
    fun _ _ _ => hf.log.precedes rfl
  intro c' honce'
  by_cases hcc : c' = c
  · subst hcc
    refine ⟨.inr ⟨hpc, hpc'⟩, fun _ => ?_⟩
    rcases hf.marks with ⟨hmark, -⟩ | ⟨hearly, -⟩
    · exact hmark
    · have hstage := (hl.once c' honce').2.1
      cases hw : (s.calls c').pc <;> rw [hw] at hearly hpc hstage <;> first
        | cases hearly; done
        | cases hpc; done
        | exact absurd hstage (by decide)
  · rw [hf.others c' hcc]
    exact ⟨.inl rfl, fun _ => rfl⟩

/-- The `Shutdown` that runs moves on with the mutex. -/
theorem of_writer (hc : Closing s) (hf : CallerFrame s c s') (honce : s'.shutdownOnce = some c)
    (hreaders : s'.closeMu.readers = s.closeMu.readers)
    (hempty : s'.closeMu.locked = true → s.closeMu.readers = [])
    (hclosed : s'.closed = s.closed ∨ s.closeMu.readers = [])
    (hwaiting : s'.closeMu.waiting = true ↔ (s'.calls c).pc.stage = 3)
    (hlocked : s'.closeMu.locked = true ↔
      4 ≤ (s'.calls c).pc.stage ∧ (s'.calls c).pc.stage ≤ 5)
    (hmark : s'.closed = true → (s'.calls c).mark = s.ring.ring.writePos) : Closing s' := by
  refine ⟨?_, ?_, ?_, ?_, ?_, ?_, ?_⟩
  · rw [hf.recorders, hreaders]
    exact hc.holds
  · rw [hreaders]
    exact hempty
  · rw [hf.recorders]
    intro r hpc
    rcases hclosed with hsame | hnil
    · rw [hsame]
      exact hc.admitted r hpc
    · have := hc.holds r (RecordPc.holds_of_admitted hpc)
      rw [hnil] at this
      cases this
  · rw [honce]
    nofun
  · intro c' honce'
    cases honce.symm.trans honce'
    exact ⟨hwaiting, hlocked⟩
  · intro c' honce' hclosed'
    cases honce.symm.trans honce'
    rw [hf.ring]
    exact hmark hclosed'
  · rw [hf.recorders]
    exact fun c' err r hstop h => hc.late c' err r hstop (hf.log.precedes rfl h)

theorem broadcastReturns_writing (s : State) (c : Caller) (err : Err) :
    ((s.broadcastReturns c err).calls c).pc.writing = false := by
  cases c <;>
    simp [State.broadcastReturns, State.returnCall, State.callTo, State.setCall, State.emit,
      CallPc.writing]

theorem broadcastReturns_flags (s : State) (c : Caller) (err : Err) :
    (s.broadcastReturns c err).closeMu = s.closeMu ∧
      (s.broadcastReturns c err).shutdownOnce = s.shutdownOnce ∧
      (s.broadcastReturns c err).closed = s.closed := by
  cases c <;> exact ⟨rfl, rfl, rfl⟩

theorem caller (hc : Closing s) (hl : Lifecycle s) (h : CallerMove cfg s c s') : Closing s' := by
  have hf := CallerFrame.of_move h
  have hquiet : ∀ {pc : CallPc}, s'.closeMu = s.closeMu → s'.shutdownOnce = s.shutdownOnce →
      s'.closed = s.closed → (s.calls c).pc = pc → pc.writing = false →
      (s'.calls c).pc.writing = false → Closing s' := by
    rintro pc hmu honce hclosed rfl hpc hpc'
    exact hc.of_quiet hl hf hmu honce hclosed hpc hpc'
  have hbroadcast : ∀ (t : State) {pc : CallPc} (err : Err), s' = t.broadcastReturns c err →
      t.closeMu = s.closeMu → t.shutdownOnce = s.shutdownOnce → t.closed = s.closed →
      (s.calls c).pc = pc → pc.writing = false → Closing s' := by
    rintro t pc err rfl hmu honce hclosed hpc hwriting
    obtain ⟨hmu', honce', hclosed'⟩ := broadcastReturns_flags t c err
    exact hquiet (hmu'.trans hmu) (honce'.trans honce) (hclosed'.trans hclosed) hpc hwriting
      (broadcastReturns_writing t c err)
  -- the shutdown at one of the points of the mutex runs
  have hruns : ∀ {pc : CallPc}, (s.calls c).pc = pc → pc.ofFlush = false → 2 ≤ pc.stage →
      pc.stage ≤ 11 → s.shutdownOnce = some c := by
    rintro pc rfl hpc hlow hhigh
    exact hl.inside c (hl.not_flush hpc) hlow hhigh
  have hself : ∀ (call' : Call), update s.calls c call' c = call' :=
    fun _ => update_self ..
  cases h with
  | start hpc =>
    refine hquiet rfl rfl rfl hpc rfl ?_
    simp only [State.emit, State.setCall, hself]
    cases c <;> rfl
  | enter hpc honce =>
    obtain ⟨hwaiting, hlocked⟩ := hc.unused honce
    obtain ⟨hclosed, -⟩ := hl.idle honce
    refine hc.of_writer hf rfl rfl hc.locked (.inl rfl) ?_ ?_ ?_
    · simp [State.callTo, State.setCall, hwaiting, CallPc.stage]
    · simp [State.callTo, State.setCall, hlocked, CallPc.stage]
    · simp [State.callTo, State.setCall, hclosed]
  | lock hpc =>
    have honce := hruns hpc rfl (by decide) (by decide)
    obtain ⟨-, hlocked⟩ := hc.writer c honce
    have hclosed := (hl.once c honce).2.2.1
    rw [hpc] at hlocked hclosed
    refine hc.of_writer hf honce rfl hc.locked (.inl rfl) ?_ ?_ ?_
    · simp [State.callTo, State.setCall, CallPc.stage]
    · simpa [State.callTo, State.setCall, CallPc.stage] using hlocked
    · exact fun h => absurd (hclosed.mp h) (by decide)
  | acquire hpc hreaders =>
    have honce := hruns hpc rfl (by decide) (by decide)
    have hclosed := (hl.once c honce).2.2.1
    rw [hpc] at hclosed
    refine hc.of_writer hf honce rfl (fun _ => hreaders) (.inl rfl) ?_ ?_ ?_
    · simp [State.callTo, State.setCall, CallPc.stage]
    · simp [State.callTo, State.setCall, CallPc.stage]
    · exact fun h => absurd (hclosed.mp h) (by decide)
  | close hpc =>
    have honce := hruns hpc rfl (by decide) (by decide)
    obtain ⟨hwaiting, hlocked⟩ := hc.writer c honce
    rw [hpc] at hwaiting hlocked
    have hheld : s.closeMu.locked = true := hlocked.mpr (by decide)
    refine hc.of_writer hf honce rfl hc.locked (.inr (hc.locked hheld)) ?_ ?_ ?_
    · simpa [State.setCall, CallPc.stage] using hwaiting
    · simpa [State.setCall, CallPc.stage] using hheld
    · exact fun _ => by simp [State.setCall]
  | unlock hpc =>
    have honce := hruns hpc rfl (by decide) (by decide)
    obtain ⟨hwaiting, -⟩ := hc.writer c honce
    have hclosed := (hl.once c honce).2.2.1
    rw [hpc] at hwaiting hclosed
    refine hc.of_writer hf honce rfl (by simp) (.inl rfl) ?_ ?_ ?_
    · simpa [State.callTo, State.setCall, CallPc.stage] using hwaiting
    · simp [State.callTo, State.setCall, CallPc.stage]
    · simpa [State.callTo, State.setCall] using
        fun _ => hc.mark c honce (hclosed.mpr (by decide))
  | contextDone hpc hctx =>
    rcases hpc with ⟨k, hpc⟩ | ⟨err, hpc⟩ <;> exact hbroadcast s _ rfl rfl rfl rfl hpc rfl
  | clientClosed k hpc hcancelled => exact hbroadcast s _ rfl rfl rfl rfl hpc rfl
  | receivedLast _ _ k _ hpc => exact hbroadcast _ _ rfl rfl rfl rfl hpc rfl
  | refused hpc | admitted hpc | joined _ hpc | generation hpc | received _ _ _ _ hpc | cancel _ hpc
  | skipWait _ hpc | wait _ hpc | waited _ hpc | stopWait _ hpc | shutExporter _ _ hpc
  | exporterShut _ _ _ hpc | finish _ _ _ hpc =>
    refine hquiet rfl rfl rfl hpc rfl ?_
    simp [State.returnCall, State.callTo, State.setCall, State.emit, CallPc.writing]

/-- **Every step keeps it.** -/
theorem step (hc : Closing s) (hu : RingUse cfg s) (hl : Lifecycle s) (hlg : Logged s)
    (h : StepMove cfg s s') : Closing s' := by
  cases h with
  | recorder h => exact hc.recorder hl hlg h
  | worker hk h => exact hc.worker hu h
  | caller h => exact hc.caller hl h
  | request c k _ hcall =>
    refine hc.of_same rfl rfl rfl rfl rfl (fun c' _ => ?_) fun _ _ _ => id
    by_cases hcc : c' = c
    · subst hcc
      simp only [update_self]
      refine ⟨.inr ⟨by rw [hcall]; rfl, ?_⟩, fun _ => trivial⟩
      split <;> rfl
    · simp [hcc]
  | tick k =>
    exact hc.of_same rfl rfl rfl rfl rfl (fun _ _ => ⟨.inl rfl, fun _ => rfl⟩) fun _ _ _ => id
  | contextEnds c =>
    refine hc.of_same rfl rfl rfl rfl rfl (fun c' _ => ?_) fun _ _ _ h => h.of_append (by simp)
    by_cases hcc : c' = c <;> simp [hcc]

end Closing

theorem closing_of_reach {cfg : Config} {s : State} (h : (pipelineSystem cfg).Reach s) :
    Closing s :=
  h.invariant .init fun _ _ _ hr hc _ hstep =>
    hc.step (ringUse_of_reach hr) (lifecycle_of_reach hr) (logged_of_reach hr) (.of_step hstep)

end ConvoyStats.Pipeline
