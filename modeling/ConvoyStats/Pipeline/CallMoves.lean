import ConvoyStats.Library.Updates
import ConvoyStats.Pipeline.WorkerMoves

/-!
# What the steps of the callers do

The counterpart of `WorkerMove` for `Record`, `Flush` and `Shutdown`.  A `Record`
call matters to the rest of the pipeline through the ring and the pending drop
counts; a `Flush` or `Shutdown` call through the requests it has sent and the
acknowledgements it holds.
-/

namespace ConvoyStats.Pipeline

open Function List Transport

/-- The ring operation of a goroutine: every `Record` call pushes its own
observation, every worker pops. -/
def ringOp (cfg : Config) : Goroutine → Op ℕ
  | .recorder r => if cfg.dropOldest then .pushDropOldest (some r) else .push (some r)
  | .worker _ => .pop

namespace RecordPc

/-- The push has not returned yet, if it has been called at all. -/
def before : RecordPc → Bool
  | .notCalled | .rlock | .checkClosed | .rateLimit | .countRateLimited | .admitSeries | .dropSeries
  | .totalSeries | .loadMemory _ | .casMemory .. | .countMemory | .push _ => true
  | _ => false

/-- The push has succeeded. -/
def accepted : RecordPc → Bool
  | .releaseEvicted .. | .dropLabels _ | .totalLabels _ | .unlock none | .returned none => true
  | _ => false

/-- The call is inside `buffer.Push` or `buffer.PushDropOldest`. -/
def pushing : RecordPc → Bool
  | .push _ => true
  | _ => false

/-- The call has found the pipeline open and has not returned yet. -/
def admitted : RecordPc → Bool
  | .notCalled | .rlock | .checkClosed | .unlock (some .clientClosed) | .returned _ => false
  | _ => true

/-- The call holds `closeMu` for reading. -/
def holds : RecordPc → Bool
  | .notCalled | .rlock | .returned _ => false
  | _ => true

end RecordPc

/-- The events of `Record` calls. -/
def Event.byRecorder : Event → Bool
  | .recordCalled _ | .recordReturned .. => true
  | _ => false

/-- **The way of a `Record` call past `closeMu` and `shutdownCh`**: its points
before and after a step, the mutex and the log after it. -/
inductive GateMove (s : State) (r : ℕ) : RecordPc → RecordPc → CloseMutex → List Event → Prop
  | called : GateMove s r .notCalled .rlock s.closeMu (s.log ++ [.recordCalled r])
  | rlock (hwaiting : s.closeMu.waiting = false) (hlocked : s.closeMu.locked = false) :
      GateMove s r .rlock .checkClosed
        { s.closeMu with readers := r :: s.closeMu.readers } s.log
  | refuse (hclosed : s.closed = true) :
      GateMove s r .checkClosed (.unlock (some .clientClosed)) s.closeMu s.log
  | passClosed (hclosed : s.closed = false) : GateMove s r .checkClosed .rateLimit s.closeMu s.log
  | inside (pc pc' : RecordPc) (hpc : pc.admitted) (hpc' : pc'.admitted) :
      GateMove s r pc pc' s.closeMu s.log
  | unlock (result : Option RecordError) :
      GateMove s r (.unlock result) (.returned result)
        { s.closeMu with readers := s.closeMu.readers.erase r }
        (s.log ++ [.recordReturned r result])

/-- What it writes to the log. -/
theorem GateMove.log {s : State} {r : ℕ} {pc pc' : RecordPc} {closeMu' : CloseMutex}
    {log' : List Event} (h : GateMove s r pc pc' closeMu' log') :
    log' = s.log ∨ log' = s.log ++ [.recordCalled r] ∨
      ∃ result, pc' = .returned result ∧ log' = s.log ++ [.recordReturned r result] := by
  cases h with
  | called => exact .inr (.inl rfl)
  | rlock hwaiting hlocked => exact .inl rfl
  | refuse hclosed => exact .inl rfl
  | passClosed hclosed => exact .inl rfl
  | inside hpc hpc' => exact .inl rfl
  | unlock result => exact .inr (.inr ⟨result, rfl, rfl⟩)

/-- **The moves of the `Record` call `r`.** -/
inductive RecorderMove (cfg : Config) (s : State) (r : ℕ) : State → Prop
  /-- Everything but the push. -/
  | control (rec' : Recorder) (closeMu' : CloseMutex) (stats' : Stats)
      (pending' : DropReason → ℕ) (log' : List Event)
      (hpush : (s.recorders r).pc.pushing = false)
      (hbefore : rec'.pc.before → (s.recorders r).pc.before)
      (haccepted : rec'.pc.accepted → (s.recorders r).pc.accepted)
      (hpending : ∀ reason, s.pending reason ≤ pending' reason)
      (hreturned : ∀ result, (s.recorders r).pc ≠ .returned result)
      (hgate : GateMove s r (s.recorders r).pc rec'.pc closeMu' log') :
      RecorderMove cfg s r { s with
        recorders := update s.recorders r rec'
        closeMu := closeMu', stats := stats', pending := pending', log := log' }
  /-- An access of the push that does not return yet. -/
  | access (ring' : World Goroutine ℕ) (hpush : (s.recorders r).pc.pushing)
      (hring : ringStep s.ring (.recorder r) (ringOp cfg (.recorder r)) = some (ring', none)) :
      RecorderMove cfg s r { s with ring := ring' }
  /-- The push returns. -/
  | pushed (labels : ℕ) (result : Result ℕ) (ring' : World Goroutine ℕ)
      (hpc : (s.recorders r).pc = .push labels)
      (hring : ringStep s.ring (.recorder r) (ringOp cfg (.recorder r)) =
        some (ring', some result)) :
      RecorderMove cfg s r { s with
        recorders := update s.recorders r
          { s.recorders r with pc := pushedPc labels result }
        ring := ring' }

namespace RecorderMove

variable {cfg : Config} {s s' : State} {r : ℕ} {ch : Choice}

theorem of_startRecord {size : ℤ} (h : startRecord s r size = some s') :
    RecorderMove cfg s r s' := by
  unfold startRecord at h
  split at h
  · rename_i hpc
    cases h
    exact .control _ _ _ _ _ (by rw [hpc]; rfl) (by rw [hpc]; exact id) nofun
      (fun _ => le_rfl) (by rw [hpc]; nofun) (by rw [hpc]; exact .called)
  · cases h

theorem le_update_add (f : DropReason → ℕ) (reason : DropReason) (n : ℕ) (reason' : DropReason) :
    f reason' ≤ update f reason (f reason + n) reason' := by
  by_cases heq : reason' = reason
  · subst heq
    rw [update_self]
    exact Nat.le_add_right _ _
  · rw [update_of_ne heq]

theorem commitPc_before (labels : ℕ) : (commitPc labels).before = false := by
  unfold commitPc
  split_ifs <;> rfl

theorem commitPc_admitted (labels : ℕ) : (commitPc labels).admitted := by
  unfold commitPc
  split_ifs <;> rfl

/-- **Every step of a `Record` call is a move.** -/
theorem of_recorderStep (h : recorderStep cfg s r ch = some s') : RecorderMove cfg s r s' := by
  unfold recorderStep at h
  -- a branch behind the check that moves on without the ring
  have hinside : ∀ (pc pc' : RecordPc) (stats' : Stats) (pending' : DropReason → ℕ),
      (s.recorders r).pc = pc → pc.pushing = false → (pc'.before → pc.before) →
      (pc'.accepted → pc.accepted) → (∀ reason, s.pending reason ≤ pending' reason) →
      pc.admitted → pc'.admitted →
      RecorderMove cfg s r { s with
        recorders := update s.recorders r { s.recorders r with pc := pc' }
        stats := stats', pending := pending' } := by
    rintro pc pc' stats' pending' rfl hpush hbefore haccepted hpending hin hin'
    refine .control _ s.closeMu _ _ s.log hpush hbefore haccepted hpending ?_ (.inside _ _ hin hin')
    intro result hpc
    rw [hpc] at hin
    cases hin
  cases hpc : (s.recorders r).pc <;> simp only [hpc] at h
  case notCalled | returned => cases h
  case rlock =>
    split at h
    · cases h
    rename_i hfree
    cases h
    simp only [Bool.or_eq_true, not_or, Bool.not_eq_true] at hfree
    refine .control _ _ _ _ s.log (by rw [hpc]; rfl) (by rw [hpc]; exact id) nofun
      (fun _ => le_rfl) (by rw [hpc]; nofun) ?_
    rw [hpc]
    exact .rlock hfree.1 hfree.2
  case checkClosed =>
    cases h
    refine .control _ s.closeMu _ _ s.log (by rw [hpc]; rfl) (by rw [hpc]; exact fun _ => rfl) ?_
      (fun _ => le_rfl) (by rw [hpc]; nofun) ?_
    · cases s.closed <;> nofun
    · rw [hpc]
      cases hclosed : s.closed
      · exact .passClosed hclosed
      · exact .refuse hclosed
  case rateLimit =>
    cases h
    refine hinside _ _ _ _ hpc rfl (fun _ => rfl) ?_ (fun _ => le_rfl) rfl ?_
    · split_ifs <;> nofun
    · split_ifs <;> rfl
  case countRateLimited | totalSeries | countMemory | rollback | countFull =>
    cases h
    exact hinside _ _ _ _ hpc rfl nofun nofun (fun _ => le_rfl) rfl rfl
  case admitSeries =>
    split at h <;> cases h
    · exact hinside _ _ _ _ hpc rfl nofun nofun (fun _ => le_rfl) rfl rfl
    · exact hinside _ _ _ _ hpc rfl (fun _ => rfl) nofun (fun _ => le_rfl) rfl rfl
    · exact hinside _ _ _ _ hpc rfl (fun _ => rfl) nofun (fun _ => le_rfl) rfl rfl
  case dropSeries =>
    cases h
    exact hinside _ _ _ _ hpc rfl (fun _ => rfl) nofun (le_update_add _ _ _) rfl rfl
  case loadMemory | casMemory =>
    split at h <;> cases h <;>
      exact hinside _ _ _ _ hpc rfl (fun _ => rfl) nofun (fun _ => le_rfl) rfl rfl
  case push labels =>
    split at h
    · cases h
    · cases h
      exact .access _ (by rw [hpc]; rfl) ‹_›
    · cases h
      exact .pushed labels _ _ hpc ‹_›
  case releaseEvicted labels old =>
    cases h
    refine hinside _ _ _ _ hpc rfl ?_ (fun _ => rfl) (fun _ => le_rfl) rfl
      (commitPc_admitted labels)
    rw [commitPc_before]
    nofun
  case dropLabels labels =>
    cases h
    exact hinside _ _ _ _ hpc rfl nofun (fun _ => rfl) (le_update_add _ _ _) rfl rfl
  case totalLabels labels =>
    cases h
    exact hinside _ _ _ _ hpc rfl nofun (fun _ => rfl) (fun _ => le_rfl) rfl rfl
  case unlock result =>
    cases h
    refine .control _ _ _ _ _ (by rw [hpc]; rfl) nofun ?_ (fun _ => le_rfl)
      (by rw [hpc]; nofun) ?_
    · rw [hpc]
      cases result <;> exact id
    · rw [hpc]
      exact .unlock result

theorem workers (h : RecorderMove cfg s r s') : s'.workers = s.workers := by
  cases h <;> rfl

theorem calls (h : RecorderMove cfg s r s') : s'.calls = s.calls := by
  cases h <;> rfl

theorem once_eq (h : RecorderMove cfg s r s') : s'.shutdownOnce = s.shutdownOnce := by
  cases h <;> rfl

/-- What it writes to the log. -/
theorem log (h : RecorderMove cfg s r s') : LogGrows Event.byRecorder s.log s'.log := by
  cases h with
  | control _ _ _ _ _ _ _ _ _ _ hgate =>
    rcases hgate.log with rfl | rfl | ⟨result, -, rfl⟩
    · exact .rfl
    · exact .emit rfl
    · exact .emit rfl
  | access | pushed => exact .rfl

end RecorderMove

/-! ### Flush and Shutdown -/

/-- Where a call begins. -/
def Caller.entry : Caller → CallPc
  | .flush _ => .checkClosed
  | .shutdown _ => .once

/-- **The moves of a `Flush` or `Shutdown` call**, one for each way on from each
point. -/
inductive CallerMove (cfg : Config) (s : State) (c : Caller) : State → Prop
  | start (hpc : (s.calls c).pc = .notCalled) :
      CallerMove cfg s c ((s.setCall c { s.calls c with
        pc := c.entry
        mark := s.ring.ring.writePos
        counted := fun reason => s.taken reason + s.pending reason }).emit (.called c))
  | refused (hpc : (s.calls c).pc = .checkClosed) (hclosed : s.closed = true) :
      CallerMove cfg s c (s.returnCall c [⟨[], .clientClosed⟩])
  | admitted (hpc : (s.calls c).pc = .checkClosed) (hclosed : s.closed = false) :
      CallerMove cfg s c (s.callTo c .generation)
  /-- The function of `shutdownOnce` starts. -/
  | enter (hpc : (s.calls c).pc = .once) (honce : s.shutdownOnce = none) :
      CallerMove cfg s c { s.callTo c .lock with shutdownOnce := some c }
  /-- It has been run by another call. -/
  | joined (c' : Caller) (hpc : (s.calls c).pc = .once) (honce : s.shutdownOnce = some c')
      (hdone : s.onceDone = true) : CallerMove cfg s c (s.returnCall c [])
  | lock (hpc : (s.calls c).pc = .lock) :
      CallerMove cfg s c { s.callTo c .acquire with closeMu := { s.closeMu with waiting := true } }
  | acquire (hpc : (s.calls c).pc = .acquire) (hreaders : s.closeMu.readers = []) :
      CallerMove cfg s c { s.callTo c .close with
        closeMu := { s.closeMu with waiting := false, locked := true } }
  | close (hpc : (s.calls c).pc = .close) :
      CallerMove cfg s c { s.setCall c { s.calls c with
          pc := .unlock
          mark := s.ring.ring.writePos
          counted := fun reason => s.taken reason + s.pending reason } with closed := true }
  | unlock (hpc : (s.calls c).pc = .unlock) :
      CallerMove cfg s c { s.callTo c .generation with
        closeMu := { s.closeMu with locked := false } }
  | generation (hpc : (s.calls c).pc = .generation) :
      CallerMove cfg s c { s.setCall c { s.calls c with pc := .send 0, gen := s.flushGen + 1 } with
        flushGen := s.flushGen + 1 }
  /-- `broadcast` gives up because the call's context is done. -/
  | contextDone (hpc : (∃ k, (s.calls c).pc = .send k) ∨ ∃ err, (s.calls c).pc = .collect err)
      (hctx : (s.calls c).ctxDone = true) :
      CallerMove cfg s c (s.broadcastReturns c [⟨[], .contextDone⟩])
  /-- `broadcast` gives up because the pipeline context is cancelled. -/
  | clientClosed (k : ℕ) (hpc : (s.calls c).pc = .send k) (hcancelled : s.cancelled = true) :
      CallerMove cfg s c (s.broadcastReturns c [⟨[], .clientClosed⟩])
  | received (err err' : Err) (k : ℕ) (rest : List (ℕ × Err))
      (hpc : (s.calls c).pc = .collect err) (hdone : (s.calls c).done = (k, err') :: rest)
      (hlen : (s.calls c).got.length + 1 < cfg.workers) :
      CallerMove cfg s c (s.setCall c { s.calls c with
        pc := .collect (err ++ err'), done := rest, got := (s.calls c).got ++ [k] })
  | receivedLast (err err' : Err) (k : ℕ) (rest : List (ℕ × Err))
      (hpc : (s.calls c).pc = .collect err) (hdone : (s.calls c).done = (k, err') :: rest)
      (hlen : cfg.workers ≤ (s.calls c).got.length + 1) :
      CallerMove cfg s c ((s.setCall c { s.calls c with
        pc := .collect (err ++ err'), done := rest
        got := (s.calls c).got ++ [k] }).broadcastReturns c (err ++ err'))
  | cancel (err : Err) (hpc : (s.calls c).pc = .cancel err) :
      CallerMove cfg s c { s.callTo c (.checkContext err) with cancelled := true }
  | skipWait (err : Err) (hpc : (s.calls c).pc = .checkContext err)
      (hctx : (s.calls c).ctxDone = true) :
      CallerMove cfg s c (s.callTo c (.shutExporter 0 false err))
  | wait (err : Err) (hpc : (s.calls c).pc = .checkContext err) :
      CallerMove cfg s c (s.callTo c (.waitWorkers err))
  | waited (err : Err) (hpc : (s.calls c).pc = .waitWorkers err)
      (hexited : ∀ k < cfg.workers, (s.workers k).pc = .exited) :
      CallerMove cfg s c (s.callTo c (.shutExporter 0 false err))
  | stopWait (err : Err) (hpc : (s.calls c).pc = .waitWorkers err)
      (hctx : (s.calls c).ctxDone = true) :
      CallerMove cfg s c (s.callTo c (.shutExporter 0 false
        (err ++ errorf "wait for workers: " [⟨[], .contextDone⟩])))
  | shutExporter (e : ℕ) (err : Err) (hpc : (s.calls c).pc = .shutExporter e false err)
      (he : e < cfg.exporters) :
      CallerMove cfg s c ((s.callTo c (.shutExporter e true err)).emit (.exporterShutdown e))
  | exporterShut (e : ℕ) (err err' : Err) (hpc : (s.calls c).pc = .shutExporter e true err)
      (herr : err' = err ∨ err' = err ++ [⟨[], .exporterShutdown e⟩]) :
      CallerMove cfg s c (s.callTo c (.shutExporter (e + 1) false err'))
  | finish (e : ℕ) (running : Bool) (err : Err)
      (hpc : (s.calls c).pc = .shutExporter e running err) :
      CallerMove cfg s c (s.returnCall c (errorf "pipeline shutdown: " err))

namespace CallerMove

variable {cfg : Config} {s s' : State} {c : Caller} {ch : Choice}

theorem of_startCall (h : startCall s c = some s') : CallerMove cfg s c s' := by
  unfold startCall at h
  split at h
  · rename_i hpc
    cases h
    have hmove : CallerMove cfg s c _ := .start hpc
    cases c <;> exact hmove
  · cases h

theorem of_receiveAck {err : Err} (hpc : (s.calls c).pc = .collect err)
    (h : receiveAck cfg s c err = some s') : CallerMove cfg s c s' := by
  unfold receiveAck at h
  split at h
  · cases h
  rename_i k err' rest hdone
  cases h
  simp only [length_append, length_singleton]
  split
  · exact .received err err' k rest hpc hdone ‹_›
  · exact .receivedLast err err' k rest hpc hdone (Nat.not_lt.mp ‹_›)

/-- **Every step of a call is a move.** -/
theorem of_callerStep (h : callerStep cfg s c ch = some s') : CallerMove cfg s c s' := by
  simp only [callerStep] at h
  split at h
  · cases h
  · rename_i hpc
    cases h
    cases hclosed : s.closed
    · exact .admitted hpc hclosed
    · exact .refused hpc hclosed
  · rename_i hpc
    split at h
    · cases h
      exact .enter hpc ‹_›
    · split at h <;> cases h
      exact .joined _ hpc ‹_› ‹_›
  · cases h
    exact .lock ‹_›
  · rename_i hpc
    split at h <;> cases h
    exact .acquire hpc ‹_›
  · cases h
    exact .close ‹_›
  · cases h
    exact .unlock ‹_›
  · cases h
    exact .generation ‹_›
  · rename_i k hpc
    split at h
    · split at h <;> cases h
      exact .contextDone (.inl ⟨k, hpc⟩) ‹_›
    · split at h <;> cases h
      exact .clientClosed k hpc ‹_›
    · cases h
  · rename_i err hpc
    split at h
    · exact of_receiveAck hpc h
    · split at h <;> cases h
      exact .contextDone (.inr ⟨err, hpc⟩) ‹_›
    · cases h
  · cases h
    exact .cancel _ ‹_›
  · rename_i err hpc
    cases h
    split
    · exact .skipWait err hpc ‹_›
    · exact .wait err hpc
  · rename_i err hpc
    split at h
    · split at h <;> cases h
      rename_i hall
      refine .waited err hpc fun k hk => ?_
      have := all_eq_true.mp hall k (mem_range.mpr hk)
      split at this
      · assumption
      · cases this
    · split at h <;> cases h
      exact .stopWait err hpc ‹_›
    · cases h
  · rename_i e running err hpc
    split at h
    · cases h
      exact .finish e running err hpc
    · split at h <;> cases h
      · rename_i hrunning
        rw [hrunning] at hpc
        refine .exporterShut e err _ hpc ?_
        split
        · exact .inr rfl
        · exact .inl rfl
      · rename_i he hrunning
        rw [Bool.not_eq_true] at hrunning
        rw [hrunning] at hpc
        exact .shutExporter e err hpc (Nat.not_le.mp he)
  · cases h

theorem called (h : CallerMove cfg s c s') : (s'.calls c).pc ≠ .notCalled := by
  cases h <;> cases c <;>
    simp [State.returnCall, State.broadcastReturns, State.emit, State.callTo, State.setCall,
      Caller.entry]

/-- The pipeline context stays cancelled. -/
theorem cancelled (h : CallerMove cfg s c s') (hs : s.cancelled = true) :
    s'.cancelled = true := by
  cases h with
  | contextDone | clientClosed | receivedLast => cases c <;> exact hs
  | cancel => rfl
  | _ => exact hs

theorem stats (h : CallerMove cfg s c s') : s'.stats = s.stats := by
  cases h with
  | contextDone | clientClosed | receivedLast => cases c <;> rfl
  | _ => rfl

end CallerMove

namespace CallPc

/-- A request may have been sent to worker `k`. -/
def Sent : CallPc → ℕ → Prop
  | .send i, k => k < i
  | .collect _, _ | .cancel _, _ | .checkContext _, _ | .waitWorkers _, _
  | .shutExporter .., _ | .returned _, _ => True
  | _, _ => False

/-- The call waits for worker `k` of `workers`, which has its request. -/
def Awaits (workers : ℕ) : CallPc → ℕ → Prop
  | .send i, k => k < i
  | .collect _, k => k < workers
  | _, _ => False

/-- The marks of the call may still be taken. -/
def early : CallPc → Bool
  | .notCalled | .close => true
  | _ => false

end CallPc

/-- The events of `Flush` and `Shutdown` calls. -/
def Event.byCaller : Event → Bool
  | .called _ | .callReturned .. | .exporterShutdown _ => true
  | _ => false

/-- **What a step of `Flush` or `Shutdown` leaves alone**: everything that belongs
to the recorders, the workers and the ring, and what the call itself has already
promised. -/
structure CallerFrame (s : State) (c : Caller) (s' : State) : Prop where
  ring : s'.ring = s.ring
  recorders : s'.recorders = s.recorders
  workers : s'.workers = s.workers
  pending : s'.pending = s.pending
  taken : s'.taken = s.taken
  others : ∀ c', c' ≠ c → s'.calls c' = s.calls c'
  acked : (s'.calls c).acked = (s.calls c).acked
  sent : ∀ k, (s.calls c).pc.Sent k → (s'.calls c).pc.Sent k
  awaits : ∀ n k, (s'.calls c).pc.Awaits n k → (s.calls c).pc.Awaits n k
  /-- The marks change only to the present ones. -/
  marks : (s'.calls c).mark = (s.calls c).mark ∧ (s'.calls c).counted = (s.calls c).counted ∨
    (s.calls c).pc.early ∧ (s'.calls c).mark = s.ring.ring.writePos ∧
      (s'.calls c).counted = fun reason => s.taken reason + s.pending reason
  log : LogGrows Event.byCaller s.log s'.log

namespace CallerFrame

variable {cfg : Config} {s s' : State} {c : Caller} {ch : Choice}

/-- The call moves on and the frame is kept; `call'` and the fields the frame does
not mention are free. -/
theorem of_setCall (call' : Call) {closeMu' : CloseMutex} {shutdownOnce' : Option Caller}
    {onceDone' closed' cancelled' : Bool} {flushGen' : ℕ} {log' : List Event}
    (hacked : call'.acked = (s.calls c).acked)
    (hsent : ∀ k, (s.calls c).pc.Sent k → call'.pc.Sent k)
    (hawaits : ∀ n k, call'.pc.Awaits n k → (s.calls c).pc.Awaits n k)
    (hmarks : call'.mark = (s.calls c).mark ∧ call'.counted = (s.calls c).counted ∨
      (s.calls c).pc.early ∧ call'.mark = s.ring.ring.writePos ∧
        call'.counted = fun reason => s.taken reason + s.pending reason)
    (hlog : LogGrows Event.byCaller s.log log') :
    CallerFrame s c { s with
      calls := update s.calls c call'
      closeMu := closeMu', shutdownOnce := shutdownOnce', onceDone := onceDone'
      closed := closed', cancelled := cancelled', flushGen := flushGen'
      log := log' } where
  ring := rfl
  recorders := rfl
  workers := rfl
  pending := rfl
  taken := rfl
  others := fun c' hc => update_of_ne hc ..
  acked := by simpa using hacked
  sent := by simpa using hsent
  awaits := by simpa using hawaits
  marks := by simpa using hmarks
  log := hlog

theorem acked_eq (h : CallerFrame s c s') (c' : Caller) :
    (s'.calls c').acked = (s.calls c').acked := by
  by_cases hc : c' = c
  · subst hc
    exact h.acked
  · rw [h.others c' hc]

/-- A move between two points of the call. -/
theorem of_callTo (pc' : CallPc) {closeMu' : CloseMutex} {shutdownOnce' : Option Caller}
    {onceDone' closed' cancelled' : Bool} {flushGen' : ℕ}
    (hsent : ∀ k, (s.calls c).pc.Sent k → pc'.Sent k) (hawaits : ∀ n k, ¬ pc'.Awaits n k) :
    CallerFrame s c { s with
      calls := update s.calls c { s.calls c with pc := pc' }
      closeMu := closeMu', shutdownOnce := shutdownOnce', onceDone := onceDone'
      closed := closed', cancelled := cancelled', flushGen := flushGen' } :=
  of_setCall _ rfl hsent (fun n k h => absurd h (hawaits n k)) (.inl ⟨rfl, rfl⟩) .rfl

theorem of_returnCall (err : Err) : CallerFrame s c (s.returnCall c err) :=
  of_setCall _ rfl (fun _ _ => trivial) nofun (.inl ⟨rfl, rfl⟩) (.emit rfl)

theorem of_broadcastReturns (err : Err) : CallerFrame s c (s.broadcastReturns c err) := by
  cases c with
  | flush n => exact of_returnCall _
  | shutdown n => exact of_callTo _ (fun _ _ => trivial) nofun

/-- **Every move of a call keeps the frame.** -/
theorem of_move (h : CallerMove cfg s c s') : CallerFrame s c s' := by
  -- before the broadcast nothing has been sent
  have hearly : ∀ {pc : CallPc}, (s.calls c).pc = pc → (∀ k, ¬ pc.Sent k) →
      ∀ pc' k, (s.calls c).pc.Sent k → CallPc.Sent pc' k := by
    intro pc hpc hnone pc' k hk
    rw [hpc] at hk
    exact absurd hk (hnone k)
  cases h with
  | start hpc =>
    refine of_setCall _ rfl (hearly hpc (fun _ => id) _) ?_ (.inr ⟨by rw [hpc]; rfl, rfl, rfl⟩)
      (.emit rfl)
    cases c <;> nofun
  | refused hpc hclosed | joined c' hpc honce hdone | finish e running err hpc =>
    exact of_returnCall _
  | admitted hpc hclosed | enter hpc honce | lock hpc | acquire hpc hreaders | unlock hpc =>
    exact of_callTo _ (hearly hpc (fun _ => id) _) nofun
  | close hpc =>
    exact of_setCall _ rfl (hearly hpc (fun _ => id) _) nofun
      (.inr ⟨by rw [hpc]; rfl, rfl, rfl⟩) .rfl
  | generation hpc =>
    exact of_setCall _ rfl (hearly hpc (fun _ => id) _)
      (fun _ k hk => absurd hk (Nat.not_lt_zero k)) (.inl ⟨rfl, rfl⟩) .rfl
  | contextDone hpc hctx | clientClosed k hpc hcancelled => exact of_broadcastReturns _
  | received err err' k rest hpc hdone =>
    exact of_setCall _ (by simp [Call.acked, hdone]) (fun _ _ => trivial)
      (fun _ _ => by rw [hpc]; exact id) (.inl ⟨rfl, rfl⟩) .rfl
  | receivedLast err err' k rest _ hdone =>
    -- the acknowledgement moves from the channel to those received
    have hacked : ((s.calls c).got ++ [k]) ++ rest.map Prod.fst = (s.calls c).acked := by
      simp [Call.acked, hdone]
    cases c with
    | flush n =>
      simp only [State.broadcastReturns, State.returnCall, State.callTo, State.setCall,
        State.emit, update_idem, update_self]
      exact of_setCall _ hacked (fun _ _ => trivial) nofun (.inl ⟨rfl, rfl⟩) (.emit rfl)
    | shutdown n =>
      simp only [State.broadcastReturns, State.callTo, State.setCall, update_idem,
        update_self]
      exact of_setCall _ hacked (fun _ _ => trivial) nofun (.inl ⟨rfl, rfl⟩) .rfl
  | cancel err hpc | skipWait err hpc hctx | wait err hpc | waited err hpc hexited
  | stopWait err hpc hctx | exporterShut e err err' hpc herr =>
    exact of_callTo _ (fun _ _ => trivial) nofun
  | shutExporter e =>
    exact of_setCall _ rfl (fun _ _ => trivial) nofun (.inl ⟨rfl, rfl⟩) (.emit rfl)

end CallerFrame

/-! ### The system -/

/-- A call at worker `k` hands its request over to it. -/
theorem requestStep_some {cfg : Config} {s s' : State} {c : Caller} {k : ℕ}
    (h : requestStep cfg s c k = some s') :
    (s.calls c).pc = .send k ∧ (s.workers k).pc = .select ∧ s' = { s with
      workers := update s.workers k { s.workers k with
        pc := .drainLoop ⟨c, (s.calls c).gen⟩ 0 ((s.workers k).inFlight.since (s.calls c).gen) }
      calls := update s.calls c { s.calls c with
        pc := if k + 1 < cfg.workers then .send (k + 1) else .collect [] } } := by
  simp only [requestStep] at h
  split at h
  · rename_i k' hcall hworker
    split at h <;> cases h
    subst k'
    exact ⟨hcall, hworker, rfl⟩
  · cases h

/-- **The steps of the pipeline, by their labels.**  Every constructor has what the step does in
the terms of the party that moves, and the equation of the step function where a proof needs
more than that. -/
inductive LabelMove (cfg : Config) (s : State) : Label → State → Prop
  | record {r : ℕ} {size : ℤ} {s' : State} (h : RecorderMove cfg s r s')
      (hstep : startRecord s r size = some s') : LabelMove cfg s (.record r size) s'
  | recorder {r : ℕ} {ch : Choice} {s' : State} (h : RecorderMove cfg s r s')
      (hstep : recorderStep cfg s r ch = some s') : LabelMove cfg s (.recorder r ch) s'
  | worker {k : ℕ} {ch : Choice} {s' : State} (hk : k < cfg.workers) (h : WorkerMove s k s')
      (hstep : workerStep cfg s k ch = some s') : LabelMove cfg s (.worker k ch) s'
  | startExport {k e : ℕ} {s' : State} (hk : k < cfg.workers) (h : WorkerMove s k s')
      (hstep : startExport cfg s k e = some s') : LabelMove cfg s (.startExport k e) s'
  | finishExport {k e : ℕ} {failed : Bool} {s' : State} (hk : k < cfg.workers)
      (h : WorkerMove s k s') (hstep : finishExport s k e failed = some s') :
      LabelMove cfg s (.finishExport k e failed) s'
  | call {c : Caller} {s' : State} (h : CallerMove cfg s c s')
      (hstep : startCall s c = some s') : LabelMove cfg s (.call c) s'
  | caller {c : Caller} {ch : Choice} {s' : State} (h : CallerMove cfg s c s')
      (hstep : callerStep cfg s c ch = some s') : LabelMove cfg s (.caller c ch) s'
  /-- A call hands its request to a worker. -/
  | request (c : Caller) (k : ℕ) (hk : k < cfg.workers) (hcall : (s.calls c).pc = .send k)
      (hworker : (s.workers k).pc = .select) :
      LabelMove cfg s (.request c k) { s with
        workers := update s.workers k { s.workers k with
          pc := .drainLoop ⟨c, (s.calls c).gen⟩ 0 ((s.workers k).inFlight.since (s.calls c).gen) }
        calls := update s.calls c { s.calls c with
          pc := if k + 1 < cfg.workers then .send (k + 1) else .collect [] } }
  | tick (k : ℕ) :
      LabelMove cfg s (.tick k) { s with
        workers := update s.workers k { s.workers k with tick := true } }
  | contextEnds (c : Caller) :
      LabelMove cfg s (.contextEnds c) { s with
        calls := update s.calls c { s.calls c with ctxDone := true }
        log := s.log ++ [.contextEnded c] }

/-- **Every step of the pipeline is one of them.** -/
theorem LabelMove.of_step {cfg : Config} {s s' : State} {l : Label} (h : step cfg s l = some s') :
    LabelMove cfg s l s' := by
  cases l with
  | record r size => exact .record (.of_startRecord h) h
  | recorder r ch => exact .recorder (.of_recorderStep h) h
  | worker k ch =>
    obtain ⟨hk, h⟩ := Option.ite_none_right_eq_some.mp h
    exact .worker hk (.of_workerStep h) h
  | startExport k e =>
    obtain ⟨hk, h⟩ := Option.ite_none_right_eq_some.mp h
    exact .startExport hk (.of_startExport h) h
  | finishExport =>
    obtain ⟨hk, h⟩ := Option.ite_none_right_eq_some.mp h
    exact .finishExport hk (.of_finishExport h) h
  | tick k =>
    cases h
    exact .tick k
  | call c => exact .call (.of_startCall h) h
  | caller c ch => exact .caller (.of_callerStep h) h
  | request c k =>
    obtain ⟨hk, h⟩ := Option.ite_none_right_eq_some.mp h
    obtain ⟨hcall, hworker, rfl⟩ := requestStep_some h
    exact .request c k hk hcall hworker
  | contextEnds c =>
    cases h
    exact .contextEnds c

/-- The same without the labels, sorted by who moves. -/
inductive StepMove (cfg : Config) (s : State) : State → Prop
  | recorder {r : ℕ} {s' : State} (h : RecorderMove cfg s r s') : StepMove cfg s s'
  | worker {k : ℕ} {s' : State} (hk : k < cfg.workers) (h : WorkerMove s k s') :
      StepMove cfg s s'
  | caller {c : Caller} {s' : State} (h : CallerMove cfg s c s') : StepMove cfg s s'
  /-- A call hands its request to a worker. -/
  | request (c : Caller) (k : ℕ) (hk : k < cfg.workers) (hcall : (s.calls c).pc = .send k)
      (hworker : (s.workers k).pc = .select) :
      StepMove cfg s { s with
        workers := update s.workers k { s.workers k with
          pc := .drainLoop ⟨c, (s.calls c).gen⟩ 0 ((s.workers k).inFlight.since (s.calls c).gen) }
        calls := update s.calls c { s.calls c with
          pc := if k + 1 < cfg.workers then .send (k + 1) else .collect [] } }
  | tick (k : ℕ) :
      StepMove cfg s { s with
        workers := update s.workers k { s.workers k with tick := true } }
  | contextEnds (c : Caller) :
      StepMove cfg s { s with
        calls := update s.calls c { s.calls c with ctxDone := true }
        log := s.log ++ [.contextEnded c] }

theorem StepMove.of_step {cfg : Config} {s s' : State} {l : Label} (h : step cfg s l = some s') :
    StepMove cfg s s' := by
  cases LabelMove.of_step h with
  | record h | recorder h => exact .recorder h
  | worker hk h | startExport hk h | finishExport hk h => exact .worker hk h
  | call h | caller h => exact .caller h
  | request c k hk hcall hworker => exact .request c k hk hcall hworker
  | tick k => exact .tick k
  | contextEnds c => exact .contextEnds c

theorem StepMove.cancelled {cfg : Config} {s s' : State} (h : StepMove cfg s s')
    (hs : s.cancelled = true) : s'.cancelled = true := by
  cases h with
  | recorder h | worker hk h => cases h <;> exact hs
  | caller h => exact h.cancelled hs
  | request | tick | contextEnds => exact hs

end ConvoyStats.Pipeline
