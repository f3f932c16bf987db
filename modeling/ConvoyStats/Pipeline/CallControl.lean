import ConvoyStats.Pipeline.Barrier
import ConvoyStats.Library.Precedes

/-!
# The course of a call

What the moves of `Flush` and `Shutdown` say about the flags of the pipeline and
about its log.

* `Lifecycle`: the pipeline is closed and its context cancelled by the one
  `Shutdown` call that runs the function of `shutdownOnce`, at its own points.
* `Logged`: the log agrees with the calls, and an observation accepted before a
  call lies below the mark of that call.
-/

namespace ConvoyStats.Pipeline

open Function Transport

namespace CallPc

/-- The order of the points of `Shutdown`. -/
def stage : CallPc → ℕ
  | .notCalled => 0
  | .checkClosed | .once => 1
  | .lock => 2
  | .acquire => 3
  | .close => 4
  | .unlock => 5
  | .generation => 6
  | .send _ | .collect _ => 7
  | .cancel _ => 8
  | .checkContext _ => 9
  | .waitWorkers _ => 10
  | .shutExporter .. => 11
  | .returned _ => 12

/-- The points of `Flush`. -/
def ofFlush : CallPc → Bool
  | .notCalled | .checkClosed | .generation | .send _ | .collect _ | .returned _ => true
  | _ => false

/-- The points of `Shutdown`. -/
def ofShutdown : CallPc → Bool
  | .checkClosed => false
  | _ => true

/-- Two points before the return, both before or both after the points at which
`Shutdown` enters `shutdownOnce`, closes the pipeline and cancels its context. -/
structure SameBand (pc pc' : CallPc) : Prop where
  entered : 2 ≤ pc'.stage ↔ 2 ≤ pc.stage
  closed : 5 ≤ pc'.stage ↔ 5 ≤ pc.stage
  cancelled : 9 ≤ pc'.stage ↔ 9 ≤ pc.stage
  running : pc'.stage ≤ 11 ∧ pc.stage ≤ 11

end CallPc

/-! ### The flags -/

/-- **The lifecycle of the pipeline.** -/
structure Lifecycle (s : State) : Prop where
  flush : ∀ c, c.stop = false → (s.calls c).pc.ofFlush
  shutdown : ∀ c, c.stop = true → (s.calls c).pc.ofShutdown
  idle : s.shutdownOnce = none → s.closed = false ∧ s.cancelled = false
  once : ∀ c, s.shutdownOnce = some c → c.stop = true ∧ 2 ≤ (s.calls c).pc.stage ∧
    (s.closed = true ↔ 5 ≤ (s.calls c).pc.stage) ∧
    (s.cancelled = true ↔ 9 ≤ (s.calls c).pc.stage)
  inside : ∀ c, c.stop = true → 2 ≤ (s.calls c).pc.stage → (s.calls c).pc.stage ≤ 11 →
    s.shutdownOnce = some c
  entered : ∀ c, c.stop = true → 2 ≤ (s.calls c).pc.stage → s.shutdownOnce ≠ none
  done : s.onceDone = true → ∃ c, s.shutdownOnce = some c ∧ (s.calls c).pc.stage = 12
  returned : ∀ c, c.stop = true → (s.calls c).pc.stage = 12 → s.onceDone = true

namespace Lifecycle

variable {cfg : Config} {s s' : State} {c : Caller}

theorem init : Lifecycle (State.init cfg) where
  flush := fun _ _ => rfl
  shutdown := fun _ _ => rfl
  idle := fun _ => ⟨rfl, rfl⟩
  once := nofun
  inside := fun _ _ h => absurd h (Nat.not_succ_le_zero 1)
  entered := fun _ _ h => absurd h (Nat.not_succ_le_zero 1)
  done := nofun
  returned := nofun

variable (hl : Lifecycle s)
include hl

/-- Neither the points nor the flags have changed. -/
theorem of_same (hpc : ∀ c, (s'.calls c).pc = (s.calls c).pc)
    (honce : s'.shutdownOnce = s.shutdownOnce) (hclosed : s'.closed = s.closed)
    (hcancelled : s'.cancelled = s.cancelled) (hdone : s'.onceDone = s.onceDone) :
    Lifecycle s' := by
  refine ⟨?_, ?_, ?_, ?_, ?_, ?_, ?_, ?_⟩
  · simpa only [hpc] using hl.flush
  · simpa only [hpc] using hl.shutdown
  · simpa only [honce, hclosed, hcancelled] using hl.idle
  · simpa only [hpc, honce, hclosed, hcancelled] using hl.once
  · simpa only [hpc, honce] using hl.inside
  · simpa only [hpc, honce] using hl.entered
  · simpa only [hdone, honce, hpc] using hl.done
  · simpa only [hpc, hdone] using hl.returned

/-- One call has moved. -/
theorem of_call {call' : Call}
    (hcalls : s'.calls = update s.calls c call')
    (hflush : c.stop = false → call'.pc.ofFlush)
    (hshutdown : c.stop = true → call'.pc.ofShutdown)
    (hidle : s'.shutdownOnce = none → s'.closed = false ∧ s'.cancelled = false)
    (honce : s'.shutdownOnce = some c → c.stop = true ∧ 2 ≤ call'.pc.stage ∧
      (s'.closed = true ↔ 5 ≤ call'.pc.stage) ∧ (s'.cancelled = true ↔ 9 ≤ call'.pc.stage))
    (hinside : c.stop = true → 2 ≤ call'.pc.stage → call'.pc.stage ≤ 11 →
      s'.shutdownOnce = some c)
    (hother : ∀ c', c' ≠ c → (s'.shutdownOnce = some c' ↔ s.shutdownOnce = some c') ∧
      (s.shutdownOnce = some c' → s'.closed = s.closed ∧ s'.cancelled = s.cancelled))
    (hentered : c.stop = true → 2 ≤ call'.pc.stage → s'.shutdownOnce ≠ none)
    (hkept : s.shutdownOnce ≠ none → s'.shutdownOnce ≠ none)
    (hdone : s'.onceDone = true → ∃ c', s'.shutdownOnce = some c' ∧
      if c' = c then call'.pc.stage = 12 else (s.calls c').pc.stage = 12)
    (hreturned : c.stop = true → call'.pc.stage = 12 → s'.onceDone = true)
    (hstays : s.onceDone = true → s'.onceDone = true) : Lifecycle s' := by
  have hcases := update_cases hcalls
  refine ⟨fun c' hstop => ?_, fun c' hstop => ?_, hidle, fun c' h => ?_, fun c' hstop => ?_,
    fun c' hstop => ?_, fun h => ?_, fun c' hstop => ?_⟩
  · rcases hcases c' with ⟨rfl, hc'⟩ | ⟨-, hc'⟩ <;> rw [hc']
    · exact hflush hstop
    · exact hl.flush c' hstop
  · rcases hcases c' with ⟨rfl, hc'⟩ | ⟨-, hc'⟩ <;> rw [hc']
    · exact hshutdown hstop
    · exact hl.shutdown c' hstop
  · rcases hcases c' with ⟨rfl, hc'⟩ | ⟨hc, hc'⟩ <;> rw [hc']
    · exact honce h
    · have hold := (hother c' hc).1.mp h
      obtain ⟨hclosed, hcancelled⟩ := (hother c' hc).2 hold
      rw [hclosed, hcancelled]
      exact hl.once c' hold
  · rcases hcases c' with ⟨rfl, hc'⟩ | ⟨hc, hc'⟩ <;> rw [hc']
    · exact hinside hstop
    · exact fun hlow hhigh => (hother c' hc).1.mpr (hl.inside c' hstop hlow hhigh)
  · rcases hcases c' with ⟨rfl, hc'⟩ | ⟨-, hc'⟩ <;> rw [hc']
    · exact hentered hstop
    · exact fun hlow => hkept (hl.entered c' hstop hlow)
  · obtain ⟨c', honce', hstage⟩ := hdone h
    refine ⟨c', honce', ?_⟩
    rcases hcases c' with ⟨rfl, hc'⟩ | ⟨hc, hc'⟩ <;> rw [hc']
    · rwa [if_pos rfl] at hstage
    · rwa [if_neg hc] at hstage
  · rcases hcases c' with ⟨rfl, hc'⟩ | ⟨-, hc'⟩ <;> rw [hc']
    · exact hreturned hstop
    · exact fun hstage => hstays (hl.returned c' hstop hstage)

/-- When a `Shutdown` has returned, the one that ran has. -/
theorem ended (hstop : c.stop = true) (hstage : (s.calls c).pc.stage = 12) :
    s.closed = true ∧ s.cancelled = true ∧
      ∃ c', s.shutdownOnce = some c' ∧ (s.calls c').pc.stage = 12 := by
  obtain ⟨c', honce, hstage'⟩ := hl.done (hl.returned c hstop hstage)
  obtain ⟨-, -, hclosed, hcancelled⟩ := hl.once c' honce
  rw [hstage'] at hclosed hcancelled
  exact ⟨hclosed.mpr (by decide), hcancelled.mpr (by decide), c', honce, hstage'⟩

/-- What a completed `shutdownOnce` says, seen from a call that has not returned. -/
theorem done_of_running (hpc : (s.calls c).pc.stage ≤ 11) {P : Caller → Prop}
    (h : s.onceDone = true) : ∃ c', s.shutdownOnce = some c' ∧
      if c' = c then P c' else (s.calls c').pc.stage = 12 := by
  obtain ⟨c', honce, hstage⟩ := hl.done h
  refine ⟨c', honce, ?_⟩
  split
  · subst c'
    omega
  · exact hstage

/-- One call has moved within its band and left the flags alone. -/
theorem of_band {call' : Call}
    (hcalls : s'.calls = update s.calls c call')
    (hflush : c.stop = false → call'.pc.ofFlush)
    (hshutdown : c.stop = true → (s.calls c).pc.SameBand call'.pc ∧ call'.pc.ofShutdown)
    (honce : s'.shutdownOnce = s.shutdownOnce) (hclosed : s'.closed = s.closed)
    (hcancelled : s'.cancelled = s.cancelled) (hdone : s'.onceDone = s.onceDone) :
    Lifecycle s' := by
  refine hl.of_call hcalls hflush (fun h => (hshutdown h).2) ?_ ?_ ?_ ?_ ?_ ?_ ?_ ?_ ?_
  · rw [honce, hclosed, hcancelled]
    exact hl.idle
  · rw [honce, hclosed, hcancelled]
    intro h
    obtain ⟨hstop, hlow, hcl, hca⟩ := hl.once c h
    obtain ⟨hband, -⟩ := hshutdown hstop
    exact ⟨hstop, hband.entered.mpr hlow, hcl.trans hband.closed.symm,
      hca.trans hband.cancelled.symm⟩
  · rw [honce]
    intro hstop hlow _
    obtain ⟨hband, -⟩ := hshutdown hstop
    exact hl.inside c hstop (hband.entered.mp hlow) hband.running.2
  · rw [honce, hclosed, hcancelled]
    exact fun _ _ => ⟨Iff.rfl, fun _ => ⟨rfl, rfl⟩⟩
  · rw [honce]
    exact fun hstop hlow => hl.entered c hstop ((hshutdown hstop).1.entered.mp hlow)
  · rw [honce]
    exact id
  · rw [hdone, honce]
    intro h
    obtain ⟨c', honce', hstage⟩ := hl.done h
    refine ⟨c', honce', ?_⟩
    split
    · subst c'
      have := (hshutdown (hl.once c honce').1).1.running.2
      omega
    · exact hstage
  · intro hstop hstage
    have := (hshutdown hstop).1.running.1
    omega
  · rw [hdone]
    exact id

/-- A flush is at none of the points of `Shutdown` alone. -/
theorem not_flush (hpc : (s.calls c).pc.ofFlush = false) : c.stop = true := by
  cases hstop : c.stop with
  | true => rfl
  | false =>
    have := hl.flush c hstop
    rw [hpc] at this
    cases this

/-- A shutdown is not at the check of a flush. -/
theorem not_shutdown (hpc : (s.calls c).pc = .checkClosed) :
    c.stop = false := by
  cases hstop : c.stop with
  | false => rfl
  | true =>
    have := hl.shutdown c hstop
    rw [hpc] at this
    cases this

/-- The call `c` returns. -/
theorem of_returnCall {err : Err}
    (h : c.stop = true → (s.calls c).pc.stage = 11) : Lifecycle (s.returnCall c err) := by
  -- a shutdown that comes to this point has closed the pipeline
  have hflags : s.shutdownOnce = some c → s.closed = true ∧ s.cancelled = true := by
    intro honce
    obtain ⟨hstop, -, hclosed, hcancelled⟩ := hl.once c honce
    rw [h hstop] at hclosed hcancelled
    exact ⟨hclosed.mpr (by decide), hcancelled.mpr (by decide)⟩
  have honce : c.stop = true → s.shutdownOnce = some c := by
    intro hstop
    exact hl.inside c hstop (by rw [h hstop]; decide) (by rw [h hstop])
  refine hl.of_call rfl (fun _ => rfl) (fun _ => rfl) hl.idle ?_ ?_ ?_ ?_ id ?_ ?_ ?_
  · intro hruns
    obtain ⟨hclosed, hcancelled⟩ := hflags hruns
    exact ⟨(hl.once c hruns).1, (by decide : 2 ≤ 12), iff_of_true hclosed (by decide : 5 ≤ 12),
      iff_of_true hcancelled (by decide : 9 ≤ 12)⟩
  · exact fun _ _ hhigh => absurd hhigh (by decide : ¬ 12 ≤ 11)
  · exact fun _ _ => ⟨Iff.rfl, fun _ => ⟨rfl, rfl⟩⟩
  · intro hstop _ hnone
    exact absurd ((honce hstop).symm.trans hnone) nofun
  · intro hdone
    rcases Bool.or_eq_true_iff.mp hdone with hdone | hruns
    · obtain ⟨c', honce', hstage⟩ := hl.done hdone
      refine ⟨c', honce', ?_⟩
      split
      · rfl
      · exact hstage
    · exact ⟨c, of_decide_eq_true hruns, by rw [if_pos rfl]; rfl⟩
  · intro hstop _
    simp [State.returnCall, State.emit, State.callTo, State.setCall, honce hstop]
  · intro hdone
    simp [State.returnCall, State.emit, State.callTo, State.setCall, hdone]

/-- The broadcast of `c` is over. -/
theorem of_broadcastReturns {err : Err} (h : (s.calls c).pc.stage = 7) :
    Lifecycle (s.broadcastReturns c err) := by
  cases c with
  | flush n => exact hl.of_returnCall nofun
  | shutdown n =>
    refine hl.of_band rfl nofun (fun _ => ⟨?_, rfl⟩) rfl rfl rfl rfl
    constructor <;> rw [h] <;> simp [CallPc.stage]

theorem caller (h : CallerMove cfg s c s') : Lifecycle s' := by
  cases h with
  | start hpc =>
    cases c with
    | flush n => exact hl.of_band rfl (fun _ => rfl) nofun rfl rfl rfl rfl
    | shutdown n =>
      refine hl.of_band rfl nofun (fun _ => ⟨?_, rfl⟩) rfl rfl rfl rfl
      rw [hpc]
      constructor <;> simp [CallPc.stage, Caller.entry]
  | refused hpc hclosed =>
    refine hl.of_returnCall fun hstop => ?_
    rw [hl.not_shutdown hpc] at hstop
    cases hstop
  | admitted hpc hclosed =>
    refine hl.of_band rfl (fun _ => rfl) (fun hstop => ?_) rfl rfl rfl rfl
    rw [hl.not_shutdown hpc] at hstop
    cases hstop
  | enter hpc honce =>
    have hstop := hl.not_flush (c := c) (by rw [hpc]; rfl)
    obtain ⟨hclosed, hcancelled⟩ := hl.idle honce
    refine hl.of_call rfl (by rw [hstop]; simp) (fun _ => rfl) (by simp) ?_ (fun _ _ _ => rfl) ?_
      (fun _ _ => by simp) (fun _ => by simp) ?_ (by rintro _ ⟨⟩) id
    · intro _
      exact ⟨hstop, (by decide : 2 ≤ 2),
        by simp [State.callTo, State.setCall, hclosed, CallPc.stage],
        by simp [State.callTo, State.setCall, hcancelled, CallPc.stage]⟩
    · intro c' hc
      rw [honce]
      refine ⟨?_, by simp⟩
      simpa using Ne.symm hc
    · intro hdone
      obtain ⟨c', honce', -⟩ := hl.done hdone
      exact absurd (honce.symm.trans honce') (by simp)
  | joined c' hpc honce hdone =>
    -- the function was run by another call
    have hne : c' ≠ c := by
      rintro rfl
      have := (hl.once c' honce).2.1
      rw [hpc] at this
      exact absurd this (by decide)
    have hother : s.shutdownOnce ≠ some c := by
      rw [honce]
      simpa using hne
    refine hl.of_call rfl (fun _ => rfl) (fun _ => rfl) hl.idle (fun h => absurd h hother) ?_
      (fun _ _ => ⟨Iff.rfl, fun _ => ⟨rfl, rfl⟩⟩) ?_ id ?_ ?_ ?_
    · exact fun _ _ hhigh => absurd hhigh (by decide : ¬ 12 ≤ 11)
    · exact fun _ _ hnone => absurd (honce.symm.trans hnone) (by simp)
    · exact fun _ => hl.done_of_running (c := c) (by rw [hpc]; decide) hdone
    · intro _ _
      simp [State.returnCall, State.emit, State.callTo, State.setCall, hdone]
    · intro _
      simp [State.returnCall, State.emit, State.callTo, State.setCall, hdone]
  | lock hpc | acquire hpc | unlock hpc | skipWait _ hpc | wait _ hpc | waited _ hpc
  | stopWait _ hpc | shutExporter _ _ hpc | exporterShut _ _ _ hpc =>
    have hstop := hl.not_flush (c := c) (by rw [hpc]; rfl)
    refine hl.of_band rfl (by rw [hstop]; simp) (fun _ => ⟨?_, rfl⟩) rfl rfl rfl rfl
    rw [hpc]
    constructor <;> simp [CallPc.stage]
  | close hpc =>
    have hstop := hl.not_flush (c := c) (by rw [hpc]; rfl)
    have honce : s.shutdownOnce = some c :=
      hl.inside c hstop (by rw [hpc]; decide) (by rw [hpc]; decide)
    have hcancelled := (hl.once c honce).2.2.2
    rw [hpc] at hcancelled
    refine hl.of_call rfl (by rw [hstop]; simp) (fun _ => rfl) ?_ ?_ (fun _ _ _ => honce) ?_
      (fun _ _ h => absurd (honce.symm.trans h) (by simp)) id
      (hl.done_of_running (by rw [hpc]; decide)) (by rintro _ ⟨⟩) id
    · exact fun h => absurd (honce.symm.trans h) (by simp)
    · exact fun _ => ⟨hstop, (by decide : 2 ≤ 5), by simp [CallPc.stage],
        hcancelled.trans (by decide : 9 ≤ 4 ↔ 9 ≤ 5)⟩
    · intro c' hc
      refine ⟨Iff.rfl, fun h => absurd ?_ hc⟩
      rw [honce] at h
      exact (Option.some.inj h).symm
  | generation hpc | received _ _ _ _ hpc =>
    refine hl.of_band rfl (fun _ => rfl) (fun _ => ⟨?_, rfl⟩) rfl rfl rfl rfl
    rw [hpc]
    constructor <;> simp [CallPc.stage]
  | contextDone hpc hctx =>
    refine hl.of_broadcastReturns ?_
    rcases hpc with ⟨k, hpc⟩ | ⟨err, hpc⟩ <;> rw [hpc] <;> rfl
  | clientClosed k hpc hcancelled => exact hl.of_broadcastReturns (by rw [hpc]; rfl)
  | receivedLast err err' k rest hpc =>
    have hmid : Lifecycle (s.setCall c { s.calls c with
        pc := .collect (err ++ err'), done := rest, got := (s.calls c).got ++ [k] }) := by
      refine hl.of_band rfl (fun _ => rfl) (fun _ => ⟨?_, rfl⟩) rfl rfl rfl rfl
      rw [hpc]
      constructor <;> simp [CallPc.stage]
    exact hmid.of_broadcastReturns (by simp [State.setCall, CallPc.stage])
  | cancel err hpc =>
    have hstop := hl.not_flush (c := c) (by rw [hpc]; rfl)
    have honce : s.shutdownOnce = some c :=
      hl.inside c hstop (by rw [hpc]; exact (by decide : 2 ≤ 8))
        (by rw [hpc]; exact (by decide : 8 ≤ 11))
    have hclosed := (hl.once c honce).2.2.1
    rw [hpc] at hclosed
    refine hl.of_call rfl (by rw [hstop]; simp) (fun _ => rfl) ?_ ?_ (fun _ _ _ => honce) ?_
      (fun _ _ h => absurd (honce.symm.trans h) (by simp)) id
      (hl.done_of_running (by rw [hpc]; exact (by decide : 8 ≤ 11))) (by rintro _ ⟨⟩) id
    · exact fun h => absurd (honce.symm.trans h) (by simp)
    · exact fun _ => ⟨hstop, (by decide : 2 ≤ 9), hclosed.trans (by decide : 5 ≤ 8 ↔ 5 ≤ 9),
        by simp [CallPc.stage]⟩
    · intro c' hc
      refine ⟨Iff.rfl, fun h => absurd ?_ hc⟩
      rw [honce] at h
      exact (Option.some.inj h).symm
  | finish e _ _ hpc => exact hl.of_returnCall fun _ => by rw [hpc]; rfl

/-- **Every step keeps the lifecycle.** -/
theorem step (h : StepMove cfg s s') : Lifecycle s' := by
  cases h with
  | recorder h => cases h <;> exact hl.of_same (fun _ => rfl) rfl rfl rfl rfl
  | @worker k _ _ h =>
    have hpc := h.calls_pc
    cases h <;> exact hl.of_same hpc rfl rfl rfl rfl
  | caller h => exact hl.caller h
  | request c k _ hcall =>
    refine hl.of_band rfl (fun _ => ?_) (fun _ => ?_) rfl rfl rfl rfl
    · dsimp only
      split <;> rfl
    · rw [hcall]
      dsimp only
      split <;> exact ⟨⟨Iff.rfl, Iff.rfl, Iff.rfl, by simp [CallPc.stage]⟩, rfl⟩
  | tick k => exact hl.of_same (fun _ => rfl) rfl rfl rfl rfl
  | contextEnds c =>
    exact hl.of_same (congr_of_update Call.pc rfl rfl) rfl rfl rfl rfl

end Lifecycle

theorem lifecycle_of_reach {cfg : Config} {s : State} (h : (pipelineSystem cfg).Reach s) :
    Lifecycle s :=
  h.invariant .init fun _ _ _ _ hl _ hstep => hl.step (.of_step hstep)

/-! ### The log -/

/-- **The log agrees with the calls.** -/
structure Logged (s : State) : Prop where
  called : ∀ c, (s.calls c).pc ≠ .notCalled → .called c ∈ s.log
  returned : ∀ c err, .callReturned c err ∈ s.log → (s.calls c).pc = .returned err
  ctxDone : ∀ c, (s.calls c).ctxDone = true → .contextEnded c ∈ s.log
  stopped : ∀ c k, .drainStopped c k ∈ s.log → .contextEnded c ∈ s.log
  /-- What was accepted before a call lies below its mark. -/
  before : ∀ c x, s.log.Precedes (.recordReturned x none) (.called c) →
    ∃ p < (s.calls c).mark, Published s.ring.history p x

namespace Logged

variable {cfg : Config} {s s' : State} {c : Caller}

theorem init : Logged (State.init cfg) where
  called := fun _ h => absurd rfl h
  returned := nofun
  ctxDone := nofun
  stopped := nofun
  before := fun _ _ h => absurd h.left_mem List.not_mem_nil

/-- A step that writes at most one event. -/
theorem of_event (hlg : Logged s) (hu : RingUse cfg s) (hb : Barrier cfg s) (hg : Grows s s')
    (ev : Option Event) (hlog : s'.log = s.log ++ ev.toList)
    (hcalled : ∀ c, (s'.calls c).pc ≠ .notCalled →
      (s.calls c).pc ≠ .notCalled ∨ ev = some (.called c))
    (hmark : ∀ c, ev = some (.called c) → (s'.calls c).mark = s.ring.ring.writePos)
    (hreturned : ∀ c err, (s.calls c).pc = .returned err → (s'.calls c).pc = .returned err)
    (hreturns : ∀ c err, ev = some (.callReturned c err) → (s'.calls c).pc = .returned err)
    (hctx : ∀ c, (s'.calls c).ctxDone = true →
      (s.calls c).ctxDone = true ∨ ev = some (.contextEnded c))
    (hstop : ∀ c k, .drainStopped c k ∈ s'.log →
      .drainStopped c k ∈ s.log ∨ (s.calls c).ctxDone = true) : Logged s' := by
  have hmem : ∀ e, e ∈ s'.log → e ∈ s.log ∨ ev = some e := by
    intro e he
    rw [hlog] at he
    simpa using he
  have hnew : ∀ e, ev = some e → e ∈ s'.log := by
    rintro e rfl
    rw [hlog]
    simp
  refine ⟨?_, ?_, ?_, ?_, ?_⟩
  · intro c hpc
    rcases hcalled c hpc with hold | hev
    · exact hg.log.subset (hlg.called c hold)
    · exact hnew _ hev
  · intro c err he
    rcases hmem _ he with hold | hev
    · exact hreturned c err (hlg.returned c err hold)
    · exact hreturns c err hev
  · intro c hdone
    rcases hctx c hdone with hold | hev
    · exact hg.log.subset (hlg.ctxDone c hold)
    · exact hnew _ hev
  · intro c k he
    rcases hstop c k he with hold | hctx
    · exact hg.log.subset (hlg.stopped c k hold)
    · exact hg.log.subset (hlg.ctxDone c hctx)
  · intro c x hprec
    -- the mark has not gone down
    have hle : (s.calls c).mark ≤ (s'.calls c).mark := by
      rcases hg.marks c with ⟨hmark, -⟩ | ⟨-, hmark, -⟩
      · exact hmark.ge
      · exact hmark ▸ hb.mark_le c
    have hold : s.log.Precedes (.recordReturned x none) (.called c) →
        ∃ p < (s'.calls c).mark, Published s'.ring.history p x := by
      intro h
      obtain ⟨p, hp, hpub⟩ := hlg.before c x h
      exact ⟨p, hp.trans_le hle, hpub.mono hg.ring.history.subset⟩
    cases ev with
    | none => exact hold (by simpa [hlog] using hprec)
    | some e =>
      rw [hlog] at hprec
      rcases List.precedes_append_singleton.mp hprec with h | ⟨hret, rfl⟩
      · exact hold h
      · obtain ⟨p, hpub⟩ := hu.published_of_returned hret
        exact ⟨p, hmark c rfl ▸ hu.ring.sound.published_lt hpub,
          hpub.mono hg.ring.history.subset⟩

/-- A step that moves no call and writes no event of one. -/
theorem of_calls (hlg : Logged s) (hu : RingUse cfg s) (hb : Barrier cfg s) (hg : Grows s s')
    {kind : Event → Bool} (hlog : LogGrows kind s.log s'.log)
    (hkind : ∀ e, kind e → e.byCaller = false)
    (hcalls : ∀ c, (s'.calls c).pc = (s.calls c).pc ∧ (s'.calls c).ctxDone = (s.calls c).ctxDone)
    (hstop : ∀ c k, .drainStopped c k ∈ s'.log →
      .drainStopped c k ∈ s.log ∨ (s.calls c).ctxDone = true) : Logged s' := by
  obtain ⟨ev, hlog, hev⟩ := hlog
  have hno : ∀ e, e.byCaller → ev ≠ some e := by
    intro e he hsome
    rw [hkind e (hev e hsome)] at he
    cases he
  refine hlg.of_event hu hb hg ev hlog ?_ ?_ ?_ ?_ ?_ hstop
  · exact fun c h => .inl (by rwa [(hcalls c).1] at h)
  · exact fun c h => absurd h (hno _ rfl)
  · exact fun c err h => (hcalls c).1.trans h
  · exact fun c err h => absurd h (hno _ rfl)
  · exact fun c h => .inl (by rwa [(hcalls c).2] at h)

/-- A step of one call. -/
theorem of_call (call' : Call) (hlg : Logged s) (hu : RingUse cfg s) (hb : Barrier cfg s)
    (hg : Grows s s') (ev : Option Event) (hlog : s'.log = s.log ++ ev.toList)
    (hcalls : s'.calls = update s.calls c call')
    (hpc : ∀ err, (s.calls c).pc ≠ .returned err)
    (hstart : (s.calls c).pc = .notCalled → ev = some (.called c))
    (hmark : ∀ c', ev = some (.called c') → c' = c ∧ call'.mark = s.ring.ring.writePos)
    (hreturns : ∀ c' err, ev = some (.callReturned c' err) → c' = c ∧ call'.pc = .returned err)
    (hctx : call'.ctxDone = (s.calls c).ctxDone)
    (hstop : ∀ c' k, ev ≠ some (.drainStopped c' k)) : Logged s' := by
  have hself : s'.calls c = call' := by rw [hcalls, update_self]
  have hcases := update_cases hcalls
  refine hlg.of_event hu hb hg ev hlog ?_ ?_ ?_ ?_ ?_ ?_
  · intro c' h
    rcases hcases c' with ⟨rfl, -⟩ | ⟨-, hc'⟩
    · by_cases hnot : (s.calls c').pc = .notCalled
      · exact .inr (hstart hnot)
      · exact .inl hnot
    · exact .inl (hc' ▸ h)
  · intro c' h
    obtain ⟨rfl, hm⟩ := hmark c' h
    exact hself ▸ hm
  · intro c' err h
    rcases hcases c' with ⟨rfl, -⟩ | ⟨-, hc'⟩
    · exact absurd h (hpc err)
    · exact hc' ▸ h
  · intro c' err h
    obtain ⟨rfl, hr⟩ := hreturns c' err h
    exact hself ▸ hr
  · exact fun c' h => .inl (congr_of_update Call.ctxDone hcalls hctx c' ▸ h)
  · intro c' k h
    rw [hlog, List.mem_append] at h
    exact .inl (h.resolve_right fun h => hstop c' k (by simpa using h))

/-- The call `c` returns. -/
theorem of_returnCall {call : Call} {err : Err} (hlg : Logged s) (hu : RingUse cfg s)
    (hb : Barrier cfg s) (hg : Grows s ((s.setCall c call).returnCall c err))
    (hpc : ∀ err, (s.calls c).pc ≠ .returned err) (hcalled : (s.calls c).pc ≠ .notCalled)
    (hctx : call.ctxDone = (s.calls c).ctxDone) :
    Logged ((s.setCall c call).returnCall c err) := by
  refine hlg.of_call { call with pc := .returned err } hu hb hg
    (some (.callReturned c err)) rfl ?_ hpc (fun h => absurd h hcalled) nofun ?_ hctx nofun
  · simp [State.returnCall, State.callTo, State.setCall, State.emit]
  · rintro _ _ ⟨⟩
    exact ⟨rfl, rfl⟩

theorem caller (hlg : Logged s) (hu : RingUse cfg s) (hb : Barrier cfg s) (hg : Grows s s')
    (h : CallerMove cfg s c s') : Logged s' := by
  -- a move between two points, without an event
  have hquiet : ∀ (pc : CallPc) (s' : State) (call' : Call), Grows s s' → s'.log = s.log →
      s'.calls = update s.calls c call' → (s.calls c).pc = pc →
      (∀ err, pc ≠ .returned err) → pc ≠ .notCalled → call'.ctxDone = (s.calls c).ctxDone →
      Logged s' := by
    rintro pc s' call' hg hlog hcalls rfl hlive hcalled hctx
    exact hlg.of_call _ hu hb hg none (hlog.trans (List.append_nil _).symm) hcalls hlive
      (fun h => absurd h hcalled) (by simp) (by simp) hctx (by simp)
  -- a return, possibly with an acknowledgement received in the same step
  have hreturn : ∀ {pc : CallPc} {call : Call} {t : State} {err : Err}, t = s.setCall c call →
      (s.calls c).pc = pc → (∀ err, pc ≠ .returned err) → pc ≠ .notCalled →
      call.ctxDone = (s.calls c).ctxDone → Grows s (t.returnCall c err) →
      Logged (t.returnCall c err) := by
    rintro pc call t err rfl rfl hlive hcalled hctx hg
    exact hlg.of_returnCall hu hb hg hlive hcalled hctx
  have hself : s = s.setCall c (s.calls c) := by simp [State.setCall]
  have hbroadcast : ∀ {pc : CallPc} {call : Call} {t : State} {err : Err}, t = s.setCall c call →
      (s.calls c).pc = pc → (∀ err, pc ≠ .returned err) → pc ≠ .notCalled →
      call.ctxDone = (s.calls c).ctxDone → Grows s (t.broadcastReturns c err) →
      Logged (t.broadcastReturns c err) := by
    rintro pc call t err rfl hpc hlive hcalled hctx hg
    cases c with
    | flush n => exact hreturn rfl hpc hlive hcalled hctx hg
    | shutdown n =>
      refine hquiet pc _ { call with pc := .cancel err } hg rfl ?_ hpc hlive hcalled hctx
      simp [State.broadcastReturns, State.callTo, State.setCall]
  cases h with
  | start hpc =>
    refine hlg.of_call _ hu hb hg (some (.called c)) rfl rfl (by rw [hpc]; simp) (fun _ => rfl) ?_
      (by simp) rfl (by simp)
    rintro _ ⟨⟩
    exact ⟨rfl, rfl⟩
  | refused hpc | joined _ hpc | finish _ _ _ hpc =>
    exact hreturn hself hpc (by simp) (by simp) rfl hg
  | admitted hpc hclosed | enter hpc honce | lock hpc | acquire hpc hreaders | close hpc
  | unlock hpc | generation hpc | received err err' k rest hpc hdone hlen | cancel err hpc
  | skipWait err hpc hctx | wait err hpc | waited err hpc hexited | stopWait err hpc hctx
  | exporterShut e _ _ hpc => exact hquiet _ _ _ hg rfl rfl hpc (by simp) (by simp) rfl
  | contextDone hpc =>
    rcases hpc with ⟨k, hpc⟩ | ⟨err, hpc⟩ <;>
      exact hbroadcast hself hpc (by simp) (by simp) rfl hg
  | clientClosed _ hpc => exact hbroadcast hself hpc (by simp) (by simp) rfl hg
  | receivedLast _ _ k _ hpc => exact hbroadcast rfl hpc (by simp) (by simp) rfl hg
  | shutExporter e _ hpc =>
    exact hlg.of_call _ hu hb hg (some (.exporterShutdown e)) rfl rfl (by rw [hpc]; simp)
      (by rw [hpc]; simp) (by simp) (by simp) rfl (by simp)

/-- **Every step keeps the log in agreement.** -/
theorem step (hlg : Logged s) (hu : RingUse cfg s) (hb : Barrier cfg s)
    (h : StepMove cfg s s') : Logged s' := by
  have hg := Grows.of_step hu h
  cases h with
  | recorder h =>
    have hcalls := h.calls
    refine hlg.of_calls hu hb hg h.log (fun e he => ?_) (by simp [hcalls]) fun c k he =>
      .inl (h.log.mem rfl he)
    cases e <;> first | rfl | cases he
  | worker _ h =>
    refine hlg.of_calls hu hb hg h.log (fun e he => ?_) (fun c => ?_) fun c k he => ?_
    · cases e <;> first | rfl | cases he
    · obtain ⟨done, hcall⟩ := h.calls_same c
      rw [hcall]
      exact ⟨rfl, rfl⟩
    · refine (h.stopped he).imp_right ?_
      rintro ⟨request, n, err, -, rfl, hshort⟩
      simp only [stopsShort, Bool.and_eq_true] at hshort
      exact hshort.1.2
  | caller h => exact hlg.caller hu hb hg h
  | request c k _ hcall =>
    exact hlg.of_call _ hu hb hg none (by simp) rfl (by rw [hcall]; simp) (by rw [hcall]; simp)
      (by simp) (by simp) rfl (by simp)
  | tick k =>
    exact hlg.of_calls hu hb hg (.rfl : LogGrows (fun _ => false) _ _) (by simp)
      (fun _ => ⟨rfl, rfl⟩) fun _ _ => .inl
  | contextEnds c =>
    have hpc := congr_of_update Call.pc (f := s.calls) (a := c)
      (v := { s.calls c with ctxDone := true }) rfl rfl
    refine hlg.of_event hu hb hg (some (.contextEnded c)) rfl ?_ (by simp) ?_ (by simp) ?_
      fun c' k h => .inl (by simpa using h)
    · exact fun c' h => .inl (hpc c' ▸ h)
    · exact fun c' err h => (hpc c').trans h
    · intro c' h
      by_cases hc : c' = c
      · exact .inr (hc ▸ rfl)
      · exact .inl (by simpa [hc] using h)

end Logged

theorem logged_of_reach {cfg : Config} {s : State} (h : (pipelineSystem cfg).Reach s) :
    Logged s :=
  h.invariant .init fun _ _ _ hr hlg _ hstep =>
    hlg.step (ringUse_of_reach hr) (barrier_of_reach hr) (.of_step hstep)

end ConvoyStats.Pipeline
