import ConvoyStats.Pipeline.CallControl

/-!
# The results of calls

What a call knows about its acknowledgements by where it is.

* `Concluded`: a call that has its result either has every worker's
  acknowledgement, or its result is an error and its context or the pipeline ended.
* `Receipts`: how many acknowledgements a call has received by where it is.
-/

namespace ConvoyStats.Pipeline

open Function List Transport

/-- The result of the broadcast of a call, once it is over. -/
def CallPc.result? : CallPc → Option Err
  | .cancel err | .checkContext err | .waitWorkers err | .shutExporter _ _ err
  | .returned err => some err
  | _ => none

/-- Every worker has acknowledged. -/
def AllAcked (cfg : Config) (s : State) (c : Caller) : Prop :=
  ∀ k < cfg.workers, k ∈ (s.calls c).acked

/-- The context of the call has ended, or a flush has met a shutdown. -/
def Interrupted (s : State) (c : Caller) : Prop :=
  .contextEnded c ∈ s.log ∨ c.stop = false ∧ ∃ n, .called (.shutdown n) ∈ s.log

/-- The call runs: it is a flush, or the shutdown that runs the function of
`shutdownOnce`. -/
def Runs (s : State) (c : Caller) : Prop := c.stop = false ∨ s.shutdownOnce = some c

/-- **The result of a call**: every worker has acknowledged, or the result is an
error and the call was interrupted. -/
def Concluded (cfg : Config) (s : State) : Prop :=
  ∀ c err, (s.calls c).pc.result? = some err → Runs s c →
    AllAcked cfg s c ∨ err ≠ [] ∧ Interrupted s c

/-- A closed or cancelled pipeline has been shut down. -/
theorem shutdown_called {s : State} (hl : Lifecycle s) (hlg : Logged s)
    (h : s.closed = true ∨ s.cancelled = true) : ∃ n, .called (.shutdown n) ∈ s.log := by
  cases honce : s.shutdownOnce with
  | none =>
    obtain ⟨hclosed, hcancelled⟩ := hl.idle honce
    rw [hclosed, hcancelled] at h
    simp at h
  | some c =>
    obtain ⟨hstop, hstage, -⟩ := hl.once c honce
    cases c with
    | flush n => cases hstop
    | shutdown n =>
      refine ⟨n, hlg.called _ fun hpc => ?_⟩
      rw [hpc] at hstage
      exact absurd hstage (by decide)

namespace Concluded

variable {cfg : Config} {s s' : State} {c : Caller}

theorem init : Concluded cfg (State.init cfg) := nofun

theorem interrupted_mono (hlog : s.log <+: s'.log) (h : Interrupted s c) : Interrupted s' c := by
  rcases h with h | ⟨hstop, n, h⟩
  · exact .inl (hlog.subset h)
  · exact .inr ⟨hstop, n, hlog.subset h⟩

/-- A call whose result has not changed, or has got worse. -/
theorem of_result {err err' : Err} (hc : Concluded cfg s) (hlog : s.log <+: s'.log)
    (hacked : (s.calls c).acked ⊆ (s'.calls c).acked)
    (hresult : (s.calls c).pc.result? = some err) (hruns : Runs s c) (herr : err ≠ [] → err' ≠ []) :
    AllAcked cfg s' c ∨ err' ≠ [] ∧ Interrupted s' c := by
  rcases hc c err hresult hruns with hall | ⟨hne, hint⟩
  · exact .inl fun k hk => hacked (hall k hk)
  · exact .inr ⟨herr hne, interrupted_mono hlog hint⟩

/-- The calls are where they were. -/
theorem of_same (hc : Concluded cfg s) (hlog : s.log <+: s'.log)
    (hpc : ∀ c, (s'.calls c).pc = (s.calls c).pc)
    (hacked : ∀ c, (s.calls c).acked ⊆ (s'.calls c).acked)
    (honce : s'.shutdownOnce = s.shutdownOnce) : Concluded cfg s' := by
  intro c err hresult hruns
  rw [hpc] at hresult
  rw [Runs, honce] at hruns
  exact hc.of_result hlog (hacked c) hresult hruns id

/-- One call has moved. -/
theorem of_call (call' : Call) (hc : Concluded cfg s) (hlog : s.log <+: s'.log)
    (hcalls : s'.calls = update s.calls c call')
    (honce : ∀ c', c' ≠ c → Runs s' c' → Runs s c')
    (h : ∀ err, call'.pc.result? = some err → Runs s' c →
      AllAcked cfg s' c ∨ err ≠ [] ∧ Interrupted s' c) : Concluded cfg s' := by
  intro c' err hresult hruns
  by_cases hcc : c' = c
  · subst hcc
    rw [hcalls, update_self] at hresult
    exact h err hresult hruns
  · have hsame : s'.calls c' = s.calls c' := by rw [hcalls, update_of_ne hcc]
    rw [hsame] at hresult
    exact hc.of_result hlog (by rw [hsame]; exact List.Subset.refl _) hresult
      (honce c' hcc hruns) id

/-- The call moves on with the result it had, or a worse one. -/
theorem of_worse {call' : Call} {err err' : Err} (hc : Concluded cfg s) (hlog : s.log <+: s'.log)
    (hcalls : s'.calls = update s.calls c call')
    (hacked : call'.acked = (s.calls c).acked) (honce : s'.shutdownOnce = s.shutdownOnce)
    (hresult : (s.calls c).pc.result? = some err) (hresult' : call'.pc.result? = some err')
    (herr : err ≠ [] → err' ≠ []) : Concluded cfg s' := by
  refine hc.of_call _ hlog hcalls (fun c' _ h => by rwa [Runs, honce] at h) ?_
  intro e he hruns
  cases hresult'.symm.trans he
  rw [Runs, honce] at hruns
  refine hc.of_result hlog ?_ hresult hruns herr
  rw [hcalls, update_self, hacked]
  exact List.Subset.refl _

/-- The broadcast of the call is over. -/
theorem of_broadcastReturns (call : Call) (err : Err) (hc : Concluded cfg s)
    (hacked : call.acked = (s.calls c).acked)
    (h : Runs s c → AllAcked cfg s c ∨ err ≠ [] ∧ Interrupted s c) :
    Concluded cfg ((s.setCall c call).broadcastReturns c err) := by
  cases c with
  | flush n =>
    refine hc.of_call (c := .flush n) { call with pc := .returned (errorf "flush: " err) }
      (prefix_append _ _) ?_ (fun _ _ => id) ?_
    · simp [State.broadcastReturns, State.returnCall, State.callTo, State.setCall, State.emit]
    · rintro e ⟨⟩ -
      rcases h (.inl rfl) with hall | ⟨hne, hint⟩
      · left
        intro k hk
        have := hall k hk
        rw [← hacked] at this
        simpa [State.broadcastReturns, State.returnCall, State.callTo, State.setCall,
          State.emit, Call.acked] using this
      · exact .inr ⟨fun hnil => hne (errorf_eq_nil.mp hnil),
          interrupted_mono (prefix_append _ _) hint⟩
  | shutdown n =>
    refine hc.of_call (c := .shutdown n) { call with pc := .cancel err } prefix_rfl ?_
      (fun _ _ => id) ?_
    · simp [State.broadcastReturns, State.callTo, State.setCall]
    · rintro e ⟨⟩ hruns
      rcases h hruns with hall | ⟨hne, hint⟩
      · left
        intro k hk
        have := hall k hk
        rw [← hacked] at this
        simpa [State.broadcastReturns, State.callTo, State.setCall, Call.acked] using this
      · exact .inr ⟨hne, hint⟩

theorem caller (hc : Concluded cfg s) (hh : Handshake cfg s) (hl : Lifecycle s) (hlg : Logged s)
    (h : CallerMove cfg s c s') : Concluded cfg s' := by
  have hself : s.setCall c (s.calls c) = s := by simp [State.setCall]
  -- a move to a point before the result
  have hbefore : ∀ (s' : State) (call' : Call), s.log <+: s'.log →
      s'.calls = update s.calls c call' → s'.shutdownOnce = s.shutdownOnce →
      call'.pc.result? = none → Concluded cfg s' := by
    intro s' call' hlog hcalls honce hnone
    refine hc.of_call _ hlog hcalls (fun c' _ h => by rwa [Runs, honce] at h) fun err h => ?_
    rw [hnone] at h
    cases h
  -- a broadcast that was cut short
  have hcut : ∀ err, err ≠ [] → (Runs s c → Interrupted s c) →
      Concluded cfg (s.broadcastReturns c err) := by
    intro err hne hint
    have := hc.of_broadcastReturns (s.calls c) err rfl
      fun hruns => .inr ⟨hne, hint hruns⟩
    rwa [hself] at this
  cases h with
  | start hpc =>
    refine hbefore _ _ (prefix_append _ _) rfl rfl ?_
    cases c <;> rfl
  | refused hpc hclosed =>
    refine hc.of_call _ (prefix_append _ _) rfl (fun _ _ => id) ?_
    rintro err ⟨⟩ -
    obtain ⟨n, hcalled⟩ := shutdown_called hl hlg (.inl hclosed)
    exact .inr ⟨by simp, .inr ⟨hl.not_shutdown hpc, n, mem_append_left _ hcalled⟩⟩
  | admitted hpc hclosed | lock hpc | acquire hpc hreaders | close hpc | unlock hpc
  | generation hpc | received err err' k rest hpc hdone hlen =>
    exact hbefore _ _ prefix_rfl rfl rfl rfl
  | enter hpc honce =>
    refine hc.of_call _ prefix_rfl rfl ?_ (by rintro _ ⟨⟩)
    rintro c' hne (h | h)
    · exact .inl h
    · exact absurd (Option.some.inj h).symm hne
  | joined _ hpc =>
    refine hc.of_call _ (prefix_append _ _) rfl (fun _ _ => id) ?_
    rintro err - (hstop | hruns)
    · rw [hl.not_flush (by rw [hpc]; rfl)] at hstop
      cases hstop
    · have := (hl.once c hruns).2.1
      rw [hpc] at this
      exact absurd this (by decide)
  | contextDone hpc hctx => exact hcut _ (by simp) fun _ => .inl (hlg.ctxDone c hctx)
  | clientClosed k hpc hcancelled =>
    refine hcut _ (by simp) fun hruns => ?_
    cases hstop : c.stop with
    | false => exact .inr ⟨hstop, shutdown_called hl hlg (.inr hcancelled)⟩
    | true =>
      -- the shutdown itself cancels only after its broadcast
      have honce := hl.inside c hstop (by rw [hpc]; exact (by decide : 2 ≤ 7))
        (by rw [hpc]; exact (by decide : 7 ≤ 11))
      have := (hl.once c honce).2.2.2.mp hcancelled
      rw [hpc] at this
      exact absurd this (by decide : ¬ 9 ≤ 7)
  | receivedLast _ _ k _ _ hdone =>
    refine hc.of_broadcastReturns _ _ (by simp [Call.acked, hdone]) fun _ => .inl ?_
    refine fun j hj => hh.acked_of_length ?_ hj
    simp only [Call.acked, hdone, length_append, map_cons, length_cons]
    omega
  | cancel err hpc | skipWait err hpc hctx | waited err hpc hexited =>
    exact hc.of_worse prefix_rfl rfl rfl rfl (by rw [hpc]; rfl) rfl id
  | wait err hpc => exact hc.of_worse prefix_rfl rfl rfl rfl (by rw [hpc]; rfl) rfl id
  | stopWait err hpc hctx =>
    exact hc.of_worse prefix_rfl rfl rfl rfl (by rw [hpc]; rfl) rfl (by simp [errorf])
  | shutExporter e _ hpc =>
    exact hc.of_worse (prefix_append _ _) rfl rfl rfl (by rw [hpc]; rfl) rfl id
  | exporterShut e _ _ hpc herr =>
    refine hc.of_worse prefix_rfl rfl rfl rfl (by rw [hpc]; rfl) rfl ?_
    rcases herr with rfl | rfl
    · exact id
    · simp
  | finish e _ _ hpc =>
    exact hc.of_worse (prefix_append _ _) rfl rfl rfl (by rw [hpc]; rfl) rfl
      fun hne hnil => hne (errorf_eq_nil.mp hnil)

/-- **Every step keeps it.** -/
theorem step (hc : Concluded cfg s) (hu : RingUse cfg s) (hh : Handshake cfg s)
    (hl : Lifecycle s) (hlg : Logged s) (h : StepMove cfg s s') : Concluded cfg s' := by
  have hlog := (Grows.of_step hu h).log
  have hacked := h.acked_subset
  cases h with
  | recorder h => exact hc.of_same hlog (fun c => by rw [h.calls]) hacked h.once_eq
  | worker _ h =>
    have hpc := h.calls_pc
    cases h <;> exact hc.of_same hlog hpc hacked rfl
  | caller h => exact hc.caller hh hl hlg h
  | request =>
    refine hc.of_call _ hlog rfl (fun _ _ => id) fun err h => ?_
    dsimp only at h
    split at h <;> cases h
  | tick k => exact hc.of_same hlog (fun _ => rfl) hacked rfl
  | contextEnds c =>
    exact hc.of_same hlog (congr_of_update Call.pc rfl rfl) hacked rfl

end Concluded

theorem concluded_of_reach {cfg : Config} {s : State} (h : (pipelineSystem cfg).Reach s) :
    Concluded cfg s :=
  h.invariant .init fun _ _ _ hr hc _ hstep =>
    hc.step (ringUse_of_reach hr) (handshake_of_reach hr) (lifecycle_of_reach hr)
      (logged_of_reach hr) (.of_step hstep)

/-! ### Receipts -/

/-- The broadcast has started to collect. -/
def CallPc.collected : CallPc → Bool
  | .collect _ | .cancel _ | .checkContext _ | .waitWorkers _ | .shutExporter .. | .returned _ =>
    true
  | _ => false

/-- **The acknowledgements a call has received**: none before it collects, not all
while it does, and all of them if it is a flush that has returned nil. -/
structure Receipts (cfg : Config) (s : State) : Prop where
  before : ∀ c, (s.calls c).pc.collected = false → (s.calls c).got = []
  during : ∀ c err, (s.calls c).pc = .collect err → (s.calls c).got.length < cfg.workers
  settled : ∀ c, c.stop = false → (s.calls c).pc = .returned [] →
    cfg.workers ≤ (s.calls c).got.length

namespace Receipts

variable {cfg : Config} {s s' : State} {c : Caller}

theorem init : Receipts cfg (State.init cfg) where
  before := fun _ _ => rfl
  during := nofun
  settled := by
    intro c _ hpc
    cases hpc

variable (hr : Receipts cfg s)
include hr

theorem of_same (hcalls : ∀ c, (s'.calls c).pc = (s.calls c).pc ∧
    (s'.calls c).got = (s.calls c).got) : Receipts cfg s' := by
  refine ⟨fun c => ?_, fun c => ?_, fun c => ?_⟩ <;> rw [(hcalls c).1, (hcalls c).2]
  · exact hr.before c
  · exact hr.during c
  · exact hr.settled c

/-- One call has moved. -/
theorem of_call {call' : Call}
    (hcalls : s'.calls = update s.calls c call')
    (hbefore : call'.pc.collected = false → call'.got = [])
    (hduring : ∀ err, call'.pc = .collect err → call'.got.length < cfg.workers)
    (hsettled : c.stop = false → call'.pc = .returned [] → cfg.workers ≤ call'.got.length) :
    Receipts cfg s' := by
  refine ⟨fun c' => ?_, fun c' => ?_, fun c' => ?_⟩ <;> rw [hcalls] <;> by_cases hc : c' = c
  · subst hc
    rwa [update_self]
  · rw [update_of_ne hc]
    exact hr.before c'
  · subst hc
    rwa [update_self]
  · rw [update_of_ne hc]
    exact hr.during c'
  · subst hc
    rwa [update_self]
  · rw [update_of_ne hc]
    exact hr.settled c'

theorem caller (hl : Lifecycle s) (h : CallerMove cfg s c s') :
    Receipts cfg s' := by
  -- a move to a point before the broadcast collects
  have hearly : ∀ {s' : State} {call' : Call} {pc : CallPc},
      s'.calls = update s.calls c call' → (s.calls c).pc = pc → pc.collected = false →
      call'.got = (s.calls c).got → (∀ err, call'.pc ≠ .collect err) →
      (∀ err, call'.pc ≠ .returned err) → Receipts cfg s' := by
    rintro s' call' pc hcalls rfl hpc hgot hcollect hreturned
    refine hr.of_call hcalls (fun _ => hgot.trans (hr.before c hpc)) ?_ ?_
    · exact fun err h => absurd h (hcollect err)
    · exact fun _ h => absurd h (hreturned [])
  -- a move to a point of `Shutdown` after its broadcast
  have hlate : ∀ {s' : State} (call' : Call), s'.calls = update s.calls c call' →
      call'.pc.collected → (∀ err, call'.pc ≠ .collect err) →
      (c.stop = false → call'.pc = .returned [] → cfg.workers ≤ call'.got.length) →
      Receipts cfg s' := by
    intro s' call' hcalls hpc hcollect hsettled
    refine hr.of_call hcalls (fun h => ?_) (fun err h => absurd h (hcollect err)) hsettled
    rw [hpc] at h
    cases h
  have hbroadcast : ∀ (call : Call) (err : Err),
      (err = [] → cfg.workers ≤ call.got.length) →
      Receipts cfg ((s.setCall c call).broadcastReturns c err) := by
    intro call err hlen
    cases c with
    | flush n =>
      refine hlate { call with pc := .returned (errorf "flush: " err) } ?_ rfl (by simp)
        fun _ hpc => hlen (errorf_eq_nil.mp (CallPc.returned.inj hpc))
      simp [State.broadcastReturns, State.returnCall, State.emit, State.callTo, State.setCall]
    | shutdown n =>
      refine hlate { call with pc := .cancel err } ?_ rfl (by simp) (by simp)
      simp [State.broadcastReturns, State.callTo, State.setCall]
  have hself : s.setCall c (s.calls c) = s := by simp [State.setCall]
  have hcut : ∀ err, err ≠ [] → Receipts cfg (s.broadcastReturns c err) := by
    intro err hne
    have := hbroadcast (s.calls c) err fun hnil => absurd hnil hne
    rwa [hself] at this
  cases h with
  | start hpc => refine hearly rfl hpc rfl rfl ?_ ?_ <;> cases c <;> simp [Caller.entry]
  | refused hpc hclosed | cancel err hpc | skipWait err hpc hctx | wait err hpc
  | waited err hpc hexited | stopWait err hpc hctx | shutExporter e err hpc he
  | exporterShut => exact hlate _ rfl rfl (by simp) (by simp)
  | admitted hpc hclosed | enter hpc honce | lock hpc | acquire hpc hreaders | close hpc
  | unlock hpc | generation hpc => exact hearly rfl hpc rfl rfl (by simp) (by simp)
  | joined c' hpc honce hdone | finish e running err hpc =>
    refine hlate _ rfl rfl (by simp) fun hstop _ => ?_
    rw [hl.not_flush (by rw [hpc]; rfl)] at hstop
    cases hstop
  | contextDone hpc hctx => exact hcut _ (by simp)
  | clientClosed => exact hcut _ (by simp)
  | received _ _ k _ _ _ hlen =>
    refine hr.of_call rfl (by rintro ⟨⟩) (fun _ _ => ?_) (by simp)
    simpa using hlen
  | receivedLast _ _ k _ _ _ hlen =>
    exact hbroadcast _ _ fun _ => by simpa using hlen

theorem step (hl : Lifecycle s) (h : StepMove cfg s s') :
    Receipts cfg s' := by
  cases h with
  | recorder h => exact hr.of_same fun c => by rw [h.calls]; exact ⟨rfl, rfl⟩
  | worker hk h =>
    refine hr.of_same fun c => ?_
    obtain ⟨done, hcall⟩ := h.calls_same c
    rw [hcall]
    exact ⟨rfl, rfl⟩
  | caller h => exact hr.caller hl h
  | request c k _ hcall =>
    have hnone := hr.before c (by rw [hcall]; rfl)
    refine hr.of_call rfl (fun _ => hnone) (fun _ _ => ?_) fun _ hpc => ?_
    · simpa [hnone] using cfg.workers_pos
    · dsimp only at hpc
      split at hpc <;> cases hpc
  | tick k => exact hr.of_same fun _ => ⟨rfl, rfl⟩
  | contextEnds c =>
    exact hr.of_same fun c' => ⟨congr_of_update Call.pc (by rfl) (by rfl) c',
      congr_of_update Call.got (by rfl) (by rfl) c'⟩

/-- Nothing is left in the channel of a flush that has returned nil. -/
theorem done_eq_nil (hh : Handshake cfg s) (hstop : c.stop = false)
    (hpc : (s.calls c).pc = .returned []) : (s.calls c).done = [] := by
  have hlen := hr.settled c hstop hpc
  have hle := hh.acked_length_le c
  rw [Call.acked, length_append, length_map] at hle
  exact eq_nil_of_length_eq_zero (by omega)

end Receipts

theorem receipts_of_reach {cfg : Config} {s : State} (h : (pipelineSystem cfg).Reach s) :
    Receipts cfg s :=
  h.invariant .init fun _ _ _ hr hrec _ hstep =>
    hrec.step (lifecycle_of_reach hr) (.of_step hstep)

end ConvoyStats.Pipeline
