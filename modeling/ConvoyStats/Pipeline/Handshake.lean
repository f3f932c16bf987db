import ConvoyStats.Pipeline.RingUse
import ConvoyStats.Pipeline.Exports
import Mathlib.Data.List.Perm.Subperm

/-!
# The handshake of a broadcast

`broadcast` sends its request to one worker after the other and collects one
acknowledgement from each.  `Handshake` is what holds at every moment: a worker
serves a request only after it was sent to it and before it has acknowledged it,
no worker acknowledges twice, and whoever has been sent the request of a call that
still collects is serving it or has acknowledged it.
-/

namespace ConvoyStats.Pipeline

open Function List Transport

/-- The request worker `k` is serving. -/
def State.serving (s : State) (k : ℕ) : Option Caller := (s.workers k).pc.drain.caller

/-- **The handshake.** -/
structure Handshake (cfg : Config) (s : State) : Prop where
  serving : ∀ c k, s.serving k = some c → (s.calls c).pc.Sent k ∧ k ∉ (s.calls c).acked
  acked : ∀ c k, k ∈ (s.calls c).acked → (s.calls c).pc.Sent k ∧ k < cfg.workers
  nodup : ∀ c, (s.calls c).acked.Nodup
  awaited : ∀ c k, (s.calls c).pc.Awaits cfg.workers k →
    s.serving k = some c ∨ k ∈ (s.calls c).acked

variable {s s' : State} {k : ℕ}

/-- A worker's move stays with its request, or acknowledges it. -/
theorem WorkerMove.serving_or_ack (h : WorkerMove s k s') :
    (s'.calls = s.calls ∧ ∀ j, s'.serving j = s.serving j) ∨
      ∃ request err, (s.workers k).pc = .ack request err ∧
        (∀ j, s'.serving j = if j = k then none else s.serving j) ∧
        s'.calls = update s.calls request.caller { s.calls request.caller with
          done := (s.calls request.caller).done ++ [(k, err)] } := by
  -- a new point of `k` that belongs to the same request
  have hsame : ∀ (w' : Worker), w'.pc.drain.caller = (s.workers k).pc.drain.caller →
      ∀ j, (update s.workers k w' j).pc.drain.caller = s.serving j := by
    intro w' hw j
    by_cases hj : j = k
    · subst hj
      simpa [State.serving] using hw
    · simp [State.serving, hj]
  cases h with
  | keep w' _ _ _ _ hplace =>
    exact .inl ⟨rfl, hsame w' (by rw [hplace.drain])⟩
  | access => exact .inl ⟨rfl, fun _ => rfl⟩
  | took x _ w' _ _ _ _ _ _ _ _ hdrain =>
    refine .inl ⟨rfl, hsame w' ?_⟩
    rw [hdrain]
    cases (s.workers k).pc.drain <;> rfl
  | empty _ _ w' _ _ _ _ _ _ _ hdrain =>
    refine .inl ⟨rfl, hsame w' ?_⟩
    rcases hdrain with hdrain | ⟨c, n, hdrain, hdrain'⟩
    · rw [hdrain]
    · rw [hdrain, hdrain']
      rfl
  | append x w' _ _ _ _ _ _ _ _ hdrain =>
    exact .inl ⟨rfl, hsame w' (by rw [hdrain])⟩
  | count reason w' hpop hlive hgone hemptied hitems hitems' hbatch hintake hexported hlost
      hdrain =>
      refine .inl ⟨rfl, hsame w' ?_⟩
      rw [hdrain]
      cases (s.workers k).pc.drain <;> rfl
  | «export» w' _ _ _ _ _ _ _ _ _ _ hdrain =>
    exact .inl ⟨rfl, hsame w' (by rw [hdrain])⟩
  | loopEnds _ n _ w' _ hpc _ _ _ hdrain =>
    refine .inl ⟨rfl, hsame w' ?_⟩
    rw [hdrain, hpc]
    rfl
  | ack request err _ hpc hpc' =>
    refine .inr ⟨request, err, hpc, fun j => ?_, rfl⟩
    by_cases hj : j = k
    · subst hj
      simp only [State.serving, update_self, if_pos, hpc']
      split <;> rfl
    · simp only [State.serving, update_of_ne hj, if_neg hj]
  | drop w' _ hpc hpc' =>
    refine .inl ⟨rfl, hsame w' ?_⟩
    rw [hpc, hpc']
    rfl

/-- A worker's step leaves a call where it is. -/
theorem WorkerMove.calls_same (h : WorkerMove s k s') (c : Caller) :
    ∃ done, s'.calls c = { s.calls c with done := (s.calls c).done ++ done } := by
  rcases h.serving_or_ack with ⟨hcalls, -⟩ | ⟨request, err, -, -, hcalls⟩
  · exact ⟨[], by rw [hcalls, append_nil]⟩
  · rw [hcalls]
    by_cases hc : c = request.caller
    · subst hc
      exact ⟨[(k, err)], update_self ..⟩
    · exact ⟨[], by rw [update_of_ne hc, append_nil]⟩

theorem WorkerMove.calls_pc (h : WorkerMove s k s') (c : Caller) :
    (s'.calls c).pc = (s.calls c).pc := by
  obtain ⟨done, hcall⟩ := h.calls_same c
  rw [hcall]

/-- **The acknowledgements after a step**: those there were, and that of a worker at the end of
its drain. -/
theorem StepMove.acked_cases {cfg : Config} (h : StepMove cfg s s') :
    (∀ c, (s'.calls c).acked = (s.calls c).acked) ∨
      ∃ k request err, (s.workers k).pc = .ack request err ∧ ∀ c, (s'.calls c).acked =
        (s.calls c).acked ++ if c = request.caller then [k] else [] := by
  cases h with
  | recorder h => exact .inl fun c => by rw [h.calls]
  | worker _ h =>
    rcases h.serving_or_ack with ⟨hcalls, -⟩ | ⟨request, err, hpc, -, hcalls⟩
    · exact .inl fun c => by rw [hcalls]
    · refine .inr ⟨_, request, err, hpc, fun c => ?_⟩
      rcases update_cases hcalls c with ⟨rfl, hc⟩ | ⟨hne, hc⟩ <;> rw [hc]
      · simp [Call.acked]
      · simp [hne]
  | caller h => exact .inl (CallerFrame.of_move h).acked_eq
  | request | contextEnds => exact .inl (congr_of_update Call.acked rfl rfl)
  | tick => exact .inl fun _ => rfl

theorem StepMove.acked_subset {cfg : Config} (h : StepMove cfg s s') (c : Caller) :
    (s.calls c).acked ⊆ (s'.calls c).acked := by
  rcases h.acked_cases with hsame | ⟨k, request, err, -, hacked⟩
  · rw [hsame]
    exact List.Subset.refl _
  · rw [hacked]
    exact subset_append_left _ _

namespace Handshake

variable {cfg : Config} {s s' : State}

theorem init : Handshake cfg (State.init cfg) where
  serving := nofun
  acked := nofun
  nodup := fun _ => nodup_nil
  awaited := nofun

/-- Neither the calls nor what the workers serve has changed. -/
theorem of_same (hh : Handshake cfg s)
    (hcalls : ∀ c, (s'.calls c).pc = (s.calls c).pc ∧ (s'.calls c).acked = (s.calls c).acked)
    (hserving : ∀ j, s'.serving j = s.serving j) : Handshake cfg s' := by
  refine ⟨?_, ?_, ?_, ?_⟩
  · intro c k
    rw [hserving, (hcalls c).1, (hcalls c).2]
    exact hh.serving c k
  · intro c k
    rw [(hcalls c).1, (hcalls c).2]
    exact hh.acked c k
  · intro c
    rw [(hcalls c).2]
    exact hh.nodup c
  · intro c k
    rw [hserving, (hcalls c).1, (hcalls c).2]
    exact hh.awaited c k

theorem worker {k : ℕ} (hk : k < cfg.workers) (hh : Handshake cfg s) (h : WorkerMove s k s') :
    Handshake cfg s' := by
  rcases h.serving_or_ack with ⟨hcalls, hserving⟩ | ⟨request, err, hpc, hserving, hcalls⟩
  · exact hh.of_same (fun c => by rw [hcalls]; exact ⟨rfl, rfl⟩) hserving
  -- the acknowledgement: `k` was serving the request and no longer does
  have hserved : s.serving k = some request.caller := by
    rw [State.serving, hpc]
    rfl
  obtain ⟨hsent, hnew⟩ := hh.serving _ _ hserved
  have hpcs : ∀ c, (s'.calls c).pc = (s.calls c).pc := congr_of_update Call.pc hcalls rfl
  have hacked : ∀ c, (s'.calls c).acked =
      (s.calls c).acked ++ if c = request.caller then [k] else [] := by
    intro c
    rcases update_cases hcalls c with ⟨rfl, hc⟩ | ⟨hne, hc⟩ <;> rw [hc]
    · simp [Call.acked]
    · simp [hne]
  refine ⟨?_, ?_, ?_, ?_⟩
  · intro c j hj
    rw [hserving] at hj
    split at hj
    · cases hj
    · rename_i hjk
      rw [hpcs, hacked]
      refine ⟨(hh.serving c j hj).1, ?_⟩
      rw [mem_append]
      rintro (hmem | hmem)
      · exact (hh.serving c j hj).2 hmem
      · split at hmem
        · exact hjk (mem_singleton.mp hmem)
        · cases hmem
  · intro c j hj
    rw [hacked, mem_append] at hj
    rw [hpcs]
    rcases hj with hj | hj
    · exact hh.acked c j hj
    · split at hj
      · rename_i hc
        cases mem_singleton.mp hj
        exact ⟨hc ▸ hsent, hk⟩
      · cases hj
  · intro c
    rw [hacked]
    split
    · rename_i hc
      subst hc
      refine nodup_append.mpr ⟨hh.nodup _, nodup_singleton _, ?_⟩
      rintro a ha b hb rfl
      cases mem_singleton.mp hb
      exact hnew ha
    · rw [append_nil]
      exact hh.nodup c
  · intro c j hj
    rw [hpcs] at hj
    rw [hserving, hacked, mem_append]
    rcases hh.awaited c j hj with hserve | hmem
    · by_cases hjk : j = k
      · subst hjk
        rw [hserved] at hserve
        cases hserve
        exact .inr (.inr (by simp))
      · rw [if_neg hjk]
        exact .inl hserve
    · exact .inr (.inl hmem)

theorem caller {c : Caller} (hh : Handshake cfg s) (h : CallerFrame s c s') :
    Handshake cfg s' := by
  have hserving : ∀ j, s'.serving j = s.serving j := fun j => by
    rw [State.serving, State.serving, h.workers]
  have hacked := h.acked_eq
  have hsent : ∀ c' k, (s.calls c').pc.Sent k → (s'.calls c').pc.Sent k := by
    intro c' k hk
    by_cases hc : c' = c
    · subst hc
      exact h.sent k hk
    · rwa [h.others c' hc]
  refine ⟨?_, ?_, ?_, ?_⟩
  · intro c' k hk
    rw [hserving] at hk
    rw [hacked]
    exact ⟨hsent c' k (hh.serving c' k hk).1, (hh.serving c' k hk).2⟩
  · intro c' k hk
    rw [hacked] at hk
    exact ⟨hsent c' k (hh.acked c' k hk).1, (hh.acked c' k hk).2⟩
  · intro c'
    rw [hacked]
    exact hh.nodup c'
  · intro c' k hk
    rw [hserving, hacked]
    refine hh.awaited c' k ?_
    by_cases hc : c' = c
    · subst hc
      exact h.awaits _ k hk
    · rwa [h.others c' hc] at hk

/-- The hand-over of a request. -/
theorem request {c : Caller} (hk : k < cfg.workers) (hh : Handshake cfg s)
    (hcall : (s.calls c).pc = .send k) (hworker : (s.workers k).pc = .select) {req : Request}
    {err : Err} (hreq : req.caller = c) :
    Handshake cfg { s with
      workers := update s.workers k { s.workers k with pc := .drainLoop req 0 err }
      calls := update s.calls c { s.calls c with
        pc := if k + 1 < cfg.workers then .send (k + 1) else .collect [] } } := by
  set pc' : CallPc := if k + 1 < cfg.workers then .send (k + 1) else .collect [] with hpc'
  set s' : State := { s with
    workers := update s.workers k { s.workers k with pc := .drainLoop req 0 err }
    calls := update s.calls c { s.calls c with pc := pc' } } with hs'
  have hserving : ∀ j, s'.serving j = if j = k then some c else s.serving j := by
    intro j
    by_cases hj : j = k
    · subst hj
      simp [hs', State.serving, WorkerPc.drain, Drain.caller, hreq]
    · simp [hs', State.serving, hj]
  have hacked : ∀ c', (s'.calls c').acked = (s.calls c').acked := congr_of_update Call.acked rfl rfl
  have hpcs : ∀ c', (s'.calls c').pc = if c' = c then pc' else (s.calls c').pc := by
    intro c'
    by_cases hc : c' = c <;> simp [hs', hc]
  have hsent : ∀ c' j, (s.calls c').pc.Sent j → (s'.calls c').pc.Sent j := by
    intro c' j hj
    rw [hpcs]
    split
    · rename_i hc
      subst hc
      rw [hcall] at hj
      rw [hpc']
      split
      · exact Nat.lt_succ_of_lt hj
      · trivial
    · exact hj
  have hfresh : k ∉ (s.calls c).acked := by
    intro hmem
    have hlt := (hh.acked c k hmem).1
    rw [hcall] at hlt
    exact Nat.lt_irrefl k hlt
  refine ⟨?_, ?_, ?_, ?_⟩
  · intro c' j hj
    rw [hserving] at hj
    rw [hacked]
    split at hj
    · rename_i hjk
      subst hjk
      cases hj
      refine ⟨?_, hfresh⟩
      rw [hpcs, if_pos rfl, hpc']
      split
      · exact Nat.lt_succ_self _
      · trivial
    · exact ⟨hsent c' j (hh.serving c' j hj).1, (hh.serving c' j hj).2⟩
  · intro c' j hj
    rw [hacked] at hj
    exact ⟨hsent c' j (hh.acked c' j hj).1, (hh.acked c' j hj).2⟩
  · intro c'
    rw [hacked]
    exact hh.nodup c'
  · intro c' j hj
    rw [hserving, hacked]
    split
    · rename_i hjk
      subst hjk
      by_cases hc : c' = c
      · exact .inl (hc ▸ rfl)
      · -- another call cannot be waiting for a worker at its `select`
        rw [hpcs, if_neg hc] at hj
        rcases hh.awaited c' j hj with hserve | hmem
        · rw [State.serving, hworker] at hserve
          cases hserve
        · exact .inr hmem
    · rename_i hjk
      refine hh.awaited c' j ?_
      rw [hpcs] at hj
      split at hj
      · rename_i hc
        subst hc
        rw [hcall]
        rw [hpc'] at hj
        split at hj
        · exact lt_of_le_of_ne (Nat.lt_succ_iff.mp hj) hjk
        · have hlt : j < cfg.workers := hj
          change j < k
          omega
      · exact hj

variable (hh : Handshake cfg s)
include hh

/-- **Every step keeps the handshake.** -/
theorem step (h : StepMove cfg s s') : Handshake cfg s' := by
  cases h with
  | recorder h => cases h <;> exact hh.of_same (fun _ => ⟨rfl, rfl⟩) fun _ => rfl
  | worker hk h => exact hh.worker hk h
  | caller h => exact hh.caller (.of_move h)
  | request c k hk hcall hworker => exact hh.request hk hcall hworker rfl
  | tick k =>
    exact hh.of_same (fun _ => ⟨rfl, rfl⟩)
      (congr_of_update (fun w : Worker => w.pc.drain.caller) rfl rfl)
  | contextEnds c =>
    exact hh.of_same (fun c' => ⟨congr_of_update Call.pc (by rfl) (by rfl) c',
      congr_of_update Call.acked (by rfl) (by rfl) c'⟩) fun _ => rfl

/-- All workers have acknowledged a call with as many acknowledgements. -/
theorem acked_of_length {c : Caller}
    (hlen : cfg.workers ≤ (s.calls c).acked.length) (hk : k < cfg.workers) :
    k ∈ (s.calls c).acked := by
  have hsub : (s.calls c).acked ⊆ range cfg.workers :=
    fun j hj => mem_range.mpr (hh.acked c j hj).2
  have hperm := (subperm_of_subset (hh.nodup c) hsub).perm_of_length_le (by simpa using hlen)
  exact hperm.mem_iff.mpr (mem_range.mpr hk)

/-- The workers that have acknowledged are distinct. -/
theorem acked_length_le (c : Caller) :
    (s.calls c).acked.length ≤ cfg.workers := by
  have hsub : (s.calls c).acked ⊆ range cfg.workers :=
    fun k hk => mem_range.mpr (hh.acked c k hk).2
  simpa using (subperm_of_subset (hh.nodup c) hsub).length_le

end Handshake

theorem handshake_of_reach {cfg : Config} (h : (pipelineSystem cfg).Reach s) : Handshake cfg s :=
  h.invariant .init fun _ _ _ _ hh _ hstep => hh.step (.of_step hstep)

end ConvoyStats.Pipeline
