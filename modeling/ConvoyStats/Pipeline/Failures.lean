import ConvoyStats.Pipeline.Shutdown

/-!
# Failed exports and the flushes that should hear of them

A failed export reaches a `Flush` in one of two ways: the drain made for that very
`Flush` puts the error into its acknowledgement, and a worker's background failure
is kept in `inFlight` with the flush generation at which it ended.  `Told` is the
state of an error on its way to a call.

An error is missed in two other cases, `Misses`: the observation was in the drain of
another request, whose own caller is the only one told; or the background export
ended when the `Flush` had been called and had not yet taken its generation.  In the
runs without these steps a `Flush` that returns nil has delivered
(`nil_flush_delivered`); `overlappingFlushes` is a run with the first of them.
-/

namespace ConvoyStats.Pipeline

open Function List Transport

/-- The request whose drain makes an export. -/
def ExportJob.request? : ExportJob → Option Request
  | .background => none
  | .chunk request _ _ | .last request _ => some request

namespace WorkerPc

/-- The errors gathered so far in the drain for the call `c`. -/
def errFor (c : Caller) : WorkerPc → Err
  | .pop (.drain request _ err) _ _ | .append (.drain request _ err) _
  | .dropCounters (.drain request err) _ | .exporting (.chunk request _ err) _
  | .exporting (.last request err) _ | .drainLoop request _ err | .ack request err =>
    if request.caller = c then err else []
  | _ => []

end WorkerPc

/-- The errors of the acknowledgements a call has received. -/
def CallPc.gathered : CallPc → Err
  | .collect err => err
  | pc => pc.result?.getD []

/-- An error of worker `k` is on its way to the call `c`, or has arrived. -/
def Told (s : State) (c : Caller) (k : ℕ) : Prop :=
  (∃ i ≤ k, (s.calls c).pc = .send i ∧ (s.workers k).inFlight.err ≠ [] ∧
    (s.calls c).gen ≤ (s.workers k).inFlight.gen) ∨
  (s.workers k).pc.errFor c ≠ [] ∨
  (∃ err, err ≠ [] ∧ (k, err) ∈ (s.calls c).done) ∨
  (s.calls c).pc.gathered ≠ []

/-- A batch with an observation accepted before the call `c` fails unheard while the
call is in progress: in the drain of another request, or in the background before the
call has taken its generation. -/
def Misses (cfg : Config) (c : Caller) (s : State) : Label → Prop
  | .worker k _ =>
    (∃ x, .observation x ∈ (s.workers k).batch ∧
      s.log.Precedes (.recordReturned x none) (.called c)) ∧
    (∀ err, (s.calls c).pc ≠ .returned err) ∧
    match (s.workers k).pc with
    | .exporting job status => exportErr cfg.exporters status ≠ [] ∧
        ∃ request, job.request? = some request ∧ request.caller ≠ c
    | .recordFailure err => err ≠ [] ∧
        ((s.calls c).pc = .checkClosed ∨ (s.calls c).pc = .generation)
    | _ => False
  | _ => False

/-! ### What a worker's step does to the errors it keeps -/

/-- Worker `k` moves and no export of its own ends. -/
structure KeepsErrors (s : State) (k : ℕ) (w' : Worker) (s' : State) : Prop where
  workers : s'.workers = update s.workers k w'
  calls : s'.calls = s.calls
  exported : w'.exported = (s.workers k).exported
  err : ∀ c, (s.workers k).pc.errFor c ≠ [] → w'.pc.errFor c ≠ []
  inFlight : w'.inFlight = (s.workers k).inFlight ∨
    w'.inFlight.err ≠ [] ∧ w'.inFlight.gen = s.flushGen

/-- **The moves of worker `k`, seen from its errors.** -/
inductive ReportMove (cfg : Config) (s : State) (k : ℕ) (s' : State) : Prop
  | keep (w' : Worker) (h : KeepsErrors s k w' s')
  /-- A background export has ended. -/
  | background (err : Err) (w' : Worker) (hpc : (s.workers k).pc = .recordFailure err)
      (hworkers : s'.workers = update s.workers k w') (hcalls : s'.calls = s.calls)
      (hexported : w'.exported = (s.workers k).exported ++ [(s.workers k).batch])
      (hin : w'.inFlight = (s.workers k).inFlight.record err s.flushGen)
  /-- An export of a drain has ended. -/
  | drained (job : ExportJob) (status : ℕ → ExportStatus) (request : Request) (w' : Worker)
      (hpc : (s.workers k).pc = .exporting job status) (hjob : job.request? = some request)
      (hall : allReturned cfg.exporters status)
      (hworkers : s'.workers = update s.workers k w') (hcalls : s'.calls = s.calls)
      (hexported : w'.exported = (s.workers k).exported ++ [(s.workers k).batch])
      (herr : ∀ c, (s.workers k).pc.errFor c ≠ [] ∨
        request.caller = c ∧ exportErr cfg.exporters status ≠ [] → w'.pc.errFor c ≠ [])
      (hin : w'.inFlight = (s.workers k).inFlight)
  /-- The errors of a drain go to its call. -/
  | ack (request : Request) (err : Err) (w' : Worker) (hpc : (s.workers k).pc = .ack request err)
      (hworkers : s'.workers = update s.workers k w')
      (hcalls : s'.calls = update s.calls request.caller
        { s.calls request.caller with
          done := (s.calls request.caller).done ++ [(k, err)] })
      (hexported : w'.exported = (s.workers k).exported)
      (hin : w'.inFlight = (s.workers k).inFlight)

namespace ReportMove

variable {cfg : Config} {s s' : State} {k : ℕ} {ch : Choice}

/-- Control passes on with the errors and `inFlight` as they were. -/
theorem of_keep {pc : WorkerPc} (hpc : (s.workers k).pc = pc) (w' : Worker)
    (hworkers : s'.workers = update s.workers k w') (hcalls : s'.calls = s.calls)
    (hexported : w'.exported = (s.workers k).exported)
    (herr : ∀ c, pc.errFor c ≠ [] → w'.pc.errFor c ≠ [])
    (hin : w'.inFlight = (s.workers k).inFlight) : ReportMove cfg s k s' :=
  .keep w' ⟨hworkers, hcalls, hexported, by rw [hpc]; exact herr, .inl hin⟩

/-- `inFlight.record` keeps the failure it has, or notes a new one. -/
theorem record_cases (f : ExportFailure) (err : Err) (gen : ℕ) :
    f.record err gen = f ∨ (f.record err gen).err ≠ [] ∧ (f.record err gen).gen = gen := by
  unfold ExportFailure.record
  split
  · exact .inl rfl
  · exact .inr ⟨‹_›, rfl⟩

/-- **Every step of a worker is one of them.** -/
theorem of_workerStep (h : workerStep cfg s k ch = some s') : ReportMove cfg s k s' := by
  replace h := WorkerStep.of_workerStep h
  cases h with
  | access hpc =>
    exact .of_keep hpc (s.workers k) (update_eq_self k s.workers).symm rfl rfl
      (fun c => by rw [hpc]; exact id) rfl
  | pass hpc h | stops hpc _ _ h =>
    exact .of_keep hpc _ rfl rfl rfl (fun c => by cases h <;> exact id) rfl
  | took hpc _ h =>
    refine .of_keep hpc _ rfl rfl rfl (fun c => ?_) rfl
    cases h with
    | more job => cases job <;> exact id
    | _ => exact id
  | @append job _ _ hpc =>
    exact .of_keep hpc _ rfl rfl rfl (fun c => by cases job <;> exact id) rfl
  | @count job _ _ _ hpc _ _ _ h =>
    refine .of_keep hpc _ rfl rfl rfl (fun c => ?_) rfl
    cases h with
    | next => cases job <;> exact id
    | _ => exact id
  | @joinChunk status request _ _ hpc hall | @joinLast status request _ hpc hall =>
    refine .drained _ status request _ hpc rfl hall rfl rfl rfl (fun c => ?_) rfl
    rw [hpc]
    by_cases hc : request.caller = c <;> simp [Worker.reset, WorkerPc.errFor, hc]
    tauto
  | recordFailure hpc => exact .background _ _ hpc rfl rfl rfl rfl
  | idleEnds hpc =>
    exact .keep _ ⟨rfl, rfl, rfl, by rw [hpc]; exact fun c => id, record_cases _ _ _⟩
  | ack hpc => exact .ack _ _ _ hpc rfl rfl rfl rfl
  | tick hpc | join hpc | idleStarts hpc | loopEnds hpc | loopStops hpc | drop hpc | leave hpc =>
    exact .of_keep hpc _ rfl rfl rfl (fun c => id) rfl

end ReportMove

variable {cfg : Config} {s s' : State} {k : ℕ}

theorem KeepsErrors.of_startExport {e : ℕ} (h : startExport cfg s k e = some s') :
    ∃ w', KeepsErrors s k w' s' := by
  obtain ⟨job, status, hpc, -, rfl⟩ := startExport_some h
  refine ⟨_, rfl, rfl, rfl, fun c => ?_, .inl rfl⟩
  rw [hpc]
  cases job <;> exact id

theorem KeepsErrors.of_finishExport {e : ℕ} {failed : Bool}
    (h : finishExport s k e failed = some s') : ∃ w', KeepsErrors s k w' s' := by
  obtain ⟨job, status, errors, exporterErrors, hpc, -, rfl⟩ := finishExport_some h
  refine ⟨_, rfl, rfl, rfl, fun c => ?_, .inl rfl⟩
  rw [hpc]
  cases job <;> exact id

/-! ### Calls and generations -/

section
variable {cfg : Config} {s s' : State} {c : Caller}

theorem CallerMove.gen (h : CallerMove cfg s c s') :
    ((s'.calls c).gen = (s.calls c).gen ∧ s'.flushGen = s.flushGen) ∨
      ((s'.calls c).gen = s.flushGen + 1 ∧ s'.flushGen = s.flushGen + 1) := by
  cases h <;> cases c <;>
    simp [State.returnCall, State.broadcastReturns, State.emit, State.callTo, State.setCall]

theorem CallerMove.event (h : CallerMove cfg s c s') :
    ∃ ev : Option Event, s'.log = s.log ++ ev.toList ∧
      ∀ c', ev = some (.called c') → c' = c ∧ (s.calls c).pc = .notCalled := by
  have hquiet : ∀ {t : State}, t.log = s.log → ∃ ev : Option Event, t.log = s.log ++ ev.toList ∧
      ∀ c', ev = some (.called c') → c' = c ∧ (s.calls c).pc = .notCalled :=
    fun h => ⟨none, by simpa using h, nofun⟩
  cases h with
  | start hpc => exact ⟨some _, rfl, by rintro _ ⟨⟩; exact ⟨rfl, hpc⟩⟩
  | refused | joined | finish | shutExporter => exact ⟨some _, rfl, nofun⟩
  | contextDone | clientClosed | receivedLast =>
    cases c
    · exact ⟨some _, rfl, nofun⟩
    · exact hquiet rfl
  | _ => exact hquiet rfl
end

variable {c : Caller}

/-- A step after which the order of `a` and the call `c` is new starts that call. -/
theorem StepMove.precedes_called {a : Event} (h : StepMove cfg s s')
    (hprec : s'.log.Precedes a (.called c)) :
    s.log.Precedes a (.called c) ∨ (s.calls c).pc = .notCalled ∧ a ∈ s.log := by
  cases h with
  | recorder h => exact .inl (h.log.precedes rfl hprec)
  | worker hk h => exact .inl (h.log.precedes rfl hprec)
  | caller h =>
    obtain ⟨ev, hlog, hcalled⟩ := h.event
    rw [hlog] at hprec
    cases ev with
    | none => exact .inl (by simpa using hprec)
    | some e =>
      rcases precedes_append_singleton.mp hprec with hold | ⟨hmem, rfl⟩
      · exact .inl hold
      · obtain ⟨rfl, hpc⟩ := hcalled c rfl
        exact .inr ⟨hpc, hmem⟩
  | request | tick => exact .inl hprec
  | contextEnds => exact .inl (hprec.of_append (by simp))

/-- **Generations and calls.** -/
structure Generations (s : State) : Prop where
  gen_le : ∀ c, (s.calls c).gen ≤ s.flushGen
  fresh : ∀ c, (s.calls c).pc = .notCalled → .called c ∉ s.log

namespace Generations

variable {cfg : Config} {s s' : State}

theorem init : Generations (State.init cfg) := ⟨fun _ => le_rfl, fun _ _ => not_mem_nil⟩

variable (hg : Generations s)
include hg

/-- The calls are where they were. -/
theorem of_same
    (hcalls : ∀ c, (s'.calls c).gen = (s.calls c).gen ∧ (s'.calls c).pc = (s.calls c).pc)
    (hgen : s'.flushGen = s.flushGen)
    (hlog : ∀ c, .called c ∈ s'.log → .called c ∈ s.log) : Generations s' := by
  refine ⟨fun c => ?_, fun c hpc hmem => ?_⟩
  · rw [(hcalls c).1, hgen]
    exact hg.gen_le c
  · rw [(hcalls c).2] at hpc
    exact hg.fresh c hpc (hlog c hmem)

theorem worker {k : ℕ} (h : WorkerMove s k s') : Generations s' := by
  refine hg.of_same (fun c => ?_) (by cases h <;> rfl) fun c => h.log.mem rfl
  obtain ⟨done, hcall⟩ := h.calls_same c
  rw [hcall]
  exact ⟨rfl, rfl⟩

theorem caller {c : Caller} (h : CallerMove cfg s c s') :
    Generations s' := by
  have hf := CallerFrame.of_move h
  refine ⟨fun c' => ?_, fun c' hpc hmem => ?_⟩
  · have := hg.gen_le c'
    by_cases hc : c' = c
    · subst hc
      rcases h.gen with ⟨hgen, hflush⟩ | ⟨hgen, hflush⟩ <;> omega
    · rw [hf.others c' hc]
      rcases h.gen with ⟨-, hflush⟩ | ⟨-, hflush⟩ <;> omega
  · have hc : c' ≠ c := fun hc => h.called (hc ▸ hpc)
    rw [hf.others c' hc] at hpc
    obtain ⟨ev, hlog, hcalled⟩ := h.event
    rw [hlog] at hmem
    rcases mem_append.mp hmem with hold | hnew
    · exact hg.fresh c' hpc hold
    · exact hc (hcalled c' (by simpa using hnew)).1

theorem step (h : StepMove cfg s s') : Generations s' := by
  cases h with
  | recorder h =>
    have hlog : ∀ c, .called c ∈ s'.log → .called c ∈ s.log := fun c => h.log.mem rfl
    cases h <;> exact hg.of_same (fun _ => ⟨rfl, rfl⟩) rfl hlog
  | worker hk h => exact hg.worker h
  | caller h => exact hg.caller h
  | request c =>
    refine ⟨fun c' => (congr_of_update Call.gen (by rfl) (by rfl) c').trans_le (hg.gen_le c'),
      fun c' hpc => ?_⟩
    by_cases hc : c' = c
    · subst hc
      simp only [update_self] at hpc
      split at hpc <;> cases hpc
    · exact hg.fresh c' (by simpa [hc] using hpc)
  | tick k => exact hg.of_same (fun _ => ⟨rfl, rfl⟩) rfl fun _ => id
  | contextEnds c =>
    exact hg.of_same (fun c' => ⟨congr_of_update Call.gen (by rfl) (by rfl) c',
      congr_of_update Call.pc (by rfl) (by rfl) c'⟩) rfl fun c' hmem => by simpa using hmem

end Generations

theorem generations_of_reach (h : (pipelineSystem cfg).Reach s) : Generations s :=
  h.invariant .init fun _ _ _ _ hg _ hstep => hg.step (.of_step hstep)

/-! ### The errors a call hears of -/

/-- The export of the batch had ended when the call started. -/
def EndedBefore (cfg : Config) (log : List Event) (c : Caller) (k : ℕ) (batch : List Entry) :
    Prop :=
  ∀ e < cfg.exporters, ∃ failed, log.Precedes (.exportReturned k e batch failed) (.called c)

/-- **Every failure is accounted for**: a batch with an observation accepted before
the call has been exported without an error, or before the call, or its error is on
the way to the call. -/
def Accounted (cfg : Config) (c : Caller) (s : State) : Prop :=
  ∀ k < cfg.workers, ∀ batch ∈ (s.workers k).exported, ∀ x, .observation x ∈ batch →
    s.log.Precedes (.recordReturned x none) (.called c) →
    Shipped cfg s.log k batch [] ∨ EndedBefore cfg s.log c k batch ∨ Told s c k

section

variable {cfg : Config} {s s' : State} {c : Caller} {k : ℕ}

/-- An error stays on its way as long as the worker and the call keep it. -/
theorem Told.of_worker (h : Told s c k) (hpc : (s'.calls c).pc = (s.calls c).pc)
    (hgen : (s'.calls c).gen = (s.calls c).gen) (hdone : (s.calls c).done ⊆ (s'.calls c).done)
    (herr : (s.workers k).pc.errFor c ≠ [] → (s'.workers k).pc.errFor c ≠ [] ∨
      ∃ err, err ≠ [] ∧ (k, err) ∈ (s'.calls c).done)
    (hin : (s'.workers k).inFlight = (s.workers k).inFlight ∨
      (s'.workers k).inFlight.err ≠ [] ∧ (s.calls c).gen ≤ (s'.workers k).inFlight.gen) :
    Told s' c k := by
  rw [Told, hpc, hgen]
  rcases h with ⟨i, hi, hsend, hne, hle⟩ | h | ⟨err, hne, hmem⟩ | h
  · left
    refine ⟨i, hi, hsend, ?_⟩
    rcases hin with hin | hin
    · rw [hin]
      exact ⟨hne, hle⟩
    · exact hin
  · rcases herr h with h | h
    · exact .inr (.inl h)
    · exact .inr (.inr (.inl h))
  · exact .inr (.inr (.inl ⟨err, hne, hdone hmem⟩))
  · exact .inr (.inr (.inr h))

/-- An error stays on its way when the call moves on from a point other than its
sends. -/
theorem Told.of_call (h : Told s c k) (hworkers : s'.workers = s.workers)
    (hsend : ∀ i, (s.calls c).pc ≠ .send i)
    (hdone : ∀ err, err ≠ [] → (k, err) ∈ (s.calls c).done →
      (k, err) ∈ (s'.calls c).done ∨ (s'.calls c).pc.gathered ≠ [])
    (hgathered : (s.calls c).pc.gathered ≠ [] → (s'.calls c).pc.gathered ≠ []) :
    Told s' c k := by
  rw [Told, hworkers]
  rcases h with ⟨i, -, hpc, -⟩ | h | ⟨err, hne, hmem⟩ | h
  · exact absurd hpc (hsend i)
  · exact .inr (.inl h)
  · rcases hdone err hne hmem with hmem | h
    · exact .inr (.inr (.inl ⟨err, hne, hmem⟩))
    · exact .inr (.inr (.inr h))
  · exact .inr (.inr (.inr (hgathered h)))

/-- A worker that has acknowledged a call has nothing left from before it. -/
theorem not_before_of_acked (hreach : (pipelineSystem cfg).Reach s)
    (hlive : .contextEnded c ∉ s.log) (hack : k ∈ (s.calls c).acked) {x : ℕ}
    (hx : .observation x ∈ (s.workers k).batch) :
    ¬ s.log.Precedes (.recordReturned x none) (.called c) := by
  intro hbefore
  have hu := ringUse_of_reach hreach
  have hlg := logged_of_reach hreach
  have hw := accounts_of_reach hreach
  obtain ⟨p, hp, hpub⟩ := hlg.before c x hbefore
  have hobs := ((barrier_of_reach hreach).acked c k hack).observations.resolve_left
    fun hstop => hlive (hlg.stopped c k hstop)
  have hundelivered : .observation x ∈ (s.workers k).undelivered := by
    simp [Worker.undelivered, hx]
  have hintake : .observation x ∈ (s.workers k).intake := by
    rw [(hw k).intake]
    exact mem_append_right _ hundelivered
  -- the worker has claimed the position of `x`, and has exported what it found there
  obtain ⟨n, q, hclaim, hpub'⟩ := hu.claimed_of_intake hintake
  obtain rfl := hu.position_unique hpub hpub'
  obtain ⟨y, hobt, hexported⟩ := hobs.2 n p hclaim hp
  obtain rfl := hu.ring.sound.item_unique hpub (hu.ring.sound.published_of_obtained hobt)
  have hnodup := hu.intake_nodup k
  rw [(hw k).intake, observations_append] at hnodup
  exact disjoint_of_nodup_append hnodup (mem_observations.mpr hexported)
    (mem_observations.mpr hundelivered)

namespace Accounted

theorem init : Accounted cfg c (State.init cfg) := nofun

/-- A step that starts no call: old errors stay on their way, and new batches are
accounted for. -/
theorem of_step (ha : Accounted cfg c s) (hlog : s.log <+: s'.log)
    (hprec : ∀ x, s'.log.Precedes (.recordReturned x none) (.called c) →
      s.log.Precedes (.recordReturned x none) (.called c))
    (hexported : ∀ k < cfg.workers, ∀ batch ∈ (s'.workers k).exported,
      batch ∈ (s.workers k).exported ∨ ∀ x, .observation x ∈ batch →
        s.log.Precedes (.recordReturned x none) (.called c) →
        Shipped cfg s'.log k batch [] ∨ Told s' c k)
    (htold : ∀ k < cfg.workers, Told s c k → Told s' c k) : Accounted cfg c s' := by
  intro k hk batch hbatch x hx hbefore
  have hbefore := hprec x hbefore
  rcases hexported k hk batch hbatch with hold | hnew
  · rcases ha k hk batch hold x hx hbefore with h | h | h
    · exact .inl (h.mono hlog.subset)
    · right
      left
      intro e he
      obtain ⟨failed, hprec⟩ := h e he
      exact ⟨failed, hprec.mono hlog⟩
    · exact .inr (.inr (htold k hk h))
  · rcases hnew x hx hbefore with h | h
    · exact .inl h
    · exact .inr (.inr h)

/-- When a call starts, every batch exported so far is behind it. -/
theorem of_start (he : Exports cfg s) (hworkers : s'.workers = s.workers)
    (hlog : s'.log = s.log ++ [.called c]) : Accounted cfg c s' := by
  intro k hk batch hbatch x hx _
  right
  left
  intro e hlt
  rw [hworkers] at hbatch
  obtain ⟨err, hship⟩ := he.exported k batch hbatch
  obtain ⟨failed, hmem, -⟩ := hship e hlt
  rw [hlog]
  exact ⟨failed, precedes_append_singleton.mpr (.inr ⟨hmem, rfl⟩)⟩

variable {err : Err}

/-- A failed batch with an observation accepted before a call that has returned was
reported to it. -/
theorem told_of_returned (hcon : Concluded cfg s) (hstop : c.stop = false)
    (hpc : (s.calls c).pc = .returned err) (hk : k < cfg.workers) (hack : k ∉ (s.calls c).acked) :
    (s.calls c).pc.gathered ≠ [] := by
  rcases hcon c err (by rw [hpc]; rfl) (.inl hstop) with hall | ⟨hne, -⟩
  · exact absurd (hall k hk) hack
  · rw [hpc]
    exact hne

/-- What the runs under consideration leave out, seen from the worker that moves. -/
structure Heard (cfg : Config) (c : Caller) (s : State) (k : ℕ) : Prop where
  drained : ∀ job status request, (s.workers k).pc = .exporting job status →
    job.request? = some request → exportErr cfg.exporters status ≠ [] → request.caller = c
  background : ∀ err, (s.workers k).pc = .recordFailure err → err ≠ [] →
    (s.calls c).pc ≠ .checkClosed ∧ (s.calls c).pc ≠ .generation

/-- **How a call hears of a background failure**: where it is decides. -/
theorem told_of_background (hreach : (pipelineSystem cfg).Reach s) (hstop : c.stop = false)
    (hlive : .contextEnded c ∉ s.log) (hk : k < cfg.workers) {x : ℕ}
    (hpc : (s.workers k).pc = .recordFailure err) (hne : err ≠ [])
    (hx : .observation x ∈ (s.workers k).batch)
    (hbefore : s.log.Precedes (.recordReturned x none) (.called c))
    (hheard : (∀ err, (s.calls c).pc ≠ .returned err) → Heard cfg c s k)
    (hcalls : s'.calls = s.calls) (hfailure : (s'.workers k).inFlight = ⟨err, s.flushGen⟩) :
    Told s' c k := by
  have hheld : k ∉ (s.calls c).acked := fun hack =>
    not_before_of_acked hreach hlive hack hx hbefore
  -- the worker has not got the request of the call, so the call does not wait for it
  have hawaits : ¬ (s.calls c).pc.Awaits cfg.workers k := by
    intro hawaits
    rcases (handshake_of_reach hreach).awaited c k hawaits with hserving | hack
    · rw [State.serving, hpc] at hserving
      cases hserving
    · exact hheld hack
  have hflush := (lifecycle_of_reach hreach).flush c hstop
  rw [Told, hcalls, hfailure]
  cases hcpc : (s.calls c).pc with
  | notCalled => exact absurd hbefore.right_mem ((generations_of_reach hreach).fresh c hcpc)
  | checkClosed =>
    exact absurd hcpc ((hheard (by rw [hcpc]; simp)).background err hpc hne).1
  | generation =>
    exact absurd hcpc ((hheard (by rw [hcpc]; simp)).background err hpc hne).2
  | send i =>
    rw [hcpc] at hawaits
    exact .inl ⟨i, Nat.not_lt.mp hawaits, rfl, hne, (generations_of_reach hreach).gen_le c⟩
  | collect err' =>
    rw [hcpc] at hawaits
    exact absurd hk hawaits
  | returned err' =>
    have := told_of_returned (concluded_of_reach hreach) hstop hcpc hk hheld
    rw [hcpc] at this
    exact .inr (.inr (.inr this))
  | _ =>
    rw [hcpc] at hflush
    cases hflush

/-- A worker moves: the batches it has exported since are accounted for, and it keeps the
errors that are on their way. -/
theorem of_worker {w' : Worker} {new : List (List Entry)} (ha : Accounted cfg c s)
    (hlog : s.log <+: s'.log)
    (hprec : ∀ x, s'.log.Precedes (.recordReturned x none) (.called c) →
      s.log.Precedes (.recordReturned x none) (.called c))
    (hworkers : s'.workers = update s.workers k w')
    (hpc : (s'.calls c).pc = (s.calls c).pc) (hgen : (s'.calls c).gen = (s.calls c).gen)
    (hdone : (s.calls c).done ⊆ (s'.calls c).done)
    (hexported : w'.exported = (s.workers k).exported ++ new)
    (hnew : ∀ batch ∈ new, ∀ x, .observation x ∈ batch →
      s.log.Precedes (.recordReturned x none) (.called c) →
      Shipped cfg s'.log k batch [] ∨ Told s' c k)
    (herr : (s.workers k).pc.errFor c ≠ [] → w'.pc.errFor c ≠ [] ∨
      ∃ err, err ≠ [] ∧ (k, err) ∈ (s'.calls c).done)
    (hin : w'.inFlight = (s.workers k).inFlight ∨
      w'.inFlight.err ≠ [] ∧ (s.calls c).gen ≤ w'.inFlight.gen) : Accounted cfg c s' := by
  refine ha.of_step hlog hprec (fun j _ b hb => ?_) fun j _ htold => ?_
  · rcases update_cases hworkers j with ⟨rfl, hj⟩ | ⟨-, hj⟩ <;> rw [hj] at hb
    · rw [hexported] at hb
      exact (mem_append.mp hb).imp_right (hnew b)
    · exact .inl hb
  · refine htold.of_worker hpc hgen hdone ?_ ?_ <;>
      rcases update_cases hworkers j with ⟨rfl, hj⟩ | ⟨-, hj⟩ <;> rw [hj]
    · exact herr
    · exact .inl
    · exact hin
    · exact .inl rfl

/-- No export has ended. -/
theorem keep {w' : Worker} (ha : Accounted cfg c s) (hgen : Generations s)
    (h : KeepsErrors s k w' s') (hlog : s.log <+: s'.log)
    (hprec : ∀ x, s'.log.Precedes (.recordReturned x none) (.called c) →
      s.log.Precedes (.recordReturned x none) (.called c)) : Accounted cfg c s' :=
  ha.of_worker hlog hprec h.workers (by rw [h.calls]) (by rw [h.calls])
    (by rw [h.calls]; exact List.Subset.refl _) (h.exported.trans (append_nil _).symm) nofun
    (fun herr => .inl (h.err c herr))
    (h.inFlight.imp_right fun h => ⟨h.1, (hgen.gen_le c).trans_eq h.2.symm⟩)

theorem worker (ha : Accounted cfg c s) (hreach : (pipelineSystem cfg).Reach s)
    (hstop : c.stop = false) (hlive : .contextEnded c ∉ s.log) (hk : k < cfg.workers)
    (hmove : ReportMove cfg s k s') (hlog : s.log <+: s'.log)
    (hprec : ∀ x, s'.log.Precedes (.recordReturned x none) (.called c) →
      s.log.Precedes (.recordReturned x none) (.called c))
    (hheard : ∀ x, .observation x ∈ (s.workers k).batch →
      s.log.Precedes (.recordReturned x none) (.called c) →
      (∀ err, (s.calls c).pc ≠ .returned err) → Heard cfg c s k) : Accounted cfg c s' := by
  have hgen := generations_of_reach hreach
  have he := exports_of_reach hreach
  have hself : ∀ {w' : Worker}, s'.workers = update s.workers k w' →
      s'.workers k = w' := fun h => by rw [h, update_self]
  cases hmove with
  | keep w' h => exact ha.keep hgen h hlog hprec
  | ack request err _ hpc hworkers hcalls hexported hin =>
    refine ha.of_worker hlog hprec hworkers (congr_of_update Call.pc hcalls rfl c)
      (congr_of_update Call.gen hcalls rfl c) ?_ (hexported.trans (append_nil _).symm) nofun
      (fun herr => ?_) (.inl hin)
    · rcases update_cases hcalls c with ⟨rfl, hc⟩ | ⟨-, hc⟩ <;> rw [hc]
      · exact subset_append_left _ _
      · exact List.Subset.refl _
    · rw [hpc, WorkerPc.errFor] at herr
      split at herr
      · rename_i hc
        subst hc
        exact .inr ⟨err, herr, by rw [hcalls]; simp⟩
      · exact absurd rfl herr
  | background err _ hpc hworkers hcalls hexported hin =>
    refine ha.of_worker hlog hprec hworkers (by rw [hcalls]) (by rw [hcalls])
      (by rw [hcalls]; exact List.Subset.refl _) hexported ?_ ?_ ?_
    · intro batch hbatch x hx hbefore
      cases mem_singleton.mp hbatch
      by_cases hnil : err = []
      · left
        have := he.recorded k err hpc
        rw [hnil] at this
        exact this.mono hlog.subset
      · right
        refine told_of_background hreach hstop hlive hk hpc hnil hx hbefore (hheard x hx hbefore)
          hcalls ?_
        rw [hself hworkers, hin, ExportFailure.record, if_neg hnil]
    · rw [hpc]
      exact fun h => absurd rfl h
    · rw [hin]
      exact (ReportMove.record_cases _ _ _).imp_right fun h =>
        ⟨h.1, (hgen.gen_le c).trans_eq h.2.symm⟩
  | drained job status request _ hpc hjob hall hworkers hcalls hexported herr hin =>
    refine ha.of_worker hlog hprec hworkers (by rw [hcalls]) (by rw [hcalls])
      (by rw [hcalls]; exact List.Subset.refl _) hexported ?_
      (fun h => .inl (herr c (.inl h))) (.inl hin)
    intro batch hbatch x hx hbefore
    cases mem_singleton.mp hbatch
    by_cases hnil : exportErr cfg.exporters status = []
    · left
      have := shipped_of_allReturned he hpc hall
      rw [hnil] at this
      exact this.mono hlog.subset
    · right
      by_cases hret : ∃ err, (s.calls c).pc = .returned err
      · -- the call has returned without the acknowledgement of `k`, so with an error
        obtain ⟨err, hret⟩ := hret
        have hacked : k ∉ (s.calls c).acked := fun hack =>
          not_before_of_acked hreach hlive hack hx hbefore
        rw [Told, hcalls]
        exact .inr (.inr (.inr (told_of_returned (concluded_of_reach hreach) hstop hret hk hacked)))
      · have hcaller := (hheard x hx hbefore (not_exists.mp hret)).drained job status request
          hpc hjob hnil
        exact .inr (.inl (by rw [hself hworkers]; exact herr c (.inr ⟨hcaller, hnil⟩)))

/-- A flush returns nil exactly if its broadcast does. -/
theorem gathered_broadcastReturns (hstop : c.stop = false) :
    ((s.broadcastReturns c err).calls c).pc.gathered ≠ [] ↔ err ≠ [] := by
  cases c with
  | flush n =>
    simp [State.broadcastReturns, State.returnCall, State.emit, State.callTo, State.setCall,
      CallPc.gathered, CallPc.result?]
  | shutdown n => cases hstop

/-- The call moves. -/
theorem caller_self (ha : Accounted cfg c s) (hreach : (pipelineSystem cfg).Reach s)
    (hstop : c.stop = false) (h : CallerMove cfg s c s') : Accounted cfg c s' := by
  have hf := CallerFrame.of_move h
  have hflush := (lifecycle_of_reach hreach).flush c hstop
  have hlog : s.log <+: s'.log := by
    obtain ⟨events, hlog, -⟩ := hf.log
    exact hlog ▸ prefix_append _ _
  -- once the call has started it has nothing new before it
  have hold : (s.calls c).pc ≠ .notCalled → (∀ k, Told s c k → Told s' c k) →
      Accounted cfg c s' := by
    intro hpc htold
    refine ha.of_step hlog (fun x hprec => ?_) (fun k _ b hb => .inl ?_) fun k _ => htold k
    · exact ((StepMove.caller h).precedes_called hprec).resolve_right fun hnew => hpc hnew.1
    · rwa [hf.workers] at hb
  have hself : ∀ call' : Call, update s.calls c call' c = call' :=
    fun _ => update_self ..
  cases h with
  | start hpc => exact of_start (exports_of_reach hreach) hf.workers rfl
  | refused hpc hclosed =>
    refine hold (by rw [hpc]; simp) fun k _ => .inr (.inr (.inr ?_))
    simp [State.returnCall, State.emit, State.callTo, State.setCall, CallPc.gathered,
      CallPc.result?]
  | admitted hpc hclosed =>
    refine hold (by rw [hpc]; simp) fun k htold => htold.of_call rfl (by rw [hpc]; simp) ?_ ?_
    · exact fun err _ hmem => .inl (by simpa [State.callTo, State.setCall] using hmem)
    · rw [hpc]
      exact fun h => absurd rfl h
  | generation hpc =>
    refine hold (by rw [hpc]; simp) fun k htold => htold.of_call rfl (by rw [hpc]; simp) ?_ ?_
    · exact fun err _ hmem => .inl (by simpa [State.setCall] using hmem)
    · rw [hpc]
      exact fun h => absurd rfl h
  | contextDone hpc hctx =>
    refine hold ?_ fun k _ => .inr (.inr (.inr ((gathered_broadcastReturns hstop).mpr (by simp))))
    rcases hpc with ⟨i, hpc⟩ | ⟨err, hpc⟩ <;> rw [hpc] <;> simp
  | clientClosed i hpc hcancelled =>
    exact hold (by rw [hpc]; simp) fun k _ =>
      .inr (.inr (.inr ((gathered_broadcastReturns hstop).mpr (by simp))))
  | received _ _ _ _ hpc hdone =>
    refine hold (by rw [hpc]; simp) fun k htold => htold.of_call rfl (by rw [hpc]; simp) ?_ ?_
    · intro e hne hmem
      simp only [State.setCall, hself]
      rw [hdone] at hmem
      rcases mem_cons.mp hmem with heq | hmem
      · cases heq
        exact .inr (by simp [CallPc.gathered, hne])
      · exact .inl hmem
    · rw [hpc]
      intro h
      simp only [State.setCall, hself]
      exact fun hnil => h (append_eq_nil_iff.mp hnil).1
  | receivedLast _ _ _ _ hpc hdone =>
    refine hold (by rw [hpc]; simp) fun k htold => htold.of_call hf.workers (by rw [hpc]; simp)
      ?_ ?_
    · intro e hne hmem
      rw [hdone] at hmem
      rcases mem_cons.mp hmem with heq | hmem
      · cases heq
        exact .inr ((gathered_broadcastReturns hstop).mpr (by simp [hne]))
      · left
        cases c with
        | flush n =>
          simpa [State.broadcastReturns, State.returnCall, State.emit, State.callTo,
            State.setCall] using hmem
        | shutdown n => cases hstop
    · rw [hpc]
      intro h
      exact (gathered_broadcastReturns hstop).mpr fun hnil => h (append_eq_nil_iff.mp hnil).1
  | enter hpc | joined _ hpc | lock hpc | acquire hpc | close hpc | unlock hpc | cancel _ hpc
  | skipWait _ hpc | wait _ hpc | waited _ hpc | stopWait _ hpc | shutExporter _ _ hpc
  | exporterShut _ _ _ hpc | finish _ _ _ hpc =>
    rw [hpc] at hflush
    cases hflush

/-- A call hands its request to worker `j`, with the worker's failure if it is
recent enough. -/
theorem told_of_request {c' : Caller} {j : ℕ} (hk : k < cfg.workers) (h : Told s c k)
    (hcall : (s.calls c').pc = .send j) (hworker : (s.workers j).pc = .select)
    (hworkers : s'.workers = update s.workers j { s.workers j with
      pc := .drainLoop ⟨c', (s.calls c').gen⟩ 0 ((s.workers j).inFlight.since (s.calls c').gen) })
    (hcalls : s'.calls = update s.calls c' { s.calls c' with
      pc := if j + 1 < cfg.workers then .send (j + 1) else .collect [] }) : Told s' c k := by
  -- the worker at its `select` gathers errors for nobody
  have herr : (s.workers k).pc.errFor c ≠ [] → (s'.workers k).pc.errFor c ≠ [] := by
    intro hne
    have hkj : k ≠ j := by
      rintro rfl
      rw [hworker] at hne
      exact hne rfl
    rwa [hworkers, update_of_ne hkj]
  have hin : (s'.workers k).inFlight = (s.workers k).inFlight := by
    rw [hworkers]
    by_cases hkj : k = j
    · subst hkj
      rw [update_self]
    · rw [update_of_ne hkj]
  by_cases hc : c = c'
  · subst hc
    rcases h with ⟨i, hi, hpc, hne, hgen⟩ | h | ⟨err, hne, hmem⟩ | h
    · cases hcall.symm.trans hpc
      by_cases hkj : k = j
      · -- the failure goes into the drain
        subst hkj
        refine .inr (.inl ?_)
        rw [hworkers, update_self, WorkerPc.errFor, if_pos rfl, ExportFailure.since,
          if_neg (by simp only [not_or, Nat.not_lt]; exact ⟨hne, hgen⟩)]
        exact fun hnil => hne (errorf_eq_nil.mp hnil)
      · refine .inl ⟨j + 1, by omega, ?_, ?_⟩
        · rw [hcalls, update_self, if_pos (by omega)]
        · rw [hin, hcalls, update_self]
          exact ⟨hne, hgen⟩
    · exact .inr (.inl (herr h))
    · refine .inr (.inr (.inl ⟨err, hne, ?_⟩))
      rw [hcalls, update_self]
      exact hmem
    · rw [hcall] at h
      exact absurd rfl h
  · have hsame : s'.calls c = s.calls c := by rw [hcalls, update_of_ne hc]
    exact h.of_worker (by rw [hsame]) (by rw [hsame]) (by rw [hsame]; exact List.Subset.refl _)
      (fun h => .inl (herr h)) (.inl hin)

/-- **Every step but `Misses` keeps the failures accounted for.** -/
theorem step {l : Label} (ha : Accounted cfg c s) (hreach : (pipelineSystem cfg).Reach s)
    (hstop : c.stop = false) (hlive : .contextEnded c ∉ s'.log) (hkeep : ¬ Misses cfg c s l)
    (h : step cfg s l = some s') : Accounted cfg c s' := by
  have hmove := StepMove.of_step h
  have hgen := generations_of_reach hreach
  have hlog := (Grows.of_step (ringUse_of_reach hreach) hmove).log
  have hlive' : .contextEnded c ∉ s.log := fun h => hlive (hlog.subset h)
  -- a step that leaves the call where it is puts nothing new before it
  have hprec : (s'.calls c).pc = (s.calls c).pc → ∀ x,
      s'.log.Precedes (.recordReturned x none) (.called c) →
      s.log.Precedes (.recordReturned x none) (.called c) := by
    intro hpc x hprec
    refine (hmove.precedes_called hprec).resolve_right fun hnew => ?_
    exact (hgen.step hmove).fresh c (hpc.trans hnew.1) hprec.right_mem
  have hframe : s'.workers = s.workers → s'.calls c = s.calls c → Accounted cfg c s' := by
    intro hworkers hcall
    refine ha.of_step hlog (hprec (by rw [hcall])) (fun k _ b hb => .inl ?_) fun k _ htold => ?_
    · rwa [hworkers] at hb
    · rw [Told, hcall, hworkers]
      exact htold
  cases LabelMove.of_step h with
  | record h | recorder h => cases h <;> exact hframe rfl rfl
  | worker hk h hstep =>
    refine ha.worker hreach hstop hlive' hk (.of_workerStep hstep) hlog (hprec (h.calls_pc c))
      fun x hx hbefore hrunning => ?_
    refine ⟨fun job status request hpc hjob hne => ?_, fun err hpc hne => ?_⟩
    · by_contra hcaller
      refine hkeep ⟨⟨x, hx, hbefore⟩, hrunning, ?_⟩
      rw [hpc]
      exact ⟨hne, request, hjob, hcaller⟩
    · refine ⟨fun hcpc => hkeep ⟨⟨x, hx, hbefore⟩, hrunning, ?_⟩,
        fun hcpc => hkeep ⟨⟨x, hx, hbefore⟩, hrunning, ?_⟩⟩ <;> rw [hpc]
      · exact ⟨hne, .inl hcpc⟩
      · exact ⟨hne, .inr hcpc⟩
  | startExport _ _ hstep =>
    obtain ⟨w', hkeeps⟩ := KeepsErrors.of_startExport hstep
    exact ha.keep hgen hkeeps hlog (hprec (by rw [hkeeps.calls]))
  | finishExport _ _ hstep =>
    obtain ⟨w', hkeeps⟩ := KeepsErrors.of_finishExport hstep
    exact ha.keep hgen hkeeps hlog (hprec (by rw [hkeeps.calls]))
  | tick k =>
    exact ha.keep (k := k) hgen ⟨rfl, rfl, rfl, fun _ => id, .inl rfl⟩ hlog (hprec rfl)
  | @call c' _ h | @caller c' _ _ h =>
    by_cases hc : c = c'
    · subst hc
      exact ha.caller_self hreach hstop h
    · exact hframe (CallerFrame.of_move h).workers ((CallerFrame.of_move h).others c hc)
  | request c' k hk hcall hworker =>
    refine ha.of_step hlog (fun x hprec => hprec) (fun j _ b hb => .inl ?_)
      fun j hj htold => told_of_request hj htold hcall hworker rfl rfl
    by_cases hjk : j = k
    · subst hjk
      simpa using hb
    · simpa [hjk] using hb
  | contextEnds c' =>
    have hc : c ≠ c' := by
      rintro rfl
      exact hlive (by simp)
    exact hframe rfl (by simp [hc])

end Accounted

end

/-! ### A nil result -/

/-- Errors are gathered for the request being served. -/
theorem serving_of_errFor (h : (s.workers k).pc.errFor c ≠ []) : s.serving k = some c := by
  rw [State.serving]
  revert h
  generalize (s.workers k).pc = pc
  intro h
  unfold WorkerPc.errFor at h
  split at h <;> first
    | exact absurd rfl h
    | (split at h
       · rename_i hc
         subst hc
         first | rfl | (rename DropReason => reason; cases reason <;> rfl)
       · exact absurd rfl h)

/-- **A nil Flush has delivered**, in the runs in which no export fails unheard: every
observation accepted before the call, not evicted, whose export had not ended when the
call started, is in a batch every exporter's `Export` returned nil for. -/
theorem nil_flush_delivered {cfg : Config} {s : State} {log : List Event} {n x : ℕ}
    (hreach : (pipelineSystem cfg).Reachable (fun s l => ¬ Misses cfg (.flush n) s l) s)
    (hreturned : s.log = log ++ [.callReturned (.flush n) []])
    (hctx : .contextEnded (.flush n) ∉ log)
    (hbefore : log.Precedes (.recordReturned x none) (.called (.flush n)))
    (hevicted : ¬ Evicted s x)
    (hended : ∀ k batch, .observation x ∈ batch → ¬ EndedBefore cfg log (.flush n) k batch) :
    ∃ k batch, .observation x ∈ batch ∧
      ∀ e < cfg.exporters, .exportReturned k e batch false ∈ log := by
  have hr := hreach.reach
  have hh := handshake_of_reach hr
  have hlg := logged_of_reach hr
  have hctx' : .contextEnded (.flush n) ∉ s.log := by
    rw [hreturned]
    simpa using hctx
  have hpc := hlg.returned (.flush n) [] (by rw [hreturned]; simp)
  have hall : AllAcked cfg s (.flush n) :=
    (concluded_of_reach hr (.flush n) [] (by rw [hpc]; rfl) (.inl rfl)).resolve_right
      fun h => h.1 rfl
  have hacc : Accounted cfg (.flush n) s := by
    refine hreach.invariant
      (I := fun s => .contextEnded (.flush n) ∉ s.log → Accounted cfg (.flush n) s)
      (fun _ => .init) (fun t l t' ht hacc hkeep hstep hlive => ?_) hctx'
    have hlog := (Grows.of_step (ringUse_of_reach ht.reach) (.of_step hstep)).log
    exact (hacc fun h => hlive (hlog.subset h)).step ht.reach rfl hlive hkeep hstep
  -- the observation is in a batch some worker has exported
  have hprec := hbefore.mono (hreturned ▸ prefix_append _ _ : log <+: s.log)
  obtain ⟨p, hp, hpub⟩ := hlg.before _ x hprec
  obtain ⟨k, hk, hmem⟩ := (exported_of_allAcked (ringUse_of_reach hr) (barrier_of_reach hr) hall
    (fun k hk => hctx' (hlg.stopped _ k hk)) hp hpub).resolve_left hevicted
  obtain ⟨batch, hbatch, hx⟩ := mem_flatten.mp hmem
  refine ⟨k, batch, hx, ?_⟩
  rcases hacc k hk batch hbatch x hx hprec with hship | hbefore | htold
  · intro e he
    obtain ⟨failed, hret, hnil⟩ := hship e he
    rw [hnil rfl, hreturned] at hret
    simpa using hret
  · refine absurd (fun e he => ?_) (hended k batch hx)
    obtain ⟨failed, hprec⟩ := hbefore e he
    rw [hreturned] at hprec
    exact ⟨failed, hprec.of_append (by simp)⟩
  · -- an error on its way would have arrived
    rcases htold with ⟨i, -, hsend, -⟩ | herr | ⟨err, -, hdone⟩ | hgathered
    · rw [hpc] at hsend
      cases hsend
    · exact absurd (hall k hk) (hh.serving _ k (serving_of_errFor herr)).2
    · rw [(receipts_of_reach hr).done_eq_nil hh rfl hpc] at hdone
      cases hdone
    · rw [hpc] at hgathered
      exact absurd rfl hgathered

/-- An observation is in the drain of one `Flush` when another is called; then its
export returns. -/
def overlappingFlushes (failed : Bool) : List Label :=
  .record 0 1 :: replicate 16 (.recorder 0 {}) ++
    [.call (.flush 0), .caller (.flush 0) {}, .caller (.flush 0) {}, .request (.flush 0) 0] ++
    replicate 24 (.worker 0 {}) ++
    [.startExport 0 0, .call (.flush 1), .finishExport 0 0 failed, .worker 0 {}, .worker 0 {},
      .caller (.flush 1) {}, .caller (.flush 1) {}, .request (.flush 1) 0] ++
    replicate 8 (.worker 0 {}) ++ [.caller (.flush 1) {}]

/-- What `overlappingFlushes` logs before the second call returns. -/
def overlappingFlushesLog (failed : Bool) : List Event :=
  [.recordCalled 0, .recordReturned 0 none, .called (.flush 0),
    .exportStarted 0 0 [.observation 0], .called (.flush 1),
    .exportReturned 0 0 [.observation 0] failed]

/-- The export of the observation has not ended when the second flush starts. -/
theorem overlappingFlushes_not_ended (failed : Bool) (k : ℕ) (batch : List Entry) :
    ¬ EndedBefore smallConfig (overlappingFlushesLog failed) (.flush 1) k batch := by
  intro hended
  obtain ⟨failed', hprec⟩ := hended 0 (by decide)
  have hmem := hprec.left_mem
  simp only [overlappingFlushesLog, mem_cons, reduceCtorEq, Event.exportReturned.injEq,
    not_mem_nil, or_false, false_or] at hmem
  obtain ⟨rfl, -, rfl, rfl⟩ := hmem
  cases failed' <;> exact absurd hprec (by decide)

/-- No step of a worker finds a failed export. -/
def unfailing (cfg : Config) (s : State) : Label → Bool
  | .worker k _ =>
    match (s.workers k).pc with
    | .exporting _ status => exportErr cfg.exporters status = []
    | .recordFailure err => err = []
    | _ => true
  | _ => true

theorem not_misses_of_unfailing {l : Label} (h : unfailing cfg s l = true) :
    ¬ Misses cfg c s l := by
  intro hmiss
  cases l with
  | worker k ch =>
    obtain ⟨-, -, hfailed⟩ := hmiss
    rw [unfailing] at h
    cases hpc : (s.workers k).pc <;> rw [hpc] at h hfailed <;> first
      | exact hfailed
      | exact hfailed.1 (of_decide_eq_true h)
  | _ => exact hmiss

theorem nil_flush_delivered_overlappingFlushes :
    ∃ s, (pipelineSystem smallConfig).run (State.init smallConfig) (overlappingFlushes false) =
        some s ∧
      s.log = overlappingFlushesLog false ++ [.callReturned (.flush 1) []] ∧
      ∃ k batch, .observation 0 ∈ batch ∧ ∀ e < smallConfig.exporters,
        .exportReturned k e batch false ∈ overlappingFlushesLog false := by
  have hrun : ((pipelineSystem smallConfig).runWithin (unfailing smallConfig)
      (State.init smallConfig) (overlappingFlushes false)).map
      (fun s => (s.log, evictionFree s)) =
      some (overlappingFlushesLog false ++ [.callReturned (.flush 1) []], true) := by
    decide +kernel
  obtain ⟨s, hs, hlog, hevicted⟩ := exists_evictionFree hrun
  have hreach : (pipelineSystem smallConfig).Reachable
      (fun s l => ¬ Misses smallConfig (.flush 1) s l) s :=
    (TransitionSystem.Reachable.of_runWithin .init hs).mono fun _ _ h => not_misses_of_unfailing h
  exact ⟨s, TransitionSystem.run_of_runWithin hs, hlog,
    nil_flush_delivered hreach hlog (by decide) (by decide) (hevicted 0)
      fun k batch _ => overlappingFlushes_not_ended false k batch⟩

/-- The second flush returns nil, and no `Export` of the observation has. -/
theorem nil_flush_over_failed_export :
    ∃ s, (pipelineSystem smallConfig).run (State.init smallConfig) (overlappingFlushes true) =
        some s ∧
      s.log = overlappingFlushesLog true ++ [.callReturned (.flush 1) []] ∧
      (overlappingFlushesLog true).Precedes (.recordReturned 0 none) (.called (.flush 1)) ∧
      .contextEnded (.flush 1) ∉ overlappingFlushesLog true ∧
      ¬ Evicted s 0 ∧
      (∀ k batch, .observation 0 ∈ batch →
        ¬ EndedBefore smallConfig (overlappingFlushesLog true) (.flush 1) k batch) ∧
      ¬ ∃ k batch, .observation 0 ∈ batch ∧ ∀ e < smallConfig.exporters,
        .exportReturned k e batch false ∈ overlappingFlushesLog true := by
  have hrun : ((pipelineSystem smallConfig).run (State.init smallConfig)
      (overlappingFlushes true)).map (fun s => (s.log, evictionFree s)) =
      some (overlappingFlushesLog true ++ [.callReturned (.flush 1) []], true) := by
    decide +kernel
  obtain ⟨s, hs, hlog, hevicted⟩ := exists_evictionFree hrun
  refine ⟨s, hs, hlog, by decide, by decide, hevicted 0,
    fun k batch _ => overlappingFlushes_not_ended true k batch, ?_⟩
  rintro ⟨k, batch, -, hall⟩
  have := hall 0 (by decide)
  simp [overlappingFlushesLog] at this

end ConvoyStats.Pipeline
