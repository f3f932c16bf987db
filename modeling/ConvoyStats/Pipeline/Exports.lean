import ConvoyStats.Pipeline.CallMoves

/-!
# What becomes of an entry

A worker's entries go through its batch to the exporters.  Two ledgers follow
them:

* `Worker.Accounts`: what a worker has taken is, in order, what it has exported
  and what it still holds.
* `Exports`: the batches a worker has exported are exactly the ones the log shows
  as passed to each exporter, and every exporter has returned from them.

Together with the ring they say where an observation can be at any time.
-/

namespace ConvoyStats.Pipeline

open Function List Transport

/-! ### The worker's accounts -/

/-- **The accounts of a worker.** -/
structure Worker.Accounts (w : Worker) : Prop where
  intake : w.intake = w.exported.flatten ++ w.undelivered
  lost : w.pc.gone = false → w.lost = []
  emptied : w.pc.emptied → w.batch = []

theorem WorkerPc.gone_of_popping {pc : WorkerPc} (h : pc.popping) : pc.gone = false := by
  cases pc <;> first | rfl | cases h

namespace Worker.Accounts

variable {cfg : Config} {s s' : State}

theorem init : Worker.init.Accounts := ⟨rfl, fun _ => rfl, nofun⟩

/-- The same holdings at another point in the same place. -/
theorem of_same {w w' : Worker} (hw : w.Accounts) (hheld : w.SameHoldings w')
    (hitems : w'.pc.items = w.pc.items) (hgone : w'.pc.gone = false → w.pc.gone = false)
    (hemptied : w'.pc.emptied → w.batch = []) : w'.Accounts := by
  refine ⟨?_, ?_, ?_⟩
  · rw [hheld.intake, hw.intake, undelivered, undelivered, hheld.exported, hheld.lost,
      hheld.batch, hitems]
  · rw [hheld.lost]
    exact fun hlive => hw.lost (hgone hlive)
  · rw [hheld.batch]
    exact hemptied

/-- A step of worker `k`. -/
theorem worker {k : ℕ} (hw : ∀ j, (s.workers j).Accounts) (h : WorkerMove s k s') :
    ∀ j, (s'.workers j).Accounts := by
  -- it is enough to look at `k`
  have hother : ∀ (w' : Worker), w'.Accounts → ∀ j, (update s.workers k w' j).Accounts := by
    intro w' hk j
    by_cases hj : j = k
    · subst hj
      simpa using hk
    · simpa [hj] using hw j
  have hk := hw k
  cases h with
  | keep w' _ _ _ _ hplace hheld =>
    refine hother w' (hk.of_same hheld hplace.items ?_ ?_)
    · rw [hplace.gone]
      exact id
    · rw [hplace.emptied]
      exact hk.emptied
  | access => exact hw
  | took x _ w' hpop hemptied _ hintake hbatch hexported hlost hitems =>
    refine hother w' ⟨?_, ?_, ?_⟩
    · rw [hintake, hk.intake, undelivered, undelivered, hexported, hlost, hbatch, hitems]
      simp
    · exact fun _ => hlost.trans (hk.lost (WorkerPc.gone_of_popping hpop))
    · rw [hemptied]
      nofun
  | empty _ _ w' hpop hemptied _ _ hheld hitems =>
    refine hother w' (hk.of_same hheld hitems ?_ ?_)
    · exact fun _ => WorkerPc.gone_of_popping hpop
    · rw [hemptied]
      nofun
  | append x w' _ _ hemptied hitems hbatch hintake hexported hlost =>
    refine hother w' ⟨?_, ?_, ?_⟩
    · rw [hintake, hk.intake, undelivered, undelivered, hexported, hlost, hbatch, hitems]
      simp
    · intro _
      rw [hlost]
      refine hk.lost ?_
      cases hpc : (s.workers k).pc <;> rw [hpc] at hitems <;> first | rfl | cases hitems
    · rw [hemptied]
      nofun
  | count reason w' hpop hlive hgone hemptied hitems hitems' hbatch hintake hexported hlost
      hdrain =>
      refine hother w' ⟨?_, fun _ => hlost.trans (hk.lost hlive), hemptied⟩
      rw [hintake, hk.intake, undelivered, undelivered, hexported, hlost, hbatch, hitems, hitems']
      simp
  | «export» w' _ _ hlive _ hitems hitems' hbatch hexported hintake hlost =>
    refine hother w' ⟨?_, fun _ => hlost.trans (hk.lost hlive), fun _ => hbatch⟩
    rw [hintake, hk.intake, undelivered, undelivered, hexported, hlost, hbatch, hitems, hitems',
      hk.lost hlive]
    simp
  | loopEnds _ n _ w' _ hpc hemptied hheld hitems =>
    refine hother w' (hk.of_same hheld (by rw [hpc, hitems]; rfl) ?_ ?_)
    · exact fun _ => by rw [hpc]; rfl
    · rw [hemptied]
      nofun
  | ack _ _ w' hpc hpc' hheld =>
    refine hother w' (hk.of_same hheld ?_ ?_ ?_)
    · rw [hpc, hpc']
      split <;> rfl
    · rw [hpc]
      exact fun _ => rfl
    · exact fun _ => hk.emptied (by rw [hpc]; rfl)
  | drop w' _ hpc hpc' hbatch hlost hintake hexported =>
    refine hother w' ⟨?_, ?_, fun _ => hbatch⟩
    · rw [hintake, hk.intake, undelivered, undelivered, hexported, hlost, hbatch, hpc, hpc',
        hk.lost (by rw [hpc]; rfl)]
      simp [WorkerPc.items]
    · rw [hpc']
      nofun

/-- **Every step keeps the accounts.** -/
theorem step (hw : ∀ j, (s.workers j).Accounts) (h : StepMove cfg s s') :
    ∀ j, (s'.workers j).Accounts := by
  cases h with
  | recorder h => cases h <;> exact hw
  | worker hk h => exact worker hw h
  | caller h =>
    rw [(CallerFrame.of_move h).workers]
    exact hw
  | request c k _ _ hworker =>
    intro j
    by_cases hj : j = k
    · subst hj
      simp only [update_self]
      exact (hw j).of_same ⟨rfl, rfl, rfl, rfl⟩ (by rw [hworker]; rfl)
        (fun _ => by rw [hworker]; rfl) nofun
    · simpa [hj] using hw j
  | tick k =>
    intro j
    by_cases hj : j = k
    · subst hj
      simp only [update_self]
      exact (hw j).of_same ⟨rfl, rfl, rfl, rfl⟩ rfl id (hw j).emptied
    · simpa [hj] using hw j
  | contextEnds c => exact hw

end Worker.Accounts

variable {cfg : Config} {s : State}

theorem accounts_of_reach (h : (pipelineSystem cfg).Reach s) : ∀ k, (s.workers k).Accounts :=
  h.invariant (I := fun s => ∀ k, (s.workers k).Accounts) (fun _ => .init)
    fun _ _ _ _ hw _ hstep => Worker.Accounts.step hw (.of_step hstep)

/-! ### The exporters' side -/

/-- The batches passed to exporter `e` by worker `k`, in order. -/
def startedBy (k e : ℕ) (log : List Event) : List (List Entry) :=
  log.filterMap fun
    | .exportStarted k' e' batch => if k' = k ∧ e' = e then some batch else none
    | _ => none

variable {k e : ℕ} {log : List Event}

theorem mem_startedBy {batch : List Entry} :
    batch ∈ startedBy k e log ↔ .exportStarted k e batch ∈ log := by
  rw [startedBy, mem_filterMap]
  constructor
  · rintro ⟨ev, hmem, hev⟩
    split at hev
    · obtain ⟨⟨rfl, rfl⟩, hb⟩ := Option.ite_none_right_eq_some.mp hev
      cases hb
      exact hmem
    · cases hev
  · exact fun hmem => ⟨_, hmem, if_pos ⟨rfl, rfl⟩⟩

/-- The events that say a batch was passed to an exporter. -/
def Event.starts : Event → Bool
  | .exportStarted .. => true
  | _ => false

theorem startedBy_append {events : List Event} (h : ∀ ev ∈ events, ev.starts = false) :
    startedBy k e (log ++ events) = startedBy k e log := by
  rw [startedBy, filterMap_append, ← startedBy]
  refine (congrArg _ (filterMap_eq_nil_iff.mpr fun ev hev => ?_)).trans (append_nil _)
  have := h ev hev
  cases ev <;> first | rfl | cases this

/-- The batch exporter `e` has been given and the worker has not yet put away. -/
def Worker.shipping (w : Worker) (e : ℕ) : List (List Entry) :=
  match w.pc with
  | .exporting _ status => if status e = .pending then [] else [w.batch]
  | .recordFailure _ => [w.batch]
  | _ => []

/-- The worker waits for its exporters, or is about to note their errors. -/
def WorkerPc.shipping : WorkerPc → Bool
  | .exporting .. | .recordFailure _ => true
  | _ => false

/-- Every exporter has returned from `batch`, and without error if `err` is nil. -/
def Shipped (cfg : Config) (log : List Event) (k : ℕ) (batch : List Entry) (err : Err) : Prop :=
  ∀ e < cfg.exporters, ∃ failed, .exportReturned k e batch failed ∈ log ∧
    (err = [] → failed = false)

theorem Shipped.mono {log' : List Event} {batch : List Entry} {err : Err} (hsub : log ⊆ log')
    (h : Shipped cfg log k batch err) : Shipped cfg log' k batch err := by
  intro e he
  obtain ⟨failed, hmem, hfailed⟩ := h e he
  exact ⟨failed, hsub hmem, hfailed⟩

/-- **The ledger of the exports.** -/
structure Exports (cfg : Config) (s : State) : Prop where
  started : ∀ k e, e < cfg.exporters →
    startedBy k e s.log = (s.workers k).exported ++ (s.workers k).shipping e
  status : ∀ k job status e failed, (s.workers k).pc = .exporting job status →
    status e = .returned failed → .exportReturned k e (s.workers k).batch failed ∈ s.log
  recorded : ∀ k err, (s.workers k).pc = .recordFailure err →
    Shipped cfg s.log k (s.workers k).batch err
  exported : ∀ k, ∀ batch ∈ (s.workers k).exported, ∃ err, Shipped cfg s.log k batch err

/-- The join of the exporters' goroutines: every exporter has returned, and no
error means that none failed. -/
theorem shipped_of_allReturned {job : ExportJob} {status : ℕ → ExportStatus} (he : Exports cfg s)
    (hpc : (s.workers k).pc = .exporting job status) (hall : allReturned cfg.exporters status) :
    Shipped cfg s.log k (s.workers k).batch (exportErr cfg.exporters status) := by
  intro e hlt
  simp only [allReturned, all_eq_true, mem_range, Bool.or_eq_true,
    decide_eq_true_eq] at hall
  rcases hall e hlt with hst | hst
  · refine ⟨true, he.status k job status e true hpc hst, fun hnil => ?_⟩
    rw [exportErr, filterMap_eq_nil_iff] at hnil
    have := hnil e (mem_range.mpr hlt)
    rw [if_pos hst] at this
    cases this
  · exact ⟨false, he.status k job status e false hpc hst, fun _ => rfl⟩

/-- A step of a worker that is not shipping: it does not touch its exported batches,
and at most it is about to ship one. -/
theorem WorkerStep.unshipped {s' : State} (h : WorkerStep cfg s k (s.workers k) s')
    (hship : (s.workers k).pc.shipping = false) :
    ∃ w', s'.workers = update s.workers k w' ∧
      (w'.pc.shipping = false ∨ ∃ job, w'.pc = exportingPc job) ∧
      w'.exported = (s.workers k).exported ∧
      ∃ events, s'.log = s.log ++ events ∧ ∀ ev ∈ events, ev.starts = false := by
  have hquiet : ∃ events, s.log = s.log ++ events ∧ ∀ ev ∈ events, ev.starts = false :=
    ⟨[], (append_nil _).symm, nofun⟩
  cases h with
  | access => exact ⟨s.workers k, (update_eq_self k s.workers).symm, .inl hship, rfl, hquiet⟩
  | pass _ h =>
    refine ⟨_, rfl, ?_, rfl, hquiet⟩
    cases h with
    | full | chunk => exact .inr ⟨_, rfl⟩
    | _ => exact .inl rfl
  | took _ _ h => exact ⟨_, rfl, .inl (by cases h <;> rfl), rfl, hquiet⟩
  | stops _ _ _ h => exact ⟨_, rfl, .inl (by cases h <;> rfl), rfl, hquiet⟩
  | count _ _ _ _ h =>
    refine ⟨_, rfl, ?_, rfl, hquiet⟩
    cases h with
    | «export» | last => exact .inr ⟨_, rfl⟩
    | _ => exact .inl rfl
  | ack => exact ⟨_, rfl, .inl (by dsimp only; split <;> rfl), rfl, hquiet⟩
  | idleStarts | loopStops | leave =>
    exact ⟨_, rfl, .inl rfl, rfl, _, rfl, by simp [Event.starts]⟩
  | tick | append | idleEnds | loopEnds | drop => exact ⟨_, rfl, .inl rfl, rfl, hquiet⟩
  | join hpc | joinChunk hpc | joinLast hpc | recordFailure hpc =>
    rw [hpc] at hship
    cases hship

namespace Exports

variable {cfg : Config} {s s' : State}

theorem init : Exports cfg (State.init cfg) where
  started := fun _ _ _ => rfl
  status := nofun
  recorded := nofun
  exported := nofun

variable {k : ℕ} {w' : Worker}

/-- A worker has moved; the others and their batches are as they were. -/
theorem of_worker (he : Exports cfg s) (hworkers : s'.workers = update s.workers k w')
    (hsub : s.log ⊆ s'.log) (hothers : ∀ j e, j ≠ k → startedBy j e s'.log = startedBy j e s.log)
    (hstarted : ∀ e < cfg.exporters, startedBy k e s'.log = w'.exported ++ w'.shipping e)
    (hstatus : ∀ job status e failed, w'.pc = .exporting job status →
      status e = .returned failed → .exportReturned k e w'.batch failed ∈ s'.log)
    (hrecorded : ∀ err, w'.pc = .recordFailure err → Shipped cfg s'.log k w'.batch err)
    (hexported : ∀ batch ∈ w'.exported, ∃ err, Shipped cfg s'.log k batch err) :
    Exports cfg s' := by
  refine ⟨?_, ?_, ?_, ?_⟩
  · intro j e hlt
    by_cases hj : j = k
    · subst hj
      rw [hworkers, update_self]
      exact hstarted e hlt
    · rw [hworkers, update_of_ne hj, hothers j e hj]
      exact he.started j e hlt
  · intro j job status e failed
    by_cases hj : j = k
    · subst hj
      rw [hworkers, update_self]
      exact hstatus job status e failed
    · rw [hworkers, update_of_ne hj]
      exact fun hpc hst => hsub (he.status j job status e failed hpc hst)
  · intro j err
    by_cases hj : j = k
    · subst hj
      rw [hworkers, update_self]
      exact hrecorded err
    · rw [hworkers, update_of_ne hj]
      exact fun hpc => (he.recorded j err hpc).mono hsub
  · intro j batch
    by_cases hj : j = k
    · subst hj
      rw [hworkers, update_self]
      exact hexported batch
    · rw [hworkers, update_of_ne hj]
      intro hmem
      obtain ⟨err, hship⟩ := he.exported j batch hmem
      exact ⟨err, hship.mono hsub⟩

/-- A worker that was not shipping has moved. -/
theorem of_unshipped (he : Exports cfg s) (hpc : (s.workers k).pc.shipping = false)
    (hworkers : s'.workers = update s.workers k w')
    (hpc' : w'.pc.shipping = false ∨ ∃ job, w'.pc = exportingPc job)
    (hexported : w'.exported = (s.workers k).exported)
    (hlog : ∃ events, s'.log = s.log ++ events ∧ ∀ ev ∈ events, ev.starts = false) :
    Exports cfg s' := by
  obtain ⟨events, hlog, hquiet⟩ := hlog
  have hnil : ∀ e, (s.workers k).shipping e = [] := by
    intro e
    rw [Worker.shipping]
    cases hw : (s.workers k).pc <;> rw [hw] at hpc <;> first | rfl | cases hpc
  have hsub : s.log ⊆ s'.log := by
    rw [hlog]
    exact subset_append_left _ _
  have hsame : ∀ j e, startedBy j e s'.log = startedBy j e s.log := by
    intro j e
    rw [hlog, startedBy_append hquiet]
  refine he.of_worker hworkers hsub (fun j e _ => hsame j e) ?_ ?_ ?_ ?_
  · intro e hlt
    rw [hsame, he.started k e hlt, hexported, hnil]
    refine congrArg _ ?_
    rw [Worker.shipping]
    rcases hpc' with hpc' | ⟨job, hpc'⟩
    · cases hw : w'.pc <;> rw [hw] at hpc' <;> first | rfl | cases hpc'
    · rw [hpc']
      rfl
  · intro job status e failed hw hst
    rcases hpc' with hpc' | ⟨job', hpc'⟩
    · rw [hw] at hpc'
      cases hpc'
    · rw [hpc', exportingPc] at hw
      cases hw
      cases hst
  · intro err hw
    rcases hpc' with hpc' | ⟨job', hpc'⟩
    · rw [hw] at hpc'
      cases hpc'
    · rw [hpc'] at hw
      cases hw
  · intro batch hmem
    obtain ⟨err, hship⟩ := he.exported k batch (hexported ▸ hmem)
    exact ⟨err, hship.mono hsub⟩

/-- A batch whose export has ended is put away. -/
theorem of_reset {err : Err} (he : Exports cfg s)
    (hworkers : s'.workers = update s.workers k w') (hlog : s'.log = s.log)
    (hship : ∀ e < cfg.exporters, (s.workers k).shipping e = [(s.workers k).batch])
    (hpc' : w'.pc.shipping = false)
    (hexported : w'.exported = (s.workers k).exported ++ [(s.workers k).batch])
    (hreturned : Shipped cfg s.log k (s.workers k).batch err) : Exports cfg s' := by
  have hnil : ∀ e, w'.shipping e = [] := by
    intro e
    rw [Worker.shipping]
    cases hw : w'.pc <;> rw [hw] at hpc' <;> first | rfl | cases hpc'
  refine he.of_worker hworkers (by rw [hlog]; exact List.Subset.refl _)
    (fun j e _ => by rw [hlog]) ?_ ?_ ?_ ?_
  · intro e hlt
    rw [hlog, he.started k e hlt, hship e hlt, hexported, hnil, append_nil]
  · intro job status e failed hw
    rw [hw] at hpc'
    cases hpc'
  · intro err hw
    rw [hw] at hpc'
    cases hpc'
  · intro batch hmem
    rw [hlog]
    rw [hexported] at hmem
    rcases mem_append.mp hmem with hold | hnew
    · exact he.exported k batch hold
    · cases mem_singleton.mp hnew
      exact ⟨err, hreturned⟩

/-- When all exporters have returned, they have been given the batch. -/
theorem shipping_of_allReturned {job : ExportJob} {status : ℕ → ExportStatus}
    (hpc : (s.workers k).pc = .exporting job status) (hall : allReturned cfg.exporters status) :
    ∀ e < cfg.exporters, (s.workers k).shipping e = [(s.workers k).batch] := by
  intro e hlt
  simp only [allReturned, all_eq_true, mem_range, Bool.or_eq_true, decide_eq_true_eq] at hall
  rw [Worker.shipping, hpc]
  refine if_neg fun hpend => ?_
  rcases hall e hlt with hst | hst <;> rw [hpend] at hst <;> cases hst

variable (he : Exports cfg s)
include he

/-- An exporter has been called, or has returned. -/
theorem of_status {job : ExportJob} {status : ℕ → ExportStatus} {st : ExportStatus} {ev : Event}
    (hpc : (s.workers k).pc = .exporting job status)
    (hworkers : s'.workers = update s.workers k { s.workers k with
      pc := .exporting job (update status e st) })
    (hlog : s'.log = s.log ++ [ev])
    (hstarted : ∀ j e', startedBy j e' s'.log = startedBy j e' s.log ++
      if k = j ∧ e = e' ∧ status e = .pending then [(s.workers k).batch] else [])
    (hst : st ≠ .pending)
    (hreturned : ∀ failed, st = .returned failed →
      ev = .exportReturned k e (s.workers k).batch failed) :
    Exports cfg s' := by
  have hsub : s.log ⊆ s'.log := by
    rw [hlog]
    exact subset_append_left _ _
  refine he.of_worker hworkers hsub ?_ ?_ ?_ nofun ?_
  · intro j e' hj
    rw [hstarted, if_neg fun hall => hj hall.1.symm, append_nil]
  · intro e' hlt
    rw [hstarted, he.started k e' hlt, Worker.shipping, Worker.shipping, hpc]
    by_cases hee : e' = e
    · subst hee
      by_cases hpending : status e' = .pending <;> simp [hpending, hst]
    · simp [hee, Ne.symm hee]
  · intro job' status' e' failed hw hstatus
    cases hw
    by_cases hee : e' = e
    · subst hee
      rw [update_self] at hstatus
      rw [hlog, hreturned failed hstatus]
      exact mem_append_right _ (mem_singleton_self _)
    · rw [update_of_ne hee] at hstatus
      exact hsub (he.status k job status e' failed hpc hstatus)
  · intro batch hmem
    obtain ⟨err, hship⟩ := he.exported k batch hmem
    exact ⟨err, hship.mono hsub⟩

theorem worker (h : WorkerStep cfg s k (s.workers k) s') : Exports cfg s' := by
  cases hship : (s.workers k).pc.shipping with
  | false =>
    obtain ⟨w', hworkers, hpc', hexported, hlog⟩ := h.unshipped hship
    exact he.of_unshipped hship hworkers hpc' hexported hlog
  | true =>
    cases h with
    | join hpc hall =>
      have hgiven := shipping_of_allReturned hpc hall
      refine he.of_worker rfl (List.Subset.refl _) (fun _ _ _ => rfl) ?_ nofun ?_ (he.exported k)
      · intro e hlt
        exact (he.started k e hlt).trans (congrArg _ (hgiven e hlt))
      · rintro err hw
        cases hw
        exact shipped_of_allReturned he hpc hall
    | joinChunk hpc hall | joinLast hpc hall =>
      exact he.of_reset rfl rfl (shipping_of_allReturned hpc hall) rfl rfl
        (shipped_of_allReturned he hpc hall)
    | @recordFailure err hpc =>
      refine he.of_reset rfl rfl (fun e _ => ?_) rfl rfl (he.recorded k err hpc)
      rw [Worker.shipping, hpc]
    | pass hpc h | took hpc _ h | stops hpc _ _ h =>
      rw [hpc] at hship
      cases h <;> cases hship
    | tick hpc | access hpc | append hpc | count hpc | idleEnds hpc | idleStarts hpc | loopEnds hpc
    | loopStops hpc | ack hpc | drop hpc | leave hpc =>
      rw [hpc] at hship
      cases hship

theorem startExport (h : startExport cfg s k e = some s') : Exports cfg s' := by
  obtain ⟨job, status, hpc, hpending, rfl⟩ := startExport_some h
  refine he.of_status hpc rfl rfl (fun j e' => ?_) nofun nofun
  simp only [State.emit, startedBy, filterMap_append, hpending]
  refine congrArg _ ?_
  by_cases hje : k = j ∧ e = e' <;> simp [hje]

theorem finishExport {failed : Bool} (h : finishExport s k e failed = some s') :
    Exports cfg s' := by
  obtain ⟨job, status, errors, exporterErrors, hpc, hrunning, rfl⟩ := finishExport_some h
  refine he.of_status hpc rfl rfl (fun j e' => ?_) nofun ?_
  · rw [hrunning, if_neg (by simp), append_nil]
    exact startedBy_append (by simp [Event.starts])
  · rintro _ ⟨⟩
    rfl

/-- The workers have not moved, and no export has begun. -/
theorem of_frame {kind : Event → Bool} (hworkers : s'.workers = s.workers)
    (hlog : LogGrows kind s.log s'.log) (hkind : ∀ ev, kind ev → ev.starts = false) :
    Exports cfg s' := by
  have hsub := hlog.le.subset
  obtain ⟨ev, hlog, hev⟩ := hlog
  refine ⟨?_, ?_, ?_, ?_⟩
  · intro k e hlt
    rw [hworkers, hlog, startedBy_append fun e he => hkind e (hev e (by simpa using he))]
    exact he.started k e hlt
  · rw [hworkers]
    exact fun k job status e failed hpc hst => hsub (he.status k job status e failed hpc hst)
  · rw [hworkers]
    exact fun k err hpc => (he.recorded k err hpc).mono hsub
  · rw [hworkers]
    intro k batch hmem
    obtain ⟨err, hship⟩ := he.exported k batch hmem
    exact ⟨err, hship.mono hsub⟩

theorem recorder {r : ℕ} (h : RecorderMove cfg s r s') : Exports cfg s' := by
  refine he.of_frame h.workers h.log fun ev hev => ?_
  cases ev <;> first | rfl | cases hev

theorem caller {c : Caller} (h : CallerFrame s c s') : Exports cfg s' := by
  refine he.of_frame h.workers h.log fun ev hev => ?_
  cases ev <;> first | rfl | cases hev

/-- **Every step keeps the ledger.** -/
theorem step {l : Label} (h : step cfg s l = some s') : Exports cfg s' := by
  cases LabelMove.of_step h with
  | record h | recorder h => exact he.recorder h
  | worker _ _ hstep => exact he.worker (.of_workerStep hstep)
  | startExport _ _ hstep => exact he.startExport hstep
  | finishExport _ _ hstep => exact he.finishExport hstep
  | call h | caller h => exact he.caller (.of_move h)
  | request c k _ _ hworker =>
    exact he.of_unshipped (by rw [hworker]; rfl) rfl (.inl rfl) rfl ⟨[], (append_nil _).symm, nofun⟩
  | tick k =>
    exact he.of_worker rfl (List.Subset.refl _) (fun _ _ _ => rfl) (he.started k)
      (he.status k) (he.recorded k) (he.exported k)
  | contextEnds c =>
    refine he.of_frame rfl (.emit (beq_self_eq_true (Event.contextEnded c))) fun ev hev => ?_
    cases eq_of_beq hev
    rfl

end Exports

theorem exports_of_reach (h : (pipelineSystem cfg).Reach s) : Exports cfg s :=
  h.invariant .init fun _ _ _ _ he _ hstep => he.step hstep

end ConvoyStats.Pipeline
