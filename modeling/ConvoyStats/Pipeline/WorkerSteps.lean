import ConvoyStats.Pipeline.Steps

/-!
# The steps of a worker

`WorkerStep` lists what a worker can do in one step: where control goes, and every field that
changes.  The steps that differ only in where control goes are
`WorkerPc.Passes`, `Took`, `Stops` and `Counted`.  What is proved about workers is proved by cases
of `WorkerStep`; the step functions are taken apart here and nowhere else.
-/

namespace ConvoyStats.Pipeline

open Function Transport

/-- The entry made of a drop count, if it is not zero. -/
def dropEntries (reason : DropReason) (first count : ℕ) : List Entry :=
  if count = 0 then [] else [.dropCount reason first count]

namespace WorkerPc

/-- Control passes on, and nothing else happens but that errors are counted. -/
inductive Passes (cfg : Config) (s : State) (w : Worker) : WorkerPc → WorkerPc → Prop
  | cancelled (h : s.cancelled = true) : Passes cfg s w .select .dropping
  | len : Passes cfg s w .select .lenWrite
  | poll : Passes cfg s w .select (.pop .background 100 [])
  | lenWrite (writePos : ℕ) : Passes cfg s w .lenWrite (.lenRead writePos)
  | lenRead (writePos max : ℕ) : Passes cfg s w (.lenRead writePos) (.pop .background max [])
  | full : Passes cfg s w (.append .background []) (exportingPc .background)
  | room (h : w.batch.length < w.batchCap) : Passes cfg s w (.append .background []) .select
  | chunk (request : Request) (popped : ℕ) (err : Err) :
      Passes cfg s w (.append (.drain request popped err) [])
        (exportingPc (.chunk request popped err))
  | loop (request : Request) (popped : ℕ) (err : Err) :
      Passes cfg s w (.append (.drain request popped err) []) (.drainLoop request popped err)
  | idle {e : ℕ} (running : Bool) (err err' : Err) (he : e < cfg.exporters) :
      Passes cfg s w (.idle e running err) (.idle (e + 1) false err')
  | drain (request : Request) (popped : ℕ) (err : Err) :
      Passes cfg s w (.drainLoop request popped err)
        (.pop (.drain request popped err) drainChunk [])

/-- A `Pop` returns `x`. -/
inductive Took (x : ℕ) : WorkerPc → WorkerPc → Prop
  | more (job : PopJob) (max : ℕ) (items : List ℕ) :
      Took x (.pop job max items) (.pop job max (items ++ [x]))
  | background (max : ℕ) (items : List ℕ) :
      Took x (.pop .background max items) (.append .background (items ++ [x]))
  | drain (request : Request) (popped : ℕ) (err : Err) (max : ℕ) (items : List ℕ) :
      Took x (.pop (.drain request popped err) max items)
        (.append (.drain request (popped + items.length + 1) err) (items ++ [x]))

/-- A `Pop` finds the ring empty. -/
inductive Stops : WorkerPc → WorkerPc → Prop
  | background (max : ℕ) : Stops (.pop .background max []) .select
  | append (max : ℕ) (items : List ℕ) :
      Stops (.pop .background max items) (.append .background items)
  | drained (request : Request) (popped : ℕ) (err : Err) (max : ℕ) :
      Stops (.pop (.drain request popped err) max [])
        (.dropCounters (.drain request err) .labelLimit)
  | drain (request : Request) (popped : ℕ) (err : Err) (max : ℕ) (items : List ℕ) :
      Stops (.pop (.drain request popped err) max items)
        (.append (.drain request (popped + items.length) err) items)

/-- A drop counter has been appended, after which the batch is `batch`. -/
inductive Counted (batch : List Entry) : CountJob → DropReason → WorkerPc → Prop
  | next (job : CountJob) : Counted batch job .labelLimit (.dropCounters job .seriesLimit)
  | export (h : batch ≠ []) : Counted batch .tick .seriesLimit (exportingPc .background)
  | idle (h : batch = []) : Counted batch .tick .seriesLimit (.idle 0 false [])
  | select (h : batch = []) : Counted batch .tick .seriesLimit .select
  | last (request : Request) (err : Err) (h : batch ≠ []) :
      Counted batch (.drain request err) .seriesLimit (exportingPc (.last request err))
  | ack (request : Request) (err : Err) (h : batch = []) :
      Counted batch (.drain request err) .seriesLimit (.ack request err)

end WorkerPc

/-- **The steps of worker `k`**, which is `w`. -/
inductive WorkerStep (cfg : Config) (s : State) (k : ℕ) (w : Worker) : State → Prop
  | pass {pc pc' : WorkerPc} (hpc : w.pc = pc) (h : pc.Passes cfg s w pc') (errors : ℕ)
      (exporterErrors : ℕ → ℕ) :
      WorkerStep cfg s k w
        { s.setWorker k { w with pc := pc' } with
          stats := { s.stats with errors := errors, exporterErrors := exporterErrors } }
  | tick (hpc : w.pc = .select) :
      WorkerStep cfg s k w
        (s.setWorker k { w with tick := false, pc := .dropCounters .tick .labelLimit })
  | access {job : PopJob} {max : ℕ} {items : List ℕ} {ring' : World Goroutine ℕ}
      (hpc : w.pc = .pop job max items)
      (hring : ringStep s.ring (.worker k) .pop = some (ring', none)) :
      WorkerStep cfg s k w { s with ring := ring' }
  | took {pc pc' : WorkerPc} {x : ℕ} {ring' : World Goroutine ℕ} (hpc : w.pc = pc)
      (hring : ringStep s.ring (.worker k) .pop = some (ring', some (.pop (some x))))
      (h : pc.Took x pc') :
      WorkerStep cfg s k w
        { s.setWorker k { w with pc := pc', intake := w.intake ++ [.observation x] } with
          ring := ring' }
  | stops {pc pc' : WorkerPc} {result : Result ℕ} {ring' : World Goroutine ℕ} (hpc : w.pc = pc)
      (hring : ringStep s.ring (.worker k) .pop = some (ring', some result))
      (hresult : ∀ x, result ≠ .pop (some x)) (h : pc.Stops pc') :
      WorkerStep cfg s k w { s.setWorker k { w with pc := pc' } with ring := ring' }
  | append {job : PopJob} {x : ℕ} {items : List ℕ} (hpc : w.pc = .append job (x :: items)) (cap : ℕ)
      (hcap : cap = w.batchCap ∨ job = .background ∧ w.batchCap ≤ w.batch.length) :
      WorkerStep cfg s k w
        { s.setWorker k { w with
            pc := .append job items, batch := w.batch ++ [.observation x], batchCap := cap } with
          stats := { s.stats with memUsage := s.stats.memUsage - (s.recorders x).size } }
  | count {job : CountJob} {reason : DropReason} {entries : List Entry} {pc' : WorkerPc}
      (hpc : w.pc = .dropCounters job reason)
      (hentries : entries = dropEntries reason (s.taken reason) (s.pending reason)) (cap : ℕ)
      (hcap : cap = w.batchCap ∨
        job = .tick ∧ s.pending reason ≠ 0 ∧ w.batchCap ≤ w.batch.length)
      (h : WorkerPc.Counted (w.batch ++ entries) job reason pc') :
      WorkerStep cfg s k w
        { s.setWorker k { w with
            pc := pc', batch := w.batch ++ entries, batchCap := cap
            intake := w.intake ++ entries } with
          pending := update s.pending reason 0
          taken := update s.taken reason (s.taken reason + s.pending reason) }
  | join {status : ℕ → ExportStatus} (hpc : w.pc = .exporting .background status)
      (hall : allReturned cfg.exporters status) :
      WorkerStep cfg s k w
        { s.setWorker k { w with pc := .recordFailure (exportErr cfg.exporters status) } with
          stats := { s.stats with processed := s.stats.processed + w.batch.length } }
  | joinChunk {status : ℕ → ExportStatus} {request : Request} {popped : ℕ} {err : Err}
      (hpc : w.pc = .exporting (.chunk request popped err) status)
      (hall : allReturned cfg.exporters status) :
      WorkerStep cfg s k w
        { s.setWorker k (w.reset
            (.drainLoop request popped (err ++ exportErr cfg.exporters status))) with
          stats := { s.stats with processed := s.stats.processed + w.batch.length } }
  | joinLast {status : ℕ → ExportStatus} {request : Request} {err : Err}
      (hpc : w.pc = .exporting (.last request err) status)
      (hall : allReturned cfg.exporters status) :
      WorkerStep cfg s k w
        { s.setWorker k (w.reset (.ack request (err ++ exportErr cfg.exporters status))) with
          stats := { s.stats with processed := s.stats.processed + w.batch.length } }
  | recordFailure {err : Err} (hpc : w.pc = .recordFailure err) :
      WorkerStep cfg s k w
        (s.setWorker k { w.reset .select with inFlight := w.inFlight.record err s.flushGen })
  | idleEnds {e : ℕ} {running : Bool} {err : Err} (hpc : w.pc = .idle e running err)
      (he : cfg.exporters ≤ e) :
      WorkerStep cfg s k w
        (s.setWorker k { w with pc := .select, inFlight := w.inFlight.record err s.flushGen })
  | idleStarts {e : ℕ} {err : Err} (hpc : w.pc = .idle e false err) (he : e < cfg.exporters) :
      WorkerStep cfg s k w
        ((s.setWorker k { w with pc := .idle e true err }).emit (.exportIdleStarted k e))
  | loopEnds {request : Request} {popped : ℕ} {err : Err}
    (hpc : w.pc = .drainLoop request popped err)
      (hwhy : s.ring.ring.capacity ≤ popped ∨
        (s.calls request.caller).mark ≤ s.ring.ring.readPos) :
      WorkerStep cfg s k w
        (s.setWorker k { w with pc := .dropCounters (.drain request err) .labelLimit })
  | loopStops {request : Request} {popped : ℕ} {err : Err}
      (hpc : w.pc = .drainLoop request popped err) (hshort : stopsShort s request popped = true) :
      WorkerStep cfg s k w
        ((s.setWorker k { w with pc := .dropCounters (.drain request err) .labelLimit }).emit
          (.drainStopped request.caller k))
  | ack {request : Request} {err : Err} (hpc : w.pc = .ack request err) :
      WorkerStep cfg s k w
        ((s.setWorker k { w with pc := if request.caller.stop then .leaving else .select }).setCall
          request.caller { s.calls request.caller with
            done := (s.calls request.caller).done ++ [(k, err)] })
  | drop (hpc : w.pc = .dropping) :
      WorkerStep cfg s k w
        { s.setWorker k { w with pc := .leaving, batch := [], lost := w.batch } with
          stats := { s.stats with dropped := s.stats.dropped + w.batch.length } }
  | leave (hpc : w.pc = .leaving) :
      WorkerStep cfg s k w ((s.setWorker k { w with pc := .exited }).emit (.workerExited k))

namespace WorkerStep

variable {cfg : Config} {s s' : State} {k : ℕ} {ch : Choice}

theorem of_selectStep (hpc : (s.workers k).pc = .select) (h : selectStep cfg s k ch = some s') :
    WorkerStep cfg s k (s.workers k) s' := by
  simp only [selectStep] at h
  split at h
  · split at h <;> cases h
    exact .pass hpc (.cancelled ‹_›) _ _
  · cases h
  · split at h <;> cases h
    exact .tick hpc
  · split at h <;> cases h
    cases cfg.adaptiveBatching with
    | true => exact .pass hpc .len _ _
    | false => exact .pass hpc .poll _ _

theorem of_popStep {job : PopJob} {max : ℕ} {items : List ℕ}
    (hpc : (s.workers k).pc = .pop job max items) (h : popStep s k job max items = some s') :
    WorkerStep cfg s k (s.workers k) s' := by
  simp only [popStep] at h
  split at h <;> cases h
  · exact .access hpc ‹_›
  · refine .took hpc ‹_› ?_
    split
    · exact .more job max items
    · cases job with
      | background => exact .background max items
      | drain request popped err => exact .drain request popped err max items
  · rename_i result hresult hring
    refine .stops hpc hring (fun x hx => hresult x (by rw [hx])) ?_
    cases job with
    | background =>
      dsimp only
      split
      · subst items
        exact .background max
      · exact .append max items
    | drain request popped err =>
      dsimp only
      split
      · subst items
        exact .drained request popped err max
      · exact .drain request popped err max items

theorem of_appendStep {job : PopJob} {items : List ℕ} (hpc : (s.workers k).pc = .append job items) :
    WorkerStep cfg s k (s.workers k) (appendStep s k ch job items) := by
  cases items with
  | cons x items =>
    cases job with
    | background =>
      refine .append hpc _ ?_
      by_cases hroom : (s.workers k).batch.length < (s.workers k).batchCap
      · exact .inl (if_pos hroom)
      · exact .inr ⟨rfl, Nat.not_lt.mp hroom⟩
    | drain => exact .append hpc _ (.inl rfl)
  | nil =>
    cases job with
    | background =>
      refine .pass hpc ?_ _ _
      split
      · exact .full
      · exact .room (Nat.not_le.mp ‹_›)
    | drain request popped err =>
      refine .pass hpc ?_ _ _
      split
      · exact .chunk request popped err
      · exact .loop request popped err

theorem counted (k : ℕ) (ch : Choice) (batch : List Entry) (job : CountJob) (reason : DropReason) :
    WorkerPc.Counted batch job reason (match reason with
      | .labelLimit => .dropCounters job .seriesLimit
      | .seriesLimit => countedPc k batch ch job) := by
  cases reason with
  | labelLimit => exact .next job
  | seriesLimit =>
    cases job with
    | tick =>
      simp only [countedPc]
      split_ifs with hbatch
      · exact .export hbatch
      · exact .idle (not_not.mp hbatch)
      · exact .select (not_not.mp hbatch)
    | drain request err =>
      simp only [countedPc]
      split_ifs with hbatch
      · exact .last request err hbatch
      · exact .ack request err (not_not.mp hbatch)

theorem of_dropCountersStep {job : CountJob} {reason : DropReason}
    (hpc : (s.workers k).pc = .dropCounters job reason) :
    WorkerStep cfg s k (s.workers k) (dropCountersStep s k ch job reason) := by
  by_cases hzero : s.pending reason = 0
  · have hcount : WorkerStep cfg s k (s.workers k) _ :=
      .count hpc (if_pos hzero).symm _ (.inl rfl) (counted k ch _ job reason)
    simp only [List.append_nil] at hcount
    simp only [dropCountersStep, if_pos hzero]
    exact hcount
  · simp only [dropCountersStep, if_neg hzero]
    cases job with
    | tick =>
      refine .count hpc (if_neg hzero).symm _ ?_ (counted k ch _ _ reason)
      by_cases hroom : (s.workers k).batch.length < (s.workers k).batchCap
      · exact .inl (if_pos hroom)
      · exact .inr ⟨rfl, hzero, Nat.not_lt.mp hroom⟩
    | drain request err =>
      exact .count hpc (if_neg hzero).symm _ (.inl rfl) (counted k ch _ _ reason)

theorem of_joinStep {job : ExportJob} {status : ℕ → ExportStatus}
    (hpc : (s.workers k).pc = .exporting job status) (h : joinStep cfg s k job status = some s') :
    WorkerStep cfg s k (s.workers k) s' := by
  simp only [joinStep] at h
  split at h <;> cases h
  rename_i hall
  cases job with
  | background => exact .join hpc hall
  | chunk => exact .joinChunk hpc hall
  | last => exact .joinLast hpc hall

theorem of_idleStep {e : ℕ} {running : Bool} {err : Err}
    (hpc : (s.workers k).pc = .idle e running err) :
    WorkerStep cfg s k (s.workers k) (idleStep cfg s k ch e running err) := by
  unfold idleStep
  split_ifs with he hrunning
  · exact .idleEnds hpc he
  · exact .pass hpc (.idle running err _ (Nat.not_le.mp he)) _ _
  · exact .pass hpc (.idle running err _ (Nat.not_le.mp he)) _ _
  · obtain rfl : running = false := eq_false_of_ne_true hrunning
    exact .idleStarts hpc (Nat.not_le.mp he)
  · exact .pass hpc (.idle running err _ (Nat.not_le.mp he)) _ _

theorem of_drainLoopStep {request : Request} {popped : ℕ} {err : Err}
    (hpc : (s.workers k).pc = .drainLoop request popped err) :
    WorkerStep cfg s k (s.workers k) (drainLoopStep s k request popped err) := by
  unfold drainLoopStep
  split_ifs with hloop hshort
  · exact .pass hpc (.drain request popped err) _ _
  · exact .loopStops hpc hshort
  · refine .loopEnds hpc ?_
    -- the loop ended by its bound, or by the context with the ring read far enough
    by_cases hcap : popped < s.ring.ring.capacity
    · have hctx : (s.calls request.caller).ctxDone = true := by
        by_contra hctx
        exact hloop (by simp [hcap, hctx])
      simp only [stopsShort, hcap, hctx, decide_true, Bool.and_self, Bool.true_and,
        decide_eq_true_eq, Nat.not_lt] at hshort
      exact .inr hshort
    · exact .inl (Nat.not_lt.mp hcap)

/-- **Every step of a worker is one of them.** -/
theorem of_workerStep (h : workerStep cfg s k ch = some s') :
    WorkerStep cfg s k (s.workers k) s' := by
  unfold workerStep at h
  cases hpc : (s.workers k).pc <;> simp only [hpc] at h
  case select => exact of_selectStep hpc h
  case pop => exact of_popStep hpc h
  case exporting => exact of_joinStep hpc h
  all_goals cases h
  case lenWrite => exact .pass hpc (.lenWrite _) _ _
  case lenRead => exact .pass hpc (.lenRead _ _) _ _
  case append => exact of_appendStep hpc
  case dropCounters => exact of_dropCountersStep hpc
  case recordFailure => exact .recordFailure hpc
  case idle => exact of_idleStep hpc
  case drainLoop => exact of_drainLoopStep hpc
  case ack => exact .ack hpc
  case dropping => exact .drop hpc
  case leaving => exact .leave hpc

end WorkerStep

section

variable {cfg : Config} {s s' : State} {k e : ℕ}

/-- An exporter is called. -/
theorem startExport_some (h : startExport cfg s k e = some s') :
    ∃ job status, (s.workers k).pc = .exporting job status ∧ status e = .pending ∧
      s' = (s.setWorker k { s.workers k with
        pc := .exporting job (update status e .running) }).emit
          (.exportStarted k e (s.workers k).batch) := by
  unfold startExport at h
  split at h
  · split at h <;> cases h
    rename_i hpc hpending
    exact ⟨_, _, hpc, hpending.2, rfl⟩
  · cases h

/-- An exporter returns. -/
theorem finishExport_some {failed : Bool} (h : finishExport s k e failed = some s') :
    ∃ job status errors exporterErrors, (s.workers k).pc = .exporting job status ∧
      status e = .running ∧
      s' = { (s.setWorker k { s.workers k with
          pc := .exporting job (update status e (.returned failed)) }).emit
            (.exportReturned k e (s.workers k).batch failed) with
        stats := { s.stats with errors := errors, exporterErrors := exporterErrors } } := by
  unfold finishExport at h
  split at h
  · split at h <;> cases h
    rename_i hpc hrunning
    cases failed <;> exact ⟨_, _, _, _, hpc, hrunning, rfl⟩
  · cases h

end

end ConvoyStats.Pipeline
