import ConvoyStats.Pipeline.State

/-!
# The pipeline: steps

One step is one atomic access, one channel operation, one call out to an exporter
or one local decision between two of these.  The functions below are the code's
own, cut at those points:

* `recorderStep` is `Record` with `admitAndEnqueue`, `enqueue` and
  `enqueueDropOldest`.
* `workerStep` is `worker` with `drain`, `appendPopped`, `appendDropCounters`,
  `processBatchWith` and `exportIdleInBackground`; its parts have a function each.
* `callerStep` is `Flush`, `Shutdown`, `broadcast` and `waitWorkers`.
* `requestStep` is the hand-over on a worker's unbuffered channel, where a caller
  and a worker move together.
* `startExport` and `finishExport` are the goroutines of `processBatchWith`.

A `Label` says who moves and carries every choice the pipeline does not make
itself: which ready case a `select` takes, what an exporter returns, whether the
rate limiter and the cardinality limiter admit an observation, how much `append`
grows a slice, when tickers fire and when contexts end.
-/

namespace ConvoyStats.Pipeline

open Transport

/-- The ready case a `select` takes: a channel of its own, a context, the pipeline
context, or the ticker. -/
inductive SelectCase
  | ready
  | contextDone
  | closed
  | tick
  deriving DecidableEq

/-- The choices a step depends on; each step reads the ones it needs. -/
structure Choice where
  select : SelectCase := .ready
  /-- `rateLimiter.Allow()`. -/
  allowed : Bool := true
  /-- `cardinality.admit`. -/
  admission : Admission := .admitted 0
  /-- Capacity `append` adds beyond what it needs. -/
  growth : ℕ := 0
  /-- `idleSince(FlushInterval)`. -/
  idle : Bool := false
  /-- The exporter's method returns an error or panics. -/
  failed : Bool := false

/-- `drainChunk`. -/
def drainChunk : ℕ := 500

namespace State

/-- Replace one worker. -/
def setWorker (s : State) (k : ℕ) (w : Worker) : State :=
  { s with workers := Function.update s.workers k w }

/-- Replace one `Record` call. -/
def setRecorder (s : State) (r : ℕ) (rec : Recorder) : State :=
  { s with recorders := Function.update s.recorders r rec }

/-- Replace one `Flush` or `Shutdown` call. -/
def setCall (s : State) (c : Caller) (call : Call) : State :=
  { s with calls := Function.update s.calls c call }

/-- Record an event. -/
def emit (s : State) (ev : Event) : State := { s with log := s.log ++ [ev] }

/-- Move a `Record` call to its next point. -/
def recordTo (s : State) (r : ℕ) (pc : RecordPc) : State :=
  s.setRecorder r { s.recorders r with pc := pc }

/-- Move a worker to its next point. -/
def workerTo (s : State) (k : ℕ) (pc : WorkerPc) : State :=
  s.setWorker k { s.workers k with pc := pc }

/-- Move a `Flush` or `Shutdown` call to its next point. -/
def callTo (s : State) (c : Caller) (pc : CallPc) : State :=
  s.setCall c { s.calls c with pc := pc }

end State

/-- One step of a ring call: start it, or take its next access. -/
def ringStep (ring : World Goroutine ℕ) (g : Goroutine) (op : Op ℕ) :
    Option (World Goroutine ℕ × Option (Result ℕ)) :=
  match (ring.threads g).running with
  | none => (ring.start g op).map fun ring' => (ring', none)
  | some _ => ring.access g

/-! ### Record -/

/-- `admission.commit`, then the return of nil. -/
def commitPc (labels : ℕ) : RecordPc :=
  if 0 < labels then .dropLabels labels else .unlock none

/-- What `enqueue` does with the result of its push. -/
def pushedPc (labels : ℕ) : Result ℕ → RecordPc
  | .push true | .pushDropOldest none true => commitPc labels
  | .pushDropOldest (some old) true => .releaseEvicted labels old
  | _ => .rollback

/-- A step of `Record`. -/
def recorderStep (cfg : Config) (s : State) (r : ℕ) (ch : Choice) : Option State :=
  match (s.recorders r).pc with
  | .notCalled => none
  | .rlock =>
    if s.closeMu.waiting || s.closeMu.locked then none
    else some { s.recordTo r .checkClosed with
      closeMu := { s.closeMu with readers := r :: s.closeMu.readers } }
  | .checkClosed =>
    some (s.recordTo r (if s.closed then .unlock (some .clientClosed) else .rateLimit))
  | .rateLimit =>
    some (s.recordTo r (if cfg.rateLimiter && !ch.allowed then .countRateLimited else .admitSeries))
  | .countRateLimited =>
    some { s.recordTo r (.unlock (some .rateLimitExceeded)) with
      stats := { s.stats with rateLimited := s.stats.rateLimited + 1 } }
  | .admitSeries =>
    match ch.admission with
    | .invalidTagKey => some (s.recordTo r (.unlock (some .invalidTagKey)))
    | .seriesLimit => some (s.recordTo r .dropSeries)
    | .admitted labels => some (s.recordTo r (.loadMemory labels))
  | .dropSeries =>
    some { s.recordTo r .totalSeries with
      pending := Function.update s.pending .seriesLimit (s.pending .seriesLimit + 1) }
  | .totalSeries =>
    some { s.recordTo r (.unlock (some .cardinalityLimit)) with
      stats := { s.stats with droppedLabels := s.stats.droppedLabels + 1 } }
  | .loadMemory labels =>
    if cfg.maxMemoryBytes < s.stats.memUsage + (s.recorders r).size then
      some (s.recordTo r .countMemory)
    else some (s.recordTo r (.casMemory labels s.stats.memUsage))
  | .casMemory labels current =>
    if s.stats.memUsage = current then
      some { s.recordTo r (.push labels) with
        stats := { s.stats with memUsage := current + (s.recorders r).size } }
    else some (s.recordTo r (.loadMemory labels))
  | .countMemory =>
    some { s.recordTo r (.unlock (some .memoryLimit)) with
      stats := { s.stats with dropped := s.stats.dropped + 1 } }
  | .push labels =>
    let op : Op ℕ := if cfg.dropOldest then .pushDropOldest (some r) else .push (some r)
    match ringStep s.ring (.recorder r) op with
    | none => none
    | some (ring, none) => some { s with ring := ring }
    | some (ring, some result) =>
      some { s.recordTo r (pushedPc labels result) with ring := ring }
  | .rollback =>
    some { s.recordTo r .countFull with
      stats := { s.stats with memUsage := s.stats.memUsage - (s.recorders r).size } }
  | .countFull =>
    some { s.recordTo r (.unlock (some .bufferFull)) with
      stats := { s.stats with dropped := s.stats.dropped + 1 } }
  | .releaseEvicted labels old =>
    some { s.recordTo r (commitPc labels) with
      stats := { s.stats with memUsage := s.stats.memUsage - (s.recorders old).size } }
  | .dropLabels labels =>
    some { s.recordTo r (.totalLabels labels) with
      pending := Function.update s.pending .labelLimit (s.pending .labelLimit + labels) }
  | .totalLabels labels =>
    some { s.recordTo r (.unlock none) with
      stats := { s.stats with droppedLabels := s.stats.droppedLabels + labels } }
  | .unlock result =>
    some (State.emit { s.recordTo r (.returned result) with
      closeMu := { s.closeMu with readers := s.closeMu.readers.erase r } }
      (.recordReturned r result))
  | .returned _ => none

/-! ### Workers -/

/-- Append one metric; past its capacity the slice grows. -/
def Worker.push (w : Worker) (growth : ℕ) (entry : Entry) : Worker :=
  { w with
    batch := w.batch ++ [entry]
    batchCap :=
      if w.batch.length < w.batchCap then w.batchCap else w.batch.length + 1 + growth }

/-- The batch has been exported and is reset. -/
def Worker.reset (w : Worker) (pc : WorkerPc) : Worker :=
  { w with pc := pc, batch := [], exported := w.exported ++ [w.batch] }

/-- `processBatch` before any exporter has started; an empty batch returns nil at
once. -/
def exportingPc (job : ExportJob) : WorkerPc := .exporting job fun _ => .pending

/-- The errors of the exporters that failed, in exporter order. -/
def exportErr (exporters : ℕ) (status : ℕ → ExportStatus) : Err :=
  (List.range exporters).filterMap fun e =>
    if status e = .returned true then some ⟨[], .export e⟩ else none

/-- Every exporter's goroutine has finished. -/
def allReturned (exporters : ℕ) (status : ℕ → ExportStatus) : Bool :=
  (List.range exporters).all fun e =>
    status e = .returned true || status e = .returned false

/-- The `select` of the worker loop.  Its `default` is taken only when neither the
pipeline context nor the ticker is ready. -/
def selectStep (cfg : Config) (s : State) (k : ℕ) (ch : Choice) : Option State :=
  let w := s.workers k
  match ch.select with
  | .contextDone => if s.cancelled then some (s.workerTo k .dropping) else none
  | .closed => none
  | .tick =>
    if w.tick then
      some (s.setWorker k { w with tick := false, pc := .dropCounters .tick .labelLimit })
    else none
  | .ready =>
    if s.cancelled || w.tick then none
    else some (s.workerTo k
      (if cfg.adaptiveBatching then .lenWrite else .pop .background 100 []))

/-- A `Pop` of `PopBatch(max)`.  An empty batch ends the iteration of the worker
loop, or the loop of `drain`. -/
def popStep (s : State) (k : ℕ) (job : PopJob) (max : ℕ) (items : List ℕ) : Option State :=
  let w := s.workers k
  match ringStep s.ring (.worker k) .pop with
  | none => none
  | some (ring, none) => some { s with ring := ring }
  | some (ring, some (.pop (some x))) =>
    some { s.setWorker k { w with
      intake := w.intake ++ [.observation x]
      pc :=
        if items.length + 1 < max then .pop job max (items ++ [x])
        else match job with
          | .background => .append .background (items ++ [x])
          | .drain request popped err =>
            .append (.drain request (popped + items.length + 1) err) (items ++ [x]) } with
      ring := ring }
  | some (ring, some _) =>
    some { s.workerTo k
      (match job with
        | .background => if items = [] then .select else .append .background items
        | .drain request popped err =>
          if items = [] then .dropCounters (.drain request err) .labelLimit
          else .append (.drain request (popped + items.length) err) items) with
      ring := ring }

/-- `appendPopped`, one item at a time, and the check of the batch size after it. -/
def appendStep (s : State) (k : ℕ) (ch : Choice) (job : PopJob) : List ℕ → State
  | x :: items =>
    let w := s.workers k
    let pushed := match job with
      | .background => w.push ch.growth (.observation x)
      -- the slice `drain` appends to is its own
      | .drain .. => { w with batch := w.batch ++ [Entry.observation x] }
    { s.setWorker k { pushed with pc := .append job items } with
      stats := { s.stats with memUsage := s.stats.memUsage - (s.recorders x).size } }
  | [] =>
    let w := s.workers k
    match job with
    | .background =>
      s.workerTo k
        (if w.batchCap ≤ w.batch.length then exportingPc .background else .select)
    | .drain request popped err =>
      s.workerTo k
        (if drainChunk ≤ w.batch.length then exportingPc (.chunk request popped err)
         else .drainLoop request popped err)

/-- Where a worker goes with the drop counters appended. -/
def countedPc (k : ℕ) (batch : List Entry) (ch : Choice) : CountJob → WorkerPc
  | .tick =>
    if batch ≠ [] then exportingPc .background
    else if k = 0 && ch.idle then .idle 0 false []
    else .select
  | .drain request err =>
    if batch ≠ [] then exportingPc (.last request err) else .ack request err

/-- `appendDropCounters`: `pending[reason].Swap(0)`, and an entry for a count that
is not zero. -/
def dropCountersStep (s : State) (k : ℕ) (ch : Choice) (job : CountJob) (reason : DropReason) :
    State :=
  let w := s.workers k
  let n := s.pending reason
  let entry : Entry := .dropCount reason (s.taken reason) n
  let w := if n = 0 then w else
    match job with
    | .tick => { w.push ch.growth entry with intake := w.intake ++ [entry] }
    | .drain .. => { w with batch := w.batch ++ [entry], intake := w.intake ++ [entry] }
  let pc := match reason with
    | .labelLimit => .dropCounters job .seriesLimit
    | .seriesLimit => countedPc k w.batch ch job
  { s.setWorker k { w with pc := pc } with
    pending := Function.update s.pending reason 0
    taken := Function.update s.taken reason (s.taken reason + n) }

/-- The end of `processBatchWith`, once every exporter has returned. -/
def joinStep (cfg : Config) (s : State) (k : ℕ) (job : ExportJob) (status : ℕ → ExportStatus) :
    Option State :=
  let w := s.workers k
  if allReturned cfg.exporters status then
    let err := exportErr cfg.exporters status
    let w' := match job with
      | .background => { w with pc := .recordFailure err }
      | .chunk request popped err' => w.reset (.drainLoop request popped (err' ++ err))
      | .last request err' => w.reset (.ack request (err' ++ err))
    some { s.setWorker k w' with
      stats := { s.stats with processed := s.stats.processed + w.batch.length } }
  else none

/-- `exportIdleInBackground`: every `IdleExporter` in turn. -/
def idleStep (cfg : Config) (s : State) (k : ℕ) (ch : Choice) (e : ℕ) (running : Bool)
    (err : Err) : State :=
  if cfg.exporters ≤ e then
    s.setWorker k { s.workers k with
      pc := .select, inFlight := (s.workers k).inFlight.record err s.flushGen }
  else if running then
    if ch.failed then
      { s.workerTo k (.idle (e + 1) false (err ++ [⟨[], .exportIdle e⟩])) with
        stats := { s.stats with
          errors := s.stats.errors + 1
          exporterErrors := Function.update s.stats.exporterErrors e
            (s.stats.exporterErrors e + 1) } }
    else s.workerTo k (.idle (e + 1) false err)
  else if cfg.idleExporter e then
    (s.workerTo k (.idle e true err)).emit (.exportIdleStarted k e)
  else s.workerTo k (.idle (e + 1) false err)

/-- A drain about to leave its loop because its context is done, with the ring not
read up to where it was filled when the call started. -/
def stopsShort (s : State) (request : Request) (popped : ℕ) : Bool :=
  popped < s.ring.ring.capacity && (s.calls request.caller).ctxDone &&
    s.ring.ring.readPos < (s.calls request.caller).mark

/-- The head of the loop of `drain`: at most one ring capacity is popped, and
nothing more once the context is done. -/
def drainLoopStep (s : State) (k : ℕ) (request : Request) (popped : ℕ) (err : Err) : State :=
  if popped < s.ring.ring.capacity && !(s.calls request.caller).ctxDone then
    s.workerTo k (.pop (.drain request popped err) drainChunk [])
  else
    let s' := s.workerTo k (.dropCounters (.drain request err) .labelLimit)
    if stopsShort s request popped then s'.emit (.drainStopped request.caller k) else s'

/-- `request.done <- err`; the channel has room for every worker. -/
def ackStep (s : State) (k : ℕ) (request : Request) (err : Err) : State :=
  let call := s.calls request.caller
  (s.workerTo k (if request.caller.stop then .leaving else .select)).setCall request.caller
    { call with done := call.done ++ [(k, err)] }

/-- A step of `worker`. -/
def workerStep (cfg : Config) (s : State) (k : ℕ) (ch : Choice) : Option State :=
  let w := s.workers k
  match w.pc with
  | .select => selectStep cfg s k ch
  | .lenWrite => some (s.workerTo k (.lenRead s.ring.ring.writePos))
  | .lenRead writePos =>
    some (s.workerTo k (.pop .background
      (if s.ring.ring.capacity / 2 < writePos - s.ring.ring.readPos then 500 else 100) []))
  | .pop job max items => popStep s k job max items
  | .append job items => some (appendStep s k ch job items)
  | .dropCounters job reason => some (dropCountersStep s k ch job reason)
  | .exporting job status => joinStep cfg s k job status
  | .recordFailure err =>
    some (s.setWorker k { w.reset .select with
      inFlight := w.inFlight.record err s.flushGen })
  | .idle e running err => some (idleStep cfg s k ch e running err)
  | .drainLoop request popped err => some (drainLoopStep s k request popped err)
  | .ack request err => some (ackStep s k request err)
  | .dropping =>
    some { s.setWorker k { w with pc := .leaving, batch := [], lost := w.batch } with
      stats := { s.stats with dropped := s.stats.dropped + w.batch.length } }
  | .leaving => some ((s.workerTo k .exited).emit (.workerExited k))
  | .exited => none

/-- An exporter's goroutine calls `Export`. -/
def startExport (cfg : Config) (s : State) (k e : ℕ) : Option State :=
  match (s.workers k).pc with
  | .exporting job status =>
    if e < cfg.exporters ∧ status e = .pending then
      some ((s.workerTo k (.exporting job (Function.update status e .running))).emit
        (.exportStarted k e (s.workers k).batch))
    else none
  | _ => none

/-- `Export` returns, or panics and is recovered. -/
def finishExport (s : State) (k e : ℕ) (failed : Bool) : Option State :=
  match (s.workers k).pc with
  | .exporting job status =>
    if status e = .running then
      let s' := (s.workerTo k
        (.exporting job (Function.update status e (.returned failed)))).emit
        (.exportReturned k e (s.workers k).batch failed)
      some (if failed then { s' with
          stats := { s.stats with
            errors := s.stats.errors + 1
            exporterErrors := Function.update s.stats.exporterErrors e
              (s.stats.exporterErrors e + 1) } }
        else s')
    else none
  | _ => none

/-! ### Flush and Shutdown -/

/-- The call returns `err`; a `Shutdown` that ran the function of `shutdownOnce`
completes it. -/
def State.returnCall (s : State) (c : Caller) (err : Err) : State :=
  { (s.callTo c (.returned err)).emit (.callReturned c err) with
    onceDone := s.onceDone || s.shutdownOnce = some c }

/-- `broadcast` returns `err` to `Flush` or to `Shutdown`. -/
def State.broadcastReturns (s : State) (c : Caller) (err : Err) : State :=
  match c with
  | .flush _ => s.returnCall c (errorf "flush: " err)
  | .shutdown _ => s.callTo c (.cancel err)

/-- One received acknowledgement. -/
def receiveAck (cfg : Config) (s : State) (c : Caller) (err : Err) : Option State :=
  match (s.calls c).done with
  | [] => none
  | (k, err') :: rest =>
    let got := (s.calls c).got ++ [k]
    let s' := s.setCall c { s.calls c with
      pc := .collect (err ++ err'), done := rest, got := got }
    some (if got.length < cfg.workers then s' else s'.broadcastReturns c (err ++ err'))

/-- A step of `Flush` or `Shutdown`. -/
def callerStep (cfg : Config) (s : State) (c : Caller) (ch : Choice) : Option State :=
  let call := s.calls c
  match call.pc with
  | .notCalled => none
  | .checkClosed =>
    some (if s.closed then s.returnCall c [⟨[], .clientClosed⟩] else s.callTo c .generation)
  | .once =>
    match s.shutdownOnce with
    | none => some { s.callTo c .lock with shutdownOnce := some c }
    | some _ => if s.onceDone then some (s.returnCall c []) else none
  | .lock => some { s.callTo c .acquire with closeMu := { s.closeMu with waiting := true } }
  | .acquire =>
    if s.closeMu.readers = [] then
      some { s.callTo c .close with
        closeMu := { s.closeMu with waiting := false, locked := true } }
    else none
  | .close =>
    some { s.setCall c { call with
        pc := .unlock
        mark := s.ring.ring.writePos
        counted := fun reason => s.taken reason + s.pending reason } with closed := true }
  | .unlock => some { s.callTo c .generation with closeMu := { s.closeMu with locked := false } }
  | .generation =>
    some { s.setCall c { call with pc := .send 0, gen := s.flushGen + 1 } with
      flushGen := s.flushGen + 1 }
  | .send _ =>
    match ch.select with
    | .contextDone =>
      if call.ctxDone then some (s.broadcastReturns c [⟨[], .contextDone⟩]) else none
    | .closed =>
      if s.cancelled then some (s.broadcastReturns c [⟨[], .clientClosed⟩]) else none
    | _ => none
  | .collect err =>
    match ch.select with
    | .ready => receiveAck cfg s c err
    | .contextDone =>
      if call.ctxDone then some (s.broadcastReturns c [⟨[], .contextDone⟩]) else none
    | _ => none
  | .cancel err => some { s.callTo c (.checkContext err) with cancelled := true }
  | .checkContext err =>
    some (s.callTo c (if call.ctxDone then .shutExporter 0 false err else .waitWorkers err))
  | .waitWorkers err =>
    match ch.select with
    | .ready =>
      if (List.range cfg.workers).all fun k => (s.workers k).pc matches .exited then
        some (s.callTo c (.shutExporter 0 false err))
      else none
    | .contextDone =>
      if call.ctxDone then
        some (s.callTo c (.shutExporter 0 false
          (err ++ errorf "wait for workers: " [⟨[], .contextDone⟩])))
      else none
    | _ => none
  | .shutExporter e running err =>
    if cfg.exporters ≤ e then some (s.returnCall c (errorf "pipeline shutdown: " err))
    else if running then
      some (s.callTo c (.shutExporter (e + 1) false
        (if ch.failed then err ++ [⟨[], .exporterShutdown e⟩] else err)))
    else some ((s.callTo c (.shutExporter e true err)).emit (.exporterShutdown e))
  | .returned _ => none

/-- A call of `Flush` or `Shutdown` begins. -/
def startCall (s : State) (c : Caller) : Option State :=
  match (s.calls c).pc with
  | .notCalled =>
    let pc : CallPc := match c with
      | .flush _ => .checkClosed
      | .shutdown _ => .once
    some ((s.setCall c { s.calls c with
      pc := pc
      mark := s.ring.ring.writePos
      counted := fun reason => s.taken reason + s.pending reason }).emit (.called c))
  | _ => none

/-- A call hands its request to worker `k`, which is at its `select`.  The worker
looks at its background failures first, then drains. -/
def requestStep (cfg : Config) (s : State) (c : Caller) (k : ℕ) : Option State :=
  match (s.calls c).pc, (s.workers k).pc with
  | .send k', .select =>
    if k' = k then
      let request : Request := ⟨c, (s.calls c).gen⟩
      some ((s.workerTo k
        (.drainLoop request 0 ((s.workers k).inFlight.since request.gen))).callTo c
        (if k + 1 < cfg.workers then .send (k + 1) else .collect []))
    else none
  | _, _ => none

/-! ### The system -/

/-- Who moves, with the choices of the step. -/
inductive Label
  | record (r : ℕ) (size : ℤ)
  | recorder (r : ℕ) (ch : Choice)
  | worker (k : ℕ) (ch : Choice)
  | startExport (k e : ℕ)
  | finishExport (k e : ℕ) (failed : Bool)
  | tick (k : ℕ)
  | call (c : Caller)
  | caller (c : Caller) (ch : Choice)
  | request (c : Caller) (k : ℕ)
  | contextEnds (c : Caller)

/-- A `Record` call begins. -/
def startRecord (s : State) (r : ℕ) (size : ℤ) : Option State :=
  match (s.recorders r).pc with
  | .notCalled => some ((s.setRecorder r ⟨.rlock, size⟩).emit (.recordCalled r))
  | _ => none

/-- **One step of the pipeline.** -/
def step (cfg : Config) (s : State) : Label → Option State
  | .record r size => startRecord s r size
  | .recorder r ch => recorderStep cfg s r ch
  | .worker k ch => if k < cfg.workers then workerStep cfg s k ch else none
  | .startExport k e => if k < cfg.workers then startExport cfg s k e else none
  | .finishExport k e failed => if k < cfg.workers then finishExport s k e failed else none
  | .tick k => some (s.setWorker k { s.workers k with tick := true })
  | .call c => startCall s c
  | .caller c ch => callerStep cfg s c ch
  | .request c k => if k < cfg.workers then requestStep cfg s c k else none
  | .contextEnds c =>
    some ((s.setCall c { s.calls c with ctxDone := true }).emit (.contextEnded c))

/-- The runs of a started pipeline. -/
def pipelineSystem (cfg : Config) : TransitionSystem State Label where
  init := State.init cfg
  step := step cfg

end ConvoyStats.Pipeline
