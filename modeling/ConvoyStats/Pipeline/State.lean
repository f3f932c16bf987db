import ConvoyStats.Transport.RingBuffer

/-!
# The pipeline: data and state

`Pipeline` moves observations from any number of `Record` calls through the ring
to a fixed pool of workers, which hand them to the exporters in batches.  `Flush`
and `Shutdown` reach the workers through one unbuffered channel each.

This module is the data: who takes part, where each party can be between two
steps, and what they share.  A party's program point carries the local variables
live there, as in the ring.  The ring is part of the state with all its atomic
accesses; `Goroutine` names the goroutines that call it.

Observations are numbered by the `Record` call that brought them in, so an
observation is accepted at most once and the number stands for the metric
object.  What the steps do is in `ConvoyStats.Pipeline.Steps`.

Fields marked *auxiliary* are not in the code.  They record what happened for the
theorems to speak about and no step depends on them.
-/

namespace ConvoyStats.Pipeline

open Transport

/-! ### Participants -/

/-- A call of `Flush` or of `Shutdown`. -/
inductive Caller
  | flush (n : ℕ)
  | shutdown (n : ℕ)
  deriving DecidableEq

/-- `stop` of the request a call sends. -/
def Caller.stop : Caller → Bool
  | .flush _ => false
  | .shutdown _ => true

/-- The goroutines that use the ring: a `Record` call, and a worker. -/
inductive Goroutine
  | recorder (r : ℕ)
  | worker (k : ℕ)
  deriving DecidableEq

/-- The reasons for which labels and series are dropped. -/
inductive DropReason
  | labelLimit
  | seriesLimit
  deriving DecidableEq

/-- A metric of a worker's batch: an observation, or the drop counter of one
reason with the value `count`.  The drops of a reason are numbered in the order
they were counted; `first` is the number of the first one this entry carries
(auxiliary). -/
inductive Entry
  | observation (r : ℕ)
  | dropCount (reason : DropReason) (first count : ℕ)
  deriving DecidableEq

/-! ### Errors -/

/-- What an error of `Flush` or `Shutdown` comes from. -/
inductive Cause
  | contextDone
  | clientClosed
  | export (e : ℕ)
  | exportIdle (e : ℕ)
  | exporterShutdown (e : ℕ)
  deriving DecidableEq

/-- One error with the texts it was wrapped in, outermost first. -/
structure Fault where
  wraps : List String
  cause : Cause
  deriving DecidableEq

/-- A Go error: `[]` is nil, and `errors.Join` is concatenation. -/
abbrev Err := List Fault

/-- `fmt.Errorf(text + "%w", err)` of a non-nil error; nil stays nil, as every use
in the code checks for it. -/
def errorf (text : String) (err : Err) : Err :=
  err.map fun fault => { fault with wraps := text :: fault.wraps }

@[simp] theorem errorf_eq_nil {text : String} {err : Err} : errorf text err = [] ↔ err = [] :=
  List.map_eq_nil_iff

/-- The sentinel errors of `Record`. -/
inductive RecordError
  | clientClosed
  | rateLimitExceeded
  | invalidTagKey
  | cardinalityLimit
  | memoryLimit
  | bufferFull
  deriving DecidableEq

/-- `exportFailure`: a worker's latest failed background export and the `flushGen`
value when it ended. -/
structure ExportFailure where
  err : Err
  gen : ℕ

/-- `exportFailure.record`. -/
def ExportFailure.record (f : ExportFailure) (err : Err) (gen : ℕ) : ExportFailure :=
  if err = [] then f else ⟨err, gen⟩

/-- `exportFailure.since`. -/
def ExportFailure.since (f : ExportFailure) (gen : ℕ) : Err :=
  if f.err = [] ∨ f.gen < gen then []
  else errorf "export in progress during flush failed: " f.err

/-! ### Workers -/

/-- `flushRequest`: the call it comes from stands for its context, its `stop` flag
and its `done` channel. -/
structure Request where
  caller : Caller
  gen : ℕ

/-- What a worker pops for: its own loop, or the drain of a request with the
number of items popped and the errors so far. -/
inductive PopJob
  | background
  | drain (request : Request) (popped : ℕ) (err : Err)

/-- What a worker appends the drop counters for. -/
inductive CountJob
  | tick
  | drain (request : Request) (err : Err)

/-- What a worker exports a batch for: its own loop, a full chunk of a drain, or
the last batch of a drain. -/
inductive ExportJob
  | background
  | chunk (request : Request) (popped : ℕ) (err : Err)
  | last (request : Request) (err : Err)

/-- One exporter's `Export` of the current batch. -/
inductive ExportStatus
  | pending
  | running
  | returned (failed : Bool)
  deriving DecidableEq

/-- Where a worker is. -/
inductive WorkerPc
  /-- The `select` at the head of the loop. -/
  | select
  /-- `buffer.Len()` of adaptive batching. -/
  | lenWrite
  | lenRead (writePos : ℕ)
  /-- `PopBatch(max)`, with the items popped so far. -/
  | pop (job : PopJob) (max : ℕ) (items : List ℕ)
  /-- `appendPopped`, with the items still to append. -/
  | append (job : PopJob) (items : List ℕ)
  /-- `appendDropCounters`, about to take the count of one reason. -/
  | dropCounters (job : CountJob) (reason : DropReason)
  /-- `processBatchWith`, waiting for every exporter. -/
  | exporting (job : ExportJob) (status : ℕ → ExportStatus)
  /-- `inFlight.record` after a background export. -/
  | recordFailure (err : Err)
  /-- `exportIdleInBackground`, at exporter `e`. -/
  | idle (e : ℕ) (running : Bool) (err : Err)
  /-- The condition of the loop of `drain`. -/
  | drainLoop (request : Request) (popped : ℕ) (err : Err)
  /-- `request.done <- …`. -/
  | ack (request : Request) (err : Err)
  /-- The pipeline context is done: the batch is dropped. -/
  | dropping
  /-- About to return. -/
  | leaving
  | exited

/-- A worker. -/
structure Worker where
  pc : WorkerPc
  batch : List Entry
  /-- `cap(batch)`. -/
  batchCap : ℕ
  inFlight : ExportFailure
  /-- A tick waits in the ticker's channel. -/
  tick : Bool
  /-- Auxiliary: everything the worker has taken, in order. -/
  intake : List Entry
  /-- Auxiliary: the batches whose export has ended. -/
  exported : List (List Entry)
  /-- Auxiliary: the entries dropped on exit. -/
  lost : List Entry

/-- A worker that has just been started. -/
def Worker.init : Worker where
  pc := .select
  batch := []
  batchCap := 100
  inFlight := ⟨[], 0⟩
  tick := false
  intake := []
  exported := []
  lost := []

/-! ### Record calls -/

/-- Where a `Record` call is.  `labels` is `admission.labelsDropped`. -/
inductive RecordPc
  | notCalled
  | rlock
  | checkClosed
  | rateLimit
  | countRateLimited
  | admitSeries
  | dropSeries
  | totalSeries
  | loadMemory (labels : ℕ)
  | casMemory (labels : ℕ) (current : ℤ)
  | countMemory
  | push (labels : ℕ)
  | rollback
  | countFull
  | releaseEvicted (labels old : ℕ)
  | dropLabels (labels : ℕ)
  | totalLabels (labels : ℕ)
  | unlock (result : Option RecordError)
  | returned (result : Option RecordError)

/-- A `Record` call and the estimated size of its metric. -/
structure Recorder where
  pc : RecordPc
  size : ℤ

/-- The outcome of `cardinality.admit`. -/
inductive Admission
  | invalidTagKey
  | seriesLimit
  | admitted (labelsDropped : ℕ)

/-! ### Flush and Shutdown calls -/

/-- Where a `Flush` or `Shutdown` call is. -/
inductive CallPc
  | notCalled
  /-- `Flush`: the check of `shutdownCh`. -/
  | checkClosed
  /-- `Shutdown`: `shutdownOnce.Do`. -/
  | once
  | lock
  | acquire
  | close
  | unlock
  /-- `broadcast`: `flushGen.Add(1)`. -/
  | generation
  /-- `broadcast`: the `select` that sends to worker `k`. -/
  | send (k : ℕ)
  /-- `broadcast`: the `select` that receives acknowledgements. -/
  | collect (err : Err)
  /-- `Shutdown` after its broadcast. -/
  | cancel (err : Err)
  | checkContext (err : Err)
  | waitWorkers (err : Err)
  | shutExporter (e : ℕ) (running : Bool) (err : Err)
  | returned (err : Err)

/-- A `Flush` or `Shutdown` call. -/
structure Call where
  pc : CallPc
  /-- Its context is done. -/
  ctxDone : Bool
  /-- `request.gen`. -/
  gen : ℕ
  /-- The `done` channel; each acknowledgement with the worker it comes from
  (auxiliary). -/
  done : List (ℕ × Err)
  /-- Auxiliary: the workers whose acknowledgements were received. -/
  got : List ℕ
  /-- Auxiliary: `writePos` when the call started; for `Shutdown`, when it closed
  the pipeline. -/
  mark : ℕ
  /-- Auxiliary: the drops of each reason counted by that time. -/
  counted : DropReason → ℕ

/-- A call that has not been made. -/
def Call.init : Call where
  pc := .notCalled
  ctxDone := false
  gen := 0
  done := []
  got := []
  mark := 0
  counted := fun _ => 0

/-- The workers that have acknowledged a call. -/
def Call.acked (call : Call) : List ℕ := call.got ++ call.done.map Prod.fst

/-! ### The shared state -/

/-- `closeMu`: the `Record` calls that hold it for reading, and its writer. -/
structure CloseMutex where
  readers : List ℕ
  waiting : Bool
  locked : Bool

/-- The counters of `PipelineStats`. -/
structure Stats where
  processed : ℕ
  dropped : ℕ
  rateLimited : ℕ
  errors : ℕ
  exporterErrors : ℕ → ℕ
  droppedLabels : ℕ
  memUsage : ℤ

/-- What the log records (auxiliary). -/
inductive Event
  | recordCalled (r : ℕ)
  | recordReturned (r : ℕ) (result : Option RecordError)
  | called (c : Caller)
  | contextEnded (c : Caller)
  /-- A drain leaves its loop because the context of its request ended, with the
  ring not read up to the mark of the call. -/
  | drainStopped (c : Caller) (k : ℕ)
  | callReturned (c : Caller) (err : Err)
  | exportStarted (k e : ℕ) (batch : List Entry)
  | exportReturned (k e : ℕ) (batch : List Entry) (failed : Bool)
  | exportIdleStarted (k e : ℕ)
  | workerExited (k : ℕ)
  | exporterShutdown (e : ℕ)
  deriving DecidableEq

/-- The configuration the pipeline reads.  `ValidateConfig` refuses a pipeline
without workers. -/
structure Config where
  workers : ℕ
  workers_pos : 0 < workers
  bufferSize : Int64
  /-- The number of exporters. -/
  exporters : ℕ
  /-- Which of them implement `IdleExporter`. -/
  idleExporter : ℕ → Bool
  adaptiveBatching : Bool
  dropOldest : Bool
  maxMemoryBytes : ℤ
  /-- A rate limiter is configured. -/
  rateLimiter : Bool

/-- The pipeline. -/
structure State where
  /-- `buffer`. -/
  ring : World Goroutine ℕ
  recorders : ℕ → Recorder
  workers : ℕ → Worker
  calls : Caller → Call
  closeMu : CloseMutex
  /-- `shutdownOnce`: the call that runs its function, and whether it has returned. -/
  shutdownOnce : Option Caller
  onceDone : Bool
  /-- `shutdownCh` is closed. -/
  closed : Bool
  /-- The pipeline context is cancelled. -/
  cancelled : Bool
  flushGen : ℕ
  /-- The drop counts waiting for export. -/
  pending : DropReason → ℕ
  /-- Auxiliary: the drops of each reason taken by workers so far. -/
  taken : DropReason → ℕ
  stats : Stats
  /-- Auxiliary: what has happened, in order. -/
  log : List Event

/-- The pipeline after `Start`. -/
def State.init (cfg : Config) : State where
  ring := World.init Goroutine ℕ cfg.bufferSize
  recorders := fun _ => ⟨.notCalled, 0⟩
  workers := fun _ => Worker.init
  calls := fun _ => Call.init
  closeMu := ⟨[], false, false⟩
  shutdownOnce := none
  onceDone := false
  closed := false
  cancelled := false
  flushGen := 0
  pending := fun _ => 0
  taken := fun _ => 0
  stats := ⟨0, 0, 0, 0, fun _ => 0, 0, 0⟩
  log := []

end ConvoyStats.Pipeline
