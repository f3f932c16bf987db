import Mathlib.Algebra.Group.Int.Defs
import ConvoyStats.Library.Processes

/-!
# The circuit breaker

`Call` of `transport/circuit.go`, by any number of goroutines.  Every operation on an atomic
is a step of its own.  What the clock shows and how the function ends are choices of the step;
a function that panics takes `Call` with it, which has no deferred call, and whoever recovers
the panic goes on using the breaker.

The counters wrap as in Go: `failures` and `halfOpenCount` are 32 bits wide, the rest 64.
-/

namespace ConvoyStats.Transport.Circuit

/-- `CircuitState`. -/
inductive CircuitState
  | closed
  | open
  | halfOpen
  deriving DecidableEq

/-- The configuration of a `CircuitBreaker`. -/
structure BreakerConfig where
  threshold : ℤ
  timeout : ℤ
  halfOpenMax : ℤ

/-- `NewCircuitBreaker`: the configuration of a new breaker. -/
def newCircuitBreaker (threshold timeout : ℤ) : BreakerConfig where
  threshold := if threshold ≤ 0 then 5 else threshold
  timeout := if timeout ≤ 0 then 10 * 10 ^ 9 else timeout
  halfOpenMax := 3

/-- The state of a `CircuitBreaker`. -/
structure Breaker where
  state : CircuitState
  failures : Int32
  /-- In nanoseconds. -/
  lastFailTime : ℤ
  halfOpenCount : Int32
  totalSuccess : UInt64
  totalFailures : UInt64
  totalRejected : UInt64
  stateChanges : UInt64
  deriving DecidableEq

/-- The state of a new breaker. -/
def Breaker.new : Breaker := ⟨.closed, 0, 0, 0, 0, 0, 0, 0⟩

/-- `time.Since`, which is cut off at the ends of a `Duration`. -/
def since (now last : ℤ) : ℤ := max (-2 ^ 63) (min (2 ^ 63 - 1) (now - last))

/-! ### Calls -/

/-- How the function of a call ends. -/
inductive FnEnd
  | ok
  | err
  | panic
  deriving DecidableEq

/-- How a call ends. -/
inductive CallEnd
  | ok
  | err
  /-- `ErrCircuitOpen`. -/
  | circuitOpen
  | panicked
  deriving DecidableEq

/-- Where a call is: what it does next. -/
inductive CallPc
  /-- `allowRequest` loads `state`. -/
  | allowLoad
  /-- It has found it open and loads `lastFailTime`. -/
  | allowLastFail
  /-- The time is over and it swaps open for half-open. -/
  | allowSwap
  /-- It has, and counts the change of state. -/
  | allowChanged
  /-- It sets `halfOpenCount` back. -/
  | allowReset
  /-- It has found it half-open and adds to `halfOpenCount`. -/
  | allowCount
  /-- `allowRequest` has returned false. -/
  | reject
  /-- `allowRequest` has returned true and the function runs.  `moved`: this call has swapped
  open for half-open. -/
  | running (moved : Bool)
  /-- `recordSuccess` adds to `totalSuccess`. -/
  | successTotal
  | successLoad
  /-- It has found half-open and swaps it for closed. -/
  | successSwap
  /-- It sets `failures` back; `changed`: after the swap. -/
  | successReset (changed : Bool)
  | successChanged
  /-- `recordFailure` adds to `totalFailures`. -/
  | failureTotal
  | failureTime
  | failureLoad
  /-- It has found `state` and adds to `failures`. -/
  | failureCount (state : CircuitState)
  /-- It swaps `state` for open. -/
  | failureSwap (state : CircuitState)
  | failureChanged
  | returned (result : CallEnd)
  deriving DecidableEq

/-- What a step is given from outside. -/
inductive CallInput
  | none
  /-- What the clock shows. -/
  | clock (now : ℤ)
  /-- How the function ends. -/
  | ends (how : FnEnd)
  deriving DecidableEq

/-- The way of a failure after `failures.Add`. -/
def afterCount (cfg : BreakerConfig) (state : CircuitState) (failures : Int32) : CallPc :=
  if state = .halfOpen then .failureSwap .halfOpen
  else if state = .closed ∧ Int32.ofInt cfg.threshold ≤ failures then .failureSwap .closed
  else .returned .err

/-- A step of a call. -/
def callStep (cfg : BreakerConfig) (b : Breaker) : CallPc → CallInput → Option (Breaker × CallPc)
  | .allowLoad, .none =>
    match b.state with
    | .closed => some (b, .running false)
    | .open => some (b, .allowLastFail)
    | .halfOpen => some (b, .allowCount)
  | .allowLastFail, .clock now =>
    if cfg.timeout < since now b.lastFailTime then some (b, .allowSwap) else some (b, .reject)
  | .allowSwap, .none =>
    -- `allowRequest` returns true also where another call has made the swap.
    if b.state = .open then some ({ b with state := .halfOpen }, .allowChanged)
    else some (b, .running false)
  | .allowChanged, .none => some ({ b with stateChanges := b.stateChanges + 1 }, .allowReset)
  | .allowReset, .none => some ({ b with halfOpenCount := 0 }, .running true)
  | .allowCount, .none =>
    let count := b.halfOpenCount + 1
    some ({ b with halfOpenCount := count },
      if count ≤ Int32.ofInt cfg.halfOpenMax then .running false else .reject)
  | .reject, .none =>
    some ({ b with totalRejected := b.totalRejected + 1 }, .returned .circuitOpen)
  | .running _, .ends how =>
    match how with
    | .ok => some (b, .successTotal)
    | .err => some (b, .failureTotal)
    | .panic => some (b, .returned .panicked)
  | .successTotal, .none => some ({ b with totalSuccess := b.totalSuccess + 1 }, .successLoad)
  | .successLoad, .none =>
    match b.state with
    | .halfOpen => some (b, .successSwap)
    | .closed => some (b, .successReset false)
    | .open => some (b, .returned .ok)
  | .successSwap, .none =>
    if b.state = .halfOpen then some ({ b with state := .closed }, .successReset true)
    else some (b, .returned .ok)
  | .successReset changed, .none =>
    some ({ b with failures := 0 }, if changed then .successChanged else .returned .ok)
  | .successChanged, .none => some ({ b with stateChanges := b.stateChanges + 1 }, .returned .ok)
  | .failureTotal, .none => some ({ b with totalFailures := b.totalFailures + 1 }, .failureTime)
  | .failureTime, .clock now => some ({ b with lastFailTime := now }, .failureLoad)
  | .failureLoad, .none => some (b, .failureCount b.state)
  | .failureCount state, .none =>
    let failures := b.failures + 1
    some ({ b with failures := failures }, afterCount cfg state failures)
  | .failureSwap state, .none =>
    if b.state = state then some ({ b with state := .open }, .failureChanged)
    else some (b, .returned .err)
  | .failureChanged, .none => some ({ b with stateChanges := b.stateChanges + 1 }, .returned .err)
  | _, _ => none

/-- `Call`. -/
def call (cfg : BreakerConfig) : Process Breaker Unit CallPc CallInput where
  start _ := .allowLoad
  step _ := callStep cfg

/-- A breaker and the calls on it. -/
def breaker (cfg : BreakerConfig) :
    TransitionSystem (Concurrent Breaker CallPc) (ConcurrentLabel Unit CallInput) :=
  (call cfg).concurrent .new

/-- `allowRequest` has let the call through, and the call has not ended. -/
def CallPc.isOut : CallPc → Bool
  | .allowLoad | .allowLastFail | .allowSwap | .allowCount | .reject | .returned _ => false
  | _ => true

end ConvoyStats.Transport.Circuit
