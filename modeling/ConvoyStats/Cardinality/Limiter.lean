import Mathlib.Data.List.AList
import Mathlib.Data.Finset.Basic
import ConvoyStats.Library.TransitionSystem
import ConvoyStats.Cardinality.Tags

/-!
# The cardinality limiter

`admit`, `commit` and `release` of `cardinality.go`, as `admitAndEnqueue` calls them, by any
number of goroutines.  What `mu` guards (`count` and `reserved`) nobody else sees while it
is held, so a critical section is one step, with one exception: `commit` stores the key in
`admitted`, which others load without the lock, before it gives its reservation back.

Whether `enqueue` takes the observation is a choice of the step.
-/

namespace ConvoyStats.Cardinality

variable {Other Distinct : Type}

/-- `defaultMaxCardinality`. -/
def defaultMaxCardinality : ℤ := 2000

/-- The limit `admit` applies. -/
def limitOf (limit : ℤ) : ℤ := if limit ≤ 0 then defaultMaxCardinality else limit

/-! ### The series of a metric -/

/-- `metricSeries`.  `mu` is the call that holds the mutex between two steps. -/
structure MetricSeries (Distinct : Type) where
  admitted : Finset Distinct
  mu : Option ℕ
  count : ℤ
  reserved : AList fun _ : Distinct => ℤ

/-- The zero value, which `LoadOrStore` stores. -/
def MetricSeries.zero : MetricSeries Distinct := ⟨∅, none, 0, ∅⟩

namespace MetricSeries

variable [DecidableEq Distinct] (series : MetricSeries Distinct) (key : Distinct)

/-- `reserved[key]`. -/
def reservations : ℤ := (series.reserved.lookup key).getD 0

/-- The critical section of `admit`: the series after it and whether the call holds a
reservation, or `none` for `ErrCardinalityLimit`. -/
def reserve (limit : ℤ) : Option (MetricSeries Distinct × Bool) :=
  if key ∈ series.admitted then some (series, false)
  else if series.reservations key = 0 then
    if limit ≤ series.count then none
    else
      some ({ series with
        count := series.count + 1
        reserved := series.reserved.insert key (series.reservations key + 1) }, true)
  else
    some ({ series with
      reserved := series.reserved.insert key (series.reservations key + 1) }, true)

/-- `unreserve`. -/
def unreserve : MetricSeries Distinct :=
  let n := series.reservations key - 1
  { series with
    reserved := if n = 0 then series.reserved.erase key else series.reserved.insert key n }

/-- `commit` up to the store, with the mutex held by the call. -/
def store (call : ℕ) : MetricSeries Distinct :=
  { series with admitted := insert key series.admitted, mu := some call }

/-- The rest of `commit`. -/
def finishCommit : MetricSeries Distinct := { series.unreserve key with mu := none }

/-- `release`. -/
def release : MetricSeries Distinct :=
  let series := series.unreserve key
  if key ∉ series.admitted ∧ series.reservations key = 0 then
    { series with count := series.count - 1 }
  else series

end MetricSeries

/-! ### The limiter and its callers -/

/-- What `admitAndEnqueue` returns. -/
inductive RecordError
  | invalidTagKey (key : Bytes)
  | cardinalityLimit
  | notEnqueued
  deriving DecidableEq

/-- Where a call of `admitAndEnqueue` is.  `reserved` tells whether its admission has a
series, that is whether it holds a reservation. -/
inductive Pc
  /-- The first `admitted.Load`. -/
  | load
  /-- The critical section of `admit`. -/
  | reserve
  | enqueue (reserved : Bool)
  /-- `commit`: the trimmed labels are counted. -/
  | commit (reserved : Bool)
  /-- `commit`: lock and `admitted.Store`. -/
  | store
  /-- `commit`: `unreserve` and unlock. -/
  | unreserve
  | release (reserved : Bool)
  | returned (result : Option RecordError)
  deriving DecidableEq

/-- A call of `admitAndEnqueue`. -/
structure Call (Distinct : Type) where
  name : String
  key : Distinct
  labelsDropped : ℕ
  pc : Pc

/-- The indexes of `pending`. -/
inductive DropReason
  | labelLimit
  | seriesLimit
  deriving DecidableEq

/-- `cardinalityLimiter` and the calls made so far. -/
structure State (Distinct : Type) where
  metrics : String → MetricSeries Distinct
  pending : DropReason → ℕ
  total : ℕ
  calls : List (Call Distinct)

/-- `drop`. -/
def State.drop (s : State Distinct) (reason : DropReason) (n : ℕ) : State Distinct :=
  { s with
    pending := Function.update s.pending reason (s.pending reason + n)
    total := s.total + n }

/-- The call `c` goes on at `pc`. -/
def State.goTo (s : State Distinct) (c : ℕ) (call : Call Distinct) (pc : Pc) : State Distinct :=
  { s with calls := s.calls.set c { call with pc := pc } }

def State.setSeries (s : State Distinct) (name : String) (series : MetricSeries Distinct) :
    State Distinct :=
  { s with metrics := Function.update s.metrics name series }

/-- An observation to be recorded. -/
structure Observation (Other : Type) where
  name : String
  attributes : List (KeyValue Other)

/-- The steps: a call is made, or the call `c` takes its next step, with `accepts` the answer
of `enqueue`. -/
inductive Label (Other : Type)
  | call (observation : Observation Other)
  | step (c : ℕ) (accepts : Bool)

section

variable [DecidableEq Distinct] (limit : ℤ)

/-- The next step of the call `c`. -/
def callStep (s : State Distinct) (c : ℕ) (call : Call Distinct) (accepts : Bool) :
    Option (State Distinct) :=
  let series := s.metrics call.name
  match call.pc with
  | .load => some (s.goTo c call (if call.key ∈ series.admitted then .enqueue false else .reserve))
  | .reserve =>
    if series.mu = none then
      match series.reserve call.key (limitOf limit) with
      | none => some ((s.drop .seriesLimit 1).goTo c call (.returned (some .cardinalityLimit)))
      | some (series, reserved) =>
        some ((s.setSeries call.name series).goTo c call (.enqueue reserved))
    else none
  | .enqueue reserved =>
    some (s.goTo c call (if accepts then .commit reserved else .release reserved))
  | .commit reserved =>
    let s := if 0 < call.labelsDropped then s.drop .labelLimit call.labelsDropped else s
    some (s.goTo c call (if reserved then .store else .returned none))
  | .store =>
    if series.mu = none then
      some ((s.setSeries call.name (series.store call.key c)).goTo c call .unreserve)
    else none
  | .unreserve =>
    some ((s.setSeries call.name (series.finishCommit call.key)).goTo c call (.returned none))
  | .release false => some (s.goTo c call (.returned (some .notEnqueued)))
  | .release true =>
    if series.mu = none then
      some ((s.setSeries call.name (series.release call.key)).goTo c call
        (.returned (some .notEnqueued)))
    else none
  | .returned _ => none

variable [Inhabited Distinct] (ops : SetOps Other Distinct)

/-- The call made for an observation. -/
def newCall (observation : Observation Other) : Call Distinct :=
  match admitTags ops observation.attributes with
  | .ok tags => ⟨observation.name, tags.key, tags.labelsDropped, .load⟩
  | .error key => ⟨observation.name, default, 0, .returned (some (.invalidTagKey key))⟩

/-- One step. -/
def limiterStep (s : State Distinct) : Label Other → Option (State Distinct)
  | .call observation => some { s with calls := s.calls ++ [newCall ops observation] }
  | .step c accepts => s.calls[c]?.bind fun call => callStep limit s c call accepts

/-- The limiter from its zero value. -/
def limiter : TransitionSystem (State Distinct) (Label Other) where
  init := ⟨fun _ => .zero, fun _ => 0, 0, []⟩
  step := limiterStep limit ops

end

end ConvoyStats.Cardinality
