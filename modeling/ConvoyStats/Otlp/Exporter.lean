import ConvoyStats.Library.TransitionSystem
import ConvoyStats.Otlp.Convert
import ConvoyStats.Otlp.Accumulator

/-!
# The OTLP exporter

`Export` and `ExportIdle` of `exporter.go`, as steps on the committed state of the series.
The exporter holds its lock from `accumulate` until the state is committed, so that its
calls take effect one after the other in the order they get the lock.

The log keeps what every call came to.  Whether the collector accepted an export changes
nothing but the result of the call: the state is committed either way.
-/

namespace ConvoyStats.Otlp

open Models

variable {KeyValue AttributeSet Distinct : Type}

/-- What the exporter does not choose: the clock, the order in which it ranges over the
series, and whether the transport fails. -/
structure Ambient (Distinct : Type) where
  now : Time
  order : List (HistogramKey Distinct)
  sendFails : Bool

/-- A call. -/
inductive ExporterCall (KeyValue Distinct : Type)
  | export (metrics : List (Metric KeyValue)) (ambient : Ambient Distinct)
  | exportIdle (ambient : Ambient Distinct)

/-- What a call comes to. -/
inductive Outcome (AttributeSet : Type)
  /-- The call returned at once. -/
  | skipped
  /-- There was nothing to send. -/
  | nothing
  /-- The transport got `metrics`, and failed to deliver them if `failed`. -/
  | sent (metrics : List (Metrics AttributeSet)) (failed : Bool)
  /-- An index out of range, with nothing sent or committed. -/
  | panicked
  deriving DecidableEq

/-- A call that is over. -/
structure ExportEntry (KeyValue AttributeSet : Type) where
  metrics : List (Metric KeyValue)
  now : Time
  outcome : Outcome AttributeSet
  deriving DecidableEq

/-- The exporter, with the log of its calls. -/
structure ExporterState (KeyValue AttributeSet Distinct : Type) where
  series : SeriesStates AttributeSet Distinct
  log : List (ExportEntry KeyValue AttributeSet)

/-- The metrics a call exports, or `none` where it returns at once. -/
def ExporterCall.batch : ExporterCall KeyValue Distinct → Option (List (Metric KeyValue))
  | .export [] _ => none
  | .export metrics _ => some metrics
  | .exportIdle _ => some []

def ExporterCall.ambient : ExporterCall KeyValue Distinct → Ambient Distinct
  | .export _ ambient | .exportIdle ambient => ambient

variable [DecidableEq Distinct] [Inhabited AttributeSet]
variable (sdk : Sdk KeyValue AttributeSet Distinct) (config : OTLPConfig)

/-- `export`, with the order it ranges over the series in: the state after it and what it
came to.  There is no such step if the order is not one of the series it has. -/
def exportMetrics (series : SeriesStates AttributeSet Distinct) (metrics : List (Metric KeyValue))
    (ambient : Ambient Distinct) :
    Option (SeriesStates AttributeSet Distinct × Outcome AttributeSet) :=
  if !config.enabled then some (series, .skipped)
  else
    match accumulateAll sdk config series (toResourceMetrics sdk config metrics) with
    | none => some (series, .panicked)
    | some loop =>
      if ambient.order.Perm loop.acc.next.keys then
        let (acc, merged) := unobserved (accumulationOf config series) loop.acc loop.merged
          ambient.now ambient.order
        if metrics.isEmpty && merged.isEmpty then some (series, .nothing)
        else some (acc.next, .sent merged ambient.sendFails)
      else none

/-- One call. -/
def exporterStep (s : ExporterState KeyValue AttributeSet Distinct)
    (call : ExporterCall KeyValue Distinct) :
    Option (ExporterState KeyValue AttributeSet Distinct) :=
  match call.batch with
  | none => some { s with log := s.log ++ [⟨[], call.ambient.now, .skipped⟩] }
  | some metrics =>
    (exportMetrics sdk config s.series metrics call.ambient).map fun result =>
      ⟨result.1, s.log ++ [⟨metrics, call.ambient.now, result.2⟩]⟩

/-- The exporter as `NewExporter` makes it, and its calls. -/
def exporter : TransitionSystem (ExporterState KeyValue AttributeSet Distinct)
    (ExporterCall KeyValue Distinct) where
  init := ⟨∅, []⟩
  step := exporterStep sdk config

end ConvoyStats.Otlp
