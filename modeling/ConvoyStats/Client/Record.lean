import ConvoyStats.Cardinality.Admission

/-!
# Recording a metric

`Client.record` of `client.go`, the one path by which a metric gets from its caller to the limiter
and the buffer, with `Pipeline.Record` of `pipeline.go` behind it.  What the call finds there
(whether the client is closed, what the rate limiter answers, the limiter, and whether the buffer
takes the metric) is its `Attempt`.  Of the metric there are the two fields that `record` and
`admit` change: its name, which is prefixed for the recording and restored where it fails, and its
attributes.  The version gauges that a root client reports after its first recording are recordings
of their own.
-/

namespace ConvoyStats

open Cardinality

variable {Other Distinct : Type}

/-- `Client`: whether it was created disabled, and the prefix and the tags of the view it is. -/
structure Client (Other : Type) where
  disabled : Bool
  namePrefix : String
  tags : List (KeyValue Other)

namespace Client

/-! ### The metric that is handed on -/

/-- `MetricOption`. -/
abbrev MetricOption (Other : Type) := Observation Other → Observation Other

/-- `withKeyValues`. -/
def withKeyValues (attrs : List (KeyValue Other)) : MetricOption Other :=
  fun m => { m with attributes := m.attributes ++ attrs }

/-- `joinName`. -/
def joinName (parts : List String) : String := ".".intercalate (parts.filter (· ≠ ""))

/-- `validateMetricName`: the text that `ErrInvalidConfig` is wrapped with. -/
def validateMetricName (name : String) : Option String :=
  if name = "" then some "metric name cannot be empty"
  else if 256 < name.utf8ByteSize then
    some "metric name exceeds maximum length (256 characters)"
  else none

/-- `resolveAttrs`, with the tags that the context carries. -/
def resolveAttrs (c : Client Other) (context : Option (List (KeyValue Other)))
    (existing : List (KeyValue Other)) : List (KeyValue Other) :=
  match context with
  | some tags => c.tags ++ (tags ++ existing)
  | none => c.tags ++ existing

/-- The metric as `record` hands it to the pipeline. -/
def prepare (c : Client Other) (context : Option (List (KeyValue Other))) (m : Observation Other)
    (opts : List (MetricOption Other)) : Observation Other :=
  opts.foldl (fun m opt => opt m)
    ⟨joinName [c.namePrefix, m.name], c.resolveAttrs context m.attributes⟩

/-! ### The recording -/

/-- What a recording finds: whether the client is closed and the pipeline shut down, the answer of
the rate limiter, the limiter, and the answer of `enqueue`. -/
structure Attempt (Distinct : Type) where
  closed : Bool
  shutdown : Bool
  allow : Bool
  limiter : State Distinct
  enqueue : Option EnqueueError

/-- The error that a recording returns. -/
inductive RecordFailure
  | clientClosed
  | invalidConfig (text : String)
  | rateLimitExceeded
  | admission (err : AdmitError)
  deriving DecidableEq

/-- What a recording leaves: the metric of the caller, the limiter, the error, and the metric that
is in the buffer. -/
structure Outcome (Other Distinct : Type) where
  metric : Observation Other
  limiter : State Distinct
  err : Option RecordFailure
  recorded : Option (Observation Other)

section Record

variable [DecidableEq Distinct] (limit : ℤ) (ops : SetOps Other Distinct)

/-- `Pipeline.Record`: the limiter, the metric and the error. -/
def pipelineRecord (attempt : Attempt Distinct) (m : Observation Other) :
    State Distinct × Observation Other × Option RecordFailure :=
  if attempt.shutdown then (attempt.limiter, m, some .clientClosed)
  else if !attempt.allow then (attempt.limiter, m, some .rateLimitExceeded)
  else
    let r := attempt.limiter.admitAndEnqueue limit ops m attempt.enqueue
    (r.1, r.2.1, r.2.2.map .admission)

/-- `record`. -/
def record (c : Client Other) (context : Option (List (KeyValue Other))) (m : Observation Other)
    (opts : List (MetricOption Other)) (attempt : Attempt Distinct) : Outcome Other Distinct :=
  if c.disabled then ⟨m, attempt.limiter, none, none⟩
  else if attempt.closed then ⟨m, attempt.limiter, some .clientClosed, none⟩
  else
    match validateMetricName (joinName [c.namePrefix, m.name]) with
    | some text => ⟨m, attempt.limiter, some (.invalidConfig text), none⟩
    | none =>
      match pipelineRecord limit ops attempt (c.prepare context m opts) with
      | (limiter, m', some err) => ⟨{ m' with name := m.name }, limiter, some err, none⟩
      | (limiter, m', none) => ⟨m', limiter, none, some m'⟩

/-- `RecordMetric`. -/
def recordMetric (c : Client Other) (context : Option (List (KeyValue Other)))
    (m : Observation Other)
    (attempt : Attempt Distinct) : Outcome Other Distinct :=
  c.record limit ops context m [] attempt

end Record

/-! ### The attributes -/

/-- The attributes given for a recording: view tags, context tags, the metric's own, and those of
the options. -/
def given (c : Client Other) (context : Option (List (KeyValue Other))) (m : Observation Other)
    (options : List (List (KeyValue Other))) : List (KeyValue Other) :=
  c.tags ++ context.getD [] ++ m.attributes ++ options.flatten

theorem prepare_eq (c : Client Other) (context : Option (List (KeyValue Other)))
    (m : Observation Other) (options : List (List (KeyValue Other))) :
    c.prepare context m (options.map withKeyValues) =
      ⟨joinName [c.namePrefix, m.name], c.given context m options⟩ := by
  have happly : ∀ (options : List (List (KeyValue Other))) (m : Observation Other),
      (options.map withKeyValues).foldl (fun m opt => opt m) m =
        ⟨m.name, m.attributes ++ options.flatten⟩ := by
    intro options
    induction options with
    | nil =>
      intro m
      simp
    | cons attrs options ih =>
      intro m
      rw [List.map_cons, List.foldl_cons, ih, List.flatten_cons, ← List.append_assoc]
      rfl
  rw [prepare, happly, given]
  cases context <;> simp [resolveAttrs]

section Canonical

variable [DecidableEq Distinct] {ops : SetOps Other Distinct}

/-- **The canonical form of the attributes.**  For attributes with valid keys, what `admit` writes
back is sorted by key, each key once; its keys are the ten smallest of those given, each with the
last value given for it, and strings are cut to their longest prefix of 256 characters.  Another
`admit` changes nothing, and neither does another order of the attributes in which those with one
key stand as before. -/
theorem admit_writes_canonical_form (hops : ops.KeepsLast) (limit : ℤ) (s : State Distinct)
    (c : Client Other) (context : Option (List (KeyValue Other))) (m : Observation Other)
    (options : List (List (KeyValue Other)))
    (hvalid : ∀ kv ∈ c.given context m options, validTagKey kv.key = true) :
    ∃ written,
      (s.admitMetric limit ops (c.prepare context m (options.map withKeyValues))).2.1.attributes =
        written ∧
      (written.Pairwise fun kv kv' => kv.key < kv'.key) ∧
      (∀ key, key ∈ written.map KeyValue.key ↔ key ∈ (c.given context m options).map KeyValue.key ∧
        ((c.given context m options).map KeyValue.key).dedup.countP (· < key) < 10) ∧
      (∀ kv ∈ written, ∃ last,
        ((c.given context m options).filter fun kv' => kv'.key = kv.key).getLast? = some last ∧
          last.value.Capped kv.value) ∧
      (∀ (s' : State Distinct) (name : String),
        (s'.admitMetric limit ops ⟨name, written⟩).2.1.attributes = written) ∧
      ∀ attrs : List (KeyValue Other),
        (∀ key, (attrs.filter fun kv => kv.key = key) =
          (c.given context m options).filter fun kv => kv.key = key) →
        s.admitMetric limit ops
            { c.prepare context m (options.map withKeyValues) with attributes := attrs } =
          s.admitMetric limit ops (c.prepare context m (options.map withKeyValues)) := by
  rw [prepare_eq]
  refine ⟨keptTags (c.given context m options), ?_, sortedBy_keptTags _,
    fun key => mem_keys_keptTags, fun kv hkv => ?_, fun s' name => ?_,
    fun attrs hattrs => admit_congr hops s _ hvalid hattrs⟩
  · rw [admit_metric hops s _ hvalid]
  · obtain ⟨last, hlast, rfl⟩ := exists_last_of_mem_keptTags hkv
    exact ⟨last, hlast, capped_capValue last⟩
  · have hkept : ∀ kv ∈ keptTags (c.given context m options), validTagKey kv.key = true := by
      intro kv hkv
      obtain ⟨kv', hmem, hkey⟩ := List.mem_map.mp (key_mem_of_mem_keptTags hkv)
      rw [← hkey]
      exact hvalid kv' hmem
    rw [admit_metric hops s' ⟨name, keptTags (c.given context m options)⟩ hkept]
    exact keptTags_keptTags _

/-- Attribute sets that are their own keys. -/
def listOps : SetOps Empty (List (KeyValue Empty)) := ⟨Keyed.canonical KeyValue.key, id⟩

theorem keepsLast_listOps : listOps.KeepsLast := fun _ => rfl

/-- A view with the tag `b`. -/
def apiView : Client Empty := ⟨false, "api", [⟨[98], .string [49]⟩]⟩

/-- A metric with the attributes `a` and another `b`. -/
def apiRequest : Observation Empty := ⟨"req", [⟨[97], .string [50]⟩, ⟨[98], .string [51]⟩]⟩

theorem admit_writes_canonical_form_ab :
    ((limiter 0 listOps).init.admitMetric 0 listOps
      (apiView.prepare none apiRequest [])).2.1.attributes =
        apiRequest.attributes ∧
      apiRequest.attributes.Pairwise fun kv kv' => kv.key < kv'.key := by
  have hwritten : ((limiter 0 listOps).init.admitMetric 0 listOps
      (apiView.prepare none apiRequest [])).2.1.attributes = apiRequest.attributes := by
    decide +kernel
  obtain ⟨written, heq, hsorted, -⟩ := admit_writes_canonical_form keepsLast_listOps 0
    (limiter 0 listOps).init apiView none apiRequest [] (by decide)
  exact ⟨hwritten, hwritten ▸ heq ▸ hsorted⟩

end Canonical

end Client

end ConvoyStats
