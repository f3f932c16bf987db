import ConvoyStats.Library.KeyedSets
import ConvoyStats.Cardinality.Characters
import ConvoyStats.Cardinality.Limiter

/-!
# Admission

`admit`, `commit`, `release` and `admitAndEnqueue` of `cardinality.go` as functions of the limiter
and the metric: what a call does that no other call gets in the way of.  `run_admitAndEnqueue` says
that they are the limiter of `Limiter` with one call on its own.

Of the tags there is a closed form (`admitTags_eq`): `keptTags`, the ten smallest keys with their
last values, cut.  All it takes is that `attribute.NewSet` sorts stably by key and keeps the last
duplicate (`SetOps.KeepsLast`).
-/

namespace ConvoyStats.Cardinality

open List

variable {Other Distinct : Type}

/-! ### The tags that are kept -/

/-- What is assumed of `attribute.NewSet`: it sorts stably by key and keeps the last of the
attributes with one key. -/
def SetOps.KeepsLast (ops : SetOps Other Distinct) : Prop :=
  ∀ attrs, ops.newSet attrs = Keyed.canonical KeyValue.key attrs

/-- The value that is recorded of a value: a string is cut to 256 characters. -/
def Value.Capped : Value Other → Value Other → Prop
  | .string text, .string cut => LongestPrefix maxLabelValueChars text cut
  | .other value, .other value' => value = value'
  | _, _ => False

/-- The ten smallest keys with their last values, cut. -/
def keptTags (attrs : List (KeyValue Other)) : List (KeyValue Other) :=
  (Keyed.canonical KeyValue.key (attrs.map capValue)).take maxLabelsPerObservation

/-- The number of distinct keys. -/
def distinctKeys (attrs : List (KeyValue Other)) : ℕ :=
  (Keyed.canonical KeyValue.key (attrs.map capValue)).length

@[simp] theorem capValue_key (kv : KeyValue Other) : (capValue kv).key = kv.key := by
  rw [capValue]
  split <;> rfl

theorem capValue_capValue (kv : KeyValue Other) : capValue (capValue kv) = capValue kv := by
  obtain ⟨key, text | value⟩ := kv
  · show KeyValue.mk key (.string (capTagValue (capTagValue text))) =
      ⟨key, .string (capTagValue text)⟩
    rw [capTagValue_capTagValue]
  · rfl

theorem capped_capValue (kv : KeyValue Other) : kv.value.Capped (capValue kv).value := by
  obtain ⟨key, text | value⟩ := kv
  · exact capTagValue_longest text
  · rfl

variable {attrs : List (KeyValue Other)}

theorem admitKeys_eq_none : admitKeys attrs = none ↔ ∀ kv ∈ attrs, validTagKey kv.key = true := by
  rw [admitKeys, Option.map_eq_none_iff, find?_eq_none]
  simp

section Kept

variable {attrs attrs' : List (KeyValue Other)} {kv : KeyValue Other} {key : Bytes}

theorem keptTags_eq (attrs : List (KeyValue Other)) :
    keptTags attrs =
      ((Keyed.canonical KeyValue.key attrs).take maxLabelsPerObservation).map capValue := by
  rw [keptTags, Keyed.canonical_map capValue_key, map_take]

theorem sortedBy_keptTags (attrs : List (KeyValue Other)) :
    Keyed.SortedBy KeyValue.key (keptTags attrs) :=
  (Keyed.sortedBy_canonical _).sublist (take_sublist _ _)

theorem length_keptTags (attrs : List (KeyValue Other)) :
    (keptTags attrs).length = min maxLabelsPerObservation (distinctKeys attrs) := length_take

/-- The keys that are kept are the ten smallest. -/
theorem mem_keys_keptTags : key ∈ (keptTags attrs).map KeyValue.key ↔
    key ∈ attrs.map KeyValue.key ∧
      (attrs.map KeyValue.key).dedup.countP (· < key) < maxLabelsPerObservation := by
  rw [keptTags_eq, map_map, ← Keyed.mem_keys_take_canonical]
  simp only [Function.comp_def, capValue_key]

/-- The value that is kept of a key is the last one, cut. -/
theorem exists_last_of_mem_keptTags (h : kv ∈ keptTags attrs) :
    ∃ given, Keyed.last? KeyValue.key attrs kv.key = some given ∧ kv = capValue given := by
  rw [keptTags_eq] at h
  obtain ⟨given, hmem, rfl⟩ := mem_map.mp h
  refine ⟨given, ?_, rfl⟩
  rw [capValue_key]
  exact Keyed.mem_canonical.mp (mem_of_mem_take hmem)

theorem key_mem_of_mem_keptTags (h : kv ∈ keptTags attrs) : kv.key ∈ attrs.map KeyValue.key :=
  (mem_keys_keptTags.mp (mem_map_of_mem h)).1

theorem map_capValue_keptTags (attrs : List (KeyValue Other)) :
    (keptTags attrs).map capValue = keptTags attrs := by
  rw [keptTags_eq, map_map]
  exact map_congr_left fun kv _ => capValue_capValue kv

theorem canonical_keptTags (attrs : List (KeyValue Other)) :
    Keyed.canonical KeyValue.key ((keptTags attrs).map capValue) = keptTags attrs := by
  rw [map_capValue_keptTags, Keyed.canonical_eq_self (sortedBy_keptTags attrs)]

/-- **What is kept stays as it is.** -/
theorem keptTags_keptTags (attrs : List (KeyValue Other)) :
    keptTags (keptTags attrs) = keptTags attrs := by
  rw [keptTags, canonical_keptTags, take_of_length_le]
  rw [length_keptTags]
  exact Nat.min_le_left _ _

/-- What is kept depends on the last values only. -/
theorem canonical_map_capValue_congr
    (h : ∀ key, Keyed.last? KeyValue.key attrs key = Keyed.last? KeyValue.key attrs' key) :
    Keyed.canonical KeyValue.key (attrs.map capValue) =
      Keyed.canonical KeyValue.key (attrs'.map capValue) := by
  rw [Keyed.canonical_map capValue_key, Keyed.canonical_map capValue_key, Keyed.canonical_congr h]

/-! What is kept of a metric is put behind the same tags once more. -/

theorem map_append_keptTags (tags own : List (KeyValue Other)) :
    (tags ++ keptTags (tags ++ own)).map capValue =
      tags.map capValue ++
        (Keyed.canonical KeyValue.key (tags.map capValue ++ own.map capValue)).take
        maxLabelsPerObservation := by
  rw [map_append, map_capValue_keptTags, keptTags, map_append]

/-- With the same tags in front, the same tags are kept. -/
theorem keptTags_append_keptTags (tags own : List (KeyValue Other)) :
    keptTags (tags ++ keptTags (tags ++ own)) = keptTags (tags ++ own) := by
  rw [keptTags, map_append_keptTags, Keyed.take_canonical_append_take, keptTags, map_append]

/-- As many labels are trimmed if those of the metric that were not kept are among the tags in
front, and only then. -/
theorem distinctKeys_append_keptTags (tags own : List (KeyValue Other)) :
    distinctKeys (tags ++ keptTags (tags ++ own)) - maxLabelsPerObservation =
        distinctKeys (tags ++ own) - maxLabelsPerObservation ↔
      ∀ kv ∈ own, kv.key ∈ tags.map KeyValue.key ∨
        ((tags ++ own).map KeyValue.key).dedup.countP (· < kv.key) < maxLabelsPerObservation := by
  have hkept : (Keyed.canonical KeyValue.key (tags.map capValue ++ own.map capValue)).take
      maxLabelsPerObservation = keptTags (tags ++ own) := by
    rw [keptTags, map_append]
  have hkeys : (tags.map capValue).map KeyValue.key = tags.map KeyValue.key := by
    rw [map_map]
    exact map_congr_left fun kv _ => capValue_key kv
  rw [distinctKeys, map_append_keptTags, distinctKeys, map_append,
    Keyed.length_canonical_append_take, hkept, hkeys, forall_mem_map]
  refine forall₂_congr fun kv hkv => ?_
  rw [capValue_key, mem_keys_keptTags]
  exact or_congr_right (and_iff_right (mem_map_of_mem (mem_append_right tags hkv)))

end Kept

/-- **The tags of a metric with valid keys.** -/
theorem admitTags_eq {ops : SetOps Other Distinct} (hops : ops.KeepsLast)
    (hvalid : ∀ kv ∈ attrs, validTagKey kv.key = true) :
    admitTags ops attrs = .ok ⟨keptTags attrs, ops.equivalent (keptTags attrs),
      distinctKeys attrs - maxLabelsPerObservation⟩ := by
  rw [admitTags, admitKeys_eq_none.mpr hvalid]
  dsimp only
  rw [hops]
  split_ifs with hlong
  · have hset : ops.newSet (keptTags attrs) = keptTags attrs :=
      (hops _).trans (Keyed.canonical_eq_self (sortedBy_keptTags attrs))
    show Except.ok (TagSet.mk (keptTags attrs) (ops.equivalent (ops.newSet (keptTags attrs))) _) = _
    rw [hset]
    rfl
  · have hall : keptTags attrs = Keyed.canonical KeyValue.key (attrs.map capValue) :=
      take_of_length_le (Nat.le_of_not_lt hlong)
    have hnone : distinctKeys attrs - maxLabelsPerObservation = 0 :=
      Nat.sub_eq_zero_of_le (Nat.le_of_not_lt hlong)
    rw [hall, hnone]

/-! ### A call on its own -/

/-- `admission`: the metric whose series it has reserved a slot of, if any. -/
structure Admission (Distinct : Type) where
  name : String
  reserved : Bool
  key : Distinct
  labelsDropped : ℕ

/-- The errors of `enqueue`. -/
inductive EnqueueError
  | memoryLimit
  | bufferFull
  deriving DecidableEq

/-- The error that `admitAndEnqueue` returns. -/
inductive AdmitError
  | refused (err : RecordError)
  | enqueue (err : EnqueueError)
  deriving DecidableEq

section Calls

variable [DecidableEq Distinct]

/-- `admit`: the limiter and the metric after it, and the admission or the error. -/
def State.admitMetric (s : State Distinct) (limit : ℤ) (ops : SetOps Other Distinct)
    (m : Observation Other) :
    State Distinct × Observation Other × Except RecordError (Admission Distinct) :=
  match admitTags ops m.attributes with
  | .error key => (s, m, .error (.invalidTagKey key))
  | .ok tags =>
    let m := { m with attributes := tags.attributes }
    if tags.key ∈ (s.metrics m.name).admitted then
      (s, m, .ok ⟨m.name, false, tags.key, tags.labelsDropped⟩)
    else
      match (s.metrics m.name).reserve tags.key (limitOf limit) with
      | none => (s.drop .seriesLimit 1, m, .error .cardinalityLimit)
      | some (series, reserved) =>
        (s.setSeries m.name series, m, .ok ⟨m.name, reserved, tags.key, tags.labelsDropped⟩)

/-- `commit`. -/
def State.commit (s : State Distinct) (a : Admission Distinct) : State Distinct :=
  let s := if 0 < a.labelsDropped then s.drop .labelLimit a.labelsDropped else s
  if a.reserved then
    s.setSeries a.name (((s.metrics a.name).store a.key s.calls.length).finishCommit a.key)
  else s

/-- `release`. -/
def State.release (s : State Distinct) (a : Admission Distinct) : State Distinct :=
  if a.reserved then s.setSeries a.name ((s.metrics a.name).release a.key) else s

/-- `admitAndEnqueue` once the metric is admitted, with the answer of `enqueue`. -/
def State.settle (s : State Distinct) (a : Admission Distinct) (enqueue : Option EnqueueError) :
    State Distinct × Option AdmitError :=
  match enqueue with
  | some err => (s.release a, some (.enqueue err))
  | none => (s.commit a, none)

/-- `admitAndEnqueue`: the limiter, the metric and the error. -/
def State.admitAndEnqueue (s : State Distinct) (limit : ℤ) (ops : SetOps Other Distinct)
    (m : Observation Other) (enqueue : Option EnqueueError) :
    State Distinct × Observation Other × Option AdmitError :=
  match s.admitMetric limit ops m with
  | (s, m, .error err) => (s, m, some (.refused err))
  | (s, m, .ok a) => ((s.settle a enqueue).1, m, (s.settle a enqueue).2)

section Metric

variable {limit : ℤ} {ops : SetOps Other Distinct}

/-- What `admit` writes back to a metric with valid keys. -/
theorem admit_metric (hops : ops.KeepsLast) (s : State Distinct) (m : Observation Other)
    (hvalid : ∀ kv ∈ m.attributes, validTagKey kv.key = true) :
    (s.admitMetric limit ops m).2.1 = { m with attributes := keptTags m.attributes } := by
  rw [State.admitMetric, admitTags_eq hops hvalid]
  dsimp only
  split_ifs
  · rfl
  · split <;> rfl

/-- `admit` depends on the attributes through their last values. -/
theorem admit_congr (hops : ops.KeepsLast) (s : State Distinct) (name : String)
    {attrs' : List (KeyValue Other)} (hvalid : ∀ kv ∈ attrs, validTagKey kv.key = true)
    (h : ∀ key, attrs'.filter (fun kv => kv.key = key) = attrs.filter fun kv => kv.key = key) :
    s.admitMetric limit ops ⟨name, attrs'⟩ = s.admitMetric limit ops ⟨name, attrs⟩ := by
  have hvalid' : ∀ kv ∈ attrs', validTagKey kv.key = true := by
    intro kv hkv
    have hmem : kv ∈ attrs'.filter fun kv' => kv'.key = kv.key :=
      mem_filter.mpr ⟨hkv, decide_eq_true rfl⟩
    rw [h] at hmem
    exact hvalid kv (mem_filter.mp hmem).1
  have hset : Keyed.canonical KeyValue.key (attrs'.map capValue) =
      Keyed.canonical KeyValue.key (attrs.map capValue) :=
    canonical_map_capValue_congr fun key => congrArg getLast? (h key)
  have htags : admitTags ops attrs' = admitTags ops attrs := by
    rw [admitTags_eq hops hvalid', admitTags_eq hops hvalid, keptTags, keptTags, distinctKeys,
      distinctKeys, hset]
  rw [State.admitMetric, State.admitMetric]
  dsimp only
  rw [htags, admitTags_eq hops hvalid]

/-- `commit` counts the trimmed labels, `release` counts nothing. -/
theorem State.total_commit (s : State Distinct) (a : Admission Distinct) :
    (s.commit a).total = s.total + a.labelsDropped := by
  have hdrop : (if 0 < a.labelsDropped then s.drop .labelLimit a.labelsDropped else s).total =
      s.total + a.labelsDropped := by
    split_ifs with hpos
    · rfl
    · rw [Nat.eq_zero_of_not_pos hpos]
      rfl
  rw [State.commit, ← hdrop]
  cases a.reserved <;> rfl

theorem State.total_release (s : State Distinct) (a : Admission Distinct) :
    (s.release a).total = s.total := by
  rw [State.release]
  split <;> rfl

/-- What an admission is made of. -/
theorem admit_ok (hops : ops.KeepsLast) {s s' : State Distinct} {m m' : Observation Other}
    {a : Admission Distinct} (h : s.admitMetric limit ops m = (s', m', .ok a)) :
    (∀ kv ∈ m.attributes, validTagKey kv.key = true) ∧
      m' = { m with attributes := keptTags m.attributes } ∧ s'.total = s.total ∧
      a.labelsDropped = distinctKeys m.attributes - maxLabelsPerObservation := by
  have hvalid : ∀ kv ∈ m.attributes, validTagKey kv.key = true := by
    rw [← admitKeys_eq_none]
    by_contra hne
    obtain ⟨key, hkey⟩ := Option.ne_none_iff_exists'.mp hne
    rw [State.admitMetric, admitTags, hkey] at h
    cases h
  refine ⟨hvalid, ?_⟩
  rw [State.admitMetric, admitTags_eq hops hvalid] at h
  dsimp only at h
  split_ifs at h
  · cases h
    exact ⟨rfl, rfl, rfl⟩
  · split at h
    · cases h
    · cases h
      exact ⟨rfl, rfl, rfl⟩

/-- **An admitted metric**: its keys are valid, it has the tags that are kept, whatever `enqueue`
answers, and the labels that are not are counted if it is recorded. -/
theorem admitAndEnqueue_admitted (hops : ops.KeepsLast) {s : State Distinct} {m : Observation Other}
    {enqueue : Option EnqueueError}
    (h : ∀ err, (s.admitAndEnqueue limit ops m enqueue).2.2 ≠ some (.refused err)) :
    (∀ kv ∈ m.attributes, validTagKey kv.key = true) ∧
      (s.admitAndEnqueue limit ops m enqueue).2 =
        ({ m with attributes := keptTags m.attributes }, enqueue.map .enqueue) ∧
      (s.admitAndEnqueue limit ops m enqueue).1.total =
        s.total +
          if enqueue = none then distinctKeys m.attributes - maxLabelsPerObservation else 0 := by
  rw [State.admitAndEnqueue] at h ⊢
  rcases hresult : s.admitMetric limit ops m with ⟨s', m', _ | a⟩
  · rw [hresult] at h
    exact absurd rfl (h _)
  · obtain ⟨hvalid, rfl, htotal, hlabels⟩ := admit_ok hops hresult
    refine ⟨hvalid, ?_⟩
    cases enqueue with
    | none => exact ⟨rfl, by rw [if_pos rfl, ← hlabels, ← htotal]; exact State.total_commit s' a⟩
    | some err => exact ⟨rfl, by rw [if_neg nofun, ← htotal]; exact State.total_release s' a⟩

end Metric

/-! ### The call in the limiter -/

/-- The error as the limiter has it. -/
def AdmitError.recordError : AdmitError → RecordError
  | .refused err => err
  | .enqueue _ => .notEnqueued

/-- The limiter with one more call. -/
def State.withCall (s : State Distinct) (call : Call Distinct) : State Distinct :=
  { s with calls := s.calls ++ [call] }

omit [DecidableEq Distinct] in
theorem goTo_withCall (s : State Distinct) (call : Call Distinct) (pc : Pc) :
    (s.withCall call).goTo s.calls.length call pc = s.withCall { call with pc := pc } := by
  simp [State.goTo, State.withCall]

omit [DecidableEq Distinct] in
theorem State.metrics_setSeries_self (s : State Distinct) (name : String)
    (series : MetricSeries Distinct) :
    (s.setSeries name series).metrics name = series := Function.update_self ..

omit [DecidableEq Distinct] in
theorem State.setSeries_setSeries (s : State Distinct) (name : String)
    (series series' : MetricSeries Distinct) :
    (s.setSeries name series).setSeries name series' = s.setSeries name series' := by
  simp [State.setSeries]

/-- The last call gets from `call` to `call'` by its own steps. -/
def Solo [Inhabited Distinct] (limit : ℤ) (ops : SetOps Other Distinct) (accepts : Bool)
    (s : State Distinct) (call : Call Distinct) (s' : State Distinct) (call' : Call Distinct) :
    Prop :=
  ∃ n, (limiter limit ops).run (s.withCall call)
    (replicate n (.step s.calls.length accepts)) = some (s'.withCall call')

section Solo

variable [Inhabited Distinct] {limit : ℤ} {ops : SetOps Other Distinct} {accepts : Bool}
  {s s₁ s' : State Distinct} {call call₁ call' : Call Distinct}

theorem Solo.step
    (hstep : callStep limit (s.withCall call) s.calls.length call accepts =
      some (s₁.withCall call₁))
    (hcalls : s₁.calls = s.calls) (h : Solo limit ops accepts s₁ call₁ s' call') :
    Solo limit ops accepts s call s' call' := by
  obtain ⟨n, hrun⟩ := h
  refine ⟨n + 1, ?_⟩
  have hlast : (s.withCall call).calls[s.calls.length]? = some call := by simp [State.withCall]
  have hmove : (limiter limit ops).step (s.withCall call) (.step s.calls.length accepts) =
      some (s₁.withCall call₁) := by
    show (s.withCall call).calls[s.calls.length]?.bind _ = _
    rw [hlast, Option.bind_some, hstep]
  rw [replicate_succ, TransitionSystem.run_cons, hmove, Option.bind_some, ← hcalls, hrun]

theorem Solo.last
    (hstep : callStep limit (s.withCall call) s.calls.length call accepts =
      some (s'.withCall call'))
    (hcalls : s'.calls = s.calls) : Solo limit ops accepts s call s' call' :=
  .step hstep hcalls ⟨0, rfl⟩

/-- The critical section of `commit` on its own. -/
theorem solo_store (hpc : call.pc = .store) (hmu : (s.metrics call.name).mu = none) :
    Solo limit ops accepts s call
      (s.setSeries call.name
        (((s.metrics call.name).store call.key s.calls.length).finishCommit call.key))
      { call with pc := .returned none } := by
  obtain ⟨t, ht⟩ :
      ∃ t, t = s.setSeries call.name ((s.metrics call.name).store call.key s.calls.length) :=
    ⟨_, rfl⟩
  have hstore : callStep limit (s.withCall call) s.calls.length call accepts =
      some (t.withCall { call with pc := .unreserve }) := by
    rw [callStep, hpc, ht]
    exact (if_pos hmu).trans (congrArg some (goTo_withCall (s.setSeries call.name _) call _))
  have hunreserve : callStep limit (t.withCall { call with pc := .unreserve }) t.calls.length
      { call with pc := .unreserve } accepts =
        some ((t.setSeries call.name ((t.metrics call.name).finishCommit call.key)).withCall
          { call with pc := .returned none }) :=
    congrArg some (goTo_withCall (t.setSeries call.name _) { call with pc := .unreserve } _)
  have hfinal : t.setSeries call.name ((t.metrics call.name).finishCommit call.key) =
      s.setSeries call.name
        (((s.metrics call.name).store call.key s.calls.length).finishCommit call.key) := by
    rw [ht, State.metrics_setSeries_self, State.setSeries_setSeries]
  rw [← hfinal]
  exact .step hstore (ht ▸ rfl) (.last hunreserve rfl)

variable {reserved : Bool}

/-- `commit` on its own. -/
theorem solo_commit (hpc : call.pc = .commit reserved) (hmu : (s.metrics call.name).mu = none) :
    Solo limit ops accepts s call
      (s.commit ⟨call.name, reserved, call.key, call.labelsDropped⟩)
      { call with pc := .returned none } := by
  -- The trimmed labels are counted first.
  obtain ⟨t, ht, hcalls, hmetrics⟩ : ∃ t : State Distinct,
      t = (if 0 < call.labelsDropped then s.drop .labelLimit call.labelsDropped else s) ∧
      t.calls = s.calls ∧ t.metrics = s.metrics := by
    refine ⟨_, rfl, ?_⟩
    split <;> exact ⟨rfl, rfl⟩
  have hcount : callStep limit (s.withCall call) s.calls.length call accepts =
      some (t.withCall { call with pc := if reserved then .store else .returned none }) := by
    rw [callStep, hpc, ht]
    dsimp only
    by_cases hpos : 0 < call.labelsDropped
    · rw [if_pos hpos, if_pos hpos]
      exact congrArg some (goTo_withCall (s.drop ..) ..)
    · rw [if_neg hpos, if_neg hpos]
      exact congrArg some (goTo_withCall ..)
  cases reserved with
  | false =>
    have hcommit : s.commit ⟨call.name, false, call.key, call.labelsDropped⟩ = t := ht.symm
    rw [hcommit]
    exact .last hcount hcalls
  | true =>
    have hseries : (t.metrics call.name).mu = none := by rwa [hmetrics]
    have hcommit : s.commit ⟨call.name, true, call.key, call.labelsDropped⟩ =
        t.setSeries call.name
          (((t.metrics call.name).store call.key t.calls.length).finishCommit call.key) := by
      rw [State.commit, ht]
      rfl
    rw [hcommit]
    exact .step hcount hcalls (solo_store rfl hseries)

/-- `release` on its own. -/
theorem solo_release (hpc : call.pc = .release reserved) (hmu : (s.metrics call.name).mu = none) :
    Solo limit ops accepts s call
      (s.release ⟨call.name, reserved, call.key, call.labelsDropped⟩)
      { call with pc := .returned (some .notEnqueued) } := by
  cases reserved with
  | false =>
    refine .last ?_ rfl
    rw [callStep, hpc]
    exact congrArg some (goTo_withCall ..)
  | true =>
    refine .last ?_ rfl
    rw [callStep, hpc]
    exact (if_pos hmu).trans (congrArg some (goTo_withCall (s.setSeries call.name _) ..))

/-- What follows `admit`, on its own. -/
theorem solo_settle (enqueue : Option EnqueueError) (hpc : call.pc = .enqueue reserved)
    (hmu : (s.metrics call.name).mu = none) :
    Solo limit ops enqueue.isNone s call
      (s.settle ⟨call.name, reserved, call.key, call.labelsDropped⟩ enqueue).1
      { call with
        pc := .returned ((s.settle ⟨call.name, reserved, call.key, call.labelsDropped⟩
          enqueue).2.map AdmitError.recordError) } := by
  have hstep : callStep limit (s.withCall call) s.calls.length call enqueue.isNone =
      some (s.withCall { call with
        pc := if enqueue.isNone then .commit reserved else .release reserved }) := by
    rw [callStep, hpc]
    exact congrArg some (goTo_withCall ..)
  cases enqueue with
  | some err => exact .step hstep rfl (solo_release rfl hmu)
  | none => exact .step hstep rfl (solo_commit rfl hmu)

omit [Inhabited Distinct] in
theorem mu_of_reserve {series series' : MetricSeries Distinct} {key : Distinct}
    (h : series.reserve key limit = some (series', reserved)) : series'.mu = series.mu := by
  rw [MetricSeries.reserve] at h
  split_ifs at h <;> cases h <;> rfl

omit [Inhabited Distinct] in
/-- The critical section of `admit` on its own. -/
theorem callStep_reserve (hpc : call.pc = .reserve) (hmu : (s.metrics call.name).mu = none) :
    callStep limit (s.withCall call) s.calls.length call accepts =
      match (s.metrics call.name).reserve call.key (limitOf limit) with
      | none =>
        some ((s.drop .seriesLimit 1).withCall
          { call with pc := .returned (some .cardinalityLimit) })
      | some (series, reserved) =>
        some ((s.setSeries call.name series).withCall { call with pc := .enqueue reserved }) := by
  rw [callStep, hpc]
  refine (if_pos hmu).trans ?_
  show (match (s.metrics call.name).reserve call.key (limitOf limit) with
    | none => _
    | some (series, reserved) => _) = _
  cases (s.metrics call.name).reserve call.key (limitOf limit) with
  | none => exact congrArg some (goTo_withCall (s.drop .seriesLimit 1) call _)
  | some r => exact congrArg some (goTo_withCall (s.setSeries call.name r.1) call _)

/-- **A call on its own** does in the limiter what `admitAndEnqueue` says. -/
theorem run_admitAndEnqueue (limit : ℤ) (ops : SetOps Other Distinct) (s : State Distinct)
    (m : Observation Other) (enqueue : Option EnqueueError) (hmu : (s.metrics m.name).mu = none) :
    ∃ n, (limiter limit ops).run s
        (.call m :: replicate n (.step s.calls.length enqueue.isNone)) =
      some ((s.admitAndEnqueue limit ops m enqueue).1.withCall { newCall ops m with
        pc := .returned
          ((s.admitAndEnqueue limit ops m enqueue).2.2.map AdmitError.recordError) }) := by
  suffices hsolo : Solo limit ops enqueue.isNone s (newCall ops m)
      (s.admitAndEnqueue limit ops m enqueue).1 { newCall ops m with
        pc := .returned
          ((s.admitAndEnqueue limit ops m enqueue).2.2.map AdmitError.recordError) } from hsolo
  rw [State.admitAndEnqueue, State.admitMetric, newCall]
  cases htags : admitTags ops m.attributes with
  | error key => exact ⟨0, rfl⟩
  | ok tags =>
    dsimp only
    have hload : callStep limit (s.withCall ⟨m.name, tags.key, tags.labelsDropped, .load⟩)
        s.calls.length ⟨m.name, tags.key, tags.labelsDropped, .load⟩ enqueue.isNone =
          some (s.withCall ⟨m.name, tags.key, tags.labelsDropped,
            if tags.key ∈ (s.metrics m.name).admitted then .enqueue false else .reserve⟩) :=
      congrArg some (goTo_withCall ..)
    by_cases hknown : tags.key ∈ (s.metrics m.name).admitted
    · rw [if_pos hknown] at hload ⊢
      exact .step hload rfl (solo_settle enqueue rfl hmu)
    · rw [if_neg hknown] at hload ⊢
      refine .step hload rfl ?_
      have hreserve : callStep limit (s.withCall ⟨m.name, tags.key, tags.labelsDropped, .reserve⟩)
          s.calls.length ⟨m.name, tags.key, tags.labelsDropped, .reserve⟩ enqueue.isNone = _ :=
        callStep_reserve rfl hmu
      cases hslot : (s.metrics m.name).reserve tags.key (limitOf limit) with
      | none =>
        rw [hslot] at hreserve
        exact .last hreserve rfl
      | some r =>
        obtain ⟨series, reserved⟩ := r
        rw [hslot] at hreserve
        have hseries : ((s.setSeries m.name series).metrics m.name).mu = none := by
          rw [State.metrics_setSeries_self, mu_of_reserve hslot, hmu]
        have hsettle : Solo limit ops enqueue.isNone (s.setSeries m.name series)
            ⟨m.name, tags.key, tags.labelsDropped, .enqueue reserved⟩ _ _ :=
          solo_settle enqueue rfl hseries
        exact .step hreserve rfl hsettle

end Solo

end Calls

end ConvoyStats.Cardinality
