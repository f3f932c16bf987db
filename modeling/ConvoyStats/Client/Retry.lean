import Mathlib.Algebra.GroupWithZero.Nat
import ConvoyStats.Library.Transducer
import ConvoyStats.Client.Record

/-!
# Recording a metric again

A caller may try again with a metric that the pipeline had no room for.  `record` gives the metric
its name back, but not its attributes: they have become the tags that `admit` kept, and the count of
those it did not keep went with the failed admission.  The next attempt puts the view and context
tags in front once more.  It keeps the same tags (`keptTags_append_keptTags`), and of the labels
that were trimmed at first it finds only those that are view or context tags.
-/

namespace ConvoyStats.Client

open Cardinality

variable {Other Distinct : Type} [DecidableEq Distinct] {limit : ℤ} {ops : SetOps Other Distinct}
  {c : Client Other} {context : Option (List (KeyValue Other))} {m : Observation Other}

/-! ### One recording -/

/-- The tags that precede those of the metric. -/
def ambient (c : Client Other) (context : Option (List (KeyValue Other))) : List (KeyValue Other) :=
  c.tags ++ context.getD []

omit [DecidableEq Distinct] in
theorem prepare_nil (c : Client Other) (context : Option (List (KeyValue Other)))
    (m : Observation Other) :
    c.prepare context m [] =
      ⟨joinName [c.namePrefix, m.name], c.ambient context ++ m.attributes⟩ := by
  have h := prepare_eq c context m []
  rwa [given, List.flatten_nil, List.append_nil] at h

/-- The recording gets to the limiter. -/
def Outcome.Admitted (r : Outcome Other Distinct) : Prop :=
  r.err = none ∨ ∃ err, r.err = some (.admission (.enqueue err))

variable {attempt : Attempt Distinct}

/-- A recording that gets to the limiter is what `admitAndEnqueue` makes of the metric. -/
theorem recordMetric_eq (henabled : c.disabled = false)
    (h : (c.recordMetric limit ops context m attempt).Admitted) :
    c.recordMetric limit ops context m attempt =
      match attempt.limiter.admitAndEnqueue limit ops (c.prepare context m []) attempt.enqueue with
      | (limiter, m', some err) =>
        ⟨{ m' with name := m.name }, limiter, some (.admission err), none⟩
      | (limiter, m', none) => ⟨m', limiter, none, some m'⟩ := by
  rw [recordMetric, record, henabled] at h ⊢
  -- Every other way out returns an error of its own.
  by_cases hclosed : attempt.closed = true
  · simp [Outcome.Admitted, hclosed] at h
  cases hname : validateMetricName (joinName [c.namePrefix, m.name]) with
  | some text => simp [Outcome.Admitted, hclosed, hname] at h
  | none =>
    by_cases hshutdown : attempt.shutdown = true
    · simp [Outcome.Admitted, hclosed, hname, pipelineRecord, hshutdown] at h
    by_cases hallow : attempt.allow = true
    · rw [if_neg Bool.false_ne_true, if_neg hclosed, pipelineRecord, if_neg hshutdown, hallow]
      rcases attempt.limiter.admitAndEnqueue limit ops (c.prepare context m []) attempt.enqueue with
        ⟨limiter, m', _ | err⟩
      · rfl
      · rfl
    · simp [Outcome.Admitted, hclosed, hname, pipelineRecord, hshutdown, hallow] at h

/-- **A recording that succeeds or finds no room.**  Either way the metric has the tags that are
kept; the labels that are not are counted where it succeeds. -/
theorem recordMetric_admitted (hops : ops.KeepsLast) (henabled : c.disabled = false)
    (h : (c.recordMetric limit ops context m attempt).Admitted) :
    (∃ limiter m', c.recordMetric limit ops context m attempt = ⟨m', limiter, none, some m'⟩ ∧
      m' = ⟨joinName [c.namePrefix, m.name], keptTags (c.ambient context ++ m.attributes)⟩ ∧
      limiter.total = attempt.limiter.total +
        (distinctKeys (c.ambient context ++ m.attributes) - maxLabelsPerObservation)) ∨
    (∃ limiter err, c.recordMetric limit ops context m attempt =
        ⟨⟨m.name, keptTags (c.ambient context ++ m.attributes)⟩, limiter,
          some (.admission (.enqueue err)), none⟩ ∧
      limiter.total = attempt.limiter.total) := by
  have heq := recordMetric_eq henabled h
  rw [prepare_nil] at heq
  have hnot : ∀ err, (attempt.limiter.admitAndEnqueue limit ops
      ⟨joinName [c.namePrefix, m.name], c.ambient context ++ m.attributes⟩ attempt.enqueue).2.2 ≠
        some (.refused err) := by
    intro err herr
    rw [heq] at h
    rcases hr : attempt.limiter.admitAndEnqueue limit ops
      ⟨joinName [c.namePrefix, m.name], c.ambient context ++ m.attributes⟩ attempt.enqueue with
        ⟨_, _, _⟩
    rw [hr] at h herr
    cases herr
    simp [Outcome.Admitted] at h
  obtain ⟨-, hmetric, htotal⟩ := admitAndEnqueue_admitted hops hnot
  rcases hr : attempt.limiter.admitAndEnqueue limit ops
    ⟨joinName [c.namePrefix, m.name], c.ambient context ++ m.attributes⟩ attempt.enqueue with
    ⟨limiter, rest⟩
  rw [hr] at heq hmetric htotal
  cases hmetric
  cases henqueue : attempt.enqueue with
  | none =>
    rw [henqueue] at heq htotal
    exact .inl ⟨limiter, _, heq, rfl, htotal⟩
  | some err =>
    rw [henqueue] at heq htotal
    exact .inr ⟨limiter, err, heq, htotal⟩

/-- A recording that succeeds. -/
theorem recordMetric_ok (hops : ops.KeepsLast) (henabled : c.disabled = false)
    (h : (c.recordMetric limit ops context m attempt).err = none) :
    (c.recordMetric limit ops context m attempt).recorded =
        some ⟨joinName [c.namePrefix, m.name], keptTags (c.ambient context ++ m.attributes)⟩ ∧
      (c.recordMetric limit ops context m attempt).limiter.total - attempt.limiter.total =
        distinctKeys (c.ambient context ++ m.attributes) - maxLabelsPerObservation := by
  rcases recordMetric_admitted hops henabled (.inl h) with
    ⟨limiter, m', heq, rfl, htotal⟩ | ⟨limiter, err, heq, -⟩
  · rw [heq]
    exact ⟨rfl, by rw [htotal, Nat.add_sub_cancel_left]⟩
  · rw [heq] at h
    cases h

/-! ### Attempts -/

/-- An attempt of a caller that tries again where there is no room: the metric as the call leaves
it, and by how much `DroppedLabels` has grown. -/
def retry (c : Client Other) (limit : ℤ) (ops : SetOps Other Distinct)
    (context : Option (List (KeyValue Other))) (m : Observation Other)
    (attempt : Attempt Distinct) :
    Option (Observation Other × ℕ) :=
  match (c.recordMetric limit ops context m attempt).err with
  | some (.admission (.enqueue _)) =>
    some ((c.recordMetric limit ops context m attempt).metric,
      (c.recordMetric limit ops context m attempt).limiter.total - attempt.limiter.total)
  | _ => none

/-- A failed attempt leaves the metric with its name and the tags that are kept, and counts
nothing. -/
theorem retry_eq_some (hops : ops.KeepsLast) {m' : Observation Other} {n : ℕ}
    (h : c.retry limit ops context m attempt = some (m', n)) :
    c.disabled = false ∧ m' = ⟨m.name, keptTags (c.ambient context ++ m.attributes)⟩ ∧ n = 0 := by
  rw [retry] at h
  split at h
  · rename_i err herr
    have henabled : c.disabled = false := by
      by_contra hdisabled
      rw [recordMetric, record, if_pos (Bool.of_not_eq_false hdisabled)] at herr
      cases herr
    rcases recordMetric_admitted hops henabled (.inr ⟨err, herr⟩) with
      ⟨limiter, m₁, heq, -⟩ | ⟨limiter, err', heq, htotal⟩
    · rw [heq] at herr
      cases herr
    · rw [heq] at h
      cases h
      exact ⟨henabled, rfl, by rw [htotal, Nat.sub_self]⟩
  · cases h

/-- **Any number of failed attempts** leaves what one leaves. -/
theorem run_retry (hops : ops.KeepsLast) {attempts : List (Attempt Distinct)}
    {m' : Observation Other}
    {increases : List ℕ}
    (h : Transducer.run (c.retry limit ops context) m attempts = some (m', increases)) :
    increases.sum = 0 ∧ (attempts = [] ∧ m' = m ∨ attempts ≠ [] ∧ c.disabled = false ∧
      m' = ⟨m.name, keptTags (c.ambient context ++ m.attributes)⟩) := by
  induction attempts generalizing m increases with
  | nil =>
    cases h
    exact ⟨rfl, .inl ⟨rfl, rfl⟩⟩
  | cons attempt attempts ih =>
    obtain ⟨m₁, n, ns, hfirst, hrest, rfl⟩ := Transducer.run_cons_some h
    obtain ⟨henabled, rfl, rfl⟩ := retry_eq_some hops hfirst
    obtain ⟨hsum, hmetric⟩ := ih hrest
    refine ⟨by rw [List.sum_cons, hsum], .inr ⟨List.cons_ne_nil _ _, henabled, ?_⟩⟩
    rcases hmetric with ⟨-, rfl⟩ | ⟨-, -, rfl⟩
    · rfl
    · rw [keptTags_append_keptTags]

/-! ### The recording at last -/

/-- Every label of the metric is a view or context tag or has one of the ten smallest keys. -/
def OnlyAmbientTrimmed (c : Client Other) (context : Option (List (KeyValue Other)))
    (m : Observation Other) : Prop :=
  ∀ kv ∈ m.attributes, kv.key ∈ (c.ambient context).map KeyValue.key ∨
    ((c.ambient context ++ m.attributes).map KeyValue.key).dedup.countP (· < kv.key) <
      maxLabelsPerObservation

/-- **A metric that is recorded after failed attempts** has the name and the attributes that it
would have had at once.  `DroppedLabels` has grown by as much exactly if no attempt failed or every
label of the metric that is not kept is a view or context tag. -/
theorem retried_recording (hops : ops.KeepsLast) (limit : ℤ) (c : Client Other)
    (context : Option (List (KeyValue Other))) (m : Observation Other)
    (attempts : List (Attempt Distinct)) (m' : Observation Other) (increases : List ℕ)
    (hattempts : Transducer.run (c.retry limit ops context) m attempts = some (m', increases))
    (last direct : Attempt Distinct)
    (hlast : (c.recordMetric limit ops context m' last).err = none)
    (hdirect : (c.recordMetric limit ops context m direct).err = none) :
    (c.recordMetric limit ops context m' last).recorded =
        (c.recordMetric limit ops context m direct).recorded ∧
      (increases.sum +
          ((c.recordMetric limit ops context m' last).limiter.total - last.limiter.total) =
          (c.recordMetric limit ops context m direct).limiter.total - direct.limiter.total ↔
        attempts = [] ∨ OnlyAmbientTrimmed c context m) := by
  obtain ⟨hsum, hmetric⟩ := run_retry hops hattempts
  rw [hsum, Nat.zero_add]
  rcases hmetric with ⟨rfl, rfl⟩ | ⟨hne, henabled, rfl⟩
  · cases hdisabled : c.disabled with
    | true => simp [recordMetric, record, hdisabled]
    | false =>
      obtain ⟨hrecorded, htotal⟩ := recordMetric_ok hops hdisabled hlast
      obtain ⟨hrecorded', htotal'⟩ := recordMetric_ok hops hdisabled hdirect
      exact ⟨hrecorded.trans hrecorded'.symm, iff_of_true (htotal.trans htotal'.symm) (.inl rfl)⟩
  · obtain ⟨hrecorded, htotal⟩ := recordMetric_ok hops henabled hlast
    obtain ⟨hrecorded', htotal'⟩ := recordMetric_ok hops henabled hdirect
    rw [hrecorded, hrecorded', htotal, htotal', keptTags_append_keptTags]
    refine ⟨rfl, ?_⟩
    rw [distinctKeys_append_keptTags, or_iff_right hne]
    rfl

/-! ### Recordings that differ -/

/-- One attempt on a fresh limiter. -/
def fresh (enqueue : Option EnqueueError) : Attempt (List (KeyValue Empty)) :=
  ⟨false, false, true, (limiter 0 listOps).init, enqueue⟩

/-- A root client. -/
def root : Client Empty := ⟨false, "", []⟩

/-- A metric with `n` labels. -/
def labelled (n : ℕ) : Observation Empty :=
  ⟨"req", (List.range n).map fun i => ⟨[(97 + i).toUInt8], .string []⟩⟩

theorem run_retry_singleton (err : EnqueueError)
    (h : (c.recordMetric limit ops context m attempt).err = some (.admission (.enqueue err))) :
    Transducer.run (c.retry limit ops context) m [attempt] =
      some ((c.recordMetric limit ops context m attempt).metric,
        [(c.recordMetric limit ops context m attempt).limiter.total - attempt.limiter.total]) := by
  rw [Transducer.run_singleton, retry, h]

theorem retried_recording_one_label :
    ∃ m', Transducer.run (root.retry 0 listOps none) (labelled 1) [fresh (some .bufferFull)] =
        some (m', [0]) ∧
      (root.recordMetric 0 listOps none m' (fresh none)).recorded =
        (root.recordMetric 0 listOps none (labelled 1) (fresh none)).recorded :=
  ⟨_, run_retry_singleton .bufferFull (by decide +kernel),
    (retried_recording keepsLast_listOps 0 root none (labelled 1) _ _ _
      (run_retry_singleton .bufferFull (by decide +kernel)) (fresh none) (fresh none)
      (by decide +kernel) (by decide +kernel)).1⟩

/-- The eleventh label of a metric is trimmed by the attempt that fails and counted by none. -/
theorem retried_recording_eleven_labels :
    ∃ m', Transducer.run (root.retry 0 listOps none) (labelled 11) [fresh (some .bufferFull)] =
        some (m', [0]) ∧
      (root.recordMetric 0 listOps none m' (fresh none)).err = none ∧
      (root.recordMetric 0 listOps none m' (fresh none)).limiter.total = 0 ∧
      (root.recordMetric 0 listOps none (labelled 11) (fresh none)).err = none ∧
      (root.recordMetric 0 listOps none (labelled 11) (fresh none)).limiter.total = 1 :=
  ⟨_, run_retry_singleton .bufferFull (by decide +kernel), by decide +kernel, by decide +kernel,
    by decide +kernel, by decide +kernel⟩

end ConvoyStats.Client
