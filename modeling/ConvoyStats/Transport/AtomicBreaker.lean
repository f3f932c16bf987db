import Mathlib.Data.List.Induction
import ConvoyStats.Transport.Breaker

/-!
# The breaker with atomic functions

`allowRequest`, `recordSuccess` and `recordFailure` of `transport/circuit.go`, each as one step.  A
run of calls is then the list of these steps in the order they were taken, whichever calls they
belong to, and `replay` is the breaker after it.  Each step is what a call does when it is left
alone (`solo_allowRequest`, `solo_recordSuccess`, `solo_recordFailure`).

The counter `failures` is shared by all states, and outcomes of calls from before a change of state
add to it.  What makes it count consecutive failures is that it is set back whenever the breaker
becomes closed: from then on it is the number of failures at the end of the outcomes (`Counts`).

`recordFailure` compares the counter with the threshold cut down to 32 bits.  So the number of
failures that opens the breaker is `opensAt`, whatever the threshold is, and the breaker opens
before the counter can wrap.  The two are the same exactly for thresholds below `2 ^ 31`; for every
other one the breaker opens too early (`opens_early`).
-/

namespace ConvoyStats.Transport.Circuit

open List

/-! ### The functions -/

section

variable (cfg : BreakerConfig) (now : ℤ) (b : Breaker)

/-- `allowRequest`. -/
def allowRequest : Breaker × Bool :=
  match b.state with
  | .closed => (b, true)
  | .open =>
    if cfg.timeout < since now b.lastFailTime then
      ({ b with state := .halfOpen, stateChanges := b.stateChanges + 1, halfOpenCount := 0 }, true)
    else (b, false)
  | .halfOpen =>
    let count := b.halfOpenCount + 1
    ({ b with halfOpenCount := count }, decide (count ≤ Int32.ofInt cfg.halfOpenMax))

/-- `allowRequest`, and the count of a call that is not allowed. -/
def admission : Breaker × Bool :=
  let r := allowRequest cfg now b
  if r.2 then r else ({ r.1 with totalRejected := r.1.totalRejected + 1 }, false)

/-- `recordSuccess`. -/
def recordSuccess : Breaker :=
  let b := { b with totalSuccess := b.totalSuccess + 1 }
  match b.state with
  | .halfOpen => { b with state := .closed, failures := 0, stateChanges := b.stateChanges + 1 }
  | .closed => { b with failures := 0 }
  | .open => b

/-- `recordFailure`. -/
def recordFailure : Breaker :=
  let b := { b with
    totalFailures := b.totalFailures + 1
    lastFailTime := now
    failures := b.failures + 1 }
  if b.state = .halfOpen then { b with state := .open, stateChanges := b.stateChanges + 1 }
  else if b.state = .closed ∧ Int32.ofInt cfg.threshold ≤ b.failures then
    { b with state := .open, stateChanges := b.stateChanges + 1 }
  else b

end

variable {cfg : BreakerConfig}

/-! ### What a call does alone -/

/-- A call that is left alone while it asks. -/
theorem solo_allowRequest (cfg : BreakerConfig) (now : ℤ) (b : Breaker) (i : ℕ) :
    ∃ inputs pc, (call cfg).solo i (b, .allowLoad) inputs = some ((admission cfg now b).1, pc) ∧
      (if (admission cfg now b).2 then ∃ moved, pc = .running moved
        else pc = .returned .circuitOpen) := by
  obtain ⟨state, failures, lastFailTime, halfOpenCount, _, _, _, _⟩ := b
  cases state with
  | closed => exact ⟨[.none], _, rfl, false, rfl⟩
  | «open» =>
    by_cases hover : cfg.timeout < since now lastFailTime
    · refine ⟨[.none, .clock now, .none, .none, .none], .running true, ?_, ?_⟩
      · simp [Process.solo, call, callStep, admission, allowRequest, hover]
      · simp [admission, allowRequest, hover]
    · refine ⟨[.none, .clock now, .none], .returned .circuitOpen, ?_, ?_⟩
      · simp [Process.solo, call, callStep, admission, allowRequest, hover]
      · simp [admission, allowRequest, hover]
  | halfOpen =>
    by_cases hcount : halfOpenCount + 1 ≤ Int32.ofInt cfg.halfOpenMax
    · refine ⟨[.none, .none], .running false, ?_, ?_⟩
      · simp [Process.solo, call, callStep, admission, allowRequest, hcount]
      · simp [admission, allowRequest, hcount]
    · refine ⟨[.none, .none, .none], .returned .circuitOpen, ?_, ?_⟩
      · simp [Process.solo, call, callStep, admission, allowRequest, hcount]
      · simp [admission, allowRequest, hcount]

/-- A call that is left alone while it records a success. -/
theorem solo_recordSuccess (cfg : BreakerConfig) (b : Breaker) (moved : Bool) (i : ℕ) :
    ∃ inputs, (call cfg).solo i (b, .running moved) (.ends .ok :: inputs) =
      some (recordSuccess b, .returned .ok) := by
  obtain ⟨state, _, _, _, _, _, _, _⟩ := b
  cases state with
  | closed => exact ⟨[.none, .none, .none], rfl⟩
  | «open» => exact ⟨[.none, .none], rfl⟩
  | halfOpen => exact ⟨[.none, .none, .none, .none, .none], rfl⟩

/-- A call that is left alone while it records a failure. -/
theorem solo_recordFailure (cfg : BreakerConfig) (now : ℤ) (b : Breaker) (moved : Bool) (i : ℕ) :
    ∃ inputs, (call cfg).solo i (b, .running moved) (.ends .err :: inputs) =
      some (recordFailure cfg now b, .returned .err) := by
  obtain ⟨state, failures, _, _, _, _, _, _⟩ := b
  cases state with
  | closed =>
    by_cases hcount : Int32.ofInt cfg.threshold ≤ failures + 1
    · refine ⟨[.none, .clock now, .none, .none, .none, .none], ?_⟩
      simp [Process.solo, call, callStep, afterCount, recordFailure, hcount]
    · refine ⟨[.none, .clock now, .none, .none], ?_⟩
      simp [Process.solo, call, callStep, afterCount, recordFailure, hcount]
  | «open» =>
    refine ⟨[.none, .clock now, .none, .none], ?_⟩
    simp [Process.solo, call, callStep, afterCount, recordFailure]
  | halfOpen =>
    refine ⟨[.none, .clock now, .none, .none, .none, .none], ?_⟩
    simp [Process.solo, call, callStep, afterCount, recordFailure]

/-! ### Runs -/

/-- A step. -/
inductive BreakerOp
  /-- A call asks, at this time. -/
  | allow (now : ℤ)
  /-- A call records a success. -/
  | success
  /-- A call records a failure, at this time. -/
  | failure (now : ℤ)
  deriving DecidableEq

/-- Whether the outcome that is recorded is a failure. -/
def BreakerOp.failed : BreakerOp → Option Bool
  | .allow _ => none
  | .success => some false
  | .failure _ => some true

/-- The breaker after a step. -/
def Breaker.apply (cfg : BreakerConfig) (b : Breaker) : BreakerOp → Breaker
  | .allow now => (admission cfg now b).1
  | .success => recordSuccess b
  | .failure now => recordFailure cfg now b

/-- The breaker after steps. -/
def replay (cfg : BreakerConfig) (ops : List BreakerOp) : Breaker := ops.foldl (·.apply cfg) .new

/-- What a step adds to the outcomes recorded since the breaker became closed, the last one first:
they start anew when it becomes closed. -/
def trackOutcomes (b b' : Breaker) (op : BreakerOp) (outcomes : List Bool) : List Bool :=
  if b.state ≠ .closed ∧ b'.state = .closed then [] else op.failed.toList ++ outcomes

/-- The outcomes recorded since the breaker last became closed, the last one first: whether each is
a failure. -/
def sinceClosed (cfg : BreakerConfig) (ops : List BreakerOp) : List Bool :=
  (ops.foldl (fun p op => (p.1.apply cfg op, trackOutcomes p.1 (p.1.apply cfg op) op p.2))
    (Breaker.new, [])).2

theorem replay_append (cfg : BreakerConfig) (ops : List BreakerOp) (op : BreakerOp) :
    replay cfg (ops ++ [op]) = (replay cfg ops).apply cfg op :=
  foldl_append

theorem sinceClosed_append (cfg : BreakerConfig) (ops : List BreakerOp) (op : BreakerOp) :
    sinceClosed cfg (ops ++ [op]) =
      trackOutcomes (replay cfg ops) (replay cfg (ops ++ [op])) op (sinceClosed cfg ops) := by
  have hfst : ∀ ops, (ops.foldl (fun p op =>
      (p.1.apply cfg op, trackOutcomes p.1 (p.1.apply cfg op) op p.2)) (Breaker.new, [])).1 =
        replay cfg ops := by
    intro ops
    induction ops using reverseRecOn with
    | nil => rfl
    | append_singleton ops op ih => rw [foldl_append, replay_append, ← ih]; rfl
  rw [sinceClosed, foldl_append, replay_append, ← hfst]
  rfl

/-- The last `n` outcomes are all failures. -/
def LastFailed (n : ℤ) (outcomes : List Bool) : Prop :=
  n ≤ outcomes.length ∧ ∀ failed ∈ outcomes.take n.toNat, failed = true

/-- The failures at the end of the outcomes. -/
def streak (outcomes : List Bool) : ℕ := (outcomes.takeWhile id).length

theorem lastFailed_iff (n : ℤ) (outcomes : List Bool) :
    LastFailed n outcomes ↔ n ≤ streak outcomes := by
  rw [LastFailed, streak]
  induction outcomes generalizing n with
  | nil => simp
  | cons failed outcomes ih =>
    have ih := ih (n - 1)
    rcases Int.lt_or_le 0 n with hn | hn
    swap
    · rw [Int.toNat_of_nonpos hn]
      simp only [take_zero, not_mem_nil, false_implies, implies_true, and_true]
      exact iff_of_true (by omega) (by omega)
    · obtain ⟨k, rfl⟩ : ∃ k : ℕ, n = k + 1 := ⟨(n - 1).toNat, by omega⟩
      rw [show (k : ℤ) + 1 - 1 = k by omega, Int.toNat_natCast] at ih
      rw [show ((k : ℤ) + 1).toNat = k + 1 by omega, take_succ_cons, forall_mem_cons,
        length_cons, takeWhile_cons]
      cases failed with
      | true =>
        simp only [id, if_true, length_cons, true_and]
        push_cast
        rw [Int.add_le_add_iff_right, Int.add_le_add_iff_right]
        exact ih
      | false =>
        simp only [id, Bool.false_eq_true, false_and, and_false, if_false, length_nil, false_iff]
        omega

/-! ### The counter -/

/-- The number of consecutive failures at which `recordFailure` opens the breaker. -/
def BreakerConfig.opensAt (cfg : BreakerConfig) : ℤ := max 1 (Int32.ofInt cfg.threshold).toInt

/-- **The invariant.**  A closed breaker has counted the failures at the end of the outcomes since
it became closed, and they are too few to open it. -/
def Counts (cfg : BreakerConfig) (b : Breaker) (outcomes : List Bool) : Prop :=
  b.state = .closed → b.failures.toInt = streak outcomes ∧ (streak outcomes : ℤ) < cfg.opensAt

/-- Asking does not close the breaker, and leaves a closed one as it is. -/
theorem admission_closed (cfg : BreakerConfig) (now : ℤ) (b : Breaker) :
    (b.state = .closed → (admission cfg now b).1 = b) ∧
      (b.state ≠ .closed → (admission cfg now b).1.state ≠ .closed) := by
  obtain ⟨state, _, _, _, _, _, _, _⟩ := b
  cases state with
  | closed => exact ⟨fun _ => rfl, fun h => absurd rfl h⟩
  | «open» | halfOpen =>
    refine ⟨nofun, fun _ => ?_⟩
    unfold admission allowRequest
    dsimp only
    split <;> exact nofun

/-- What a failure does to a breaker that has not counted to the threshold. -/
theorem recordFailure_closed (cfg : BreakerConfig) (now : ℤ) {b : Breaker}
    (hclosed : b.state = .closed) :
    (recordFailure cfg now b).failures = b.failures + 1 ∧
      ((recordFailure cfg now b).state = .open ↔ Int32.ofInt cfg.threshold ≤ b.failures + 1) ∧
      ((recordFailure cfg now b).state = .closed ↔
        ¬ Int32.ofInt cfg.threshold ≤ b.failures + 1) := by
  unfold recordFailure
  by_cases hcount : Int32.ofInt cfg.threshold ≤ b.failures + 1 <;> simp [hclosed, hcount]

/-- A failure does not close the breaker. -/
theorem recordFailure_not_closed (cfg : BreakerConfig) (now : ℤ) {b : Breaker}
    (h : b.state ≠ .closed) : (recordFailure cfg now b).state = .open := by
  obtain ⟨state, _, _, _, _, _, _, _⟩ := b
  cases state with
  | closed => exact absurd rfl h
  | «open» | halfOpen => rfl

/-- The counter does not wrap, and the comparison with the threshold is that of the numbers. -/
theorem opensAt_le_iff {failures : Int32} {n : ℕ} (hn : failures.toInt = n)
    (hlt : (n : ℤ) < cfg.opensAt) :
    (failures + 1).toInt = n + 1 ∧
      (Int32.ofInt cfg.threshold ≤ failures + 1 ↔ cfg.opensAt ≤ n + 1) := by
  have hmax := (Int32.ofInt cfg.threshold).toInt_lt
  rw [BreakerConfig.opensAt] at hlt ⊢
  have hadd : (failures + 1).toInt = n + 1 := by
    rw [Int32.toInt_add, hn]
    exact Int.bmod_eq_of_le (by simp; omega) (by simp; omega)
  rw [Int32.le_iff_toInt_le, hadd]
  exact ⟨rfl, by omega⟩

theorem opensAt_pos (cfg : BreakerConfig) : 0 < cfg.opensAt :=
  Int.lt_of_lt_of_le Int.one_pos (Int.le_max_left ..)

/-- **One step.**  The counter goes on, and a closed breaker opens exactly at `opensAt`. -/
theorem Counts.apply {b : Breaker} {outcomes : List Bool} (h : Counts cfg b outcomes)
    (op : BreakerOp) :
    Counts cfg (b.apply cfg op) (trackOutcomes b (b.apply cfg op) op outcomes) ∧
      (b.state = .closed → ((b.apply cfg op).state = .open ↔
        cfg.opensAt ≤ streak (trackOutcomes b (b.apply cfg op) op outcomes))) := by
  have hpos := opensAt_pos cfg
  by_cases hclosed : b.state = .closed
  · obtain ⟨hcount, hlt⟩ := h hclosed
    have htrack : ∀ b' : Breaker, trackOutcomes b b' op outcomes = op.failed.toList ++ outcomes :=
      fun b' => if_neg fun hne => hne.1 hclosed
    rw [htrack]
    cases op with
    | allow now =>
      have hsame : b.apply cfg (.allow now) = b := (admission_closed cfg now b).1 hclosed
      rw [hsame]
      refine ⟨h, fun _ => iff_of_false ?_ (Int.not_le.mpr hlt)⟩
      rw [hclosed]
      exact nofun
    | success =>
      have hstate : (recordSuccess b).state = .closed := by simp [recordSuccess, hclosed]
      have hfailures : (recordSuccess b).failures = 0 := by simp [recordSuccess, hclosed]
      refine ⟨fun _ => ⟨?_, hpos⟩, fun _ => iff_of_false ?_ (Int.not_le.mpr hpos)⟩
      · rw [Breaker.apply, hfailures]
        rfl
      · rw [Breaker.apply, hstate]
        exact nofun
    | failure now =>
      obtain ⟨hadd, hle⟩ := opensAt_le_iff hcount hlt
      obtain ⟨hfailures, hopen, hstays⟩ := recordFailure_closed cfg now hclosed
      have hstreak : (streak ((BreakerOp.failure now).failed.toList ++ outcomes) : ℤ) =
          streak outcomes + 1 := rfl
      rw [Counts, hstreak, Breaker.apply, hfailures, hadd, hstays, hopen, hle]
      exact ⟨fun hless => ⟨rfl, Int.not_le.mp hless⟩, fun _ => Iff.rfl⟩
  · refine ⟨fun hclosed' => ?_, fun hc => absurd hc hclosed⟩
    -- only a success closes the breaker, and it sets the counter back
    rw [trackOutcomes, if_pos ⟨hclosed, hclosed'⟩]
    cases op with
    | allow now => exact absurd hclosed' ((admission_closed cfg now b).2 hclosed)
    | success =>
      obtain ⟨state, _, _, _, _, _, _, _⟩ := b
      cases state with
      | closed => exact absurd rfl hclosed
      | «open» => cases hclosed'
      | halfOpen => exact ⟨rfl, hpos⟩
    | failure now =>
      have hopen := recordFailure_not_closed cfg now hclosed
      rw [Breaker.apply, hopen] at hclosed'
      cases hclosed'

/-- **Every run.** -/
theorem counts_replay (cfg : BreakerConfig) (ops : List BreakerOp) :
    Counts cfg (replay cfg ops) (sinceClosed cfg ops) := by
  induction ops using reverseRecOn with
  | nil => exact fun _ => ⟨rfl, opensAt_pos cfg⟩
  | append_singleton ops op ih =>
    rw [sinceClosed_append, replay_append]
    exact (ih.apply op).1

theorem opensAt_eq {threshold : ℤ} (timeout : ℤ) (h : threshold < 2 ^ 31) :
    (newCircuitBreaker threshold timeout).opensAt =
      (newCircuitBreaker threshold timeout).threshold := by
  have hrange : 0 < (newCircuitBreaker threshold timeout).threshold ∧
      (newCircuitBreaker threshold timeout).threshold < 2 ^ 31 := by
    change (0 < if threshold ≤ 0 then 5 else threshold) ∧
      (if threshold ≤ 0 then 5 else threshold) < 2 ^ 31
    split <;> omega
  rw [BreakerConfig.opensAt, Int32.toInt_ofInt, Int.bmod_eq_of_le (by simp; omega) (by simp; omega)]
  omega

/-- **The breaker opens on consecutive failures.**  In every run of calls whose functions are
atomic, with a threshold that has 32 bits, a closed breaker becomes open by a step exactly if the
last `threshold` outcomes that were recorded since it became closed are all failures; and when it
becomes closed again the failure count is zero. -/
theorem opens_on_consecutive_failures (threshold timeout : ℤ) (hthreshold : threshold < 2 ^ 31)
    (ops : List BreakerOp) (op : BreakerOp) :
    let cfg := newCircuitBreaker threshold timeout
    ((replay cfg ops).state = .closed → ((replay cfg (ops ++ [op])).state = .open ↔
      LastFailed cfg.threshold (sinceClosed cfg (ops ++ [op])))) ∧
    ((replay cfg ops).state = .halfOpen → (replay cfg (ops ++ [op])).state = .closed →
      (replay cfg (ops ++ [op])).failures = 0) := by
  intro cfg
  have hstep := (counts_replay cfg ops).apply op
  rw [lastFailed_iff, sinceClosed_append, replay_append, ← opensAt_eq timeout hthreshold]
  refine ⟨hstep.2, fun hhalf hclosed => ?_⟩
  have hne : (replay cfg ops).state ≠ .closed := by
    rw [hhalf]
    exact nofun
  have hzero := (hstep.1 hclosed).1
  rw [trackOutcomes, if_pos ⟨hne, hclosed⟩] at hzero
  exact Int32.toInt_inj.mp hzero

/-- Two failures open a breaker with the threshold two. -/
theorem opens_on_consecutive_failures_two :
    (replay (newCircuitBreaker 2 10) [.allow 0, .allow 0, .failure 1]).state = .closed ∧
      (replay (newCircuitBreaker 2 10)
        [.allow 0, .allow 0, .failure 1, .failure 2]).state = .open :=
  ⟨rfl, ((opens_on_consecutive_failures 2 10 (by decide) [.allow 0, .allow 0, .failure 1]
    (.failure 2)).1 rfl).mpr (by rw [lastFailed_iff]; decide)⟩

/-! ### Thresholds of more than 32 bits -/

/-- Failures and nothing else: the breaker stays closed until there are `opensAt` of them. -/
theorem replay_failures (cfg : BreakerConfig) (now : ℤ) (n : ℕ) (h : (n : ℤ) < cfg.opensAt) :
    (replay cfg (replicate n (.failure now))).state = .closed ∧
      sinceClosed cfg (replicate n (.failure now)) = replicate n true := by
  induction n with
  | zero => exact ⟨rfl, rfl⟩
  | succ n ih =>
    obtain ⟨hclosed, houtcomes⟩ := ih (by omega)
    have hcounts := counts_replay cfg (replicate n (.failure now)) hclosed
    have hstreak : streak (replicate n true) = n := by simp [streak]
    rw [houtcomes, hstreak] at hcounts
    obtain ⟨-, -, hstays⟩ := recordFailure_closed cfg now hclosed
    rw [(opensAt_le_iff hcounts.1 hcounts.2).2] at hstays
    rw [replicate_succ', sinceClosed_append, replay_append, trackOutcomes,
      if_neg fun hne => hne.1 hclosed, houtcomes]
    exact ⟨hstays.mpr (by omega), rfl⟩

/-- **Every threshold from `2 ^ 31` on opens the breaker too early**: some failures open it although
the outcomes since it became closed are fewer than the threshold. -/
theorem opens_early {threshold : ℤ} (timeout now : ℤ) (h : 2 ^ 31 ≤ threshold) :
    ∃ n : ℕ, let cfg := newCircuitBreaker threshold timeout
      let ops := replicate n (.failure now)
      (replay cfg ops).state = .closed ∧ (replay cfg (ops ++ [.failure now])).state = .open ∧
        ¬ LastFailed cfg.threshold (sinceClosed cfg (ops ++ [.failure now])) := by
  refine ⟨((newCircuitBreaker threshold timeout).opensAt - 1).toNat, ?_⟩
  intro cfg ops
  have hpos := opensAt_pos cfg
  have hlt : cfg.opensAt < cfg.threshold := by
    have hmax := (Int32.ofInt cfg.threshold).toInt_lt
    change max 1 _ < if threshold ≤ 0 then 5 else threshold
    split <;> omega
  obtain ⟨hclosed, houtcomes⟩ := replay_failures cfg now (cfg.opensAt - 1).toNat (by omega)
  have hstreak : ∀ n, streak (replicate n true) = n := by simp [streak]
  have hafter : trackOutcomes (replay cfg ops) (replay cfg (ops ++ [.failure now])) (.failure now)
      (sinceClosed cfg ops) = replicate ((cfg.opensAt - 1).toNat + 1) true := by
    rw [trackOutcomes, if_neg fun hne => hne.1 hclosed, houtcomes]
    rfl
  have hstep := ((counts_replay cfg ops).apply (.failure now)).2 hclosed
  rw [← replay_append, hafter, hstreak] at hstep
  refine ⟨hclosed, hstep.mpr (by omega), ?_⟩
  rw [lastFailed_iff, sinceClosed_append, hafter, hstreak]
  omega

/-- **One failure opens a breaker with a threshold of more than 32 bits.** -/
theorem large_threshold_opens_at_once :
    let cfg := newCircuitBreaker (2 ^ 32 + 1) 10
    (replay cfg [.allow 0]).state = .closed ∧ (replay cfg [.allow 0, .failure 1]).state = .open ∧
      ¬ LastFailed cfg.threshold (sinceClosed cfg [.allow 0, .failure 1]) := by
  refine ⟨rfl, by decide +kernel, ?_⟩
  rw [lastFailed_iff]
  decide +kernel

end ConvoyStats.Transport.Circuit
