import ConvoyStats.Transport.Breaker

/-!
# The half-open breaker

A half-open period begins when a call swaps open for half-open and ends with the swap to closed or
open.  `halfOpenMax` is meant to bound the calls that are let through in between.  `events` writes
down when a period begins, when a call is let through and when the period ends, and `period` reads
off the record how many calls the current period has let through; both look only at what the steps
do to `state` and to the call, not at `halfOpenCount`.

## What goes wrong

Three things let more calls through than `halfOpenMax`.  The call that makes the swap is not
counted; a call that has found the breaker open and comes too late for the swap is let through and
not counted either; and the counter is set back after the swap, so what was counted in between is
forgotten.  `half_open_lets_four_through` needs only the first of them.

## What does hold

The bound can be had from the callers instead of the counter.  Every call that records its outcome
in a half-open period ends it, for whichever way the outcome goes there is a swap out of half-open.
So as long as the period lasts, the calls it has let through are all in progress (`Bounded.le`), and
if there are at most `halfOpenMax` calls in progress at a time, there are not more of them.  A
function that panics is the exception: its call is over and has recorded nothing.  `FewCalls` asks
for these two things and for no order among the calls, so the races above are all allowed in
`half_open_bound`.

What carries the proof is `inPeriod_step`: a call of the period stays one, or its step ends the
period.
-/

namespace ConvoyStats.Transport.Circuit

open Process

variable {cfg : BreakerConfig}

/-! ### Periods -/

/-- What is written down of a run. -/
inductive BreakerEvent
  /-- The breaker becomes half-open. -/
  | entered
  /-- A call is let through. -/
  | allowed
  /-- The breaker is no longer half-open. -/
  | left
  deriving DecidableEq

/-- What a step of a call writes down. -/
def changes (b : Breaker) (pc : CallPc) (b' : Breaker) (pc' : CallPc) : List BreakerEvent :=
  (if b.state ≠ .halfOpen ∧ b'.state = .halfOpen then [.entered] else []) ++
    ((if pc.isOut = false ∧ pc'.isOut = true then [.allowed] else []) ++
      if b.state = .halfOpen ∧ b'.state ≠ .halfOpen then [.left] else [])

/-- What a step writes down. -/
def events (cfg : BreakerConfig) (c : Concurrent Breaker CallPc) :
    ConcurrentLabel Unit CallInput → List BreakerEvent
  | .call _ => []
  | .move i input =>
    match c.procs[i]? with
    | none => []
    | some pc =>
      match callStep cfg c.shared pc input with
      | none => []
      | some (b', pc') => changes c.shared pc b' pc'

/-- One event of a half-open period. -/
def track : Option ℕ → BreakerEvent → Option ℕ
  | _, .entered => some 0
  | period, .allowed => period.map (· + 1)
  | _, .left => none

/-- The number of calls that have been let through in the half-open period that the record ends
in. -/
def period (log : List BreakerEvent) : Option ℕ := log.foldl track none

theorem period_append (log log' : List BreakerEvent) :
    period (log ++ log') = log'.foldl track (period log) := List.foldl_append

/-! ### The calls of a period -/

/-- A call that ends the period, if it lasts until then and the call does not panic.  From the swap
to half-open on, and from the outcome of any function on, the call finds the breaker half-open when
it loads `state`, so that its own swap succeeds. -/
def CallPc.endsPeriod : CallPc → Bool
  | .allowChanged | .allowReset | .running true => true
  | .successTotal | .successLoad | .successSwap => true
  | .failureTotal | .failureTime | .failureLoad => true
  | .failureCount state | .failureSwap state => state = .halfOpen
  | _ => false

/-- The same of a call that has not made the swap.  `endsPeriod` leaves it out because a result
about the call that made the swap should not depend on the functions of the others. -/
def CallPc.inPeriod (pc : CallPc) : Bool := pc.endsPeriod || pc = .running false

/-- The call has not returned. -/
def CallPc.inProgress : CallPc → Bool
  | .returned _ => false
  | _ => true

theorem CallPc.isOut_of_endsPeriod {pc : CallPc} (h : pc.endsPeriod = true) : pc.isOut = true := by
  cases pc <;> first | rfl | cases h

theorem CallPc.isOut_of_inPeriod {pc : CallPc} (h : pc.inPeriod = true) : pc.isOut = true := by
  rcases (Bool.or_eq_true _ _).mp h with hends | hrunning
  · exact isOut_of_endsPeriod hends
  · rw [of_decide_eq_true hrunning]
    rfl

theorem CallPc.inProgress_of_inPeriod {pc : CallPc} (h : pc.inPeriod = true) :
    pc.inProgress = true := by
  have hout := isOut_of_inPeriod h
  cases pc <;> first | rfl | cases hout

section Steps

variable {b b' : Breaker} {pc pc' : CallPc} {input : CallInput}
  (h : callStep cfg b pc input = some (b', pc'))
include h

/-- A call that ends the period goes on to, as long as the period lasts. -/
theorem endsPeriod_step (hb : b.state = .halfOpen) (hb' : b'.state = .halfOpen)
    (hpc : pc.endsPeriod = true) (hpanic : pc = .running true → input ≠ .ends .panic) :
    pc'.endsPeriod = true := by
  cases pc
  case running moved =>
    cases moved
    · cases hpc
    · cases input with
      | ends how =>
        cases how with
        | ok =>
          cases h
          rfl
        | err =>
          cases h
          rfl
        | panic => exact absurd rfl (hpanic rfl)
      | none => cases h
      | clock now => cases h
  case successLoad =>
    cases input <;> try cases h
    rw [callStep, hb] at h
    cases h
    rfl
  case successSwap =>
    -- The swap succeeds, and the period is over.
    cases input <;> try cases h
    rw [callStep, if_pos hb] at h
    cases h
    cases hb'
  case failureLoad =>
    cases input <;> cases h
    simp [CallPc.endsPeriod, hb]
  case failureCount state =>
    have hstate : state = .halfOpen := of_decide_eq_true hpc
    cases input <;> cases h
    rw [afterCount, if_pos hstate]
    rfl
  case failureSwap state =>
    have hstate : state = .halfOpen := of_decide_eq_true hpc
    cases input <;> try cases h
    rw [callStep, if_pos (hb.trans hstate.symm)] at h
    cases h
    cases hb'
  all_goals first | exact absurd hpc Bool.false_ne_true | (cases input <;> cases h; rfl)

/-- If no function panics, that is so of every call of the period. -/
theorem inPeriod_step (hb : b.state = .halfOpen) (hb' : b'.state = .halfOpen)
    (hpc : pc.inPeriod = true) (hpanic : input ≠ .ends .panic) : pc'.inPeriod = true := by
  refine (Bool.or_eq_true _ _).mpr (.inl ?_)
  rcases (Bool.or_eq_true _ _).mp hpc with hends | hrunning
  · exact endsPeriod_step h hb hb' hends fun _ => hpanic
  · -- What the function returned is recorded next.
    rw [of_decide_eq_true hrunning] at h
    cases input with
    | ends how =>
      cases how with
      | ok =>
        cases h
        rfl
      | err =>
        cases h
        rfl
      | panic => exact absurd rfl hpanic
    | none => cases h
    | clock now => cases h

/-- A call that is let through is of the period. -/
theorem inPeriod_of_allowed (hout : pc.isOut = false) (hout' : pc'.isOut = true) :
    pc'.inPeriod = true := by
  cases pc <;> try cases hout
  case allowLoad =>
    cases input <;> try cases h
    rw [callStep] at h
    split at h <;> cases h <;> first | rfl | cases hout'
  case allowLastFail =>
    cases input <;> try cases h
    rw [callStep] at h
    split_ifs at h <;> cases h <;> cases hout'
  case allowSwap =>
    cases input <;> try cases h
    rw [callStep] at h
    split_ifs at h <;> cases h <;> rfl
  case allowCount =>
    cases input <;> cases h
    revert hout'
    split
    · exact fun _ => rfl
    · rintro ⟨⟩
  case reject =>
    cases input <;> cases h
    cases hout'
  case returned => cases input <;> cases h

/-- A period begins with a swap. -/
theorem allowChanged_of_entering (hb : b.state ≠ .halfOpen) (hb' : b'.state = .halfOpen) :
    pc' = .allowChanged := by
  cases pc
  case allowSwap =>
    cases input <;> try cases h
    rw [callStep] at h
    split_ifs at h <;> cases h
    · rfl
    · exact absurd hb' hb
  -- No other step makes the breaker half-open.
  all_goals
    cases input <;> try cases h
  case running.ends how =>
    cases how <;> cases h <;> exact absurd hb' hb
  all_goals
    try rw [callStep] at h
    first
    | exact absurd hb' hb
    | (split at h <;> cases h <;> first | exact absurd hb' hb | cases hb')

/-- A call that has returned does not go on. -/
theorem inProgress_of_step : pc.inProgress = true := by
  cases pc <;> first | rfl | cases h

end Steps

/-! ### The bound -/

/-- **What is asked of the callers.**  At most `halfOpenMax` calls are in progress at a time, and no
function panics.  Nothing is asked of the order in which the calls move. -/
def FewCalls (cfg : BreakerConfig) (c : Concurrent Breaker CallPc) :
    ConcurrentLabel Unit CallInput → Prop
  | .call _ => (c.procs.countP CallPc.inProgress : ℤ) < cfg.halfOpenMax
  | .move _ input => input ≠ .ends .panic

instance (c : Concurrent Breaker CallPc) (l : ConcurrentLabel Unit CallInput) :
    Decidable (FewCalls cfg c l) :=
  match l with
  | .call _ => inferInstanceAs (Decidable ((_ : ℤ) < _))
  | .move _ _ => inferInstanceAs (Decidable (_ ≠ _))

/-- **The invariant.**  The calls that have been let through in the period are still in progress:
none of them has recorded its outcome, since that ends the period. -/
structure Bounded (cfg : BreakerConfig) (c : Concurrent Breaker CallPc) (period : Option ℕ) :
    Prop where
  half : c.shared.state = .halfOpen ↔ period.isSome
  le : ∀ n ∈ period, n ≤ c.procs.countP CallPc.inPeriod
  few : (c.procs.countP CallPc.inProgress : ℤ) ≤ cfg.halfOpenMax

theorem Bounded.period_le {c : Concurrent Breaker CallPc} {n : ℕ} (h : Bounded cfg c (some n)) :
    (n : ℤ) ≤ cfg.halfOpenMax := by
  have hcount : c.procs.countP CallPc.inPeriod ≤ c.procs.countP CallPc.inProgress :=
    List.countP_mono_left fun _ _ => CallPc.inProgress_of_inPeriod
  have hle := h.le n rfl
  have hfew := h.few
  omega

/-- The period after a step. -/
theorem period_changes {log : List BreakerEvent} {b b' : Breaker} {pc pc' : CallPc}
    (hhalf : b.state = .halfOpen ↔ (period log).isSome) :
    period (log ++ changes b pc b' pc') =
      if b'.state = .halfOpen then
        (if b.state = .halfOpen then period log else some 0).map
          (· + if pc.isOut = false ∧ pc'.isOut = true then 1 else 0)
      else none := by
  rw [period_append, changes]
  by_cases hb : b.state = .halfOpen
  · by_cases hb' : b'.state = .halfOpen
    · by_cases hout : pc.isOut = false ∧ pc'.isOut = true <;> simp [hb, hb', hout, track]
    · by_cases hout : pc.isOut = false ∧ pc'.isOut = true <;> simp [hb, hb', hout, track]
  · have hnone : period log = none := by simpa [hb] using hhalf
    by_cases hb' : b'.state = .halfOpen
    · by_cases hout : pc.isOut = false ∧ pc'.isOut = true <;> simp [hb, hb', hout, hnone, track]
    · by_cases hout : pc.isOut = false ∧ pc'.isOut = true <;> simp [hb, hb', hout, hnone, track]

/-- **One step of a call keeps to the bound.** -/
theorem Bounded.step {c : Concurrent Breaker CallPc} {log : List BreakerEvent} {i : ℕ}
    {input : CallInput} {b' : Breaker} {pc pc' : CallPc} (hI : Bounded cfg c (period log))
    (hi : c.procs[i]? = some pc) (hpanic : input ≠ .ends .panic)
    (hstep : callStep cfg c.shared pc input = some (b', pc')) :
    Bounded cfg ⟨b', c.procs.set i pc'⟩ (period (log ++ changes c.shared pc b' pc')) := by
  have hcount := List.countP_set_add CallPc.inPeriod pc' hi
  have hprogress := List.countP_set_add CallPc.inProgress pc' hi
  rw [if_pos (inProgress_of_step hstep)] at hprogress
  have hfew : ((c.procs.set i pc').countP CallPc.inProgress : ℤ) ≤ cfg.halfOpenMax := by
    have hold := hI.few
    split_ifs at hprogress <;> omega
  rw [period_changes hI.half]
  by_cases hb' : b'.state = .halfOpen
  swap
  · rw [if_neg hb']
    exact ⟨⟨fun h => absurd h hb', nofun⟩, nofun, hfew⟩
  rw [if_pos hb']
  by_cases hb : c.shared.state = .halfOpen
  · rw [if_pos hb]
    refine ⟨by rw [Option.isSome_map]; exact ⟨fun _ => hI.half.mp hb, fun _ => hb'⟩, ?_, hfew⟩
    intro m hm
    show m ≤ (c.procs.set i pc').countP CallPc.inPeriod
    obtain ⟨n, hn, rfl⟩ := Option.map_eq_some_iff.mp hm
    have hle := hI.le n hn
    by_cases hpc : pc.inPeriod = true
    · -- The call was let through before, and is of the period after its step as well.
      rw [if_pos hpc, if_pos (inPeriod_step hstep hb hb' hpc hpanic)] at hcount
      rw [if_neg fun hout => by rw [CallPc.isOut_of_inPeriod hpc] at hout; cases hout.1]
      omega
    · rw [if_neg hpc] at hcount
      split_ifs with hout
      · rw [if_pos (inPeriod_of_allowed hstep hout.1 hout.2)] at hcount
        omega
      · omega
  · -- The call that makes the swap is the first of the period.
    rw [if_neg hb]
    refine ⟨⟨fun _ => rfl, fun _ => hb'⟩, fun m hm => ?_, hfew⟩
    obtain rfl := Option.mem_some_iff.mp hm
    have hpos : 0 < (c.procs.set i pc').countP CallPc.inPeriod := by
      refine List.countP_pos_iff.mpr ⟨pc', List.mem_set_self_of hi, ?_⟩
      rw [allowChanged_of_entering hstep hb hb']
      rfl
    show 0 + _ ≤ (c.procs.set i pc').countP CallPc.inPeriod
    split_ifs <;> omega

/-- **The bound holds in every run** with few calls at a time. -/
theorem bounded_of_reachable (hmax : 0 ≤ cfg.halfOpenMax)
    {p : Concurrent Breaker CallPc × List BreakerEvent}
    (h : ((breaker cfg).recording (events cfg)).Reachable (fun p l => FewCalls cfg p.1 l) p) :
    Bounded cfg p.1 (period p.2) := by
  have hinit : Bounded cfg ⟨.new, []⟩ none := ⟨by decide, by simp, hmax⟩
  refine h.invariant (I := fun p => Bounded cfg p.1 (period p.2)) hinit ?_
  rintro ⟨c, log⟩ l ⟨c', log'⟩ - hI hfew hs
  obtain ⟨t, ht, heq⟩ := Option.map_eq_some_iff.mp hs
  cases heq
  cases ConcurrentMove.of_step ht with
  | call a =>
    have hless : (c.procs.countP CallPc.inProgress : ℤ) < cfg.halfOpenMax := hfew
    simp only [events, List.append_nil]
    refine ⟨hI.half, fun n hn => ?_, ?_⟩
    · rw [List.countP_append]
      exact Nat.le_trans (hI.le n hn) (Nat.le_add_right _ _)
    · simp only [List.countP_append, call, List.countP_singleton, CallPc.inProgress, if_true]
      omega
  | @move i input pc pc' b' hi hstep =>
    have hevents : events cfg c (.move i input) = changes c.shared pc b' pc' := by
      have hcall : callStep cfg c.shared pc input = some (b', pc') := hstep
      simp only [events, hi, hcall]
    rw [hevents]
    exact hI.step hi hfew hstep

/-- **The half-open bound.**  In every run in which at most `halfOpenMax` calls are in progress at a
time and no function panics, at most `halfOpenMax` calls are let through in a half-open period, with
the one that made the swap, however many are made while it lasts. -/
theorem half_open_bound (threshold timeout : ℤ)
    {c : Concurrent Breaker CallPc} {log : List BreakerEvent}
    (h : ((breaker (newCircuitBreaker threshold timeout)).recording
      (events (newCircuitBreaker threshold timeout))).Reachable
      (fun p l => FewCalls (newCircuitBreaker threshold timeout) p.1 l) (c, log))
    {n : ℕ} (hn : period log = some n) :
    (n : ℤ) ≤ (newCircuitBreaker threshold timeout).halfOpenMax := by
  have hI := bounded_of_reachable (show (0 : ℤ) ≤ 3 by decide) h
  rw [hn] at hI
  exact hI.period_le

/-! ### Runs on a breaker that opens at the first failure -/

/-- The call `i` goes on, `n` times. -/
def steps (i n : ℕ) : List (ConcurrentLabel Unit CallInput) :=
  List.replicate n (.move i .none)

/-- The call 0 fails and opens the breaker. -/
def opened : List (ConcurrentLabel Unit CallInput) :=
  [.call (), .move 0 .none, .move 0 (.ends .err), .move 0 .none, .move 0 (.clock 0)] ++ steps 0 4

/-- The call 1 comes after the time is over and makes the breaker half-open. -/
def halfOpened : List (ConcurrentLabel Unit CallInput) :=
  opened ++ [.call (), .move 1 .none, .move 1 (.clock 20)] ++ steps 1 3

/-- The calls 2 and 3 find it half-open. -/
def twoMore : List (ConcurrentLabel Unit CallInput) :=
  halfOpened ++ .call () :: steps 2 2 ++ .call () :: steps 3 2

theorem half_open_bound_twoMore :
    ∃ c log, ((breaker (newCircuitBreaker 1 10)).recording
        (events (newCircuitBreaker 1 10))).Reachable
        (fun p l => FewCalls (newCircuitBreaker 1 10) p.1 l) (c, log) ∧
      period log = some 3 ∧ ((3 : ℕ) : ℤ) ≤ (newCircuitBreaker 1 10).halfOpenMax := by
  have hreach : ((breaker (newCircuitBreaker 1 10)).recording
      (events (newCircuitBreaker 1 10))).Reachable
      (fun p l => FewCalls (newCircuitBreaker 1 10) p.1 l) _ := .of_labels_within _ twoMore rfl
  exact ⟨_, _, hreach, rfl, half_open_bound 1 10 hreach rfl⟩

/-- **A fourth call is let through**, after the one that made the swap and three that are
counted. -/
theorem half_open_lets_four_through :
    ∃ c log, ((breaker (newCircuitBreaker 1 10)).recording
        (events (newCircuitBreaker 1 10))).Reach (c, log) ∧
      period log = some 4 ∧ (newCircuitBreaker 1 10).halfOpenMax < ((4 : ℕ) : ℤ) := by
  have hreach : ((breaker (newCircuitBreaker 1 10)).recording
      (events (newCircuitBreaker 1 10))).Reach _ :=
    .of_labels (twoMore ++ .call () :: steps 4 2) rfl
  exact ⟨_, _, hreach, rfl, by decide⟩

end ConvoyStats.Transport.Circuit
