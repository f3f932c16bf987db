import ConvoyStats.Transport.HalfOpen

/-!
# Leaving half-open

A half-open period ends only with the outcome of a call.  A function that panics records none,
so if all that were let through panic, and the counter is at its end, the breaker stays
half-open and lets nobody through.

What carries the other direction is the call that made the swap.  As long as the period lasts
it finds the breaker half-open when it records its outcome, and its own swap succeeds; so if
its function does not panic it ends the period at the latest.
-/

namespace ConvoyStats.Transport.Circuit

open Process

variable {cfg : BreakerConfig}

/-- What a call does, by itself, to end the period. -/
def CallPc.outcome : CallPc → List CallInput
  | .allowChanged => [.none, .none, .ends .ok, .none, .none, .none]
  | .allowReset => [.none, .ends .ok, .none, .none, .none]
  | .running _ => [.ends .ok, .none, .none, .none]
  | .successTotal => [.none, .none, .none]
  | .successLoad => [.none, .none]
  | .failureTotal => [.none, .clock 0, .none, .none, .none]
  | .failureTime => [.clock 0, .none, .none, .none]
  | .failureLoad => [.none, .none, .none]
  | .failureCount _ => [.none, .none]
  | _ => [.none]

/-- A call that ends the period can do so by itself. -/
theorem leaves_of_endsPeriod (cfg : BreakerConfig) {b : Breaker} {pc : CallPc}
    (hb : b.state = .halfOpen) (hpc : pc.endsPeriod = true) (i : ℕ) :
    ∃ b' pc', (call cfg).solo i (b, pc) pc.outcome = some (b', pc') ∧ b'.state ≠ .halfOpen := by
  obtain ⟨state, _, _, _, _, _, _, _⟩ := b
  obtain rfl : state = .halfOpen := hb
  cases pc
  case failureCount state =>
    obtain rfl : state = .halfOpen := of_decide_eq_true hpc
    exact ⟨_, _, rfl, nofun⟩
  case failureSwap state =>
    obtain rfl : state = .halfOpen := of_decide_eq_true hpc
    exact ⟨_, _, rfl, nofun⟩
  all_goals first | exact absurd hpc Bool.false_ne_true | exact ⟨_, _, rfl, nofun⟩

/-! ### Runs -/

/-- The function of a call that has made the breaker half-open does not panic. -/
def SwapSurvives (c : Concurrent Breaker CallPc) : ConcurrentLabel Unit CallInput → Prop
  | .move i (.ends .panic) => c.procs[i]? ≠ some (.running true)
  | _ => True

instance (c : Concurrent Breaker CallPc) (l : ConcurrentLabel Unit CallInput) :
    Decidable (SwapSurvives c l) :=
  match l with
  | .move i (.ends .panic) => inferInstanceAs (Decidable (c.procs[i]? ≠ some (.running true)))
  | .move _ (.ends .ok) | .move _ (.ends .err) | .move _ .none | .move _ (.clock _) | .call _ =>
    .isTrue trivial

/-- **The invariant.**  A half-open breaker has a call that ends the period. -/
def Held (c : Concurrent Breaker CallPc) : Prop :=
  c.shared.state = .halfOpen → ∃ pc ∈ c.procs, pc.endsPeriod = true

theorem held_of_reachable {c : Concurrent Breaker CallPc}
    (h : (breaker cfg).Reachable SwapSurvives c) : Held c := by
  refine h.invariant (fun hhalf => by cases hhalf) ?_
  intro c l c' _ hI hallowed hs
  cases ConcurrentMove.of_step hs with
  | call a =>
    intro hhalf
    obtain ⟨pc, hpc, hends⟩ := hI hhalf
    exact ⟨pc, List.mem_append_left _ hpc, hends⟩
  | @move i _ _ pc' _ hi hstep =>
    intro hb'
    by_cases hb : c.shared.state = .halfOpen
    · rcases List.exists_mem_of_set pc' hi (hI hb) with hother | hself
      · exact hother
      · refine ⟨pc', List.mem_set_self_of hi, endsPeriod_step hstep hb hb' hself ?_⟩
        rintro rfl rfl
        exact hallowed hi
    · refine ⟨pc', List.mem_set_self_of hi, ?_⟩
      rw [allowChanged_of_entering hstep hb hb']
      rfl

/-- **The breaker does not stay half-open.**  In every run in which no function panics of a call
that has made the breaker half-open, a half-open breaker has, whatever `halfOpenCount` is, a
call that was let through and has not ended, and which by itself can end the period. -/
theorem half_open_ends (threshold timeout : ℤ) {c : Concurrent Breaker CallPc}
    (h : (breaker (newCircuitBreaker threshold timeout)).Reachable SwapSurvives c)
    (hhalf : c.shared.state = .halfOpen) :
    ∃ (i : ℕ) (pc : CallPc), c.procs[i]? = some pc ∧ pc.isOut = true ∧
      ∃ (inputs : List CallInput) (c' : Concurrent Breaker CallPc),
        (breaker (newCircuitBreaker threshold timeout)).run c (inputs.map (.move i)) = some c' ∧
        c'.shared.state ≠ .halfOpen := by
  obtain ⟨pc, hmem, hends⟩ := held_of_reachable h hhalf
  obtain ⟨i, hi⟩ := List.getElem?_of_mem hmem
  obtain ⟨b', pc', hsolo, hb'⟩ :=
    leaves_of_endsPeriod (newCircuitBreaker threshold timeout) hhalf hends i
  exact ⟨i, pc, hi, CallPc.isOut_of_endsPeriod hends, _, _, run_solo hi hsolo, hb'⟩

/-- Three more calls find the breaker half-open, and the counter is at its end. -/
def atTheEnd : List (ConcurrentLabel Unit CallInput) :=
  twoMore ++ .call () :: steps 4 2

theorem half_open_ends_atTheEnd :
    ∃ c, (breaker (newCircuitBreaker 1 10)).Reachable SwapSurvives c ∧
      c.shared.state = .halfOpen ∧ c.shared.halfOpenCount.toInt = 3 ∧
      ∃ (i : ℕ) (pc : CallPc), c.procs[i]? = some pc ∧ pc.isOut = true := by
  have hreach : (breaker (newCircuitBreaker 1 10)).Reachable SwapSurvives _ :=
    .of_labels_within _ (atTheEnd ++ [.move 2 (.ends .panic)]) rfl
  obtain ⟨i, pc, hi, hout, -⟩ := half_open_ends 1 10 hreach rfl
  exact ⟨_, hreach, rfl, rfl, i, pc, hi, hout⟩

/-- **The breaker is stuck.**  All calls that were let through have panicked. -/
theorem half_open_stuck :
    ∃ c, (breaker (newCircuitBreaker 1 10)).Reach c ∧ c.shared.state = .halfOpen ∧
      (newCircuitBreaker 1 10).halfOpenMax ≤ c.shared.halfOpenCount.toInt ∧
      ∀ pc ∈ c.procs, pc.isOut = false := by
  have hreach : (breaker (newCircuitBreaker 1 10)).Reach _ :=
    .of_labels (atTheEnd ++ [1, 2, 3, 4].map fun i => .move i (.ends .panic)) rfl
  exact ⟨_, hreach, rfl, by decide, by decide⟩

end ConvoyStats.Transport.Circuit
