import Mathlib.Tactic.Linarith
import Mathlib.Tactic.Ring
import ConvoyStats.Models.Metric

/-!
# The rate limiter

`RateLimiter` is a token bucket: each call first adds what the time since the last call is worth,
up to `burst`, and then takes what it asks for if that much is there.  Tokens are exact rationals.

What can still be granted in a window is its `credit`, from which each grant in the window is paid.
Whatever happened before, it is at most a full bucket and what the window is worth.
-/

namespace ConvoyStats.Client

open Models

/-- `time.Time.Sub`, which stops at the ends of `time.Duration`. -/
def durationBetween (earlier later : Time) : ℤ := max (-2 ^ 63) (min (2 ^ 63 - 1) (later - earlier))

/-- `Duration.Seconds`. -/
def seconds (d : ℤ) : ℚ := d / 10 ^ 9

structure RateLimiter where
  rate : ℚ
  burst : ℤ
  tokens : ℚ
  lastUpdate : Time

namespace RateLimiter

/-- `NewRateLimiter` at time `now`. -/
def newRateLimiter (rate : ℚ) (burst : ℤ) (now : Time) : RateLimiter :=
  let rate := if rate ≤ 0 then 1000 else rate
  let burst := if burst ≤ 0 then 100 else burst
  { rate, burst, tokens := burst, lastUpdate := now }

/-- How `Allow` and `AllowN` begin. -/
def refill (rl : RateLimiter) (now : Time) : RateLimiter :=
  let elapsed := seconds (durationBetween rl.lastUpdate now)
  let tokens := rl.tokens + elapsed * rl.rate
  { rl with tokens := if tokens > rl.burst then rl.burst else tokens, lastUpdate := now }

/-- How they go on: `tokensNeeded` are taken if they are there. -/
def take (rl : RateLimiter) (tokensNeeded : ℚ) : RateLimiter × Bool :=
  if rl.tokens ≥ tokensNeeded then ({ rl with tokens := rl.tokens - tokensNeeded }, true)
  else (rl, false)

/-- `Allow` at time `now`. -/
def allow (rl : RateLimiter) (now : Time) : RateLimiter × Bool := (rl.refill now).take 1

/-- `AllowN` at time `now`. -/
def allowN (rl : RateLimiter) (now : Time) (n : ℤ) : RateLimiter × Bool := (rl.refill now).take n

inductive Call where
  | allow
  | allowN (n : ℤ)

/-- How many tokens a call asks for. -/
def Call.asks : Call → ℤ
  | .allow => 1
  | .allowN n => n

def Call.run (rl : RateLimiter) (now : Time) : Call → RateLimiter × Bool
  | .allow => rl.allow now
  | .allowN n => rl.allowN now n

/-- The limiter after calls, each with its time. -/
def after (rl : RateLimiter) : List (Time × Call) → RateLimiter
  | [] => rl
  | (now, c) :: calls => (c.run rl now).1.after calls

/-- The tokens that a call is granted. -/
def Call.grant (rl : RateLimiter) (now : Time) (c : Call) : ℤ :=
  if (c.run rl now).2 then c.asks else 0

/-- The tokens that calls are granted from `t₁` to `t₂`. -/
def granted (t₁ t₂ : Time) (rl : RateLimiter) : List (Time × Call) → ℤ
  | [] => 0
  | (now, c) :: calls =>
    (if t₁ ≤ now ∧ now ≤ t₂ then c.grant rl now else 0) + granted t₁ t₂ (c.run rl now).1 calls

/-- The times do not go back, and no call asks for a negative number of tokens. -/
def Proper (start : Time) (calls : List (Time × Call)) : Prop :=
  (start :: calls.map Prod.fst).Pairwise (· ≤ ·) ∧ ∀ call ∈ calls, 0 ≤ call.2.asks

/-! ### One call -/

/-- A limiter as calls leave it. -/
structure Valid (rl : RateLimiter) : Prop where
  rate_pos : 0 < rl.rate
  burst_pos : 0 < rl.burst
  tokens_nonneg : 0 ≤ rl.tokens
  tokens_le : rl.tokens ≤ rl.burst

/-- What a window is worth. -/
def worth (rl : RateLimiter) (earlier later : Time) : ℚ := rl.rate * seconds (later - earlier)

/-- What one call does: it grants what it asks for or nothing, out of what was there and what the
time since the last call is worth. -/
structure Granting (rl rl' : RateLimiter) (now : Time) (grant : ℤ) : Prop where
  valid : rl'.Valid
  rate_eq : rl'.rate = rl.rate
  burst_eq : rl'.burst = rl.burst
  lastUpdate_eq : rl'.lastUpdate = now
  within_burst : grant + rl'.tokens ≤ rl.burst
  within_worth : grant + rl'.tokens ≤ rl.tokens + rl.worth rl.lastUpdate now

section Call

variable {rl rl' : RateLimiter} {a b now : Time} {grant : ℤ}

theorem seconds_nonneg {d : ℤ} (h : 0 ≤ d) : 0 ≤ seconds d :=
  div_nonneg (Int.cast_nonneg h) (by norm_num)

theorem Valid.worth_nonneg (h : rl.Valid) (hab : a ≤ b) : 0 ≤ rl.worth a b :=
  mul_nonneg h.rate_pos.le (seconds_nonneg (sub_nonneg.mpr hab))

theorem worth_add (rl : RateLimiter) (a b c : Time) :
    rl.worth a b + rl.worth b c = rl.worth a c := by
  simp only [worth, seconds]
  push_cast
  ring

theorem Granting.worth_eq (h : Granting rl rl' now grant) (a b : Time) :
    rl'.worth a b = rl.worth a b := by
  rw [worth, worth, h.rate_eq]

theorem durationBetween_nonneg (h : a ≤ b) : 0 ≤ durationBetween a b :=
  le_max_of_le_right (le_min (by norm_num) (sub_nonneg.mpr h))

theorem durationBetween_le (h : a ≤ b) : durationBetween a b ≤ b - a :=
  max_le (le_trans (by norm_num) (sub_nonneg.mpr h)) (min_le_right ..)

theorem granting_refill (h : rl.Valid) (hnow : rl.lastUpdate ≤ now) :
    Granting rl (rl.refill now) now 0 := by
  -- The duration is that since the last call, or less where it is too long for one.
  have helapsed : seconds (durationBetween rl.lastUpdate now) * rl.rate ≤
      rl.worth rl.lastUpdate now := by
    rw [worth, mul_comm]
    refine mul_le_mul_of_nonneg_left ?_ h.rate_pos.le
    exact div_le_div_of_nonneg_right (Int.cast_le.mpr (durationBetween_le hnow)) (by norm_num)
  have hadded : 0 ≤ seconds (durationBetween rl.lastUpdate now) * rl.rate :=
    mul_nonneg (seconds_nonneg (durationBetween_nonneg hnow)) h.rate_pos.le
  have hburst : (0 : ℚ) ≤ rl.burst := Int.cast_nonneg h.burst_pos.le
  have htokens := h.tokens_nonneg
  have hcap : (rl.refill now).tokens ≤ rl.burst ∧ 0 ≤ (rl.refill now).tokens ∧
      (rl.refill now).tokens ≤ rl.tokens + rl.worth rl.lastUpdate now := by
    rw [refill]
    dsimp only
    split_ifs with hfull
    · exact ⟨le_refl _, hburst, by linarith⟩
    · exact ⟨le_of_not_gt hfull, by linarith, by linarith⟩
  refine ⟨⟨h.rate_pos, h.burst_pos, hcap.2.1, hcap.1⟩, rfl, rfl, rfl, ?_, ?_⟩
  · simpa using hcap.1
  · simpa using hcap.2.2

theorem Granting.take (h : Granting rl rl' now 0) {n : ℤ} (hn : 0 ≤ n) :
    Granting rl (rl'.take n).1 now (if (rl'.take n).2 then n else 0) := by
  by_cases henough : rl'.tokens ≥ n
  · have htake : rl'.take n = ({ rl' with tokens := rl'.tokens - n }, true) := if_pos henough
    have hburst := h.within_burst
    have hworth := h.within_worth
    have hle := h.valid.tokens_le
    have hcast : (0 : ℚ) ≤ n := Int.cast_nonneg hn
    rw [Int.cast_zero, zero_add] at hburst hworth
    rw [htake, if_pos rfl]
    refine ⟨⟨h.valid.rate_pos, h.valid.burst_pos, sub_nonneg.mpr henough, ?_⟩, h.rate_eq,
      h.burst_eq, h.lastUpdate_eq, ?_, ?_⟩
    all_goals
      dsimp only
      linarith
  · have htake : rl'.take n = (rl', false) := if_neg henough
    rw [htake]
    exact h

theorem granting_run (h : rl.Valid) (hnow : rl.lastUpdate ≤ now) {c : Call} (hc : 0 ≤ c.asks) :
    Granting rl (c.run rl now).1 now (c.grant rl now) := by
  have hrefill := (granting_refill h hnow).take hc
  cases c with
  | allow =>
    rw [Call.asks, Int.cast_one] at hrefill
    exact hrefill
  | allowN n => exact hrefill

end Call

/-! ### A run -/

section Run

variable {rl rl' : RateLimiter} {now : Time} {c : Call} {calls : List (Time × Call)} {t₁ t₂ : Time}

theorem Proper.head (h : Proper rl.lastUpdate ((now, c) :: calls)) (hv : rl.Valid) :
    rl.lastUpdate ≤ now ∧ Granting rl (c.run rl now).1 now (c.grant rl now) ∧
      Proper (c.run rl now).1.lastUpdate calls := by
  obtain ⟨htimes, hasks⟩ := h
  obtain ⟨hnow, htimes⟩ := List.pairwise_cons.mp htimes
  have hnow := hnow now (List.mem_cons_self ..)
  have hrun := granting_run hv hnow (hasks _ (List.mem_cons_self ..))
  refine ⟨hnow, hrun, ?_, fun call hmem => hasks call (List.mem_cons_of_mem _ hmem)⟩
  rwa [hrun.lastUpdate_eq]

/-- **Calls keep the bucket between empty and full.** -/
theorem valid_after (hv : rl.Valid) (hcalls : Proper rl.lastUpdate calls) :
    (rl.after calls).Valid ∧ (rl.after calls).burst = rl.burst := by
  induction calls generalizing rl with
  | nil => exact ⟨hv, rfl⟩
  | cons call calls ih =>
    obtain ⟨-, hrun, hrest⟩ := hcalls.head hv
    obtain ⟨hvalid, hburst⟩ := ih hrun.valid hrest
    exact ⟨hvalid, hburst.trans hrun.burst_eq⟩

/-- What the limiter can still grant from `t₁` to `t₂`: a full bucket before, what is in it
meanwhile, and nothing after. -/
def credit (t₁ t₂ : Time) (rl : RateLimiter) : ℚ :=
  if t₂ < rl.lastUpdate then 0
  else if rl.lastUpdate < t₁ then rl.burst + rl.worth t₁ t₂
  else rl.tokens + rl.worth rl.lastUpdate t₂

theorem Valid.credit_nonneg (h : rl.Valid) (hle : t₁ ≤ t₂) : 0 ≤ rl.credit t₁ t₂ := by
  rw [credit]
  split_ifs with hover hbefore
  · exact le_refl 0
  · exact add_nonneg (Int.cast_nonneg h.burst_pos.le) (h.worth_nonneg hle)
  · exact add_nonneg h.tokens_nonneg (h.worth_nonneg (le_of_not_gt hover))

/-- A full bucket is never worth less. -/
theorem Valid.credit_le (h : rl.Valid) (hle : t₁ ≤ t₂) :
    rl.credit t₁ t₂ ≤ rl.burst + rl.worth t₁ t₂ := by
  have hburst : (0 : ℚ) ≤ rl.burst := Int.cast_nonneg h.burst_pos.le
  rw [credit]
  split_ifs with hover hbefore
  · exact add_nonneg hburst (h.worth_nonneg hle)
  · exact le_refl _
  · rw [← rl.worth_add t₁ rl.lastUpdate t₂]
    linarith [h.tokens_le, h.worth_nonneg (le_of_not_gt hbefore)]

/-- **A grant in the window is paid out of the credit.** -/
theorem Granting.credit_le {grant : ℤ} (h : Granting rl rl' now grant) (hv : rl.Valid)
    (hnow : rl.lastUpdate ≤ now) (hle : t₁ ≤ t₂) :
    ((if t₁ ≤ now ∧ now ≤ t₂ then grant else 0 : ℤ) : ℚ) + rl'.credit t₁ t₂ ≤ rl.credit t₁ t₂ := by
  rw [credit, h.lastUpdate_eq, h.burst_eq, h.worth_eq, h.worth_eq]
  rcases lt_or_ge t₂ now with hover | hopen
  · rw [if_neg fun hin => hover.not_ge hin.2, if_pos hover, Int.cast_zero, zero_add]
    exact hv.credit_nonneg hle
  rw [if_neg hopen.not_gt, credit, if_neg (hnow.trans hopen).not_gt]
  rcases lt_or_ge now t₁ with hbefore | hstarted
  · rw [if_neg fun hin => hbefore.not_ge hin.1, if_pos hbefore, if_pos (hnow.trans_lt hbefore),
      Int.cast_zero, zero_add]
  rw [if_pos ⟨hstarted, hopen⟩, if_neg hstarted.not_gt]
  split_ifs with hbefore
  · -- The window opens with this call: what it leaves is at most the burst without its grant.
    rw [← rl.worth_add t₁ now t₂]
    linarith [h.within_burst, hv.worth_nonneg hstarted]
  · rw [← rl.worth_add rl.lastUpdate now t₂]
    linarith [h.within_worth]

/-- **What is granted in the window was credit.** -/
theorem granted_le_credit (hv : rl.Valid) (hcalls : Proper rl.lastUpdate calls) (hle : t₁ ≤ t₂) :
    (granted t₁ t₂ rl calls : ℚ) ≤ rl.credit t₁ t₂ := by
  induction calls generalizing rl with
  | nil =>
    rw [granted, Int.cast_zero]
    exact hv.credit_nonneg hle
  | cons call calls ih =>
    obtain ⟨hnow, hrun, hrest⟩ := hcalls.head hv
    rw [granted, Int.cast_add]
    exact (add_le_add_right (ih hrun.valid hrest) _).trans (hrun.credit_le hv hnow hle)

end Run

theorem valid_newRateLimiter (rate : ℚ) (burst : ℤ) (now : Time) :
    (newRateLimiter rate burst now).Valid := by
  have hrate : (0 : ℚ) < if rate ≤ 0 then 1000 else rate := by
    split_ifs with h
    · norm_num
    · exact lt_of_not_ge h
  have hburst : 0 < if burst ≤ 0 then 100 else burst := by
    split_ifs with h
    · norm_num
    · exact lt_of_not_ge h
  exact ⟨hrate, hburst, Int.cast_nonneg hburst.le, le_refl _⟩

/-- **The limit holds in every window**, and the bucket is never overdrawn or overfull. -/
theorem grants_within_every_window {rate : ℚ} {burst : ℤ} (hrate : 0 < rate) (hburst : 0 < burst)
    {start : Time} {calls : List (Time × Call)} (hcalls : Proper start calls) :
    (∀ k, 0 ≤ ((newRateLimiter rate burst start).after (calls.take k)).tokens ∧
      ((newRateLimiter rate burst start).after (calls.take k)).tokens ≤ burst) ∧
    ∀ t₁ t₂, t₁ ≤ t₂ → (granted t₁ t₂ (newRateLimiter rate burst start) calls : ℚ) ≤
      burst + rate * seconds (t₂ - t₁) := by
  have hnew : newRateLimiter rate burst start = ⟨rate, burst, burst, start⟩ := by
    simp only [newRateLimiter, if_neg hrate.not_ge, if_neg hburst.not_ge]
  have hv := valid_newRateLimiter rate burst start
  rw [hnew] at hv ⊢
  refine ⟨fun k => ?_, fun t₁ t₂ hle =>
    (granted_le_credit hv hcalls hle).trans (hv.credit_le hle)⟩
  have hfirst : Proper start (calls.take k) := by
    refine ⟨?_, fun call hmem => hcalls.2 call (List.mem_of_mem_take hmem)⟩
    rw [List.map_take]
    exact hcalls.1.sublist ((List.take_sublist k _).cons_cons start)
  obtain ⟨hvalid, hsame⟩ := valid_after hv hfirst
  have hle := hvalid.tokens_le
  rw [hsame] at hle
  exact ⟨hvalid.tokens_nonneg, hle⟩

theorem grants_within_every_window_second :
    (granted 0 (10 ^ 9) (newRateLimiter 2 3 0)
      [(0, .allowN 3), (0, .allow), (5 * 10 ^ 8, .allow)] : ℚ) ≤ 3 + 2 * seconds (10 ^ 9 - 0) :=
  (grants_within_every_window (by norm_num) (by norm_num) ⟨by simp, by decide⟩).2 0 (10 ^ 9)
    (by norm_num)

end RateLimiter

end ConvoyStats.Client
