import Mathlib.Data.List.Induction
import ConvoyStats.Models.Metric

/-!
# Garbage collection pauses

`pauseTracker.delta` compares each snapshot of the runtime's cumulative pause histogram with the
one before it.  The snapshot it compares with is the last well-formed one, whether or not that one
was answered with counts; but of its bucket boundaries only their number is looked at.
-/

namespace ConvoyStats.Runtimemetrics

open List Models

/-- `metrics.Float64Histogram`. -/
structure Float64Histogram where
  counts : List UInt64
  buckets : List Float64
  deriving DecidableEq

/-- Every count has the boundary below it and the one above it. -/
def Float64Histogram.WellFormed (h : Float64Histogram) : Prop :=
  h.buckets.length = h.counts.length + 1

instance (h : Float64Histogram) : Decidable h.WellFormed := inferInstanceAs (Decidable (_ = _))

/-- `pauseTracker`; `prevCounts` is `nil` until the first snapshot. -/
structure PauseTracker where
  prevCounts : Option (List UInt64) := none
  prevBuckets : List Float64 := []

namespace PauseTracker

/-- The loop of `delta`, from index `i` on. -/
def countsSince (prev : Option (List UInt64)) : ℕ → List UInt64 → Option (List UInt64)
  | _, [] => some []
  | i, c :: cur =>
    let before := match prev with
      | some prev => prev.getD i 0
      | none => 0
    if c < before then none else (countsSince prev (i + 1) cur).map ((c - before) :: ·)

/-- `delta`, with the counts and the boundaries where `ok` is true. -/
def delta (p : PauseTracker) (h : Option Float64Histogram) :
    PauseTracker × Option (List UInt64 × List Float64) :=
  match h with
  | none => (p, none)
  | some h =>
    if h.WellFormed then
      let layoutChanged := p.prevCounts.any fun prev => prev.length != h.counts.length
      (⟨some h.counts, h.buckets⟩,
        if layoutChanged then none
        else (countsSince p.prevCounts 0 h.counts).map fun counts => (counts, h.buckets))
    else (p, none)

/-- A tracker that has been given the snapshots of `hs`. -/
def after (hs : List (Option Float64Histogram)) : PauseTracker :=
  hs.foldl (fun p h => (p.delta h).1) {}

/-- The snapshots that become the baseline: those that are well formed. -/
def accepted (hs : List (Option Float64Histogram)) : List Float64Histogram :=
  (hs.filterMap id).filter (·.WellFormed)

/-! ### The baseline -/

theorem delta_malformed {p : PauseTracker} {h : Float64Histogram} (hh : ¬ h.WellFormed) :
    p.delta (some h) = (p, none) := if_neg hh

theorem delta_wellFormed {p : PauseTracker} {h : Float64Histogram} (hh : h.WellFormed) :
    (p.delta (some h)).1 = ⟨some h.counts, h.buckets⟩ := by
  rw [delta, if_pos hh]

theorem accepted_append (hs : List (Option Float64Histogram)) {h : Float64Histogram}
    (hh : h.WellFormed) : accepted (hs ++ [some h]) = accepted hs ++ [h] := by
  simp [accepted, hh]

/-- **The baseline is the last accepted snapshot.** -/
theorem prevCounts_after (hs : List (Option Float64Histogram)) :
    (after hs).prevCounts = (accepted hs).getLast?.map (·.counts) := by
  induction hs using reverseRecOn with
  | nil => rfl
  | append_singleton hs h ih =>
    have hstep : after (hs ++ [h]) = ((after hs).delta h).1 := foldl_append
    rw [hstep]
    cases h with
    | none => simpa [accepted, delta] using ih
    | some h =>
      by_cases hh : h.WellFormed
      · rw [delta_wellFormed hh, accepted_append hs hh, getLast?_concat]
        rfl
      · rw [delta_malformed hh, ih]
        simp [accepted, hh]

/-! ### The increase -/

theorem toNat_add_sub {a b : UInt64} (h : ¬ a < b) : b.toNat + (a - b).toNat = a.toNat := by
  have hle : b ≤ a := UInt64.not_lt.mp h
  rw [UInt64.toNat_sub_of_le _ _ hle]
  exact Nat.add_sub_cancel' (UInt64.le_iff_toNat_le.mp hle)

theorem countsSince_eq {prev cur counts : List UInt64} {i : ℕ}
    (h : countsSince (some prev) i cur = some counts) :
    counts.length = cur.length ∧ ∀ k < cur.length,
      (prev.getD (i + k) 0).toNat + (counts.getD k 0).toNat = (cur.getD k 0).toNat := by
  induction cur generalizing i counts with
  | nil =>
    cases h
    exact ⟨rfl, fun k hk => absurd hk (Nat.not_lt_zero k)⟩
  | cons c cur ih =>
    rw [countsSince] at h
    split_ifs at h with hback
    obtain ⟨rest, hrest, rfl⟩ := Option.map_eq_some_iff.mp h
    obtain ⟨hlen, hrest⟩ := ih hrest
    refine ⟨congrArg (· + 1) hlen, fun k hk => ?_⟩
    cases k with
    | zero => exact toNat_add_sub hback
    | succ k =>
      have hk := hrest k (Nat.lt_of_succ_lt_succ hk)
      rwa [Nat.add_right_comm] at hk

/-- `counts` is, bucket by bucket, what `cur` has more than `last`. -/
structure Increase (last cur : Float64Histogram) (counts : List UInt64) : Prop where
  length_last : last.counts.length = cur.counts.length
  length_counts : counts.length = cur.counts.length
  increase : ∀ k < cur.counts.length,
    (last.counts.getD k 0).toNat + (counts.getD k 0).toNat = (cur.counts.getD k 0).toNat

theorem increase_of_delta {hs : List (Option Float64Histogram)} {last : Float64Histogram}
    {h : Option Float64Histogram} {counts : List UInt64} {bounds : List Float64}
    (hlast : (accepted hs).getLast? = some last)
    (hok : ((after hs).delta h).2 = some (counts, bounds)) :
    ∃ cur, h = some cur ∧ cur.WellFormed ∧ cur.buckets = bounds ∧ Increase last cur counts := by
  cases h with
  | none => cases hok
  | some cur =>
    by_cases hcur : cur.WellFormed
    · rw [delta, if_pos hcur, prevCounts_after, hlast] at hok
      dsimp only [Option.map_some, Option.any_some] at hok
      split_ifs at hok with hchanged
      obtain ⟨counts', hcounts, heq⟩ := Option.map_eq_some_iff.mp hok
      cases heq
      obtain ⟨hlen, hinc⟩ := countsSince_eq hcounts
      refine ⟨cur, rfl, hcur, rfl, by simpa using hchanged, hlen, fun k hk => ?_⟩
      rw [← hinc k hk, Nat.zero_add]
    · rw [delta_malformed hcur] at hok
      cases hok

/-- If the snapshot `h` is well formed and has as many buckets as the baseline `last`, it has its
boundaries.  `delta` relies on this and does not check it; of the snapshots before `last` nothing
is asked. -/
def LayoutByLength (last : Float64Histogram) (h : Option Float64Histogram) : Prop :=
  ∀ cur ∈ h, cur.WellFormed → last.counts.length = cur.counts.length → last.buckets = cur.buckets

/-- **Counts after the first accepted snapshot are the increase since the last accepted one**, for
the same boundaries as long as the boundaries do not change without their number changing. -/
theorem delta_compares_same_layout (hs : List (Option Float64Histogram)) {last : Float64Histogram}
    {h : Option Float64Histogram} {counts : List UInt64} {bounds : List Float64}
    (hlast : (accepted hs).getLast? = some last) (hlayout : LayoutByLength last h)
    (hok : ((after hs).delta h).2 = some (counts, bounds)) :
    ∃ cur, h = some cur ∧ cur.WellFormed ∧ last.buckets = cur.buckets ∧ bounds = cur.buckets ∧
      Increase last cur counts := by
  obtain ⟨cur, rfl, hcur, hbounds, hinc⟩ := increase_of_delta hlast hok
  exact ⟨cur, rfl, hcur, hlayout cur rfl hcur hinc.length_last, hbounds.symm, hinc⟩

/-- Two snapshots of one bucket. -/
def snapshot (count : UInt64) (bound : ℚ) : Float64Histogram :=
  ⟨[count], [.finite 0, .finite bound]⟩

theorem delta_compares_same_layout_snapshots :
    ∃ cur, some (snapshot 7 1) = some cur ∧ cur.WellFormed ∧
      (snapshot 5 1).buckets = cur.buckets ∧ [.finite 0, .finite 1] = cur.buckets ∧
      Increase (snapshot 5 1) cur [2] :=
  delta_compares_same_layout [some (snapshot 5 1), none] (h := some (snapshot 7 1)) rfl
    (by unfold LayoutByLength; decide) rfl

/-- **Counts are returned for boundaries that the baseline did not have**: between the two
snapshots the bucket from 0 to 1 became one from 0 to 2. -/
theorem delta_compares_other_layout :
    (accepted [some (snapshot 5 1)]).getLast? = some (snapshot 5 1) ∧
      ((after [some (snapshot 5 1)]).delta (some (snapshot 7 2))).2 =
        some ([2], [.finite 0, .finite 2]) ∧
      (snapshot 5 1).buckets ≠ [.finite 0, .finite 2] := by
  decide

end PauseTracker

end ConvoyStats.Runtimemetrics
