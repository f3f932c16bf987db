import ConvoyStats.Pipeline.Retirement

/-!
# How much a worker holds

A worker collects metrics in a slice made with capacity 100, and exports it where its length has
reached its capacity.  If a pop does not fit, `append` gives the slice a new capacity first, and
then there is room again: the batch is not exported, and the next one is compared with the new
capacity, which is kept for good.

`fits` is the condition under which the slice keeps its capacity: what a worker has popped, and the
drop counters of a tick, fit behind what it holds.  Then it holds fewer than 100 metrics whenever it
is back at its `select` (`worker_holds_less`).  `overfilled` is a run in which one pop does not fit.

The condition is on the steps of one worker: the others may overfill theirs.  It asks nothing of
a drain, as `drain` gets the slice by value: it may grow its own, and the worker goes on with the
capacity it had.  Two facts carry the proof.  The capacity is still 100 (`cap`), so that a full
batch is noticed; and the batch is short at every point from which the worker gets to its `select`
without an export (`collecting`).  Between `append` and the export it may be full.
-/

namespace ConvoyStats.Pipeline

open Function Transport

/-- What worker `k` has popped, and the drop counters of a tick, fit into 100 places. -/
def fits (k : ℕ) (s : State) : Label → Bool
  | .worker j _ =>
    j ≠ k ||
    match (s.workers k).pc with
    | .append .background items => (s.workers k).batch.length + items.length ≤ 100
    | .dropCounters .tick reason => s.pending reason = 0 || (s.workers k).batch.length < 100
    | _ => true
  | _ => true

/-- The points of a worker between two batches, or while it collects one. -/
def WorkerPc.collecting : WorkerPc → Bool
  | .select | .lenWrite | .lenRead _ | .pop .background _ _ | .idle _ _ _ | .ack _ _ => true
  | _ => false

/-- **The batch of a worker is bounded.** -/
structure Worker.Bounded (w : Worker) : Prop where
  cap : w.batchCap = 100
  held : w.pc.collecting = true → w.batch.length < 100

namespace Worker.Bounded

variable {w w' : Worker}

theorem init : Worker.init.Bounded := ⟨rfl, fun _ => Nat.succ_pos 99⟩

variable (h : w.Bounded)
include h

section

variable (hcap : w'.batchCap = w.batchCap)
include hcap

/-- The batch is as it was. -/
theorem of_same (hbatch : w'.batch = w.batch)
    (hpc : w'.pc.collecting = true → w.pc.collecting = true) : w'.Bounded :=
  ⟨hcap.trans h.cap, fun hc => hbatch ▸ h.held (hpc hc)⟩

/-- The worker is not collecting. -/
theorem of_busy (hpc : w'.pc.collecting = false) :
    w'.Bounded :=
  ⟨hcap.trans h.cap, fun hc => absurd (hpc.symm.trans hc) Bool.false_ne_true⟩

/-- The batch has been exported. -/
theorem of_nil (hbatch : w'.batch = []) :
    w'.Bounded :=
  ⟨hcap.trans h.cap, fun _ => by rw [hbatch]; exact Nat.succ_pos 99⟩

end

end Worker.Bounded

section Steps

variable {cfg : Config} {s s' : State} {k : ℕ} {ch : Choice}

/-- A worker that has been replaced. -/
theorem bounded_of_workers {w' : Worker} (hworkers : s'.workers = update s.workers k w')
    (h : w'.Bounded) : (s'.workers k).Bounded := by
  rw [hworkers, update_self]
  exact h

/-- **Every step of the worker keeps the bound**, if what it appends fits. -/
theorem WorkerStep.bounded (h : WorkerStep cfg s k (s.workers k) s') (hb : (s.workers k).Bounded)
    (hfits : fits k s (.worker k ch) = true) : (s'.workers k).Bounded := by
  simp only [fits, ne_eq, not_true_eq_false, decide_false, Bool.false_or] at hfits
  have hcap := hb.cap
  cases h with
  | access => exact hb
  | pass hpc h =>
    refine bounded_of_workers rfl ?_
    cases h with
    | room h => exact ⟨hcap, fun _ => hcap ▸ h⟩
    | len | poll | lenWrite | lenRead | idle => exact hb.of_same rfl rfl fun _ => by rw [hpc]; rfl
    | _ => exact hb.of_busy rfl rfl
  | took hpc _ h =>
    refine bounded_of_workers rfl (hb.of_same rfl rfl ?_)
    rw [hpc]
    cases h with
    | more job => cases job <;> exact id
    | _ => rintro ⟨⟩
  | stops hpc _ _ h =>
    refine bounded_of_workers rfl (hb.of_same rfl rfl ?_)
    rw [hpc]
    cases h with
    | background => exact fun _ => rfl
    | _ => rintro ⟨⟩
  | append hpc cap hgrown =>
    refine bounded_of_workers rfl (hb.of_busy (hgrown.resolve_right ?_) rfl)
    rintro ⟨rfl, hfull⟩
    simp only [hpc, List.length_cons, decide_eq_true_eq] at hfits
    omega
  | count hpc _ cap hgrown h =>
    have hsame : cap = (s.workers k).batchCap := by
      refine hgrown.resolve_right ?_
      rintro ⟨rfl, hzero, hfull⟩
      simp only [hpc, hzero, decide_false, Bool.false_or, decide_eq_true_eq] at hfits
      omega
    refine bounded_of_workers rfl ?_
    -- A batch that is not empty goes to the exporters.
    cases h with
    | idle hnil | select hnil => exact hb.of_nil hsame hnil
    | ack _ _ hnil => exact hb.of_nil hsame hnil
    | _ => exact hb.of_busy hsame rfl
  | idleEnds hpc | idleStarts hpc | ack hpc =>
    exact bounded_of_workers rfl (hb.of_same rfl rfl fun _ => by rw [hpc]; rfl)
  | joinChunk | joinLast | recordFailure | drop => exact bounded_of_workers rfl (hb.of_nil rfl rfl)
  | _ => exact bounded_of_workers rfl (hb.of_busy rfl rfl)

/-- **Every step of the pipeline keeps the bound.** -/
theorem step_bounded {l : Label} (hb : (s.workers k).Bounded) (hfits : fits k s l = true)
    (h : step cfg s l = some s') : (s'.workers k).Bounded := by
  have hother : ∀ {j : ℕ}, WorkerMove s j s' → k ≠ j → (s'.workers k).Bounded :=
    fun hmove hj => hmove.workers_ne hj ▸ hb
  cases LabelMove.of_step h with
  | record h | recorder h => cases h <;> exact hb
  | @worker j _ _ _ h hstep =>
    by_cases hj : k = j
    · subst hj
      exact (WorkerStep.of_workerStep hstep).bounded hb hfits
    · exact hother h hj
  | @startExport j _ _ _ h hstep =>
    by_cases hj : k = j
    · subst hj
      obtain ⟨job, status, -, -, rfl⟩ := startExport_some hstep
      exact bounded_of_workers rfl (hb.of_busy rfl rfl)
    · exact hother h hj
  | @finishExport j _ _ _ _ h hstep =>
    by_cases hj : k = j
    · subst hj
      obtain ⟨job, status, errors, exporterErrors, -, -, rfl⟩ := finishExport_some hstep
      exact bounded_of_workers rfl (hb.of_busy rfl rfl)
    · exact hother h hj
  | tick j =>
    by_cases hj : k = j
    · subst hj
      exact bounded_of_workers rfl (hb.of_same rfl rfl id)
    · show (update s.workers j _ k).Bounded
      rw [update_of_ne hj]
      exact hb
  | call h | caller h => exact (CallerFrame.of_move h).workers ▸ hb
  | request c j =>
    by_cases hj : k = j
    · subst hj
      exact bounded_of_workers rfl (hb.of_busy rfl rfl)
    · show (update s.workers j _ k).Bounded
      rw [update_of_ne hj]
      exact hb
  | contextEnds => exact hb

end Steps

/-- **A worker holds fewer than 100 metrics after every iteration**, in the runs in which what it
appends fits: whenever it is at its `select`, it has fewer than 100 metrics that it has not
exported. -/
theorem worker_holds_less {cfg : Config} {k : ℕ} {s : State}
    (hreach : (pipelineSystem cfg).Reachable (fun s l => fits k s l = true) s)
    (hpc : (s.workers k).pc = .select) : (s.workers k).batch.length < 100 := by
  have hb : (s.workers k).Bounded := by
    refine hreach.invariant (I := fun s => (s.workers k).Bounded) .init ?_
    intro s l s' _ hb hfits hstep
    exact step_bounded hb hfits hstep
  exact hb.held (by rw [hpc]; rfl)

/-- A buffer of 128 places. -/
def wideConfig : Config := { smallConfig with bufferSize := 128 }

/-- An observation is recorded. -/
def recorded (r : ℕ) : List Label := .record r 1 :: List.replicate 16 (.recorder r {})

/-- Worker 0 moves this many times.  Where `append` finds a slice of 100 pointers full, it makes
room for 223: twice as much, rounded up to what the allocator gives. -/
def works (n : ℕ) : List Label := List.replicate n (.worker 0 { growth := 122 })

/-- Worker 0 is at its `select` with this many metrics, in a slice of this capacity. -/
def holds (held cap : ℕ) (s : State) : Bool :=
  (s.workers 0).batch.length = held && (s.workers 0).batchCap = cap &&
    (s.workers 0).pc matches .select

theorem of_holds {held cap : ℕ} {s : State} (h : holds held cap s = true) :
    (s.workers 0).pc = .select ∧ (s.workers 0).batch.length = held ∧
      (s.workers 0).batchCap = cap := by
  simp only [holds, Bool.and_eq_true, decide_eq_true_eq] at h
  obtain ⟨⟨hheld, hcap⟩, hpc⟩ := h
  refine ⟨?_, hheld, hcap⟩
  split at hpc
  · assumption
  · cases hpc

/-- A worker pops one observation, then 99.  The batch is full and exported. -/
def filled : List Label :=
  recorded 0 ++ works 17 ++ (List.range 99).flatMap (fun r => recorded (r + 1)) ++ works 1095 ++
    [.startExport 0 0, .finishExport 0 0 false] ++ works 2

theorem worker_holds_less_filled :
    ∃ s, (pipelineSystem wideConfig).Reachable (fun s l => fits 0 s l = true) s ∧
      (s.workers 0).exported.map List.length = [100] ∧ (s.workers 0).batch.length < 100 := by
  have hrun : ((pipelineSystem wideConfig).runWithin (fits 0) (State.init wideConfig) filled).any
      (fun s => holds 0 100 s && decide ((s.workers 0).exported.map List.length = [100])) =
      true := by decide +kernel
  obtain ⟨s, hs, hholds⟩ := (Option.any_eq_true _ _).mp hrun
  have hreach := TransitionSystem.Reachable.of_runWithin .init hs
  obtain ⟨hholds, hexported⟩ := (Bool.and_eq_true _ _).mp hholds
  exact ⟨s, hreach, of_decide_eq_true hexported, worker_holds_less hreach (of_holds hholds).1⟩

/-- A worker pops one observation, then 100. -/
def overfilled : List Label :=
  recorded 0 ++ works 17 ++ (List.range 100).flatMap (fun r => recorded (r + 1)) ++ works 1102

/-- **A worker that holds 101 metrics.**  The second pop does not fit, `append` makes the slice
longer, and the batch is not exported. -/
theorem worker_holds_more :
    ∃ s, (pipelineSystem wideConfig).Reach s ∧ (s.workers 0).pc = .select ∧
      (s.workers 0).batch.length = 101 ∧ (s.workers 0).batchCap = 223 := by
  have hrun : ((pipelineSystem wideConfig).run (State.init wideConfig) overfilled).any
      (holds 101 223) = true := by decide +kernel
  obtain ⟨s, hs, hholds⟩ := (Option.any_eq_true _ _).mp hrun
  exact ⟨s, .of_labels overfilled hs, of_holds hholds⟩

end ConvoyStats.Pipeline
