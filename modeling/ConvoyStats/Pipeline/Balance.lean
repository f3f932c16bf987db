import ConvoyStats.Library.Totals
import ConvoyStats.Pipeline.Conservation

/-!
# The balance after Shutdown

Once `Shutdown` has returned and the workers have exited, nothing moves any more, and every
accepted observation has been handed to `processBatch`, evicted, dropped by a worker that
saw the cancelled pipeline context, or left in the ring (`balance_of_exited`).  The last of
these is the sum nobody keeps: a worker that leaves because the context is done drops its
own batch and counts it, but what is still in the ring is neither exported nor counted.

The counter itself is `Pipeline.dropped`, to which a worker adds the length of the batch it drops
and a `Record` call adds one when it is refused for want of memory or of room.  `Dropped` is the
invariant that it counts exactly these, so the auxiliary `lost` of the workers is what they have
added to it.

`Strands` is the step at which observations are left behind, and `losses_counted` the balance of
the runs without it.  `droppedBatch` is such a run in which a worker does lose its batch.
-/

namespace ConvoyStats.Pipeline

open Function List Transport

/-! ### What a worker drops -/

/-- The points of a worker at which its batch may hold drop counters. -/
def WorkerPc.counting : WorkerPc → Bool
  | .dropCounters _ .seriesLimit | .exporting .. | .recordFailure _ => true
  | _ => false

/-- Every entry is an observation. -/
def OnlyObservations (entries : List Entry) : Prop :=
  ∀ entry ∈ entries, ∃ x, entry = .observation x

theorem OnlyObservations.nil : OnlyObservations [] := fun _ h => absurd h not_mem_nil

theorem OnlyObservations.length {entries : List Entry} (h : OnlyObservations entries) :
    (observations entries).length = entries.length := by
  rw [observations, filterMap_length_eq_length]
  intro entry hmem
  obtain ⟨x, rfl⟩ := h entry hmem
  rfl

/-- **A worker at its `select` holds observations only**: drop counters are exported with the
batch they are appended to. -/
structure Worker.Plain (w : Worker) : Prop where
  batch : w.pc.counting = false → OnlyObservations w.batch
  lost : OnlyObservations w.lost

namespace Worker.Plain

variable {cfg : Config} {s s' : State} {k : ℕ} {ch : Choice}

theorem init : Worker.init.Plain := ⟨fun _ => .nil, .nil⟩

/-- A worker goes on with what it has. -/
theorem of_same {w w' : Worker} (hp : w.Plain) (hpc : w.pc.counting = false)
    (hbatch : w'.batch = w.batch) (hlost : w'.lost = w.lost) : w'.Plain :=
  ⟨fun _ => hbatch ▸ hp.batch hpc, hlost ▸ hp.lost⟩

/-- A worker comes to a point at which its batch may hold drop counters. -/
theorem of_counting {w w' : Worker} (hp : w.Plain) (hpc : w'.pc.counting = true)
    (hlost : w'.lost = w.lost) : w'.Plain := by
  refine ⟨fun hfalse => ?_, hlost ▸ hp.lost⟩
  rw [hpc] at hfalse
  cases hfalse

/-- A worker goes on with an empty batch. -/
theorem of_empty {w w' : Worker} (hp : w.Plain) (hbatch : w'.batch = [])
    (hlost : w'.lost = w.lost) : w'.Plain :=
  ⟨fun _ => hbatch ▸ .nil, hlost ▸ hp.lost⟩

theorem of_workers {w' : Worker} (hworkers : s'.workers = update s.workers k w')
    (h : w'.Plain) : (s'.workers k).Plain := by
  rw [hworkers, update_self]
  exact h

/-- A step of a worker. -/
theorem workerStep (hp : (s.workers k).Plain) (h : workerStep cfg s k ch = some s') :
    (s'.workers k).Plain := by
  replace h := WorkerStep.of_workerStep h
  cases h with
  | access => exact hp
  | pass hpc h | took hpc _ h | stops hpc _ _ h =>
    exact of_workers rfl (hp.of_same (by rw [hpc]; cases h <;> rfl) rfl rfl)
  | @append _ x _ hpc =>
    refine of_workers rfl ⟨fun _ entry hmem => ?_, hp.lost⟩
    rcases mem_append.mp hmem with hold | hnew
    · exact hp.batch (by rw [hpc]; rfl) entry hold
    · exact ⟨x, mem_singleton.mp hnew⟩
  | count _ _ _ _ h =>
    refine of_workers rfl ?_
    -- what is not empty goes to the exporters
    cases h with
    | idle hnil | select hnil => exact hp.of_empty hnil rfl
    | ack _ _ hnil => exact hp.of_empty hnil rfl
    | _ => exact hp.of_counting rfl rfl
  | join => exact of_workers rfl (hp.of_counting rfl rfl)
  | joinChunk | joinLast | recordFailure => exact of_workers rfl (hp.of_empty rfl rfl)
  | drop hpc => exact of_workers rfl ⟨fun _ => .nil, hp.batch (by rw [hpc]; rfl)⟩
  | tick hpc | idleEnds hpc | idleStarts hpc | loopEnds hpc | loopStops hpc | ack hpc | leave hpc =>
    exact of_workers rfl (hp.of_same (by rw [hpc]; rfl) rfl rfl)

/-- **Every step keeps it.** -/
theorem step {l : Label} (hp : ∀ k, (s.workers k).Plain) (h : step cfg s l = some s') :
    ∀ k, (s'.workers k).Plain := by
  have hupdate : ∀ {k : ℕ} {w' : Worker}, s'.workers = update s.workers k w' →
      w'.Plain → ∀ j, (s'.workers j).Plain := by
    intro k w' hworkers hk j
    rw [hworkers]
    by_cases hj : j = k
    · subst hj
      rwa [update_self]
    · rw [update_of_ne hj]
      exact hp j
  cases LabelMove.of_step h with
  | record h | recorder h => cases h <;> exact hp
  | @worker k _ _ _ h hstep =>
    intro j
    by_cases hj : j = k
    · subst hj
      exact (hp j).workerStep hstep
    · rw [h.workers_ne hj]
      exact hp j
  | startExport _ _ hstep =>
    obtain ⟨job, status, -, -, rfl⟩ := startExport_some hstep
    exact hupdate rfl ((hp _).of_counting rfl rfl)
  | finishExport _ _ hstep =>
    obtain ⟨job, status, errors, exporterErrors, -, -, rfl⟩ := finishExport_some hstep
    exact hupdate rfl ((hp _).of_counting rfl rfl)
  | tick k => exact hupdate rfl ⟨(hp k).batch, (hp k).lost⟩
  | call h | caller h =>
    rw [(CallerFrame.of_move h).workers]
    exact hp
  | request c k _ _ hpc => exact hupdate rfl ((hp k).of_same (by rw [hpc]; rfl) rfl rfl)
  | contextEnds => exact hp

end Worker.Plain

theorem plain_of_reach {cfg : Config} {s : State} (h : (pipelineSystem cfg).Reach s) :
    ∀ k, (s.workers k).Plain :=
  h.invariant (I := fun s => ∀ k, (s.workers k).Plain) (fun _ => .init)
    fun _ _ _ _ hp _ hstep => Worker.Plain.step hp hstep

/-! ### What is in `dropped` -/

/-- The call has been refused for want of memory or of room, and has counted that in `dropped`. -/
def RecordPc.refused : RecordPc → Bool
  | .unlock (some error) | .returned (some error) => error = .memoryLimit || error = .bufferFull
  | _ => false

section

variable {cfg : Config} {s s' : State} {r k : ℕ} {ch : Choice}

theorem commitPc_refused (labels : ℕ) : (commitPc labels).refused = false := by
  unfold commitPc
  split_ifs <;> rfl

theorem pushedPc_refused (labels : ℕ) (result : Result ℕ) :
    (pushedPc labels result).refused = false := by
  unfold pushedPc
  split <;> first | exact commitPc_refused labels | rfl

/-- A step of a `Record` call adds one to `dropped` where it refuses the observation, and leaves it
alone otherwise. -/
theorem recorderStep_dropped (h : recorderStep cfg s r ch = some s') :
    (s'.recorders r).pc.refused = (s.recorders r).pc.refused ∧
        s'.stats.dropped = s.stats.dropped ∨
      (s.recorders r).pc.refused = false ∧ (s'.recorders r).pc.refused = true ∧
        s'.stats.dropped = s.stats.dropped + 1 := by
  unfold recorderStep at h
  cases hpc : (s.recorders r).pc <;> simp only [hpc] at h
  case countMemory | countFull =>
    cases h
    exact .inr ⟨rfl, by simp [State.recordTo, State.setRecorder, RecordPc.refused], rfl⟩
  -- the other steps leave the counter alone
  all_goals left
  case notCalled | returned => cases h
  case rlock =>
    split at h <;> cases h
    simp [State.recordTo, State.setRecorder, RecordPc.refused]
  case checkClosed | rateLimit =>
    cases h
    refine ⟨?_, rfl⟩
    simp only [State.recordTo, State.setRecorder, update_self]
    split_ifs <;> rfl
  case admitSeries | loadMemory | casMemory =>
    split at h <;> cases h <;> simp [State.recordTo, State.setRecorder, RecordPc.refused]
  case push labels =>
    split at h <;> cases h
    · simp [hpc]
    · refine ⟨?_, rfl⟩
      simp only [State.recordTo, State.setRecorder, update_self]
      exact pushedPc_refused labels _
  case releaseEvicted labels old =>
    cases h
    refine ⟨?_, rfl⟩
    simp only [State.recordTo, State.setRecorder, update_self]
    exact commitPc_refused labels
  case unlock result =>
    cases h
    cases result <;> simp [State.emit, State.recordTo, State.setRecorder, RecordPc.refused]
  all_goals
    cases h
    simp [State.recordTo, State.setRecorder, RecordPc.refused]

/-- A step of a worker adds to `dropped` what the worker loses. -/
theorem WorkerStep.dropped (h : WorkerStep cfg s k (s.workers k) s') (hw : (s.workers k).Accounts) :
    s'.stats.dropped + (s.workers k).lost.length =
      s.stats.dropped + (s'.workers k).lost.length := by
  cases h with
  | drop hpc => simp [State.setWorker, hw.lost (by rw [hpc]; rfl)]
  | access => rfl
  | _ => simp [State.setWorker, State.setCall, State.emit, Worker.reset]

/-- **What `dropped` counts**: the `Record` calls that have been refused, and the metrics that
workers have lost. -/
def Dropped (cfg : Config) (s : State) : Prop :=
  ∃ refused, Totals (fun r => (s.recorders r).pc.refused = true) (fun _ => 1) refused ∧
    s.stats.dropped = refused + ∑ k ∈ Finset.range cfg.workers, (s.workers k).lost.length

namespace Dropped

theorem init : Dropped cfg (State.init cfg) :=
  ⟨0, .of_empty fun _ => Bool.false_ne_true, by simp [State.init, Worker.init]⟩

/-- A step that drops nothing. -/
theorem of_same (hd : Dropped cfg s) (hstats : s'.stats.dropped = s.stats.dropped)
    (hrec : ∀ r, (s'.recorders r).pc.refused = (s.recorders r).pc.refused)
    (hlost : ∀ k, (s'.workers k).lost = (s.workers k).lost) : Dropped cfg s' := by
  obtain ⟨refused, htotals, htotal⟩ := hd
  refine ⟨refused, htotals.congr (fun r => by rw [hrec]) fun _ _ => rfl, ?_⟩
  simp only [hstats, htotal, hlost]

theorem recorder (hd : Dropped cfg s) (hmove : RecorderMove cfg s r s')
    (h : recorderStep cfg s r ch = some s') : Dropped cfg s' := by
  have hworkers : s'.workers = s.workers := by cases hmove <;> rfl
  have hothers : ∀ x, x ≠ r → s'.recorders x = s.recorders x := by
    intro x hx
    cases hmove <;> first | rfl | exact update_of_ne hx ..
  rcases recorderStep_dropped h with ⟨hsame, hstats⟩ | ⟨hnot, hrefused, hstats⟩
  · refine hd.of_same hstats (fun x => ?_) fun k => by rw [hworkers]
    by_cases hx : x = r
    · rw [hx, hsame]
    · rw [hothers x hx]
  · obtain ⟨refused, htotals, htotal⟩ := hd
    refine ⟨refused + 1, htotals.gain (b := r) (by simp [hnot]) (fun x => ?_) rfl, ?_⟩
    · by_cases hx : x = r
      · simp [hx, hrefused]
      · simp [hx, hothers x hx]
    · rw [hstats, htotal, hworkers]
      omega

theorem worker (hd : Dropped cfg s) (hk : k < cfg.workers) (hmove : WorkerMove s k s')
    (h : s'.stats.dropped + (s.workers k).lost.length =
      s.stats.dropped + (s'.workers k).lost.length) : Dropped cfg s' := by
  obtain ⟨refused, htotals, htotal⟩ := hd
  refine ⟨refused, by rwa [hmove.recorders], ?_⟩
  have hmem := Finset.mem_range.mpr hk
  have hothers : ∑ j ∈ (Finset.range cfg.workers).erase k, (s'.workers j).lost.length =
      ∑ j ∈ (Finset.range cfg.workers).erase k, (s.workers j).lost.length :=
    Finset.sum_congr rfl fun j hj => by rw [hmove.workers_ne (Finset.ne_of_mem_erase hj)]
  rw [← Finset.add_sum_erase _ _ hmem] at htotal ⊢
  omega

/-- **Every step keeps it.** -/
theorem step {l : Label} (hd : Dropped cfg s) (hw : ∀ k, (s.workers k).Accounts)
    (h : step cfg s l = some s') : Dropped cfg s' := by
  cases LabelMove.of_step h with
  | @record r _ _ h hstep =>
    unfold startRecord at hstep
    split at hstep
    · rename_i hpc
      cases hstep
      refine hd.of_same rfl (fun x => ?_) fun _ => rfl
      by_cases hx : x = r
      · subst hx
        simp [State.setRecorder, State.emit, hpc, RecordPc.refused]
      · simp [State.setRecorder, State.emit, hx]
    · cases hstep
  | recorder h hstep => exact hd.recorder h hstep
  | worker hk h hstep => exact hd.worker hk h ((WorkerStep.of_workerStep hstep).dropped (hw _))
  | startExport hk h hstep =>
    refine hd.worker hk h ?_
    obtain ⟨job, status, -, -, rfl⟩ := startExport_some hstep
    simp [State.setWorker, State.emit]
  | finishExport hk h hstep =>
    refine hd.worker hk h ?_
    obtain ⟨job, status, errors, exporterErrors, -, -, rfl⟩ := finishExport_some hstep
    simp [State.setWorker, State.emit]
  | call h | caller h =>
    have hf := CallerFrame.of_move h
    exact hd.of_same (by rw [h.stats]) (by simp [hf.recorders]) (by simp [hf.workers])
  | request c k | tick k =>
    refine hd.of_same rfl (fun _ => rfl) fun j => ?_
    by_cases hj : j = k <;> simp [hj]
  | contextEnds => exact hd

end Dropped

theorem dropped_of_reach (h : (pipelineSystem cfg).Reach s) : Dropped cfg s :=
  h.invariant .init fun _ _ _ hreach hd _ hstep => hd.step (accounts_of_reach hreach) hstep

/-- A refused call that is not inside has returned its error. -/
theorem RecordPc.refused_iff {pc : RecordPc} (hout : pc.admitted = false) :
    pc.refused = true ↔ pc = .returned (some .memoryLimit) ∨ pc = .returned (some .bufferFull) := by
  cases pc with
  | unlock result =>
    cases result with
    | none => simp [refused]
    | some error =>
      cases error with
      | clientClosed => simp [refused]
      | _ => cases hout
  | returned result =>
    cases result with
    | none => simp [refused]
    | some error => cases error <;> simp [refused]
  | _ => simp [refused]

/-- In a closed pipeline the refused calls have returned. -/
theorem dropped_eq (hreach : (pipelineSystem cfg).Reach s) (hclosed : s.closed = true) :
    s.stats.dropped =
      {r | (s.recorders r).pc = .returned (some .memoryLimit) ∨
        (s.recorders r).pc = .returned (some .bufferFull)}.ncard +
      ∑ k ∈ Finset.range cfg.workers, (s.workers k).lost.length := by
  obtain ⟨refused, htotals, htotal⟩ := dropped_of_reach hreach
  have hout : ∀ r, (s.recorders r).pc.admitted = false := by
    intro r
    refine Bool.eq_false_iff.mpr fun hin => ?_
    have hopen := (closing_of_reach hreach).admitted r hin
    rw [hclosed] at hopen
    cases hopen
  rw [htotal, ← htotals.ncard]
  simp only [RecordPc.refused_iff (hout _)]

end

/-! ### The end of a run -/

/-- An accepted call that is not inside has returned. -/
theorem RecordPc.returned_of_accepted {pc : RecordPc} (hpc : pc.accepted)
    (hout : pc.admitted = false) : pc = .returned none := by
  cases pc with
  | returned result =>
    cases result with
    | none => rfl
    | some error => cases hpc
  | unlock result =>
    cases result with
    | none => cases hout
    | some error => cases hpc
  | releaseEvicted | dropLabels | totalLabels => cases hout
  | _ => cases hpc

section

variable {cfg : Config} {s : State} {x : ℕ}

section

variable (hu : RingUse cfg s)
include hu

/-- Only `Record` calls evict. -/
theorem RingUse.recorder_of_evicted {g : Goroutine} {n : ℕ}
    (h : ((g, n), x) ∈ evicted s.ring.history) : ∃ r, g = .recorder r := by
  obtain ⟨op, ok, hret⟩ := mem_evicted.mp h
  cases g with
  | recorder r => exact ⟨r, rfl⟩
  | worker k =>
    obtain rfl := hu.ring.returned _ _ _ _ hret
    obtain ⟨item, hitem⟩ := result_of_pop (hu.ring.sound.outcome hret)
    cases hitem

/-- Nobody is in the ring once the pipeline is closed and the workers have exited. -/
theorem quiescent_of_exited (hc : Closing s) (hclosed : s.closed = true)
    (hexited : ∀ k < cfg.workers, (s.workers k).pc = .exited) : s.ring.Quiescent := by
  intro g
  by_contra hrun
  cases g with
  | recorder r =>
    have hopen := hc.admitted r (RecordPc.admitted_of_pushing ((hu.recorders r).pushing hrun))
    rw [hclosed] at hopen
    cases hopen
  | worker k =>
    by_cases hk : k < cfg.workers
    · have hpop := (hu.workers k).popping hrun
      rw [hexited k hk] at hpop
      cases hpop
    · rw [(hu.workers k).absent (Nat.not_lt.mp hk)] at hrun
      exact hrun rfl

/-- A `Record` call has then returned nil if and only if it has published. -/
theorem returned_iff_published (hrep : Reports s) (hc : Closing s)
    (hclosed : s.closed = true) :
    (s.recorders x).pc = .returned none ↔ ∃ p, Published s.ring.history p x := by
  constructor
  · intro hpc
    obtain ⟨p, hp⟩ :=
      hu.ring.sound.published_of_accepted ((hu.recorders x).accepted (by rw [hpc]; rfl))
    exact ⟨p, _, hp⟩
  · rintro ⟨p, hpub⟩
    have hout : (s.recorders x).pc.admitted = false := by
      refine Bool.eq_false_iff.mpr fun hin => ?_
      rw [hc.admitted x hin] at hclosed
      cases hclosed
    rcases hrep.of_published hu hpub with hpc | hpc
    · rw [RecordPc.admitted_of_pushing hpc] at hout
      cases hout
    · exact RecordPc.returned_of_accepted hpc hout

/-- With nobody in the ring, every position up to `writePos` has been published. -/
theorem published_of_quiescent (hq : s.ring.Quiescent) {p : ℕ}
    (hp : p < s.ring.ring.writePos) : ∃ x, Published s.ring.history p x := by
  rcases Nat.lt_or_ge p s.ring.ring.readPos with hlt | hge
  · obtain ⟨call, hclaim⟩ := hu.ring.sound.exists_claimed_iff.mpr hlt
    obtain ⟨op, result, hret⟩ := hu.ring.sound.returned_of_quiescent hq hclaim
    obtain ⟨x, hobt⟩ := hu.ring.sound.obtained_of_claimed hret hclaim
    exact ⟨x, hu.ring.sound.published_of_obtained hobt⟩
  · obtain ⟨-, x, -, hpub⟩ := hu.ring.sound.slot_of_quiescent hq hge hp
    exact ⟨x, hpub⟩

/-- A set of observations that are published at the positions below `n`, each at one. -/
theorem ncard_of_published (hq : s.ring.Quiescent) {n : ℕ}
    (hn : n ≤ s.ring.ring.writePos) :
    {x | ∃ p < n, Published s.ring.history p x}.ncard = n := by
  choose item hitem using fun p (hp : p < n) => published_of_quiescent hu hq (hp.trans_le hn)
  refine Set.ncard_eq_of_bijective item ?_ (fun p hp => ⟨p, hp, hitem p hp⟩) ?_
  · rintro x ⟨p, hp, hpub⟩
    exact ⟨p, hp, hu.ring.sound.item_unique (hitem p hp) hpub⟩
  · intro p q hp hq' heq
    have hpub := hitem q hq'
    rw [← heq] at hpub
    exact hu.position_unique (hitem p hp) hpub

end

/-- Everything the workers have taken and the `Record` calls have evicted. -/
def removed (cfg : Config) (s : State) : List ℕ :=
  (range cfg.workers).flatMap (fun k => observations (s.workers k).intake) ++
    (evicted s.ring.history).map Prod.snd

/-- Nothing is removed twice. -/
theorem removed_nodup (hu : RingUse cfg s) : (removed cfg s).Nodup := by
  refine Nodup.append ?_ (evicted_nodup hu) ?_
  · refine nodup_flatMap.mpr ⟨fun k _ => hu.intake_nodup k, ?_⟩
    refine Pairwise.imp ?_ nodup_range
    intro j k hne x hj hk
    exact hne (hu.intake_disjoint (mem_observations.mp hj) (mem_observations.mp hk))
  · intro x hx hev
    obtain ⟨k, -, hk⟩ := mem_flatMap.mp hx
    obtain ⟨⟨⟨g, n⟩, y⟩, hmem, rfl⟩ := mem_map.mp hev
    obtain ⟨r, rfl⟩ := hu.recorder_of_evicted hmem
    cases hu.takenBy_unique (hu.takenBy_of_intake (mem_observations.mp hk))
      (hu.takenBy_of_evicted hmem)

/-- With nobody in the ring, what has been removed is what was published below `readPos`. -/
theorem mem_removed (hu : RingUse cfg s) (hq : s.ring.Quiescent) :
    x ∈ removed cfg s ↔ ∃ p < s.ring.ring.readPos, Published s.ring.history p x := by
  have htaken : ∀ {g}, TakenBy s x g → ∃ p < s.ring.ring.readPos, Published s.ring.history p x := by
    rintro g ⟨n, p, hclaim, hpub⟩
    exact ⟨p, hu.ring.sound.exists_claimed_iff.mp ⟨_, hclaim⟩, hpub⟩
  rw [removed, mem_append]
  constructor
  · rintro (hx | hx)
    · obtain ⟨k, -, hk⟩ := mem_flatMap.mp hx
      exact htaken (hu.takenBy_of_intake (mem_observations.mp hk))
    · obtain ⟨⟨⟨g, n⟩, y⟩, hmem, rfl⟩ := mem_map.mp hx
      exact htaken (hu.takenBy_of_evicted hmem)
  · rintro ⟨p, hp, hpub⟩
    obtain ⟨⟨g, n⟩, hclaim⟩ := hu.ring.sound.exists_claimed_iff.mpr hp
    obtain ⟨op, result, hret⟩ := hu.ring.sound.returned_of_quiescent hq hclaim
    cases g with
    | recorder r =>
      exact .inr (mem_map.mpr ⟨_, hu.evicted_of_claimed hclaim hpub hret, rfl⟩)
    | worker k =>
      refine .inl (mem_flatMap.mpr ⟨k, ?_, mem_observations.mpr ?_⟩)
      · exact mem_range.mpr (hu.lt_workers_of_claimed hclaim)
      · refine (hu.intake_or_popping hclaim hpub).resolve_right fun hn => ?_
        have hlt := (hu.ring.sound.ledger.returned _ _ _ _ hret).1
        omega

/-- **The balance.**  With the pipeline closed and the workers gone, the observations
accepted are those handed over, evicted and dropped, and those left in the ring. -/
theorem balance_of_exited (hreach : (pipelineSystem cfg).Reach s) (hclosed : s.closed = true)
    (hexited : ∀ k < cfg.workers, (s.workers k).pc = .exited) :
    {r | (s.recorders r).pc = .returned none}.ncard =
      ∑ k ∈ Finset.range cfg.workers, (observations (s.workers k).handed.flatten).length +
      (evicted s.ring.history).length + ∑ k ∈ Finset.range cfg.workers, (s.workers k).lost.length +
      (s.ring.ring.writePos - s.ring.ring.readPos) := by
  have hu := ringUse_of_reach hreach
  have hw := accounts_of_reach hreach
  have hq := quiescent_of_exited hu (closing_of_reach hreach) hclosed hexited
  have hle := hu.ring.sound.readPos_le_writePos
  -- all accepted observations have their positions, those removed the ones up to `readPos`
  have haccepted : {r | (s.recorders r).pc = .returned none}.ncard = s.ring.ring.writePos := by
    rw [← ncard_of_published hu hq le_rfl]
    refine congrArg _ (Set.ext fun x => ?_)
    refine (returned_iff_published hu (reports_of_reach hreach) (closing_of_reach hreach)
      hclosed).trans ?_
    constructor
    · rintro ⟨p, hpub⟩
      exact ⟨p, hu.ring.sound.published_lt hpub, hpub⟩
    · rintro ⟨p, -, hpub⟩
      exact ⟨p, hpub⟩
  have hremoved : (removed cfg s).length = s.ring.ring.readPos := by
    rw [← ncard_of_published hu hq hle, ← toFinset_card_of_nodup (removed_nodup hu),
      ← Set.ncard_coe_finset]
    refine congrArg _ (Set.ext fun x => ?_)
    rw [Finset.mem_coe, mem_toFinset]
    exact mem_removed hu hq
  -- what a worker that has exited has taken it has handed over or dropped
  have htaken : ∀ k < cfg.workers, (observations (s.workers k).intake).length =
      (observations (s.workers k).handed.flatten).length + (s.workers k).lost.length := by
    intro k hk
    have hbatch := (hw k).emptied (by rw [hexited k hk]; rfl)
    rw [(hw k).intake, Worker.undelivered, hbatch, hexited k hk, Worker.handed, hexited k hk,
      observations_append, observations_append, observations_append,
      ← (plain_of_reach hreach k).lost.length]
    simp [WorkerPc.items, WorkerPc.shipping, observations]
  rw [removed, length_append, length_flatMap, length_map] at hremoved
  have hsum : ((range cfg.workers).map fun k =>
      (observations (s.workers k).intake).length).sum =
      ∑ k ∈ Finset.range cfg.workers, (observations (s.workers k).handed.flatten).length +
        ∑ k ∈ Finset.range cfg.workers, (s.workers k).lost.length := by
    rw [← Finset.sum_add_distrib]
    exact (Finset.sum_congr rfl fun k hk => htaken k (Finset.mem_range.mp hk) :
      ∑ k ∈ Finset.range cfg.workers, (observations (s.workers k).intake).length = _)
  rw [haccepted]
  omega

end

/-! ### Runs that strand nothing -/

instance (pc : WorkerPc) : Decidable (pc = .leaving) :=
  decidable_of_iff ((pc matches .leaving) = true) ⟨by cases pc <;> simp, by rintro rfl; rfl⟩

/-- The last worker exits while something is in the ring. -/
def Strands (cfg : Config) (s : State) : Label → Prop
  | .worker k _ => (s.workers k).pc = .leaving ∧
      (∀ j < cfg.workers, j ≠ k → (s.workers j).pc = .exited) ∧
      s.ring.ring.readPos < s.ring.ring.writePos
  | _ => False

instance (cfg : Config) (s : State) : (l : Label) → Decidable (Strands cfg s l)
  | .worker .. => inferInstanceAs (Decidable (_ ∧ _))
  | .record .. | .recorder .. | .startExport .. | .finishExport .. | .tick _ | .call _
  | .caller .. | .request .. | .contextEnds _ => inferInstanceAs (Decidable False)

section

variable {cfg : Config} {s s' : State} {k : ℕ}

/-- A worker that has left its loop has left a closed pipeline. -/
theorem closed_of_gone (hreach : (pipelineSystem cfg).Reach s) (hpc : (s.workers k).pc.gone) :
    s.closed = true := by
  have hl := lifecycle_of_reach hreach
  -- the call that runs `Shutdown` has come to its broadcast
  have hstage : ∀ {c}, s.shutdownOnce = some c → 5 ≤ (s.calls c).pc.stage → s.closed = true :=
    fun honce hle => (hl.once _ honce).2.2.1.mpr hle
  rcases (departures_of_reach hreach).gone k hpc with hcancelled | ⟨c, hstop, hmem⟩
  · cases honce : s.shutdownOnce with
    | none =>
      rw [(hl.idle honce).2] at hcancelled
      cases hcancelled
    | some c =>
      have := (hl.once c honce).2.2.2.mp hcancelled
      exact hstage honce (by omega)
  · have hsent := ((handshake_of_reach hreach).acked c k hmem).1
    have hle : 7 ≤ (s.calls c).pc.stage := by
      cases hpc' : (s.calls c).pc <;> rw [hpc'] at hsent <;>
        first | exact hsent.elim | simp [CallPc.stage]
    by_cases hlt : (s.calls c).pc.stage ≤ 11
    · exact hstage (hl.inside c hstop (by omega) hlt) (by omega)
    · have hle : (s.calls c).pc.stage ≤ 12 := by
        cases (s.calls c).pc <;> simp [CallPc.stage]
      obtain ⟨c', honce, hdone⟩ := hl.done (hl.returned c hstop (by omega))
      exact hstage honce (by omega)

/-- The step after which every worker has exited is the last one's. -/
theorem exits_last {l : Label} (h : step cfg s l = some s')
    (hexited : ∀ k < cfg.workers, (s'.workers k).pc = .exited) :
    (∀ k < cfg.workers, (s.workers k).pc = .exited) ∨
      ∃ k ch, l = .worker k ch ∧ (s.workers k).pc = .leaving ∧
        ∀ j < cfg.workers, j ≠ k → (s.workers j).pc = .exited := by
  cases LabelMove.of_step h with
  | record h | recorder h =>
    left
    cases h <;> exact hexited
  | @worker k ch _ hk h =>
    refine .inr ⟨k, ch, rfl, (h.exits (hexited k hk)).1, fun j hj hne => ?_⟩
    rw [← h.workers_ne hne]
    exact hexited j hj
  | startExport hk h hstep => simp [startExport, (h.exits (hexited _ hk)).1] at hstep
  | finishExport hk h hstep => simp [finishExport, (h.exits (hexited _ hk)).1] at hstep
  | tick k =>
    refine .inl fun j hj => ?_
    have hpc := hexited j hj
    by_cases hjk : j = k <;> simpa [hjk] using hpc
  | call h | caller h =>
    rw [(CallerFrame.of_move h).workers] at hexited
    exact .inl hexited
  | request c k hk =>
    have hpc := hexited k hk
    simp at hpc
  | contextEnds => exact .inl hexited

/-- Nothing moves in the ring once the workers have exited. -/
theorem ring_of_exited (hreach : (pipelineSystem cfg).Reach s) (h : StepMove cfg s s')
    (hexited : ∀ k < cfg.workers, (s.workers k).pc = .exited) : s'.ring = s.ring := by
  have hclosed := closed_of_gone hreach (k := 0) (by rw [hexited 0 cfg.workers_pos]; rfl)
  have hopen : ∀ r, (s.recorders r).pc.pushing → False := by
    intro r hpush
    have hopen := (closing_of_reach hreach).admitted r (RecordPc.admitted_of_pushing hpush)
    rw [hclosed] at hopen
    cases hopen
  cases h with
  | @recorder r _ h =>
    cases h with
    | control => rfl
    | access ring' hpush => exact (hopen r hpush).elim
    | pushed _ _ _ hpc => exact (hopen r (by rw [hpc]; rfl)).elim
  | worker hk h => exact absurd (hexited _ hk) h.live
  | caller h => exact (CallerFrame.of_move h).ring
  | request | tick | contextEnds => rfl

/-- **A run that strands nothing ends with an empty ring.** -/
theorem empty_of_exited (h : (pipelineSystem cfg).Reachable (fun s l => ¬ Strands cfg s l) s)
    (hexited : ∀ k < cfg.workers, (s.workers k).pc = .exited) :
    s.ring.ring.readPos = s.ring.ring.writePos := by
  revert hexited
  refine h.invariant (I := fun s => (∀ k < cfg.workers, (s.workers k).pc = .exited) →
    s.ring.ring.readPos = s.ring.ring.writePos) (fun _ => rfl) ?_
  intro s l s' hreach hI hl hstep hexited
  rcases exits_last hstep hexited with hold | ⟨k, ch, rfl, hpc, hothers⟩
  · rw [ring_of_exited hreach.reach (.of_step hstep) hold]
    exact hI hold
  · have hempty : ¬ s.ring.ring.readPos < s.ring.ring.writePos :=
      fun hlt => hl ⟨hpc, hothers, hlt⟩
    have hle := (ringUse_of_reach hreach.reach).ring.sound.readPos_le_writePos
    have hring : s'.ring = s.ring := by
      obtain ⟨-, hstep⟩ := Option.ite_none_right_eq_some.mp hstep
      simp only [workerStep, hpc] at hstep
      cases hstep
      rfl
    rw [hring]
    omega

end

/-- **Every lost observation is counted**, in the runs that strand nothing.  Once a
`Shutdown` has returned and the workers have exited, the observations whose `Record` returned
nil are as many as those handed to `processBatch`, those evicted from the ring, and those the
workers have lost.  The last are what the workers have added to `dropped`: the rest of that counter
is one for every `Record` that was refused. -/
theorem losses_counted {cfg : Config} {s : State} {n : ℕ} {err : Err}
    (h : (pipelineSystem cfg).Reachable (fun s l => ¬ Strands cfg s l) s)
    (hreturned : .callReturned (.shutdown n) err ∈ s.log)
    (hexited : ∀ k < cfg.workers, (s.workers k).pc = .exited) :
    {r | (s.recorders r).pc = .returned none}.ncard =
      ∑ k ∈ Finset.range cfg.workers, (observations (s.workers k).handed.flatten).length +
      (evicted s.ring.history).length +
      ∑ k ∈ Finset.range cfg.workers, (s.workers k).lost.length ∧
    s.stats.dropped =
      {r | (s.recorders r).pc = .returned (some .memoryLimit) ∨
        (s.recorders r).pc = .returned (some .bufferFull)}.ncard +
      ∑ k ∈ Finset.range cfg.workers, (s.workers k).lost.length := by
  have hclosed := Closing.closed_of_returned (c := .shutdown n) (lifecycle_of_reach h.reach)
    (logged_of_reach h.reach) rfl hreturned
  have hempty := empty_of_exited h hexited
  refine ⟨?_, dropped_eq h.reach hclosed⟩
  rw [balance_of_exited h.reach hclosed hexited, hempty, Nat.sub_self, Nat.add_zero]

/-- The context of `Shutdown` ends before the request has reached the worker, which leaves because
the pipeline context is cancelled. -/
def cutOffShutdown : List Label :=
  .call (.shutdown 0) :: replicate 6 (.caller (.shutdown 0) {}) ++
    [.contextEnds (.shutdown 0), .caller (.shutdown 0) { select := .contextDone }] ++
    replicate 5 (.caller (.shutdown 0) {}) ++
    [.worker 0 { select := .contextDone }, .worker 0 {}, .worker 0 {}]

/-- A `Shutdown` has returned and worker 0 has exited. -/
def shutDown (s : State) : Bool :=
  s.closed && decide ((s.workers 0).pc = .exited) && s.log.any fun
    | .callReturned (.shutdown 0) _ => true
    | _ => false

theorem of_shutDown {s : State} (h : shutDown s = true) :
    s.closed = true ∧ (∃ err, .callReturned (.shutdown 0) err ∈ s.log) ∧
      ∀ k < smallConfig.workers, (s.workers k).pc = .exited := by
  simp only [shutDown, Bool.and_eq_true, decide_eq_true_eq, any_eq_true] at h
  obtain ⟨⟨hclosed, hexited⟩, ev, hmem, hev⟩ := h
  refine ⟨hclosed, ?_, fun k hk => by rwa [Nat.lt_one_iff.mp hk]⟩
  split at hev
  · exact ⟨_, hmem⟩
  · cases hev

/-- An observation is recorded and popped, and then `Shutdown` is cut off. -/
def droppedBatch : List Label :=
  .record 0 1 :: replicate 16 (.recorder 0 {}) ++ replicate 17 (.worker 0 {}) ++
    cutOffShutdown

/-- The worker drops its batch of one observation, and counts it. -/
theorem losses_counted_droppedBatch :
    ∃ s, (pipelineSystem smallConfig).Reachable (fun s l => ¬ Strands smallConfig s l) s ∧
      (∃ err, .callReturned (.shutdown 0) err ∈ s.log) ∧
      (s.workers 0).lost = [.observation 0] ∧ s.stats.dropped = 1 ∧
      {r | (s.recorders r).pc = .returned none}.ncard = 1 ∧
      {r | (s.recorders r).pc = .returned (some .memoryLimit) ∨
        (s.recorders r).pc = .returned (some .bufferFull)}.ncard = 0 := by
  have hrun : ((pipelineSystem smallConfig).runWithin
      (fun s l => decide (¬ Strands smallConfig s l)) (State.init smallConfig) droppedBatch).map
      (fun s => (shutDown s, (s.workers 0).lost,
        [(observations (s.workers 0).handed.flatten).length, (evicted s.ring.history).length,
          s.stats.dropped])) = some (true, [.observation 0], [0, 0, 1]) := by decide +kernel
  obtain ⟨s, hs, heq⟩ := Option.map_eq_some_iff.mp hrun
  simp only [Prod.mk.injEq, List.cons.injEq, and_true] at heq
  obtain ⟨hdown, hlost, hhanded, hevicted, hdropped⟩ := heq
  obtain ⟨-, ⟨err, hreturned⟩, hexited⟩ := of_shutDown hdown
  have hreach : (pipelineSystem smallConfig).Reachable
      (fun s l => ¬ Strands smallConfig s l) s :=
    (TransitionSystem.Reachable.of_runWithin .init hs).mono fun _ _ h => of_decide_eq_true h
  obtain ⟨haccepted, hcounted⟩ := losses_counted hreach hreturned hexited
  refine ⟨s, hreach, ⟨err, hreturned⟩, hlost, hdropped, ?_, ?_⟩
  · rw [haccepted]
    simp [smallConfig, hhanded, hevicted, hlost]
  · simp only [smallConfig, Finset.sum_range_one, hdropped, hlost, length_singleton] at hcounted
    omega

/-- An observation is recorded, and `Shutdown` is cut off with an empty batch in the worker; the
observation stays in the ring. -/
def strandedObservation : List Label :=
  .record 0 1 :: replicate 16 (.recorder 0 {}) ++ cutOffShutdown

/-- The observation is accepted, and counted nowhere. -/
theorem stranded_not_counted :
    ∃ s, (pipelineSystem smallConfig).run (State.init smallConfig) strandedObservation = some s ∧
      (∃ err, .callReturned (.shutdown 0) err ∈ s.log) ∧
      (∀ k < smallConfig.workers, (s.workers k).pc = .exited) ∧
      {r | (s.recorders r).pc = .returned none}.ncard = 1 ∧
      ∑ k ∈ Finset.range smallConfig.workers,
          (observations (s.workers k).handed.flatten).length +
        (evicted s.ring.history).length +
        ∑ k ∈ Finset.range smallConfig.workers, (s.workers k).lost.length = 0 ∧
      s.stats.dropped = 0 := by
  have hrun : ((pipelineSystem smallConfig).run (State.init smallConfig) strandedObservation).map
      (fun s => (shutDown s,
        [(observations (s.workers 0).handed.flatten).length, (evicted s.ring.history).length,
          (s.workers 0).lost.length, s.ring.ring.readPos, s.ring.ring.writePos,
          s.stats.dropped])) = some (true, [0, 0, 0, 0, 1, 0]) := by decide +kernel
  obtain ⟨s, hs, heq⟩ := Option.map_eq_some_iff.mp hrun
  simp only [Prod.mk.injEq, List.cons.injEq, and_true] at heq
  obtain ⟨hdown, hhanded, hevicted, hlost, hread, hwrite, hdropped⟩ := heq
  obtain ⟨hclosed, hreturned, hexited⟩ := of_shutDown hdown
  refine ⟨s, hs, hreturned, hexited, ?_, ?_, hdropped⟩
  · rw [balance_of_exited (.of_run .init hs) hclosed hexited]
    simp [smallConfig, hhanded, hevicted, hlost, hread, hwrite]
  · simp [smallConfig, hhanded, hevicted, hlost]

end ConvoyStats.Pipeline
