import ConvoyStats.Pipeline.Places

/-!
# What a Record call has in hand

A `Record` call reserves memory for its own observation before it pushes, and gives it
back if the push fails; if the push evicts, the call gives back the memory of the evicted
observation and returns it to the pool.  `MemoryMove` says what each step of the call does
to this, once for the pool and once for the memory account.

`Reports` ties the points of the call to what the ring has told it: a push that was
accepted leads to a nil return and no other, and a call about to release an observation
has evicted that one.  `Settled` is the rule for what follows: which observations have been
dealt with, at the point where their metric goes back to the pool or at the point where
their memory does.
-/

namespace ConvoyStats.Pipeline

open Function List Transport

namespace RecordPc

/-- The call has reserved memory for its observation and has not given it back. -/
def reserved : RecordPc → Bool
  | .push _ | .rollback | .releaseEvicted .. | .dropLabels _ | .totalLabels _ | .unlock none
  | .returned none => true
  | _ => false

/-- The evicted observation the call is about to release. -/
def evicting : RecordPc → Option ℕ
  | .releaseEvicted _ old => some old
  | _ => none

variable {pc : RecordPc}

theorem reserved_of_accepted (h : pc.accepted) : pc.reserved := by
  cases pc with
  | unlock result | returned result => cases result <;> first | rfl | cases h
  | _ => first | rfl | cases h

/-- A reservation without an accepted push is of a call in its push or past a failed one. -/
theorem reserved_cases (h : pc.reserved) : pc.accepted ∨ pc.pushing ∨ pc = .rollback := by
  cases pc with
  | unlock result | returned result => cases result <;> first | exact .inl rfl | cases h
  | push labels => exact .inr (.inl rfl)
  | rollback => exact .inr (.inr rfl)
  | _ => first | exact .inl rfl | cases h

theorem evicting_of_pushing (h : pc.pushing) : pc.evicting = none := by
  cases pc <;> first | rfl | cases h

theorem reserved_of_pushing (h : pc.pushing) : pc.reserved := by
  cases pc <;> first | rfl | cases h

theorem before_of_pushing (h : pc.pushing) : pc.before := by
  cases pc <;> first | rfl | cases h

end RecordPc

/-- What `commit` does is done by a call whose push was accepted. -/
theorem commitPc_accepted (labels : ℕ) : (commitPc labels).accepted := by
  unfold commitPc
  split_ifs <;> rfl

theorem commitPc_evicting (labels : ℕ) : (commitPc labels).evicting = none := by
  unfold commitPc
  split_ifs <;> rfl

theorem pushedPc_reserved (labels : ℕ) (result : Result ℕ) : (pushedPc labels result).reserved := by
  unfold pushedPc
  split
  · exact RecordPc.reserved_of_accepted (commitPc_accepted labels)
  · exact RecordPc.reserved_of_accepted (commitPc_accepted labels)
  · rfl
  · rfl

/-- **What a step of the `Record` call `r` does to the memory account** and to what it
has in hand. -/
inductive MemoryMove (cfg : Config) (s : State) (r : ℕ) (s' : State) : Prop
  /-- The compare-and-swap succeeds. -/
  | reserve (labels : ℕ) (hpc : (s.recorders r).pc = .casMemory labels s.stats.memUsage)
      (hs' : s' = { s.recordTo r (.push labels) with
        stats := { s.stats with memUsage := s.stats.memUsage + (s.recorders r).size } })
  | rollback (hpc : (s.recorders r).pc = .rollback)
      (hs' : s' = { s.recordTo r .countFull with
        stats := { s.stats with memUsage := s.stats.memUsage - (s.recorders r).size } })
  | release (labels old : ℕ) (hpc : (s.recorders r).pc = .releaseEvicted labels old)
      (hs' : s' = { s.recordTo r (commitPc labels) with
        stats := { s.stats with memUsage := s.stats.memUsage - (s.recorders old).size } })
  /-- A step outside the ring that leaves the account alone. -/
  | other (pc' : RecordPc)
      (hrec : s'.recorders = update s.recorders r { s.recorders r with pc := pc' })
      (hmem : s'.stats.memUsage = s.stats.memUsage)
      (hreserved : pc'.reserved = (s.recorders r).pc.reserved)
      (haccepted : (s.recorders r).pc.accepted → pc'.accepted)
      (hevicting : (s.recorders r).pc.evicting = none) (hevicting' : pc'.evicting = none)
      (hpush : (s.recorders r).pc.pushing = false)
      (hcas : ∀ labels current, pc' = .casMemory labels current →
        current + (s.recorders r).size ≤ cfg.maxMemoryBytes)
      (hring : s'.ring = s.ring) (hworkers : s'.workers = s.workers)
  /-- An access of the push that does not return yet. -/
  | access (ring' : World Goroutine ℕ) (hpush : (s.recorders r).pc.pushing)
      (hring : ringStep s.ring (.recorder r) (ringOp cfg (.recorder r)) = some (ring', none))
      (hs' : s' = { s with ring := ring' })
  /-- The push returns. -/
  | pushed (labels : ℕ) (result : Result ℕ) (ring' : World Goroutine ℕ)
      (hpc : (s.recorders r).pc = .push labels)
      (hring : ringStep s.ring (.recorder r) (ringOp cfg (.recorder r)) =
        some (ring', some result))
      (hs' : s' = { s.recordTo r (pushedPc labels result) with ring := ring' })

namespace MemoryMove

variable {cfg : Config} {s s' : State} {r : ℕ} {ch : Choice}

/-- **Every step of a `Record` call is one of them.** -/
theorem of_recorderStep (h : recorderStep cfg s r ch = some s') : MemoryMove cfg s r s' := by
  unfold recorderStep at h
  -- a step that only moves on
  have hother : ∀ (pc pc' : RecordPc), (s.recorders r).pc = pc →
      s'.recorders = update s.recorders r { s.recorders r with pc := pc' } →
      pc.pushing = false → pc'.reserved = pc.reserved → (pc.accepted → pc'.accepted) →
      pc.evicting = none → pc'.evicting = none →
      (∀ labels current, pc' = .casMemory labels current →
        current + (s.recorders r).size ≤ cfg.maxMemoryBytes) →
      s'.stats.memUsage = s.stats.memUsage → s'.ring = s.ring → s'.workers = s.workers →
      MemoryMove cfg s r s' := by
    rintro pc pc' rfl hrec hpush hreserved haccepted hevicting hevicting' hcas hmem hring hworkers
    exact .other pc' hrec hmem hreserved haccepted hevicting hevicting' hpush hcas hring hworkers
  cases hpc : (s.recorders r).pc <;> simp only [hpc] at h <;> try cases h
  case rlock =>
    split at h <;> cases h
    exact hother _ _ hpc rfl rfl rfl nofun rfl rfl nofun rfl rfl rfl
  case checkClosed | rateLimit =>
    refine hother _ _ hpc rfl rfl ?_ nofun rfl ?_ ?_ rfl rfl rfl
    · split_ifs <;> rfl
    · split_ifs <;> rfl
    · split_ifs <;> nofun
  case admitSeries =>
    split at h <;> cases h <;>
      exact hother _ _ hpc rfl rfl rfl nofun rfl rfl nofun rfl rfl rfl
  case loadMemory labels =>
    split at h <;> cases h
    · exact hother _ _ hpc rfl rfl rfl nofun rfl rfl nofun rfl rfl rfl
    · rename_i hfits
      refine hother _ _ hpc rfl rfl rfl nofun rfl rfl ?_ rfl rfl rfl
      rintro _ _ ⟨⟩
      exact not_lt.mp hfits
  case casMemory labels current =>
    split at h <;> cases h
    · rename_i hcas
      subst hcas
      exact .reserve labels hpc rfl
    · exact hother _ _ hpc rfl rfl rfl nofun rfl rfl nofun rfl rfl rfl
  case push labels =>
    split at h <;> cases h
    · exact .access _ (by rw [hpc]; rfl) ‹_› rfl
    · exact .pushed labels _ _ hpc ‹_› rfl
  case rollback => exact .rollback hpc rfl
  case releaseEvicted labels old => exact .release labels old hpc rfl
  case unlock result =>
    refine hother _ _ hpc rfl rfl ?_ ?_ rfl rfl nofun rfl rfl rfl
    · cases result <;> rfl
    · cases result <;> exact id
  case dropLabels | totalLabels =>
    exact hother _ _ hpc rfl rfl rfl (fun _ => rfl) rfl rfl nofun rfl rfl rfl
  case countRateLimited | dropSeries | totalSeries | countMemory | countFull =>
    exact hother _ _ hpc rfl rfl rfl nofun rfl rfl nofun rfl rfl rfl

end MemoryMove

/-! ### What the ring reports -/

section Reporting

variable {ring ring' : World Goroutine ℕ} {g : Goroutine} {op : Op ℕ} {β : Type}
  {f : Transport.Event Goroutine ℕ → Option β}

/-- A step that does not return reports nothing. -/
theorem ringStep_none_reports (hf : ∀ call e, f (.effect call e) = none)
    (h : ringStep ring g op = some (ring', none)) :
    ring'.history.filterMap f = ring.history.filterMap f := by
  rcases ringStep_none h with ⟨-, hstart⟩ | ⟨op', pc, hrun, rfl⟩
  · obtain ⟨-, rfl⟩ := World.start_eq_some hstart
    rfl
  · rw [World.perform, filterMap_append]
    refine (congrArg _ (filterMap_eq_nil_iff.mpr fun ev hev => ?_)).trans (append_nil _)
    obtain ⟨e, -, rfl⟩ := mem_record.mp hev
    exact hf _ e

/-- A step that returns reports its result. -/
theorem ringStep_some_reports {result : Result ℕ}
    (h : ringStep ring g op = some (ring', some result)) :
    ∃ op', (ring.threads g).running = some (op', .ret result) ∧
      ring'.history.filterMap f = ring.history.filterMap f ++
        (f (.returned (g, (ring.threads g).finished) op' result)).toList := by
  obtain ⟨op', hrun, rfl⟩ := ringStep_some h
  refine ⟨op', hrun, ?_⟩
  rw [World.finish, filterMap_append]
  cases hf : f (.returned (g, (ring.threads g).finished) op' result) <;> simp [hf]

/-- A worker's step leaves acceptances and evictions alone. -/
theorem ringStep_pop_reports {cfg : Config} {k : ℕ} {res : Option (Result ℕ)}
    (hr : RingOk cfg ring) (h : ringStep ring (.worker k) .pop = some (ring', res)) :
    accepted ring'.history = accepted ring.history ∧
      evicted ring'.history = evicted ring.history := by
  cases res with
  | none =>
    exact ⟨ringStep_none_reports (fun _ _ => rfl) h, ringStep_none_reports (fun _ _ => rfl) h⟩
  | some result =>
    have hok := hr.ringStep (g := .worker k) h
    obtain ⟨op', hrun, hacc⟩ := ringStep_some_reports (f := Event.accepted?) h
    obtain ⟨op'', hrun', hev⟩ := ringStep_some_reports (f := Event.evicted?) h
    cases hrun.symm.trans hrun'
    obtain rfl : op' = .pop := hr.running _ _ _ hrun
    obtain ⟨op', hrun', rfl⟩ := ringStep_some h
    cases hrun.symm.trans hrun'
    have hmem : .returned (.worker k, (ring.threads (.worker k)).finished) .pop result ∈
        (ring.finish (.worker k) .pop result).history := by simp [World.finish]
    obtain ⟨item, rfl⟩ := result_of_pop (hok.sound.outcome hmem)
    exact ⟨hacc.trans (append_nil _), hev.trans (append_nil _)⟩

end Reporting

/-- **What the `Record` calls know** of what the ring has reported to them. -/
structure Reports (s : State) : Prop where
  /-- An accepted push leads to a nil return. -/
  accepted : ∀ r n x, ((.recorder r, n), x) ∈ accepted s.ring.history → (s.recorders r).pc.accepted
  /-- A call releases what it has evicted. -/
  evicting : ∀ r old, (s.recorders r).pc.evicting = some old →
    ((.recorder r, 0), old) ∈ evicted s.ring.history

namespace Reports

variable {cfg : Config} {s s' : State}

theorem init : Reports (State.init cfg) := ⟨nofun, nofun⟩

/-- Neither the recorders nor the reports have changed. -/
theorem of_same (hr : Reports s) (hrec : s'.recorders = s.recorders)
    (hacc : Transport.accepted s'.ring.history = Transport.accepted s.ring.history)
    (hev : evicted s'.ring.history = evicted s.ring.history) : Reports s' := by
  refine ⟨?_, ?_⟩
  · rw [hrec, hacc]
    exact hr.accepted
  · rw [hrec, hev]
    exact hr.evicting

variable {r : ℕ}

variable (hr : Reports s)
include hr

/-- A `Record` call moves on without a report. -/
theorem of_recorder {rec' : Recorder}
    (hrec : s'.recorders = update s.recorders r rec')
    (haccepted : (s.recorders r).pc.accepted → rec'.pc.accepted)
    (hevicting : rec'.pc.evicting = none) (hring : s'.ring = s.ring) : Reports s' := by
  refine ⟨fun r' n x hmem => ?_, fun r' old hpc => ?_⟩
  · rw [hring] at hmem
    have hold := hr.accepted r' n x hmem
    rcases update_cases hrec r' with ⟨rfl, hr'⟩ | ⟨-, hr'⟩ <;> rw [hr']
    · exact haccepted hold
    · exact hold
  · rw [hring]
    rcases update_cases hrec r' with ⟨rfl, hr'⟩ | ⟨-, hr'⟩ <;> rw [hr'] at hpc
    · rw [hevicting] at hpc
      cases hpc
    · exact hr.evicting r' old hpc

/-- The push of a `Record` call returns. -/
theorem pushed {labels : ℕ} {result : Result ℕ} {ring' : World Goroutine ℕ}
    (hu : RingUse cfg s) (hpc : (s.recorders r).pc = .push labels)
    (hring : ringStep s.ring (.recorder r) (ringOp cfg (.recorder r)) = some (ring', some result)) :
    Reports { s with
      recorders := update s.recorders r { s.recorders r with pc := pushedPc labels result }
      ring := ring' } := by
  have hadv := ringStep_advances hu.ring.sound hring
  have hok := hu.ring.ringStep hring
  have hzero : (s.ring.threads (.recorder r)).finished = 0 :=
    (hu.recorders r).before (by rw [hpc]; rfl)
  obtain ⟨op, hrun, hacc⟩ := ringStep_some_reports (f := Event.accepted?) hring
  obtain rfl := hu.ring.running _ _ _ hrun
  refine ⟨fun r' n x hmem => ?_, fun r' old hpc' => ?_⟩
  · change _ ∈ ring'.history.filterMap Event.accepted? at hmem
    rw [hacc, mem_append, hzero] at hmem
    by_cases hr' : r' = r
    · subst hr'
      simp only [update_self]
      rcases hmem with hold | hnew
      · -- the call has pushed nothing before
        have := hr.accepted r' n x hold
        rw [hpc] at this
        cases this
      · -- a push reported as accepted goes on to a nil return
        rw [Option.mem_toList] at hnew
        rcases result with (_ | _) | ⟨evicted, (_ | _)⟩ | _
        all_goals
          unfold ringOp at hnew
          cases hd : cfg.dropOldest <;> rw [hd] at hnew <;> cases hnew
        · exact commitPc_accepted labels
        · cases evicted with
          | none => exact commitPc_accepted labels
          | some old => rfl
    · simp only [update_of_ne hr']
      refine hr.accepted r' n x (hmem.resolve_right fun hnew => ?_)
      rw [Option.mem_toList] at hnew
      unfold Event.accepted? at hnew
      split at hnew
      · cases hnew
        exact hr' (by simp_all)
      · cases hnew
        exact hr' (by simp_all)
      · cases hnew
  · by_cases hr' : r' = r
    · subst hr'
      simp only [update_self] at hpc'
      obtain ⟨op, hrun', rfl⟩ := ringStep_some hring
      cases hrun.symm.trans hrun'
      rw [mem_evicted]
      refine ⟨ringOp cfg (.recorder r'), true, ?_⟩
      have hresult : result = .pushDropOldest (some old) true := by
        unfold pushedPc at hpc'
        split at hpc'
        · rw [commitPc_evicting] at hpc'
          cases hpc'
        · rw [commitPc_evicting] at hpc'
          cases hpc'
        · cases hpc'
          rfl
        · cases hpc'
      subst hresult
      simp [World.finish, hzero]
    · simp only [update_of_ne hr'] at hpc'
      obtain ⟨op', ok, hmem⟩ := mem_evicted.mp (hr.evicting r' old hpc')
      exact mem_evicted.mpr ⟨op', ok, hadv.history.subset hmem⟩

/-- A step of a `Record` call. -/
theorem recorder {r : ℕ} (hu : RingUse cfg s) (h : MemoryMove cfg s r s') :
    Reports s' := by
  cases h with
  | reserve labels hpc hs' | rollback hpc hs' =>
    subst hs'
    exact hr.of_recorder rfl (by rw [hpc]; nofun) rfl rfl
  | release labels _ _ hs' =>
    subst hs'
    exact hr.of_recorder rfl (fun _ => commitPc_accepted labels) (commitPc_evicting labels) rfl
  | other _ hrec _ _ haccepted _ hevicting' _ _ hring =>
    exact hr.of_recorder hrec haccepted hevicting' hring
  | access _ _ hring hs' =>
    subst hs'
    exact hr.of_same rfl (ringStep_none_reports (fun _ _ => rfl) hring)
      (ringStep_none_reports (fun _ _ => rfl) hring)
  | pushed _ _ _ hpc hring hs' =>
    subst hs'
    exact hr.pushed hu hpc hring

/-- A step of a worker. -/
theorem worker {k : ℕ} (hu : RingUse cfg s) (h : WorkerMove s k s') :
    Reports s' := by
  cases h with
  | access ring' hpop hring | took x ring' w' hpop hemptied hring
  | empty _ _ _ _ _ _ hring =>
    obtain ⟨hacc, hev⟩ := ringStep_pop_reports hu.ring hring
    exact hr.of_same rfl hacc hev
  | _ => exact hr.of_same rfl rfl rfl

theorem record {size : ℤ} (h : startRecord s r size = some s') : Reports s' := by
  unfold startRecord at h
  split at h
  · rename_i hpc
    cases h
    exact hr.of_recorder rfl (by rw [hpc]; nofun) rfl rfl
  · cases h

/-- An observation in the ring or past it is of a call that pushes or has pushed. -/
theorem of_published (hu : RingUse cfg s) {p x : ℕ}
    (hpub : Published s.ring.history p x) :
    (s.recorders x).pc.pushing ∨ (s.recorders x).pc.accepted := by
  obtain ⟨call, hp⟩ := hpub
  rw [hu.published_by hp] at hp
  rcases hu.ring.sound.returned_or_running hp with ⟨-, op, result, hret⟩ | ⟨-, op, pc, hrun⟩
  · exact .inr (hr.accepted x 0 x (hu.ring.sound.accepted_of_published hret hp))
  · exact .inl ((hu.recorders x).pushing (by rw [hrun]; nofun))

/-- **Every step keeps it.** -/
theorem step {l : Label} (hu : RingUse cfg s) (h : step cfg s l = some s') :
    Reports s' := by
  cases LabelMove.of_step h with
  | record _ hstep => exact hr.record hstep
  | recorder _ hstep => exact hr.recorder hu (.of_recorderStep hstep)
  | worker _ h | startExport _ h | finishExport _ h => exact hr.worker hu h
  | call h | caller h =>
    have hf := CallerFrame.of_move h
    exact hr.of_same hf.recorders (by rw [hf.ring]) (by rw [hf.ring])
  | request | tick | contextEnds => exact hr.of_same rfl rfl rfl

end Reports

theorem reports_of_reach {cfg : Config} {s : State} (h : (pipelineSystem cfg).Reach s) :
    Reports s :=
  h.invariant .init fun _ _ _ hreach hr _ hstep => hr.step (ringUse_of_reach hreach) hstep

/-! ### Evictions -/

namespace RingUse

variable {cfg : Config} {s : State} {r n x y : ℕ}

variable (hu : RingUse cfg s)
include hu

/-- A call that evicts has returned from its one push. -/
theorem evicted_call
    (h : ((.recorder r, n), x) ∈ evicted s.ring.history) :
    n = 0 ∧ (s.recorders r).pc.before = false := by
  obtain ⟨op, ok, hret⟩ := mem_evicted.mp h
  have hlt := (hu.ring.sound.ledger.returned _ _ _ _ hret).1
  have hle := (hu.recorders r).finished_le
  refine ⟨by omega, Bool.eq_false_iff.mpr fun hbefore => ?_⟩
  rw [(hu.recorders r).before hbefore] at hlt
  exact absurd hlt (Nat.not_lt_zero n)

/-- It evicts one observation. -/
theorem evicted_inj {call : Transport.Call Goroutine}
    (h : (call, x) ∈ evicted s.ring.history) (h' : (call, y) ∈ evicted s.ring.history) : x = y := by
  obtain ⟨op, ok, hret⟩ := mem_evicted.mp h
  obtain ⟨op', ok', hret'⟩ := mem_evicted.mp h'
  cases (hu.ring.sound.returned_unique hret hret').2
  rfl

theorem takenBy_of_evicted {g : Goroutine}
    (h : ((g, n), x) ∈ evicted s.ring.history) : TakenBy s x g := by
  obtain ⟨p, hobt⟩ := hu.ring.sound.obtained_of_returned (.inr h)
  exact ⟨n, p, hu.ring.sound.obtained_claimed hobt, hu.ring.sound.published_of_obtained hobt⟩

/-- What a returned `Record` call has claimed it has evicted. -/
theorem evicted_of_claimed {p : ℕ} {op : Op ℕ} {result : Result ℕ}
    (hclaim : .effect (.recorder r, n) (.claimed p) ∈ s.ring.history)
    (hpub : Published s.ring.history p x)
    (hret : .returned (.recorder r, n) op result ∈ s.ring.history) :
    ((.recorder r, n), x) ∈ evicted s.ring.history := by
  obtain ⟨y, hobt⟩ := hu.ring.sound.obtained_of_claimed hret hclaim
  obtain rfl := hu.ring.sound.item_unique hpub (hu.ring.sound.published_of_obtained hobt)
  refine (hu.ring.sound.returned_of_obtained hret hobt).resolve_left ?_
  intro hpop
  -- a `Record` call pushes
  obtain ⟨op', hret'⟩ := mem_popped.mp hpop
  obtain rfl := hu.ring.returned _ _ _ _ hret'
  have hop : ringOp cfg (.recorder r) = .ofPush cfg.dropOldest (some r) := rfl
  have hres := hu.ring.sound.outcome hret'
  rw [hop] at hres
  rcases result_of_push hres with hbad | hbad | ⟨-, old, hbad⟩
  · cases hd : cfg.dropOldest <;> rw [hd] at hbad <;> cases hbad
  · cases hd : cfg.dropOldest <;> rw [hd] at hbad <;> cases hbad
  · cases hbad

end RingUse

/-- A `Record` call has evicted the observation and let go of it. -/
def EvictionDone (s : State) (x : ℕ) : Prop :=
  ∃ r n, ((.recorder r, n), x) ∈ evicted s.ring.history ∧ (s.recorders r).pc.evicting = none

namespace EvictionDone

variable {cfg : Config} {s s' : State} {x : ℕ}

theorem of_same (hev : evicted s'.ring.history = evicted s.ring.history)
    (hpc : ∀ r, (s'.recorders r).pc.evicting = (s.recorders r).pc.evicting) :
    EvictionDone s' x ↔ EvictionDone s x := by
  rw [EvictionDone, EvictionDone, hev]
  simp only [hpc]

variable {r : ℕ}

/-- A `Record` call with nothing in hand moves on. -/
theorem of_recorder {rec' : Recorder} (hrec : s'.recorders = update s.recorders r rec')
    (hring : s'.ring = s.ring) (hpc : (s.recorders r).pc.evicting = none)
    (hpc' : rec'.pc.evicting = none) : EvictionDone s' x ↔ EvictionDone s x := by
  exact of_same (by rw [hring])
    (congr_of_update (fun rec : Recorder => rec.pc.evicting) hrec (hpc'.trans hpc.symm))

/-- The push of a `Record` call returns: what it has evicted it has in hand. -/
theorem pushed {labels : ℕ} {result : Result ℕ} {ring' : World Goroutine ℕ} (hu : RingUse cfg s)
    (hpc : (s.recorders r).pc = .push labels)
    (hring : ringStep s.ring (.recorder r) (ringOp cfg (.recorder r)) = some (ring', some result)) :
    EvictionDone { s with
      recorders := update s.recorders r { s.recorders r with pc := pushedPc labels result }
      ring := ring' } x ↔ EvictionDone s x := by
  obtain ⟨op, hrun, hev⟩ := ringStep_some_reports (f := Event.evicted?) hring
  have hok := hu.ring.ringStep hring
  -- the call has evicted nothing before
  have hne : ∀ {r' n}, ((.recorder r', n), x) ∈ evicted s.ring.history → r' ≠ r := by
    rintro r' n hmem rfl
    have hbefore := (hu.evicted_call hmem).2
    rw [hpc] at hbefore
    cases hbefore
  constructor
  · rintro ⟨r', n, hmem, hdone⟩
    change _ ∈ ring'.history.filterMap Event.evicted? at hmem
    rw [hev, mem_append] at hmem
    rcases hmem with hold | hnew
    · simp only [update_of_ne (hne hold)] at hdone
      exact ⟨r', n, hold, hdone⟩
    · exfalso
      rw [Option.mem_toList] at hnew
      unfold Event.evicted? at hnew
      split at hnew
      · rename_i call op' old ok heq
        cases hnew
        cases heq
        -- a push hands an evicted item back only if it succeeds
        obtain ⟨op', hrun', rfl⟩ := ringStep_some hring
        cases hrun.symm.trans hrun'
        have hret : .returned (.recorder r, (s.ring.threads (.recorder r)).finished) op
            (.pushDropOldest (some x) ok) ∈
            (s.ring.finish (.recorder r) op (.pushDropOldest (some x) ok)).history := by
          simp [World.finish]
        obtain ⟨rfl, -⟩ := (hok.sound.outcome hret).evicted_ok rfl
        simp only [update_self] at hdone
        cases hdone
      · cases hnew
  · rintro ⟨r', n, hmem, hdone⟩
    refine ⟨r', n, ?_, ?_⟩
    · change _ ∈ ring'.history.filterMap Event.evicted?
      rw [hev]
      exact mem_append_left _ hmem
    · simp only [update_of_ne (hne hmem)]
      exact hdone

/-- **A step of a `Record` call** lets go of what the call had in hand. -/
theorem recorder {r : ℕ} (hu : RingUse cfg s) (hrep : Reports s) (h : MemoryMove cfg s r s') :
    EvictionDone s' x ↔ EvictionDone s x ∨ (s.recorders r).pc.evicting = some x := by
  -- nothing is in hand but at the release
  have hnone : (s.recorders r).pc.evicting = none → (EvictionDone s' x ↔ EvictionDone s x) →
      (EvictionDone s' x ↔ EvictionDone s x ∨ (s.recorders r).pc.evicting = some x) := by
    intro hpc hiff
    rw [hiff, hpc]
    simp
  cases h with
  | reserve labels hpc hs' | rollback hpc hs' =>
    subst hs'
    have hpc' : (s.recorders r).pc.evicting = none := by rw [hpc]; rfl
    exact hnone hpc' (of_recorder rfl rfl hpc' rfl)
  | release labels old hpc hs' =>
    subst hs'
    have hhand : (s.recorders r).pc.evicting = some old := by rw [hpc]; rfl
    rw [hhand, Option.some.injEq]
    constructor
    · rintro ⟨r', n, hmem, hdone⟩
      by_cases hr : r' = r
      · subst hr
        right
        obtain ⟨rfl, -⟩ := hu.evicted_call hmem
        exact hu.evicted_inj (hrep.evicting r' old hhand) hmem
      · left
        refine ⟨r', n, hmem, ?_⟩
        simpa [State.recordTo, State.setRecorder, hr] using hdone
    · rintro (⟨r', n, hmem, hdone⟩ | rfl)
      · have hr : r' ≠ r := by
          rintro rfl
          rw [hhand] at hdone
          cases hdone
        refine ⟨r', n, hmem, ?_⟩
        simpa [State.recordTo, State.setRecorder, hr] using hdone
      · refine ⟨r, 0, hrep.evicting r old hhand, ?_⟩
        simpa [State.recordTo, State.setRecorder] using commitPc_evicting labels
  | other _ hrec _ _ _ hevicting hevicting' _ _ hring =>
    exact hnone hevicting (of_recorder hrec hring hevicting hevicting')
  | access _ hpush hring hs' =>
    subst hs'
    exact hnone (RecordPc.evicting_of_pushing hpush)
      (of_same (ringStep_none_reports (fun _ _ => rfl) hring) fun _ => rfl)
  | pushed _ _ _ hpc hring hs' =>
    subst hs'
    exact hnone (by rw [hpc]; rfl) (pushed hu hpc hring)

/-- A step of a worker is no concern of the evictions. -/
theorem worker {k : ℕ} (hu : RingUse cfg s) (h : WorkerMove s k s') :
    EvictionDone s' x ↔ EvictionDone s x := by
  cases h with
  | access ring' hpop hring | took x ring' w' hpop hemptied hring
  | empty _ _ _ _ _ _ hring =>
    exact of_same (ringStep_pop_reports hu.ring hring).2 fun _ => rfl
  | _ => exact of_same rfl fun _ => rfl

theorem record {size : ℤ} (h : startRecord s r size = some s') :
    EvictionDone s' x ↔ EvictionDone s x := by
  unfold startRecord at h
  split at h
  · rename_i hpc
    cases h
    exact of_recorder rfl rfl (by rw [hpc]; rfl) rfl
  · cases h

theorem caller {c : Caller} (h : CallerFrame s c s') : EvictionDone s' x ↔ EvictionDone s x :=
  of_same (by rw [h.ring]) fun r => by rw [h.recorders]

end EvictionDone

/-! ### Settling

An observation that has left the ring is dealt with by the goroutine that has taken it: a
`Record` call lets go of what it has evicted, and a worker deals with what it has taken at
some point of its own.  `P` says of a worker that it has done so with an observation, and
`out` which ones its next step does it with. -/

/-- The goroutine that has taken the observation has dealt with it. -/
def Settled (P : Worker → ℕ → Prop) (s : State) (x : ℕ) : Prop :=
  (∃ k, P (s.workers k) x) ∨ EvictionDone s x

/-- The observations a step deals with. -/
def settles (out : Worker → List ℕ) (s : State) : Label → List ℕ
  | .recorder r _ => (s.recorders r).pc.evicting.toList
  | .worker k _ => out (s.workers k)
  | _ => []

namespace Settled

variable {cfg : Config} {s s' : State} {x : ℕ} {P : Worker → ℕ → Prop} {out : Worker → List ℕ}

theorem of_same (hworkers : ∀ k, P (s'.workers k) x ↔ P (s.workers k) x)
    (hev : EvictionDone s' x ↔ EvictionDone s x) : Settled P s' x ↔ Settled P s x := by
  rw [Settled, Settled, hev]
  simp only [hworkers]

/-- **A step adds what it deals with**, if the workers' own steps do and the points at which
a worker waits make no difference. -/
theorem step {l : Label} (hu : RingUse cfg s) (hrep : Reports s) (h : step cfg s l = some s')
    (hworker : ∀ k ch, workerStep cfg s k ch = some s' →
      (P (s'.workers k) x ↔ P (s.workers k) x ∨ x ∈ out (s.workers k)))
    (hexporting : ∀ (w : Worker) job status status', w.pc = .exporting job status →
      (P { w with pc := .exporting job status' } x ↔ P w x))
    (hselect : ∀ (w : Worker) request err, w.pc = .select →
      (P { w with pc := .drainLoop request 0 err } x ↔ P w x))
    (htick : ∀ w : Worker, P { w with tick := true } x ↔ P w x) :
    Settled P s' x ↔ Settled P s x ∨ x ∈ settles out s l := by
  -- the steps that deal with nothing
  have hquiet : settles out s l = [] → (∀ k, P (s'.workers k) x ↔ P (s.workers k) x) →
      (EvictionDone s' x ↔ EvictionDone s x) →
      (Settled P s' x ↔ Settled P s x ∨ x ∈ settles out s l) := by
    intro hnone hworkers hev
    rw [of_same hworkers hev, hnone]
    simp
  -- a worker moves on with what it has
  have hupdate : ∀ {k : ℕ} {w' : Worker}, s'.workers = update s.workers k w' →
      (P w' x ↔ P (s.workers k) x) → ∀ j, P (s'.workers j) x ↔ P (s.workers j) x := by
    intro k w' hworkers hsame j
    rcases update_cases hworkers j with ⟨rfl, hj⟩ | ⟨-, hj⟩ <;> rw [hj]
    exact hsame
  cases LabelMove.of_step h with
  | record h hstep =>
    refine hquiet rfl (fun k => ?_) (EvictionDone.record hstep)
    cases h <;> rfl
  | recorder h hstep =>
    rw [Settled, Settled, h.workers, EvictionDone.recorder hu hrep (.of_recorderStep hstep),
      or_assoc]
    simp [settles]
  | @worker k ch _ _ hmove h =>
    have hiff : (∃ j, P (s'.workers j) x) ↔ (∃ j, P (s.workers j) x) ∨ x ∈ out (s.workers k) := by
      constructor
      · rintro ⟨j, hj⟩
        by_cases hjk : j = k
        · subst hjk
          exact ((hworker j ch h).mp hj).imp_left fun hold => ⟨j, hold⟩
        · rw [hmove.workers_ne hjk] at hj
          exact .inl ⟨j, hj⟩
      · rintro (⟨j, hj⟩ | hnew)
        · refine ⟨j, ?_⟩
          by_cases hjk : j = k
          · subst hjk
            exact (hworker j ch h).mpr (.inl hj)
          · rwa [hmove.workers_ne hjk]
        · exact ⟨k, (hworker k ch h).mpr (.inr hnew)⟩
    rw [Settled, Settled, EvictionDone.worker hu hmove, settles, hiff, or_right_comm]
  | startExport _ h hstep =>
    refine hquiet rfl ?_ (EvictionDone.worker hu h)
    obtain ⟨job, status, hpc, -, rfl⟩ := startExport_some hstep
    exact hupdate rfl (hexporting _ job status _ hpc)
  | finishExport _ h hstep =>
    refine hquiet rfl ?_ (EvictionDone.worker hu h)
    obtain ⟨job, status, errors, exporterErrors, hpc, -, rfl⟩ := finishExport_some hstep
    exact hupdate rfl (hexporting _ job status _ hpc)
  | call h | caller h =>
    have hf := CallerFrame.of_move h
    exact hquiet rfl (fun k => by rw [hf.workers]) (EvictionDone.caller hf)
  | request c k _ _ hpc =>
    exact hquiet rfl (hupdate rfl (hselect _ _ _ hpc)) (EvictionDone.of_same rfl fun _ => rfl)
  | tick =>
    exact hquiet rfl (hupdate rfl (htick _)) (EvictionDone.of_same rfl fun _ => rfl)
  | contextEnds =>
    exact hquiet rfl (fun _ => Iff.rfl) (EvictionDone.of_same rfl fun _ => rfl)

/-- **A step deals with nothing that has been dealt with**, if the workers' own do not. -/
theorem fresh {l : Label} (hu : RingUse cfg s) (hrep : Reports s)
    (hP : ∀ k, P (s.workers k) x → .observation x ∈ (s.workers k).intake)
    (hout : ∀ k, x ∈ out (s.workers k) →
      .observation x ∈ (s.workers k).intake ∧ ¬ P (s.workers k) x)
    (hx : x ∈ settles out s l) : ¬ Settled P s x := by
  cases l with
  | recorder r ch =>
    rw [settles, Option.mem_toList] at hx
    have htaken := hu.takenBy_of_evicted (hrep.evicting r x hx)
    rintro (⟨k, hk⟩ | ⟨r', n, hmem, hdone⟩)
    · cases hu.takenBy_unique htaken (hu.takenBy_of_intake (hP k hk))
    · cases hu.takenBy_unique htaken (hu.takenBy_of_evicted hmem)
      rw [hx] at hdone
      cases hdone
  | worker k ch =>
    obtain ⟨hintake, hnot⟩ := hout k hx
    rintro (⟨j, hj⟩ | ⟨r, n, hmem, -⟩)
    · obtain rfl := hu.intake_disjoint hintake (hP j hj)
      exact hnot hj
    · cases hu.takenBy_unique (hu.takenBy_of_intake hintake) (hu.takenBy_of_evicted hmem)
  | _ => cases hx

/-- What has been dealt with has been taken out of the ring. -/
theorem takenBy (hu : RingUse cfg s)
    (hP : ∀ k, P (s.workers k) x → .observation x ∈ (s.workers k).intake) (h : Settled P s x) :
    ∃ g, TakenBy s x g := by
  rcases h with ⟨k, hk⟩ | ⟨r, n, hmem, -⟩
  · exact ⟨_, hu.takenBy_of_intake (hP k hk)⟩
  · exact ⟨_, hu.takenBy_of_evicted hmem⟩

end Settled

end ConvoyStats.Pipeline
