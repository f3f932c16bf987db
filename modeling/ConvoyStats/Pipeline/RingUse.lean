import ConvoyStats.Pipeline.CallMoves
import ConvoyStats.Transport.RingAdvance

/-!
# How the pipeline uses its ring

The ring of the pipeline is the ring of `ConvoyStats.Transport`, with two kinds of
goroutines: a `Record` call pushes its own observation once, a worker only pops.
`RingUse` is what follows for every reachable state: the ring's own invariant
holds, an observation sits at one position, what a worker has taken is what its
`Pop` calls returned, and a `Record` that returned nil has pushed.
-/

namespace ConvoyStats.Pipeline

open Function List Transport

/-- The observations among the entries of a worker. -/
def observations (entries : List Entry) : List ℕ :=
  entries.filterMap fun
    | .observation x => some x
    | .dropCount .. => none

@[simp] theorem observations_append (l l' : List Entry) :
    observations (l ++ l') = observations l ++ observations l' := filterMap_append

theorem mem_observations {entries : List Entry} {x : ℕ} :
    x ∈ observations entries ↔ .observation x ∈ entries := by
  rw [observations, mem_filterMap]
  constructor
  · rintro ⟨entry, hmem, hx⟩
    cases entry <;> cases hx
    exact hmem
  · exact fun hmem => ⟨_, hmem, rfl⟩

@[simp] theorem observations_dropEntries (reason : DropReason) (first count : ℕ) :
    observations (dropEntries reason first count) = [] := by
  unfold dropEntries
  split <;> rfl

/-- The item a pop returned, if any. -/
def poppedItem : Result ℕ → List ℕ
  | .pop (some x) => [x]
  | _ => []

/-- The items the pops of goroutine `g` have returned, in order. -/
def poppedBy (g : Goroutine) (h : List (Transport.Event Goroutine ℕ)) : List ℕ :=
  (popped h).filterMap fun (call, x) => if call.1 = g then some x else none

variable {h : List (Transport.Event Goroutine ℕ)}

theorem mem_poppedBy {g : Goroutine} {x : ℕ} : x ∈ poppedBy g h ↔ ∃ n, ((g, n), x) ∈ popped h := by
  rw [poppedBy, mem_filterMap]
  constructor
  · rintro ⟨⟨⟨g', n⟩, y⟩, hmem, hx⟩
    obtain ⟨rfl, hxy⟩ := Option.ite_none_right_eq_some.mp hx
    cases hxy
    exact ⟨n, hmem⟩
  · rintro ⟨n, hmem⟩
    exact ⟨_, hmem, if_pos rfl⟩

/-! ### The steps of a ring call -/

section RingStep

variable {ring ring' : World Goroutine ℕ} {g : Goroutine} {op : Op ℕ} {result : Result ℕ}

/-- A step that does not return starts a call or takes its next access. -/
theorem ringStep_none (h : ringStep ring g op = some (ring', none)) :
    (ring.threads g).running = none ∧ ring.start g op = some ring' ∨
      ∃ op' pc, (ring.threads g).running = some (op', pc) ∧ ring' = ring.perform g op' pc := by
  unfold ringStep at h
  split at h
  · rename_i hidle
    obtain ⟨ring'', hstart, heq⟩ := Option.map_eq_some_iff.mp h
    cases heq
    exact .inl ⟨hidle, hstart⟩
  · rename_i call hrun
    rw [World.access, hrun] at h
    split at h
    · cases h
    · cases h
    · rename_i op' pc _ heq
      cases heq
      cases h
      exact .inr ⟨op', pc, hrun, rfl⟩

/-- A step that returns finishes a call. -/
theorem ringStep_some (h : ringStep ring g op = some (ring', some result)) :
    ∃ op', (ring.threads g).running = some (op', .ret result) ∧
      ring' = ring.finish g op' result := by
  unfold ringStep at h
  split at h
  · obtain ⟨ring'', -, heq⟩ := Option.map_eq_some_iff.mp h
    cases heq
  · rename_i call hrun
    rw [World.access, hrun] at h
    split at h
    · cases h
    · rename_i op' result' heq
      cases heq
      cases h
      exact ⟨op', hrun, rfl⟩
    · cases h

/-- Either way the ring advances. -/
theorem ringStep_advances {res : Option (Result ℕ)} (hw : ring.Sound)
    (h : ringStep ring g op = some (ring', res)) : ring.Advances g ring' := by
  cases res with
  | none =>
    rcases ringStep_none h with ⟨-, hstart⟩ | ⟨op', pc, hrun, rfl⟩
    · exact .start hw hstart
    · exact .perform hw hrun
  | some result =>
    obtain ⟨op', hrun, rfl⟩ := ringStep_some h
    exact .finish hw hrun

end RingStep

/-! ### The calls of the ring -/

/-- The ring's invariant, and every call is the operation of its goroutine. -/
structure RingOk (cfg : Config) (ring : World Goroutine ℕ) : Prop where
  sound : ring.Sound
  running : ∀ g op pc, (ring.threads g).running = some (op, pc) → op = ringOp cfg g
  returned : ∀ g n op result, .returned (g, n) op result ∈ ring.history → op = ringOp cfg g

namespace RingOk

variable {cfg : Config} {ring ring' : World Goroutine ℕ} {g : Goroutine}

variable (hr : RingOk cfg ring)
include hr

theorem start (hstart : ring.start g (ringOp cfg g) = some ring') :
    RingOk cfg ring' := by
  have hsound := hr.sound.start hstart
  obtain ⟨-, rfl⟩ := World.start_eq_some hstart
  refine ⟨hsound, fun e op pc hrun => ?_, hr.returned⟩
  rcases running_update.mp hrun with ⟨rfl, hrun⟩ | ⟨-, hrun⟩
  · cases hrun
    rfl
  · exact hr.running e op pc hrun

theorem perform {op : Op ℕ} {pc : Pc ℕ}
    (hrun : (ring.threads g).running = some (op, pc)) : RingOk cfg (ring.perform g op pc) := by
  refine ⟨hr.sound.perform hrun, ?_, ?_⟩
  · intro e op' pc' hrun'
    rcases running_update.mp hrun' with ⟨rfl, hrun'⟩ | ⟨-, hrun'⟩
    · cases hrun'
      exact hr.running _ _ _ hrun
    · exact hr.running e op' pc' hrun'
  · intro e n op' result hmem
    rcases mem_append.mp hmem with hold | hnew
    · exact hr.returned e n op' result hold
    · obtain ⟨_, -, hev⟩ := mem_record.mp hnew
      cases hev

theorem finish {op : Op ℕ} {result : Result ℕ}
    (hrun : (ring.threads g).running = some (op, .ret result)) :
    RingOk cfg (ring.finish g op result) := by
  refine ⟨hr.sound.finish hrun, ?_, ?_⟩
  · intro e op' pc' hrun'
    rcases running_update.mp hrun' with ⟨rfl, hrun'⟩ | ⟨-, hrun'⟩
    · cases hrun'
    · exact hr.running e op' pc' hrun'
  · intro e n op' result' hmem
    rcases mem_append.mp hmem with hold | hnew
    · exact hr.returned e n op' result' hold
    · cases mem_singleton.mp hnew
      exact hr.running _ _ _ hrun

theorem ringStep {res : Option (Result ℕ)}
    (h : ringStep ring g (ringOp cfg g) = some (ring', res)) : RingOk cfg ring' := by
  cases res with
  | none =>
    rcases ringStep_none h with ⟨-, hstart⟩ | ⟨op', pc, hrun, rfl⟩
    · exact hr.start hstart
    · exact hr.perform hrun
  | some result =>
    obtain ⟨op', hrun, rfl⟩ := ringStep_some h
    exact hr.finish hrun

end RingOk

section History

variable {ring ring' : World Goroutine ℕ} {g : Goroutine} {op : Op ℕ} {result : Result ℕ}

/-- A step without a return leaves the number of finished calls and the returned
items alone. -/
theorem ringStep_none_quiet (h : ringStep ring g op = some (ring', none)) :
    (∀ e, (ring'.threads e).finished = (ring.threads e).finished) ∧
      ∀ e, poppedBy e ring'.history = poppedBy e ring.history := by
  rcases ringStep_none h with ⟨-, hstart⟩ | ⟨op', pc, hrun, rfl⟩
  · obtain ⟨-, rfl⟩ := World.start_eq_some hstart
    exact ⟨congr_of_update Thread.finished rfl rfl, fun _ => rfl⟩
  · refine ⟨congr_of_update Thread.finished rfl rfl, fun e => ?_⟩
    rw [poppedBy, World.perform, popped, filterMap_append]
    rcases (ring.ring.exec pc).2.2 with _ | e <;> simp [World.record, poppedBy, popped,
      Event.popped?]

/-- A returned pop adds its item to those of its goroutine. -/
theorem poppedBy_finish (e : Goroutine) :
    poppedBy e (ring.finish g op result).history = poppedBy e ring.history ++
      if g = e then poppedItem result else [] := by
  rw [poppedBy, World.finish, popped, filterMap_append, filterMap_append]
  refine congrArg _ ?_
  rcases result with _ | _ | (_ | x)
  · simp [Event.popped?, poppedItem]
  · simp [Event.popped?, poppedItem]
  · simp [Event.popped?, poppedItem]
  · by_cases he : g = e <;> simp [Event.popped?, poppedItem, he]

variable {effects : List (Effect ℕ)}

/-- What a finished push of either kind returns. -/
theorem result_of_push {evict : Bool} {item : ℕ}
    (h : Outcome (.ofPush evict (some item)) result effects) :
    result = RingBuffer.pushResult evict true ∨ result = RingBuffer.pushResult evict false ∨
      evict = true ∧ ∃ old, result = .pushDropOldest (some old) true := by
  generalize hop : Op.ofPush evict (some item) = op at h
  cases h with
  | pushed evict' => cases evict <;> cases evict' <;> cases hop <;> exact .inl rfl
  | rejected evict' => cases evict <;> cases evict' <;> cases hop <;> exact .inr (.inl rfl)
  | refused evict' => cases evict <;> cases evict' <;> cases hop
  | replaced =>
    cases evict <;> cases hop
    exact .inr (.inr ⟨rfl, _, rfl⟩)
  | popped wait | empty wait => cases evict <;> cases wait <;> cases hop

/-- Acceptances stay in the history. -/
theorem accepted_mono {h' : List (Transport.Event Goroutine ℕ)} (hsub : h ⊆ h')
    {entry : Transport.Call Goroutine × ℕ} (hmem : entry ∈ Transport.accepted h) :
    entry ∈ Transport.accepted h' := by
  obtain ⟨ev, hev, hentry⟩ := mem_filterMap.mp hmem
  exact mem_filterMap.mpr ⟨ev, hsub hev, hentry⟩

theorem pushedPc_before (labels : ℕ) (result : Result ℕ) :
    (pushedPc labels result).before = false := by
  unfold pushedPc
  split
  · exact RecorderMove.commitPc_before labels
  · exact RecorderMove.commitPc_before labels
  · rfl
  · rfl

/-- A push that moves its `Record` call on to a nil return has been accepted. -/
theorem accepted_of_pushedPc {cfg : Config} {r n labels : ℕ}
    (hout : Outcome (ringOp cfg (.recorder r)) result effects)
    (hmem : .returned (.recorder r, n) (ringOp cfg (.recorder r)) result ∈ h)
    (hpc : (pushedPc labels result).accepted) : ((.recorder r, n), r) ∈ accepted h := by
  have hop : ringOp cfg (.recorder r) = .ofPush cfg.dropOldest (some r) := rfl
  rw [hop] at hout hmem
  rw [mem_accepted]
  rcases result_of_push hout with rfl | rfl | ⟨hevict, old, rfl⟩
  · cases hevict : cfg.dropOldest with
    | false =>
      rw [hevict] at hmem
      exact .inl hmem
    | true =>
      rw [hevict] at hmem
      exact .inr ⟨none, hmem⟩
  · cases hevict : cfg.dropOldest <;> rw [hevict] at hpc <;> cases hpc
  · rw [hevict] at hmem
    exact .inr ⟨some old, hmem⟩

/-- The result of a worker's call is a pop's. -/
theorem result_of_pop (h : Outcome .pop result effects) : ∃ item, result = .pop item := by
  generalize hop : (Op.pop : Op ℕ) = op at h
  cases h with
  | pushed evict | rejected evict | refused evict => cases evict <;> cases hop
  | replaced => cases hop
  | popped => exact ⟨_, rfl⟩
  | empty => exact ⟨_, rfl⟩

end History

/-! ### The invariant -/

/-- What a `Record` call at `pc` has to do with the ring. -/
structure RecorderUse (ring : World Goroutine ℕ) (r : ℕ) (pc : RecordPc) : Prop where
  /-- It is inside the ring only while it pushes. -/
  pushing : (ring.threads (.recorder r)).running ≠ none → pc.pushing
  /-- It pushes once. -/
  finished_le : (ring.threads (.recorder r)).finished ≤ 1
  before : pc.before → (ring.threads (.recorder r)).finished = 0
  accepted : pc.accepted → ((.recorder r, 0), r) ∈ accepted ring.history

/-- What worker `k` of the configured ones has to do with the ring. -/
structure WorkerUse (cfg : Config) (ring : World Goroutine ℕ) (k : ℕ) (w : Worker) : Prop where
  /-- It is inside the ring only while it pops. -/
  popping : (ring.threads (.worker k)).running ≠ none → w.pc.popping
  /-- What it has taken is what its pops returned. -/
  intake : observations w.intake = poppedBy (.worker k) ring.history
  /-- There are no other workers. -/
  absent : cfg.workers ≤ k → ring.threads (.worker k) = ⟨0, none⟩

/-- **The pipeline's use of its ring.** -/
structure RingUse (cfg : Config) (s : State) : Prop where
  ring : RingOk cfg s.ring
  recorders : ∀ r, RecorderUse s.ring r (s.recorders r).pc
  workers : ∀ k, WorkerUse cfg s.ring k (s.workers k)
  returned : ∀ r result, .recordReturned r result ∈ s.log → (s.recorders r).pc = .returned result

section

variable {cfg : Config} {ring ring' : World Goroutine ℕ} {g : Goroutine}

/-- Steps of others do not concern a `Record` call. -/
theorem RecorderUse.of_advances {r : ℕ} {pc : RecordPc} (h : RecorderUse ring r pc)
    (hadv : ring.Advances g ring') (hne : .recorder r ≠ g) : RecorderUse ring' r pc where
  pushing := by rw [hadv.others _ hne]; exact h.pushing
  finished_le := by rw [hadv.others _ hne]; exact h.finished_le
  before := by rw [hadv.others _ hne]; exact h.before
  accepted := fun hpc => accepted_mono hadv.history.subset (h.accepted hpc)

/-- Nor a worker, if they return nothing to it. -/
theorem WorkerUse.of_advances {k : ℕ} {w : Worker} (h : WorkerUse cfg ring k w)
    (hadv : ring.Advances g ring') (hne : .worker k ≠ g)
    (hpopped : poppedBy (.worker k) ring'.history = poppedBy (.worker k) ring.history) :
    WorkerUse cfg ring' k w where
  popping := by rw [hadv.others _ hne]; exact h.popping
  intake := h.intake.trans hpopped.symm
  absent := by rw [hadv.others _ hne]; exact h.absent

end

/-- A step of a worker advances the ring for it, if only by nothing. -/
theorem WorkerMove.advances {s s' : State} {k : ℕ} (h : WorkerMove s k s') (hw : s.ring.Sound) :
    s.ring.Advances (.worker k) s'.ring := by
  cases h with
  | access _ _ hring | took _ _ _ _ _ hring | empty _ _ _ _ _ _ hring =>
    exact ringStep_advances hw hring
  | _ => exact .refl hw

theorem RecorderMove.advances {cfg : Config} {s s' : State} {r : ℕ} (h : RecorderMove cfg s r s')
    (hw : s.ring.Sound) : s.ring.Advances (.recorder r) s'.ring := by
  cases h with
  | access _ _ hring | pushed _ _ _ _ hring => exact ringStep_advances hw hring
  | control => exact .refl hw

namespace RingUse

variable {cfg : Config} {s s' : State}

theorem init : RingUse cfg (State.init cfg) where
  ring := ⟨.init cfg.bufferSize, nofun, nofun⟩
  recorders := fun _ => ⟨fun h => absurd rfl h, Nat.zero_le _, fun _ => rfl, nofun⟩
  workers := fun _ => ⟨fun h => absurd rfl h, rfl, fun _ => rfl⟩
  returned := nofun

/-- Steps that touch neither the ring nor the recorders. -/
theorem of_workers (hu : RingUse cfg s) (hring : s'.ring = s.ring)
    (hrec : s'.recorders = s.recorders)
    (hpop : ∀ k, (s.workers k).pc.popping → (s'.workers k).pc.popping)
    (hintake : ∀ k, observations (s'.workers k).intake = observations (s.workers k).intake)
    (hlog : ∀ r result, .recordReturned r result ∈ s'.log → .recordReturned r result ∈ s.log) :
    RingUse cfg s' where
  ring := hring ▸ hu.ring
  recorders := by rw [hring, hrec]; exact hu.recorders
  workers := by
    rw [hring]
    exact fun k => ⟨fun hk => hpop k ((hu.workers k).popping hk),
      (hintake k).trans (hu.workers k).intake, (hu.workers k).absent⟩
  returned := by rw [hrec]; exact fun r result hmem => hu.returned r result (hlog r result hmem)

/-- A step of a `Record` call. -/
theorem recorder {r : ℕ} (hu : RingUse cfg s) (h : RecorderMove cfg s r s') :
    RingUse cfg s' := by
  have hadv := h.advances hu.ring.sound
  have huse := hu.recorders r
  have hothers : ∀ r', r' ≠ r → RecorderUse s'.ring r' (s.recorders r').pc :=
    fun r' hr => (hu.recorders r').of_advances hadv (by simpa using hr)
  cases h with
  | control rec' _ _ _ _ hpush hbefore haccepted _ hreturned hgate =>
    refine ⟨hu.ring, fun r' => ?_, hu.workers, fun r' result hmem => ?_⟩
    · rcases update_cases (g := update s.recorders r rec') rfl r' with
        ⟨rfl, hr'⟩ | ⟨hr, hr'⟩ <;> dsimp only <;> rw [hr']
      · refine ⟨fun hrun => ?_, huse.finished_le, fun hpc => huse.before (hbefore hpc),
          fun hpc => huse.accepted (haccepted hpc)⟩
        rw [huse.pushing hrun] at hpush
        cases hpush
      · exact hothers r' hr
    · -- an older return is of another call
      have hold : .recordReturned r' result ∈ s.log →
          (update s.recorders r rec' r').pc = .returned result := by
        intro hmem
        have hpc := hu.returned r' result hmem
        have hr : r' ≠ r := by
          rintro rfl
          exact hreturned result hpc
        simpa [hr] using hpc
      rcases hgate.log with rfl | rfl | ⟨result', hpc, rfl⟩
      · exact hold hmem
      · exact hold (by simpa using hmem)
      · rcases mem_append.mp hmem with hmem | hnew
        · exact hold hmem
        · cases mem_singleton.mp hnew
          simpa using hpc
  | access ring' hpush hring =>
    obtain ⟨hfin, hpop⟩ := ringStep_none_quiet hring
    refine ⟨hu.ring.ringStep hring, fun r' => ?_,
      fun k => (hu.workers k).of_advances hadv nofun (hpop _), hu.returned⟩
    by_cases hr : r' = r
    · subst hr
      exact ⟨fun _ => hpush, (hfin _).trans_le huse.finished_le,
        fun hpc => (hfin _).trans (huse.before hpc),
        fun hpc => accepted_mono hadv.history.subset (huse.accepted hpc)⟩
    · exact hothers r' hr
  | pushed _ result _ hpc hring =>
    have hok := hu.ring.ringStep hring
    obtain ⟨op, hrun, rfl⟩ := ringStep_some hring
    have hzero : (s.ring.threads (.recorder r)).finished = 0 := huse.before (by rw [hpc]; rfl)
    obtain rfl := hu.ring.running _ _ _ hrun
    refine ⟨hok, fun r' => ?_, fun k => (hu.workers k).of_advances hadv nofun ?_,
      fun r' result' hmem => ?_⟩
    · by_cases hr : r' = r
      · subst hr
        refine ⟨fun hrun' => absurd (by simp [World.finish]) hrun', by simp [World.finish, hzero],
          fun hpc' => ?_, fun hpc' => ?_⟩
        · simp only [update_self, pushedPc_before] at hpc'
          cases hpc'
        · have hmem : Transport.Event.returned (.recorder r', 0) (ringOp cfg (.recorder r'))
              result ∈
              (s.ring.finish (.recorder r') (ringOp cfg (.recorder r')) result).history := by
            simp [World.finish, hzero]
          exact accepted_of_pushedPc (hok.sound.outcome hmem) hmem (by simpa using hpc')
      · simpa [hr] using hothers r' hr
    · rw [poppedBy_finish, if_neg (by simp), append_nil]
    · have hret := hu.returned r' result' hmem
      have hr : r' ≠ r := by
        rintro rfl
        rw [hpc] at hret
        cases hret
      simpa [hr] using hret

variable {k p x : ℕ}

/-- A step of a worker that keeps out of the ring. -/
theorem of_worker {w' : Worker} (hu : RingUse cfg s) (hring : s'.ring = s.ring)
    (hrec : s'.recorders = s.recorders) (hworkers : s'.workers = update s.workers k w')
    (hpop : (s.workers k).pc.popping = false)
    (hintake : observations w'.intake = observations (s.workers k).intake)
    (hlog : ∀ r result, .recordReturned r result ∈ s'.log → .recordReturned r result ∈ s.log) :
    RingUse cfg s' := by
  refine hu.of_workers hring hrec (fun j hj => ?_)
    (congr_of_update (fun w => observations w.intake) hworkers hintake) hlog
  rcases update_cases hworkers j with ⟨rfl, -⟩ | ⟨-, hj'⟩
  · rw [hpop] at hj
    cases hj
  · rwa [hj']

/-- A step of a worker inside `Pop`. -/
theorem of_pop {ring' : World Goroutine ℕ} {res : Option (Result ℕ)} {w : Worker}
    (hk : k < cfg.workers) (hu : RingUse cfg s)
    (hring : ringStep s.ring (.worker k) .pop = some (ring', res))
    (hpop : (ring'.threads (.worker k)).running ≠ none → w.pc.popping)
    (hself : observations w.intake = poppedBy (.worker k) ring'.history)
    (hothers : ∀ j, j ≠ k →
      poppedBy (.worker j) ring'.history = poppedBy (.worker j) s.ring.history) :
    RingUse cfg { s with workers := update s.workers k w, ring := ring' } := by
  have hadv := ringStep_advances hu.ring.sound hring
  refine ⟨hu.ring.ringStep (g := .worker k) hring,
    fun r => (hu.recorders r).of_advances hadv nofun, fun j => ?_, hu.returned⟩
  by_cases hj : j = k
  · subst hj
    refine ⟨?_, ?_, fun habsent => absurd hk (Nat.not_lt.mpr habsent)⟩
    · simpa using hpop
    · simpa using hself
  · simpa [hj] using (hu.workers j).of_advances hadv (by simpa using hj) (hothers j hj)

/-- The end of a worker's `Pop`. -/
theorem of_popped {ring' : World Goroutine ℕ} {result : Result ℕ} {w' : Worker}
    (hk : k < cfg.workers) (hu : RingUse cfg s)
    (hring : ringStep s.ring (.worker k) .pop = some (ring', some result))
    (hintake : observations w'.intake = observations (s.workers k).intake ++ poppedItem result) :
    RingUse cfg { s with workers := update s.workers k w', ring := ring' } := by
  obtain ⟨op, hrun, rfl⟩ := ringStep_some hring
  refine hu.of_pop hk hring (fun hrun' => absurd (by simp [World.finish]) hrun') ?_ fun j hj => ?_
  · rw [hintake, (hu.workers k).intake, poppedBy_finish, if_pos rfl]
  · rw [poppedBy_finish, if_neg (by simpa using Ne.symm hj), append_nil]

/-- A step of a worker. -/
theorem worker {k : ℕ} (hk : k < cfg.workers) (hu : RingUse cfg s) (h : WorkerMove s k s') :
    RingUse cfg s' := by
  have hlog : ∀ r result, .recordReturned r result ∈ s'.log → .recordReturned r result ∈ s.log :=
    fun _ _ => h.log.mem rfl
  cases h with
  | keep _ _ _ hpop _ _ hheld =>
    exact hu.of_worker rfl rfl rfl hpop (by rw [hheld.intake]) hlog
  | access ring' hpop hring =>
    obtain ⟨-, hpopped⟩ := ringStep_none_quiet hring
    have h := hu.of_pop (w := s.workers k) hk hring (fun _ => hpop)
      ((hu.workers k).intake.trans (hpopped _).symm) fun j _ => hpopped _
    rwa [update_eq_self] at h
  | took x _ _ _ _ hring hintake =>
    refine hu.of_popped hk hring ?_
    rw [hintake, observations_append]
    rfl
  | empty result _ _ _ _ hresult hring hheld =>
    refine hu.of_popped hk hring ?_
    rw [hheld.intake]
    rcases result with _ | _ | (_ | x)
    · exact (append_nil _).symm
    · exact (append_nil _).symm
    · exact (append_nil _).symm
    · exact absurd rfl (hresult x)
  | append x w' stats' hpop hemptied hitems hbatch hintake hexported hlost hdrain
  | «export» _ _ hpop _ _ _ _ _ _ hintake =>
    exact hu.of_worker rfl rfl rfl hpop (by rw [hintake]) fun _ _ => id
  | count _ _ hpop _ _ _ _ _ _ hintake =>
    exact hu.of_worker rfl rfl rfl hpop (by simp [hintake]) fun _ _ => id
  | loopEnds _ n _ _ _ hpc _ hheld =>
    exact hu.of_worker rfl rfl rfl (by rw [hpc]; rfl) (by rw [hheld.intake]) hlog
  | ack _ _ _ hpc _ hheld =>
    exact hu.of_worker rfl rfl rfl (by rw [hpc]; rfl) (by rw [hheld.intake]) fun _ _ => id
  | drop _ _ hpc _ _ _ hintake =>
    exact hu.of_worker rfl rfl rfl (by rw [hpc]; rfl) (by rw [hintake]) fun _ _ => id

variable (hu : RingUse cfg s)
include hu

/-- **Every step keeps it.** -/
theorem step (h : StepMove cfg s s') : RingUse cfg s' := by
  cases h with
  | recorder h => exact hu.recorder h
  | worker hk h => exact hu.worker hk h
  | caller h =>
    have h := CallerFrame.of_move h
    refine hu.of_workers h.ring h.recorders ?_ ?_ fun _ _ => h.log.mem rfl
    · exact fun k => (congrArg (fun w : ℕ → Worker => (w k).pc.popping = true) h.workers).mpr
    · exact fun k => by rw [h.workers]
  | request c k _ _ hworker =>
    exact hu.of_worker rfl rfl rfl (by rw [hworker]; rfl) rfl fun _ _ => id
  | tick k =>
    refine hu.of_workers rfl rfl (fun j => ?_) (fun j => ?_) fun _ _ => id
    · exact (congr_of_update (fun w : Worker => w.pc.popping) (by rfl) (by rfl) j).trans
    · exact congr_of_update (fun w : Worker => observations w.intake) (by rfl) (by rfl) j
  | contextEnds c => exact hu.of_workers rfl rfl (fun _ => id) (fun _ => rfl) (by simp)

/-! ### What it says about observations -/

/-- An observation is published by its own `Record` call, and so at one position. -/
theorem published_by {call : Transport.Call Goroutine}
    (hp : .effect call (.published p x) ∈ s.ring.history) : call = (.recorder x, 0) := by
  -- the operation of the call is the push of `x`
  have hgo : ∀ g, ringOp cfg g = .push (some x) ∨ ringOp cfg g = .pushDropOldest (some x) →
      g = .recorder x := by
    rintro (r | k) hop
    · cases hd : cfg.dropOldest <;> simp_all [ringOp]
    · simp [ringOp] at hop
  obtain ⟨g, n⟩ := call
  rcases hu.ring.sound.returned_or_running hp with ⟨hlt, op, result, hret⟩ | ⟨hn, op, pc, hrun⟩
  · have hop : op = .push (some x) ∨ op = .pushDropOldest (some x) := by
      rcases ((hu.ring.sound.outcome hret).published_iff x).mp
        ⟨p, mem_callEffects.mpr hp⟩ with ⟨hop, -⟩ | ⟨hop, -⟩
      · exact .inl hop
      · exact .inr hop
    rw [hu.ring.returned _ _ _ _ hret] at hop
    obtain rfl := hgo g hop
    have := (hu.recorders x).finished_le
    obtain rfl : n = 0 := by omega
    rfl
  · have hop := (hu.ring.sound.ledger.running _ _ _ hrun).published_op
      (mem_callEffects.mpr (hn ▸ hp))
    rw [hu.ring.running _ _ _ hrun] at hop
    obtain rfl := hgo g hop
    have hpush := (hu.recorders x).pushing (by rw [hrun]; nofun)
    have hbefore : (s.recorders x).pc.before := by
      cases hpc : (s.recorders x).pc <;> rw [hpc] at hpush <;> first | rfl | cases hpush
    rw [hn, (hu.recorders x).before hbefore]

/-- An observation has one position. -/
theorem position_unique {q : ℕ} (hp : Published s.ring.history p x)
    (hq : Published s.ring.history q x) : p = q := by
  obtain ⟨call, hp⟩ := hp
  obtain ⟨call', hq⟩ := hq
  rw [hu.published_by hp] at hp
  rw [hu.published_by hq] at hq
  exact (hu.ring.sound.published_unique hp hq).1

/-- A `Record` that returned nil has published its observation. -/
theorem published_of_returned (h : .recordReturned x none ∈ s.log) :
    ∃ p, Published s.ring.history p x := by
  have hacc := (hu.recorders x).accepted (by rw [hu.returned x none h]; rfl)
  obtain ⟨p, hp⟩ := hu.ring.sound.published_of_accepted hacc
  exact ⟨p, _, hp⟩

/-- Only the configured workers claim. -/
theorem lt_workers_of_claimed {n : ℕ}
    (h : .effect (.worker k, n) (.claimed p) ∈ s.ring.history) : k < cfg.workers := by
  by_contra hk
  have habs := (hu.workers k).absent (Nat.not_lt.mp hk)
  rcases hu.ring.sound.returned_or_running h with ⟨hlt, -⟩ | ⟨-, op, pc, hrun⟩
  · rw [habs] at hlt
    exact absurd hlt (Nat.not_lt_zero _)
  · rw [habs] at hrun
    cases hrun

/-- What a returned `Pop` has claimed the worker has taken. -/
theorem intake_of_returned {n : ℕ} {op : Op ℕ} {result : Result ℕ}
    (hret : .returned (.worker k, n) op result ∈ s.ring.history)
    (h : .effect (.worker k, n) (.claimed p) ∈ s.ring.history) :
    ∃ x, .effect (.worker k, n) (.obtained p (some x)) ∈ s.ring.history ∧
      .observation x ∈ (s.workers k).intake := by
  obtain ⟨x, hobt⟩ := hu.ring.sound.obtained_of_claimed hret h
  refine ⟨x, hobt, ?_⟩
  rw [← mem_observations, (hu.workers k).intake, mem_poppedBy]
  refine ⟨n, ?_⟩
  obtain rfl := hu.ring.returned _ _ _ _ hret
  have hout := hu.ring.sound.outcome hret
  obtain ⟨item, rfl⟩ := result_of_pop hout
  rcases (hout.obtained_iff x).mp ⟨p, mem_callEffects.mpr hobt⟩ with hitem | ⟨ok, hbad⟩
  · cases hitem
    exact mem_popped.mpr ⟨_, hret⟩
  · cases hbad

/-- What a worker outside `Pop` has claimed it has taken. -/
theorem intake_of_claimed {n : ℕ} (hpop : (s.workers k).pc.popping = false)
    (h : .effect (.worker k, n) (.claimed p) ∈ s.ring.history) :
    ∃ x, .effect (.worker k, n) (.obtained p (some x)) ∈ s.ring.history ∧
      .observation x ∈ (s.workers k).intake := by
  have hidle : (s.ring.threads (.worker k)).running = none := by
    by_contra hrun
    rw [(hu.workers k).popping hrun] at hpop
    cases hpop
  rcases hu.ring.sound.returned_or_running h with ⟨-, op, result, hret⟩ | ⟨-, op, pc, hrun⟩
  · exact hu.intake_of_returned hret h
  · rw [hidle] at hrun
    cases hrun

/-- What a worker has taken it has claimed. -/
theorem claimed_of_intake (h : .observation x ∈ (s.workers k).intake) :
    ∃ n p, .effect (.worker k, n) (.claimed p) ∈ s.ring.history ∧
      Published s.ring.history p x := by
  rw [← mem_observations, (hu.workers k).intake, mem_poppedBy] at h
  obtain ⟨n, hpop⟩ := h
  obtain ⟨p, hobt⟩ := hu.ring.sound.obtained_of_returned (.inl hpop)
  exact ⟨n, p, hu.ring.sound.obtained_claimed hobt, hu.ring.sound.published_of_obtained hobt⟩

end RingUse

/-- **Every state of every run uses the ring as described.** -/
theorem ringUse_of_reach {cfg : Config} {s : State} (h : (pipelineSystem cfg).Reach s) :
    RingUse cfg s :=
  h.invariant .init fun _ _ _ _ hu _ hstep => hu.step (.of_step hstep)

end ConvoyStats.Pipeline
