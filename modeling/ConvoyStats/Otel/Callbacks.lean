import ConvoyStats.Library.Processes

/-!
# Observable callbacks

`callbackRegistry` of `otel/callbacks.go`: `register` and `unregister`, the collections of
`ForceFlush`, the periodic loop and `shutdown`, by any number of goroutines.  What `mu` guards
nobody sees while it is held, so a critical section of `mu` is one step.  When the ticker fires,
when a context ends and how a callback ends are choices of the step.  `go r.loop()` leaves a loop
to be started (`loops`); the goroutine that runs it is a process like the others.

`collect` tests `closed` under `mu` and takes `collectMu` later.  A collection that has passed the
test when `shutdown` begins can come after the last collection of `shutdown`, and then its
callbacks run after `shutdown` has returned.  If no collection is between the two when `shutdown`
takes `collectMu` there is none left: the mutex keeps the others out, and `closed` is set.
-/

namespace ConvoyStats.Otel

open List Process

/-! ### State -/

/-- `callbackRegistry`.  A callback is its id. -/
structure CallbackRegistry where
  disabled : Bool
  /-- `collectMu` is locked. -/
  collectMu : Bool
  callbacks : List ℕ
  nextID : ℕ
  started : Bool
  closed : Bool
  /-- The channel `stop` is closed. -/
  stop : Bool
  /-- The channel `done` is closed. -/
  done : Bool
  /-- The loops that `go` has yet to start. -/
  loops : ℕ
  deriving DecidableEq

/-- `newCallbackRegistry`, with `disabled` as the provider sets it. -/
def newCallbackRegistry (disabled : Bool) : CallbackRegistry :=
  ⟨disabled, false, [], 0, false, false, false, false, 0⟩

/-! ### Calls -/

/-- Who collects. -/
inductive Collector
  | forceFlush
  | loop
  | shutdown
  deriving DecidableEq

/-- The errors of a collection. -/
inductive CollectError
  /-- "collect observable instruments: …" -/
  | context
  /-- The joined errors of the callbacks. -/
  | callbacks
  /-- "stop observable collection: …" -/
  | stop
  deriving DecidableEq

/-- The calls, and the goroutine of the loop. -/
inductive RegistryCall
  | register
  | unregister (id : ℕ)
  | forceFlush
  | loop
  | shutdown

/-- Where a call is: what it does next. -/
inductive RegistryPc
  | register
  | unregister (id : ℕ)
  | loopStart
  /-- The select of `loop`. -/
  | loopSelect
  /-- `shutdown` sets `closed`. -/
  | shutdownClose
  | shutdownStop
  /-- `shutdown` waits for `done`. -/
  | shutdownWait
  /-- `collect`, of the loop or of `ForceFlush`, tests `closed`. -/
  | collectTest (periodic : Bool)
  /-- `invoke` locks `collectMu`. -/
  | invokeLock (who : Collector)
  /-- It copies the callbacks. -/
  | invokeCopy (who : Collector)
  /-- It looks at its context. -/
  | invokeContext (who : Collector) (callbacks : List ℕ)
  /-- It starts the next callback, or unlocks `collectMu`; `failed`: a callback has failed. -/
  | invokeNext (who : Collector) (callbacks : List ℕ) (failed : Bool)
  | invokeRun (who : Collector) (id : ℕ) (callbacks : List ℕ) (failed : Bool)
  | collected (who : Collector) (err : Option CollectError)
  /-- `register` has returned the `unregister` of this id. -/
  | registered (id : Option ℕ)
  | unregistered (id : ℕ)
  deriving DecidableEq

/-- What a step is given from outside. -/
inductive RegistryInput
  | none
  /-- The ticker fires. -/
  | tick
  /-- The context has ended. -/
  | contextDone
  | callbackOk
  | callbackErr
  deriving DecidableEq

/-- Who calls `collect`. -/
def collectorOf (periodic : Bool) : Collector := if periodic then .loop else .forceFlush

/-- What a collection is followed by. -/
def Collector.afterCollect (err : Option CollectError) : Collector → RegistryPc
  | .loop => .loopSelect
  | who => .collected who err

/-- A step of a call. -/
def registryStep (r : CallbackRegistry) :
    RegistryPc → RegistryInput → Option (CallbackRegistry × RegistryPc)
  | .register, .none =>
    if r.disabled then some (r, .registered none)
    else
      let id := r.nextID + 1
      let r := { r with nextID := id, callbacks := r.callbacks ++ [id] }
      if !r.started && !r.closed then
        some ({ r with started := true, loops := r.loops + 1 }, .registered (some id))
      else some (r, .registered (some id))
  | .unregister id, .none => some ({ r with callbacks := r.callbacks.erase id }, .unregistered id)
  | .loopStart, .none =>
    if r.loops = 0 then none else some ({ r with loops := r.loops - 1 }, .loopSelect)
  | .loopSelect, .none =>
    if r.stop then some ({ r with done := true }, .collected .loop none) else none
  | .loopSelect, .tick => some (r, .collectTest true)
  | .shutdownClose, .none =>
    if r.closed then some (r, .collected .shutdown none)
    else
      some ({ r with closed := true }, if r.started then .shutdownStop else .invokeLock .shutdown)
  | .shutdownStop, .none => some ({ r with stop := true }, .shutdownWait)
  | .shutdownWait, .none => if r.done then some (r, .invokeLock .shutdown) else none
  | .shutdownWait, .contextDone => some (r, .collected .shutdown (some .stop))
  | .collectTest periodic, .none =>
    let who := collectorOf periodic
    some (r, if r.closed then who.afterCollect none else .invokeLock who)
  | .invokeLock who, .none =>
    if r.collectMu then none else some ({ r with collectMu := true }, .invokeCopy who)
  | .invokeCopy who, .none =>
    if r.callbacks = [] then some ({ r with collectMu := false }, who.afterCollect none)
    else some (r, .invokeContext who r.callbacks)
  | .invokeContext who callbacks, .none => some (r, .invokeNext who callbacks false)
  | .invokeContext who _, .contextDone =>
    some ({ r with collectMu := false }, who.afterCollect (some .context))
  | .invokeNext who (id :: callbacks) failed, .none => some (r, .invokeRun who id callbacks failed)
  | .invokeNext who [] failed, .none =>
    some ({ r with collectMu := false },
      who.afterCollect (if failed then some .callbacks else none))
  | .invokeRun who _ callbacks failed, .callbackOk => some (r, .invokeNext who callbacks failed)
  | .invokeRun who _ callbacks _, .callbackErr => some (r, .invokeNext who callbacks true)
  | _, _ => none

/-- The calls on a registry. -/
def registryCall : Process CallbackRegistry RegistryCall RegistryPc RegistryInput where
  start
    | .register => .register
    | .unregister id => .unregister id
    | .forceFlush => .collectTest false
    | .loop => .loopStart
    | .shutdown => .shutdownClose
  step _ := registryStep

/-- A registry and the calls on it. -/
def callbackRegistry (disabled : Bool) :
    TransitionSystem (Concurrent CallbackRegistry RegistryPc)
      (ConcurrentLabel RegistryCall RegistryInput) :=
  registryCall.concurrent (newCallbackRegistry disabled)

/-! ### What a step does -/

namespace RegistryPc

/-- The call has `collectMu`. -/
def inside : RegistryPc → Bool
  | .invokeCopy _ | .invokeContext _ _ | .invokeNext _ _ _ | .invokeRun _ _ _ _ => true
  | _ => false

/-- The call has passed the test of `closed`, and has yet to lock `collectMu`. -/
def passed : RegistryPc → Bool
  | .invokeLock who => who ≠ .shutdown
  | _ => false

/-- The call is a `shutdown`. -/
def isShutdown : RegistryPc → Bool
  | .shutdownClose | .shutdownStop | .shutdownWait => true
  | .invokeLock who | .invokeCopy who | .invokeContext who _ => who = .shutdown
  | .invokeNext who _ _ | .invokeRun who _ _ _ | .collected who _ => who = .shutdown
  | _ => false

/-- The call is a `shutdown` that has begun. -/
def begun (pc : RegistryPc) : Bool := pc.isShutdown && pc ≠ .shutdownClose

/-- The call is a `shutdown` that has got to its last collection. -/
def ending : RegistryPc → Bool
  | .collected who _ => who = .shutdown
  | pc => pc.inside && pc.isShutdown

end RegistryPc

/-- What a step does to `closed`, to `collectMu` and to the place of the call. -/
inductive RegistryMove (r : CallbackRegistry) :
    RegistryPc → RegistryInput → CallbackRegistry → RegistryPc → Prop
  | close {pc' : RegistryPc} (hopen : r.closed = false)
      (hpc' : pc' = .shutdownStop ∨ pc' = .invokeLock .shutdown) :
      RegistryMove r .shutdownClose .none { r with closed := true } pc'
  | again (hclosed : r.closed = true) :
      RegistryMove r .shutdownClose .none r (.collected .shutdown none)
  | cancelled :
      RegistryMove r .shutdownWait .contextDone r (.collected .shutdown (some .stop))
  | waited : RegistryMove r .shutdownWait .none r (.invokeLock .shutdown)
  | test (periodic : Bool) (hopen : r.closed = false) :
      RegistryMove r (.collectTest periodic) .none r (.invokeLock (collectorOf periodic))
  | lock (who : Collector) (hfree : r.collectMu = false) :
      RegistryMove r (.invokeLock who) .none { r with collectMu := true } (.invokeCopy who)
  | inside {pc pc' : RegistryPc} {input : RegistryInput} (hpc : pc.inside = true)
      (hpc' : pc'.inside = true) (hshutdown : pc'.isShutdown = pc.isShutdown) :
      RegistryMove r pc input r pc'
  | unlock {pc : RegistryPc} {input : RegistryInput} (who : Collector) (err : Option CollectError)
      (hpc : pc.inside = true) (hshutdown : pc.isShutdown = decide (who = .shutdown)) :
      RegistryMove r pc input { r with collectMu := false } (who.afterCollect err)
  | quiet {pc pc' : RegistryPc} {input : RegistryInput} {r' : CallbackRegistry}
      (hclosed : r'.closed = r.closed) (hmutex : r'.collectMu = r.collectMu)
      (hpc : pc.inside = false) (hpc' : pc'.inside = false) (hpassed : pc'.passed = false)
      (hshutdown : pc'.isShutdown = pc.isShutdown) (hending : pc'.ending = false)
      (hstart : pc ≠ .shutdownClose) (hclose : pc' ≠ .shutdownClose) :
      RegistryMove r pc input r' pc'

theorem RegistryMove.of_registryStep {r r' : CallbackRegistry} {pc pc' : RegistryPc}
    {input : RegistryInput} (h : registryStep r pc input = some (r', pc')) :
    RegistryMove r pc input r' pc' := by
  cases pc with
  | register =>
    cases input <;> try cases h
    rw [registryStep] at h
    dsimp only at h
    split_ifs at h <;> cases h <;> exact .quiet rfl rfl rfl rfl rfl rfl rfl nofun nofun
  | unregister id | shutdownStop =>
    cases input <;> cases h
    exact .quiet rfl rfl rfl rfl rfl rfl rfl nofun nofun
  | loopStart =>
    cases input <;> try cases h
    rw [registryStep] at h
    split_ifs at h
    cases h
    exact .quiet rfl rfl rfl rfl rfl rfl rfl nofun nofun
  | loopSelect =>
    cases input <;> try cases h
    · rw [registryStep] at h
      split_ifs at h
      cases h
      exact .quiet rfl rfl rfl rfl rfl rfl rfl nofun nofun
    · exact .quiet rfl rfl rfl rfl rfl rfl rfl nofun nofun
  | shutdownClose =>
    cases input <;> try cases h
    rw [registryStep] at h
    split_ifs at h with hclosed hstarted <;> cases h
    · exact .again hclosed
    · exact .close (eq_false_of_ne_true hclosed) (.inl rfl)
    · exact .close (eq_false_of_ne_true hclosed) (.inr rfl)
  | shutdownWait =>
    cases input <;> try cases h
    · rw [registryStep] at h
      split_ifs at h
      cases h
      exact .waited
    · exact .cancelled
  | collectTest periodic =>
    cases input <;> cases h
    split_ifs with hclosed
    · cases periodic <;> exact .quiet rfl rfl rfl rfl rfl rfl rfl nofun nofun
    · exact .test periodic (eq_false_of_ne_true hclosed)
  | invokeLock who =>
    cases input <;> try cases h
    rw [registryStep] at h
    split_ifs at h with hmutex
    cases h
    exact .lock who (eq_false_of_ne_true hmutex)
  | invokeCopy who =>
    cases input <;> try cases h
    rw [registryStep] at h
    split_ifs at h <;> cases h
    · exact .unlock who none rfl rfl
    · exact .inside rfl rfl rfl
  | invokeContext who callbacks =>
    cases input <;> cases h
    · exact .inside rfl rfl rfl
    · exact .unlock who _ rfl rfl
  | invokeNext who callbacks failed =>
    cases callbacks <;> cases input <;> cases h
    · exact .unlock who _ rfl rfl
    · exact .inside rfl rfl rfl
  | invokeRun =>
    cases input <;> cases h <;> exact .inside rfl rfl rfl
  | collected who err => cases h
  | registered id => cases h
  | unregistered id => cases h

namespace RegistryPc

theorem passed_of_inside {pc : RegistryPc} (h : pc.inside = true) : pc.passed = false := by
  cases pc <;> first | rfl | cases h

theorem ending_of_inside {pc : RegistryPc} (h : pc.inside = true) : pc.ending = pc.isShutdown := by
  cases pc <;> first | rfl | cases h

theorem begun_of_ending {pc : RegistryPc} (h : pc.ending = true) : pc.begun = true := by
  cases pc <;> first | exact Bool.and_eq_true_iff.mpr ⟨h, rfl⟩ | cases h

theorem begun_or {pc : RegistryPc} (h : pc.isShutdown = true) :
    pc.begun = true ∨ pc = .shutdownClose := by
  by_cases hpc : pc = .shutdownClose
  · exact .inr hpc
  · exact .inl (Bool.and_eq_true_iff.mpr ⟨h, decide_eq_true hpc⟩)

end RegistryPc

theorem afterCollect_spec (who : Collector) (err : Option CollectError) :
    (who.afterCollect err).inside = false ∧ (who.afterCollect err).passed = false ∧
      (who.afterCollect err).isShutdown = decide (who = .shutdown) ∧
      (who.afterCollect err).ending = decide (who = .shutdown) ∧
      who.afterCollect err ≠ .shutdownClose := by
  cases who <;> exact ⟨rfl, rfl, rfl, rfl, nofun⟩

namespace RegistryMove

variable {r r' : CallbackRegistry} {pc pc' : RegistryPc} {input : RegistryInput}

variable (h : RegistryMove r pc input r' pc')
include h

theorem isShutdown : pc'.isShutdown = pc.isShutdown := by
  cases h with
  | close hopen hpc' => rcases hpc' with rfl | rfl <;> rfl
  | again hclosed => rfl
  | cancelled => rfl
  | waited => rfl
  | test periodic hopen => cases periodic <;> rfl
  | lock who hfree => rfl
  | inside hpc hpc' hshutdown => exact hshutdown
  | unlock who err _ hshutdown => rw [(afterCollect_spec who err).2.2.1, hshutdown]
  | quiet _ _ _ _ _ hshutdown => exact hshutdown

theorem ne_shutdownClose : pc' ≠ .shutdownClose := by
  cases h with
  | close hopen hpc' => rcases hpc' with rfl | rfl <;> exact nofun
  | again hclosed => exact nofun
  | cancelled => exact nofun
  | waited => exact nofun
  | test periodic hopen => exact nofun
  | lock who hfree => exact nofun
  | inside hpc hpc' =>
    rintro rfl
    cases hpc'
  | unlock who err => exact (afterCollect_spec who err).2.2.2.2
  | quiet _ _ _ _ _ _ _ _ hclose => exact hclose

/-- `closed` is set by a `shutdown` that begins, and by nothing else. -/
theorem closed_iff :
    r'.closed = true ↔ r.closed = true ∨ pc = .shutdownClose := by
  cases h with
  | close hopen hpc' => exact ⟨fun _ => .inr rfl, fun _ => rfl⟩
  | again hclosed => exact ⟨.inl, fun _ => hclosed⟩
  | inside hpc hpc' | unlock who err hpc =>
    refine ⟨.inl, fun h => h.resolve_right ?_⟩
    rintro rfl
    cases hpc
  | quiet heq _ _ _ _ _ _ hstart =>
    rw [heq]
    exact ⟨.inl, fun h => h.resolve_right hstart⟩
  | _ => exact ⟨.inl, fun h => h.resolve_right nofun⟩

end RegistryMove

/-! ### Runs -/

/-- There is one `shutdown`, and its context stays live. -/
def OneShutdown (c : Concurrent CallbackRegistry RegistryPc) :
    ConcurrentLabel RegistryCall RegistryInput → Prop
  | .call .shutdown => ∀ pc ∈ c.procs, pc.isShutdown = false
  | .move i .contextDone => ∀ pc ∈ c.procs[i]?, pc.isShutdown = false
  | _ => True

/-- When `shutdown` locks `collectMu` for its last collection, no other collection is between its
test of `closed` and its lock. -/
def CollectsLast (c : Concurrent CallbackRegistry RegistryPc) :
    ConcurrentLabel RegistryCall RegistryInput → Prop
  | .call _ => True
  | .move i _ => c.procs[i]? = some (.invokeLock .shutdown) → ∀ pc ∈ c.procs, pc.passed = false

instance (c : Concurrent CallbackRegistry RegistryPc)
    (l : ConcurrentLabel RegistryCall RegistryInput) : Decidable (OneShutdown c l) :=
  match l with
  | .call .shutdown => inferInstanceAs (Decidable (∀ pc ∈ c.procs, _))
  | .move i .contextDone => inferInstanceAs (Decidable (∀ pc ∈ c.procs[i]?, _))
  | .call .register | .call (.unregister _) | .call .forceFlush | .call .loop => .isTrue trivial
  | .move _ .none | .move _ .tick | .move _ .callbackOk | .move _ .callbackErr => .isTrue trivial

instance (c : Concurrent CallbackRegistry RegistryPc)
    (l : ConcurrentLabel RegistryCall RegistryInput) : Decidable (CollectsLast c l) :=
  match l with
  | .call _ => .isTrue trivial
  | .move i _ => inferInstanceAs (Decidable (c.procs[i]? = some (.invokeLock .shutdown) → _))

/-- **The invariant.**  From the last collection of `shutdown` on nobody else collects. -/
structure Ended (c : Concurrent CallbackRegistry RegistryPc) : Prop where
  mutex : c.procs.countP RegistryPc.inside = if c.shared.collectMu then 1 else 0
  one : c.procs.countP RegistryPc.isShutdown ≤ 1
  closed : c.shared.closed = true ↔ ∃ pc ∈ c.procs, pc.begun = true
  last : (∃ pc ∈ c.procs, pc.ending = true) →
    ∀ pc ∈ c.procs, pc.passed = false ∧ (pc.inside = true → pc.isShutdown = true)

namespace Ended

variable {c : Concurrent CallbackRegistry RegistryPc} {i : ℕ} {pc pc' : RegistryPc}
  {r' : CallbackRegistry} {input : RegistryInput}

theorem init (disabled : Bool) : Ended ⟨newCallbackRegistry disabled, []⟩ where
  mutex := rfl
  one := Nat.zero_le _
  closed := by
    refine ⟨nofun, ?_⟩
    rintro ⟨pc, hpc, -⟩
    cases hpc
  last h := by
    obtain ⟨pc, hpc, -⟩ := h
    cases hpc

variable (h : Ended c)
include h

/-- A `shutdown` that has yet to begin is the only one, so `closed` is not set. -/
theorem unclosed (hmem : .shutdownClose ∈ c.procs) : c.shared.closed = false := by
  refine eq_false_of_ne_true fun hclosed => ?_
  obtain ⟨pc, hpc, hbegun⟩ := h.closed.mp hclosed
  obtain ⟨hshutdown, hne⟩ := Bool.and_eq_true_iff.mp hbegun
  obtain ⟨i, hi⟩ := getElem?_of_mem hpc
  obtain ⟨j, hj⟩ := getElem?_of_mem hmem
  obtain rfl := eq_of_countP_le_one h.one hi hj hshutdown rfl
  exact of_decide_eq_true hne (Option.some.inj (hi.symm.trans hj))

theorem start (a : RegistryCall) (hone : OneShutdown c (.call a)) :
    Ended ⟨c.shared, c.procs ++ [registryCall.start a]⟩ := by
  have hfree : (registryCall.start a).inside = false ∧ (registryCall.start a).passed = false ∧
      (registryCall.start a).begun = false ∧ (registryCall.start a).ending = false := by
    cases a <;> exact ⟨rfl, rfl, rfl, rfl⟩
  obtain ⟨hinside, hpassed, hbegun, hending⟩ := hfree
  have hnew : ∀ {q : RegistryPc → Bool}, q (registryCall.start a) = false →
      ∀ pc ∈ c.procs ++ [registryCall.start a], q pc = true → pc ∈ c.procs := by
    intro q hq pc hpc hqpc
    refine (mem_append.mp hpc).resolve_right fun hpc => ?_
    rw [mem_singleton.mp hpc, hq] at hqpc
    cases hqpc
  refine ⟨?_, ?_, ?_, ?_⟩
  · show (c.procs ++ _).countP _ = _
    rw [countP_append, h.mutex, countP_singleton, hinside]
    rfl
  · show (c.procs ++ _).countP _ ≤ 1
    rw [countP_append, countP_singleton]
    split_ifs with hstart
    · -- A new `shutdown` is the only one.
      have hnone : ∀ pc ∈ c.procs, pc.isShutdown = false := by
        cases a <;> first | exact hone | cases hstart
      exact Nat.le_of_eq (congrArg (· + 1) (countP_eq_zero.mpr fun pc hpc =>
        Bool.eq_false_iff.mp (hnone pc hpc)))
    · exact h.one
  · rw [h.closed]
    refine ⟨?_, ?_⟩
    · rintro ⟨pc, hpc, hpcb⟩
      exact ⟨pc, mem_append_left _ hpc, hpcb⟩
    · rintro ⟨pc, hpc, hpcb⟩
      exact ⟨pc, hnew hbegun pc hpc hpcb, hpcb⟩
  · rintro ⟨pc, hpc, hend⟩ qc hqc
    rcases mem_append.mp hqc with hqc | hqc
    · exact h.last ⟨pc, hnew hending pc hpc hend, hend⟩ qc hqc
    · obtain rfl := mem_singleton.mp hqc
      exact ⟨hpassed, fun htrue => absurd (hinside.symm.trans htrue) Bool.false_ne_true⟩

theorem mutex_move (hi : c.procs[i]? = some pc)
    (hmove : RegistryMove c.shared pc input r' pc') :
    (c.procs.set i pc').countP RegistryPc.inside = if r'.collectMu then 1 else 0 := by
  have hcount := countP_set_add RegistryPc.inside pc' hi
  rw [h.mutex] at hcount
  cases hmove with
  | lock who hfree =>
    rw [hfree] at hcount
    exact hcount
  | inside hpc hpc' =>
    rw [hpc, hpc', Nat.add_right_cancel_iff] at hcount
    exact hcount
  | unlock who err hpc =>
    rw [hpc, (afterCollect_spec who err).1] at hcount
    change _ + 1 = _ + 0 at hcount
    show _ = 0
    split_ifs at hcount <;> omega
  | quiet _ hmutex hpc hpc' =>
    rw [hpc, hpc', Nat.add_right_cancel_iff] at hcount
    rw [hmutex]
    exact hcount
  | close hopen hpc' => rcases hpc' with rfl | rfl <;> exact hcount
  | _ => exact hcount

theorem one_move (hi : c.procs[i]? = some pc)
    (hmove : RegistryMove c.shared pc input r' pc') :
    (c.procs.set i pc').countP RegistryPc.isShutdown ≤ 1 := by
  have hcount := countP_set_add RegistryPc.isShutdown pc' hi
  rw [hmove.isShutdown, Nat.add_right_cancel_iff] at hcount
  rw [hcount]
  exact h.one

theorem closed_move (hi : c.procs[i]? = some pc)
    (hmove : RegistryMove c.shared pc input r' pc') :
    r'.closed = true ↔ ∃ qc ∈ c.procs.set i pc', qc.begun = true := by
  have hbegun : pc.isShutdown = true → pc'.begun = true := by
    intro hshutdown
    rw [← hmove.isShutdown] at hshutdown
    exact (RegistryPc.begun_or hshutdown).resolve_right hmove.ne_shutdownClose
  rw [hmove.closed_iff, h.closed]
  refine ⟨?_, ?_⟩
  · rintro (hold | rfl)
    · rcases exists_mem_of_set pc' hi hold with hold | hpc
      · exact hold
      · exact ⟨pc', mem_set_self_of hi, hbegun (Bool.and_eq_true_iff.mp hpc).1⟩
    · exact ⟨pc', mem_set_self_of hi, hbegun rfl⟩
  · rintro ⟨qc, hqc, hqb⟩
    rcases mem_or_eq_of_mem_set hqc with hqc | rfl
    · exact .inl ⟨qc, hqc, hqb⟩
    · have hshutdown := (Bool.and_eq_true_iff.mp hqb).1
      rw [hmove.isShutdown] at hshutdown
      exact (RegistryPc.begun_or hshutdown).imp_left fun hpc => ⟨pc, mem_of_getElem? hi, hpc⟩

/-- While nobody has `collectMu`, nobody is inside. -/
theorem outside (hfree : c.shared.collectMu = false) :
    ∀ pc ∈ c.procs, pc.inside = false := by
  have hmutex := h.mutex
  rw [hfree] at hmutex
  intro pc hpc
  exact eq_false_of_ne_true (countP_eq_zero.mp hmutex pc hpc)

/-- Once the last collection has begun, a step lets nobody else begin one. -/
theorem last_stays (hpc : pc ∈ c.procs)
    (hmove : RegistryMove c.shared pc input r' pc') (hend : ∃ qc ∈ c.procs, qc.ending = true) :
    pc'.passed = false ∧ (pc'.inside = true → pc'.isShutdown = true) := by
  have hclosed : c.shared.closed = true :=
    h.closed.mpr (hend.imp fun qc hqc => ⟨hqc.1, RegistryPc.begun_of_ending hqc.2⟩)
  have hlast := h.last hend pc hpc
  cases hmove with
  | close hopen hpc' | test periodic hopen =>
    exact absurd (hopen.symm.trans hclosed) Bool.false_ne_true
  | again hclosed => exact ⟨rfl, nofun⟩
  | cancelled => exact ⟨rfl, nofun⟩
  | waited => exact ⟨rfl, nofun⟩
  | lock who hfree =>
    -- Nobody is left before the lock but `shutdown`.
    have hwho : who = .shutdown := by simpa [RegistryPc.passed] using hlast.1
    exact ⟨rfl, fun _ => decide_eq_true hwho⟩
  | inside hinside hpc' hshutdown =>
    exact ⟨RegistryPc.passed_of_inside hpc', fun _ => hshutdown.trans (hlast.2 hinside)⟩
  | unlock who err hinside =>
    obtain ⟨hpc', hpassed, -⟩ := afterCollect_spec who err
    exact ⟨hpassed, fun htrue => absurd (hpc'.symm.trans htrue) Bool.false_ne_true⟩
  | quiet _ _ _ hpc' hpassed =>
    exact ⟨hpassed, fun htrue => absurd (hpc'.symm.trans htrue) Bool.false_ne_true⟩

/-- The last collection begins when `shutdown` locks `collectMu`. -/
theorem lock_of_ending (hi : c.procs[i]? = some pc)
    (hmove : RegistryMove c.shared pc input r' pc') (hone : OneShutdown c (.move i input))
    (hpc : pc.ending = false) (hpc' : pc'.ending = true) :
    pc = .invokeLock .shutdown ∧ pc' = .invokeCopy .shutdown ∧ c.shared.collectMu = false := by
  have hmem : pc ∈ c.procs := mem_of_getElem? hi
  cases hmove with
  | close hopen hcases => rcases hcases with rfl | rfl <;> cases hpc'
  | again hclosed => exact absurd ((h.unclosed hmem).symm.trans hclosed) Bool.false_ne_true
  | cancelled => cases hone _ hi
  | waited => cases hpc'
  | test periodic hopen => cases hpc'
  | lock who hfree =>
    obtain rfl := of_decide_eq_true hpc'
    exact ⟨rfl, rfl, hfree⟩
  | inside hinside hinside' hshutdown =>
    rw [RegistryPc.ending_of_inside hinside', hshutdown, ← RegistryPc.ending_of_inside hinside,
      hpc] at hpc'
    cases hpc'
  | unlock who err hinside hshutdown =>
    rw [(afterCollect_spec who err).2.2.2.1, ← hshutdown, ← RegistryPc.ending_of_inside hinside,
      hpc] at hpc'
    cases hpc'
  | quiet _ _ _ _ _ _ hending => exact absurd (hending.symm.trans hpc') Bool.false_ne_true

theorem move (hi : c.procs[i]? = some pc)
    (hmove : RegistryMove c.shared pc input r' pc') (hone : OneShutdown c (.move i input))
    (hlast : CollectsLast c (.move i input)) : Ended ⟨r', c.procs.set i pc'⟩ := by
  have hmem : pc ∈ c.procs := mem_of_getElem? hi
  refine ⟨h.mutex_move hi hmove, h.one_move hi hmove, h.closed_move hi hmove, ?_⟩
  intro hend'
  by_cases hend : ∃ qc ∈ c.procs, qc.ending = true
  · exact forall_mem_set (h.last hend) (h.last_stays hmem hmove hend)
  · -- The step is the one that begins the last collection.
    have hnone : ∀ qc ∈ c.procs, qc.ending = false := fun qc hqc =>
      eq_false_of_ne_true fun htrue => hend ⟨qc, hqc, htrue⟩
    have hpc' : pc'.ending = true := by
      obtain ⟨qc, hqc, hqe⟩ := hend'
      rcases mem_or_eq_of_mem_set hqc with hqc | rfl
      · exact absurd ((hnone qc hqc).symm.trans hqe) Bool.false_ne_true
      · exact hqe
    obtain ⟨rfl, rfl, hfree⟩ := h.lock_of_ending hi hmove hone (hnone pc hmem) hpc'
    refine forall_mem_set (fun qc hqc => ⟨hlast hi qc hqc, fun hinside => ?_⟩) ⟨rfl, fun _ => rfl⟩
    exact absurd ((h.outside hfree qc hqc).symm.trans hinside) Bool.false_ne_true

end Ended

theorem Ended.of_reachable {disabled : Bool} {c : Concurrent CallbackRegistry RegistryPc}
    (h : (callbackRegistry disabled).Reachable (fun c l => OneShutdown c l ∧ CollectsLast c l) c) :
    Ended c := by
  refine h.invariant (.init disabled) ?_
  intro c l c' _ hinv hcond hstep
  cases ConcurrentMove.of_step hstep with
  | call a => exact hinv.start a hcond.1
  | move hi hpc => exact hinv.move hi (.of_registryStep hpc) hcond.1 hcond.2

/-! ### After the shutdown -/

/-- The step starts a callback. -/
def startsCallback (c : Concurrent CallbackRegistry RegistryPc) :
    ConcurrentLabel RegistryCall RegistryInput → Bool
  | .call _ => false
  | .move i _ =>
    match c.procs[i]? with
    | some (.invokeNext _ (_ :: _) _) => true
    | _ => false

theorem startsCallback_eq_true {c : Concurrent CallbackRegistry RegistryPc}
    {l : ConcurrentLabel RegistryCall RegistryInput} (h : startsCallback c l = true) :
    ∃ (i : ℕ) (who : Collector) (callbacks : List ℕ) (failed : Bool),
      c.procs[i]? = some (.invokeNext who callbacks failed) := by
  cases l with
  | call a => cases h
  | move i input =>
    rw [startsCallback] at h
    split at h
    · rename_i hi
      exact ⟨i, _, _, _, hi⟩
    · cases h

/-- **No callback starts after the shutdown**, if no collection was between its test of `closed`
and its lock when `shutdown` began its last one. -/
theorem no_callback_after_shutdown (disabled : Bool) {c : Concurrent CallbackRegistry RegistryPc}
    (hreach : (callbackRegistry disabled).Reachable
      (fun c l => OneShutdown c l ∧ CollectsLast c l) c)
    {err : Option CollectError} (hreturned : .collected .shutdown err ∈ c.procs)
    (l : ConcurrentLabel RegistryCall RegistryInput) : startsCallback c l = false := by
  have hinv := Ended.of_reachable hreach
  refine eq_false_of_ne_true fun hstarts => ?_
  obtain ⟨i, who, callbacks, failed, hi⟩ := startsCallback_eq_true hstarts
  obtain ⟨j, hj⟩ := getElem?_of_mem hreturned
  -- Who is inside is the `shutdown`, and there is one `shutdown`.
  have hinside := (hinv.last ⟨_, hreturned, rfl⟩ _ (mem_of_getElem? hi)).2 rfl
  obtain rfl := eq_of_countP_le_one hinv.one hi hj hinside rfl
  cases hi.symm.trans hj

/-- A callback is registered, and `ForceFlush` passes its test of `closed`. -/
def flushTested : List (ConcurrentLabel RegistryCall RegistryInput) :=
  [.call .register, .move 0 .none, .call .forceFlush, .move 1 .none]

/-- `shutdown` closes, stops the loop and runs the callback. -/
def shutdownCollects : List (ConcurrentLabel RegistryCall RegistryInput) :=
  [.call .shutdown, .move 2 .none, .call .loop, .move 3 .none, .move 2 .none, .move 3 .none,
    .move 2 .none, .move 2 .none, .move 2 .none, .move 2 .none, .move 2 .none, .move 2 .callbackOk,
    .move 2 .none]

/-- `ForceFlush` locks `collectMu` and copies the callbacks; the first is next. -/
def flushLocks : List (ConcurrentLabel RegistryCall RegistryInput) :=
  [.move 1 .none, .move 1 .none, .move 1 .none]

/-- `ForceFlush` runs the callback. -/
def flushRuns : List (ConcurrentLabel RegistryCall RegistryInput) :=
  [.move 1 .none, .move 1 .callbackOk, .move 1 .none]

/-- The registry after these steps: the callback is registered and the loop has ended. -/
def shutRegistry : CallbackRegistry := ⟨false, false, [1], 1, true, true, true, true, 0⟩

/-- If `ForceFlush` is done first, nothing starts after the shutdown. -/
theorem no_callback_after_shutdown_flushed :
    ∃ c, (callbackRegistry false).Reachable (fun c l => OneShutdown c l ∧ CollectsLast c l) c ∧
      .collected .shutdown none ∈ c.procs ∧ ∀ l, startsCallback c l = false := by
  have hreach : (callbackRegistry false).Reachable (fun c l => OneShutdown c l ∧ CollectsLast c l)
      ⟨shutRegistry, [.registered (some 1), .collected .forceFlush none, .collected .shutdown none,
        .collected .loop none]⟩ :=
    .of_labels_within _ (flushTested ++ flushLocks ++ flushRuns ++ shutdownCollects) rfl
  have hreturned : RegistryPc.collected .shutdown none ∈ [.registered (some 1),
      .collected .forceFlush none, .collected .shutdown none, .collected .loop none] :=
    .tail _ (.tail _ (.head _))
  exact ⟨_, hreach, hreturned, no_callback_after_shutdown false hreach hreturned⟩

/-- **A callback after the shutdown.**  `ForceFlush` has passed the test, `shutdown` runs from
beginning to end, and then `ForceFlush` goes on. -/
theorem callback_after_shutdown :
    ∃ c c', (callbackRegistry false).Reachable OneShutdown c ∧
      .collected .shutdown none ∈ c.procs ∧
      (callbackRegistry false).step c (.move 1 .none) = some c' ∧
      startsCallback c (.move 1 .none) = true :=
  ⟨⟨{ shutRegistry with collectMu := true }, [.registered (some 1),
      .invokeNext .forceFlush [1] false, .collected .shutdown none, .collected .loop none]⟩, _,
    .of_labels_within _ (flushTested ++ shutdownCollects ++ flushLocks) rfl,
    .tail _ (.tail _ (.head _)), rfl, rfl⟩

end ConvoyStats.Otel
