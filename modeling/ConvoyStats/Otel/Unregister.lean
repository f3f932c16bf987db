import Mathlib.Data.List.Nodup
import ConvoyStats.Otel.Callbacks

/-!
# Unregistering a callback

`unregister` takes a callback out of the registry.  A collection runs the callbacks it has copied,
so one that copied them before still has the callback to run, and starts it after `unregister` has
returned.  If no collection has it left to run when it is taken out, no collection starts it
afterwards: ids are not used again, and every later copy is one without it.
-/

namespace ConvoyStats.Otel

open List Process

/-! ### What a step does to the callbacks -/

namespace RegistryPc

/-- The callbacks that a collection has copied and not started. -/
def pending : RegistryPc → List ℕ
  | .invokeContext _ callbacks | .invokeNext _ callbacks _ | .invokeRun _ _ callbacks _ => callbacks
  | _ => []

/-- The id that `register` has returned, or that `unregister` was called with. -/
def known : RegistryPc → Option ℕ
  | .registered id => id
  | .unregister id | .unregistered id => some id
  | _ => none

/-- The id that `unregister` is about to take out. -/
def removing : RegistryPc → Option ℕ
  | .unregister id => some id
  | _ => none

end RegistryPc

/-- What a step does to the callbacks, to the ids and to what a collection has copied. -/
inductive CallbackMove (r : CallbackRegistry) :
    RegistryPc → CallbackRegistry → RegistryPc → Prop
  | register {r' : CallbackRegistry} (hid : r'.nextID = r.nextID + 1)
      (hcallbacks : r'.callbacks = r.callbacks ++ [r.nextID + 1]) :
      CallbackMove r .register r' (.registered (some (r.nextID + 1)))
  | unregister (id : ℕ) :
      CallbackMove r (.unregister id) { r with callbacks := r.callbacks.erase id }
        (.unregistered id)
  | copy (who : Collector) : CallbackMove r (.invokeCopy who) r (.invokeContext who r.callbacks)
  | keep {pc pc' : RegistryPc} {r' : CallbackRegistry} (hid : r'.nextID = r.nextID)
      (hcallbacks : r'.callbacks = r.callbacks) (hpending : pc'.pending ⊆ pc.pending)
      (hknown : pc'.known = none) : CallbackMove r pc r' pc'

theorem afterCollect_fresh (who : Collector) (err : Option CollectError) :
    (who.afterCollect err).pending = [] ∧ (who.afterCollect err).known = none := by
  cases who <;> exact ⟨rfl, rfl⟩

theorem CallbackMove.of_afterCollect {r r' : CallbackRegistry} {pc : RegistryPc} {who : Collector}
    {err : Option CollectError} (hid : r'.nextID = r.nextID)
    (hcallbacks : r'.callbacks = r.callbacks) : CallbackMove r pc r' (who.afterCollect err) := by
  obtain ⟨hpending, hknown⟩ := afterCollect_fresh who err
  exact .keep hid hcallbacks (hpending ▸ nil_subset _) hknown

theorem CallbackMove.of_registryStep {r r' : CallbackRegistry} {pc pc' : RegistryPc}
    {input : RegistryInput} (h : registryStep r pc input = some (r', pc')) :
    CallbackMove r pc r' pc' := by
  cases pc with
  | register =>
    cases input <;> try cases h
    rw [registryStep] at h
    dsimp only at h
    split_ifs at h <;> cases h
    · exact .keep rfl rfl (nil_subset _) rfl
    · exact .register rfl rfl
    · exact .register rfl rfl
  | unregister id =>
    cases input <;> cases h
    exact .unregister id
  | loopStart | invokeLock who =>
    cases input <;> try cases h
    rw [registryStep] at h
    split_ifs at h
    cases h
    exact .keep rfl rfl (nil_subset _) rfl
  | loopSelect | shutdownWait =>
    cases input <;> try cases h
    · rw [registryStep] at h
      split_ifs at h
      cases h
      exact .keep rfl rfl (nil_subset _) rfl
    · exact .keep rfl rfl (nil_subset _) rfl
  | shutdownClose =>
    cases input <;> try cases h
    rw [registryStep] at h
    split_ifs at h <;> cases h <;> exact .keep rfl rfl (nil_subset _) rfl
  | shutdownStop =>
    cases input <;> cases h
    exact .keep rfl rfl (nil_subset _) rfl
  | collectTest periodic =>
    cases input <;> cases h
    split_ifs
    · exact .of_afterCollect rfl rfl
    · exact .keep rfl rfl (nil_subset _) rfl
  | invokeCopy who =>
    cases input <;> try cases h
    rw [registryStep] at h
    split_ifs at h <;> cases h
    · exact .of_afterCollect rfl rfl
    · exact .copy who
  | invokeContext who callbacks =>
    cases input <;> cases h
    · exact .keep rfl rfl (List.Subset.refl _) rfl
    · exact .of_afterCollect rfl rfl
  | invokeNext who callbacks failed =>
    cases callbacks <;> cases input <;> cases h
    · exact .of_afterCollect rfl rfl
    · exact .keep rfl rfl (subset_cons_self _ _) rfl
  | invokeRun =>
    cases input <;> cases h <;> exact .keep rfl rfl (List.Subset.refl _) rfl
  | collected who err => cases h
  | registered id => cases h
  | unregistered id => cases h

/-! ### Runs -/

/-- `unregister` is called with an id that `register` has returned. -/
def Obtained (c : Concurrent CallbackRegistry RegistryPc) :
    ConcurrentLabel RegistryCall RegistryInput → Prop
  | .call (.unregister id) => .registered (some id) ∈ c.procs
  | _ => True

/-- When a callback is taken out, no collection has it left to run. -/
def NotPending (c : Concurrent CallbackRegistry RegistryPc) :
    ConcurrentLabel RegistryCall RegistryInput → Prop
  | .call _ => True
  | .move i _ => ∀ pc ∈ c.procs[i]?, ∀ id ∈ pc.removing, ∀ qc ∈ c.procs, id ∉ qc.pending

instance (c : Concurrent CallbackRegistry RegistryPc)
    (l : ConcurrentLabel RegistryCall RegistryInput) : Decidable (Obtained c l) :=
  match l with
  | .call (.unregister id) => inferInstanceAs (Decidable (.registered (some id) ∈ c.procs))
  | .call .register | .call .forceFlush | .call .loop | .call .shutdown => .isTrue trivial
  | .move _ _ => .isTrue trivial

instance (c : Concurrent CallbackRegistry RegistryPc)
    (l : ConcurrentLabel RegistryCall RegistryInput) : Decidable (NotPending c l) :=
  match l with
  | .call _ => .isTrue trivial
  | .move i _ => inferInstanceAs (Decidable (∀ pc ∈ c.procs[i]?, _))

/-- **The invariant.**  Ids are handed out once, and a callback that was taken out is neither in
the registry nor left to run. -/
structure Gone (c : Concurrent CallbackRegistry RegistryPc) : Prop where
  nodup : c.shared.callbacks.Nodup
  given : ∀ id ∈ c.shared.callbacks, id ≤ c.shared.nextID
  known : ∀ pc ∈ c.procs, ∀ id ∈ pc.known, id ≤ c.shared.nextID
  gone : ∀ id, .unregistered id ∈ c.procs →
    id ∉ c.shared.callbacks ∧ ∀ pc ∈ c.procs, id ∉ pc.pending

namespace Gone

variable {c : Concurrent CallbackRegistry RegistryPc} {i : ℕ} {pc pc' : RegistryPc}
  {r' : CallbackRegistry}

theorem init (disabled : Bool) : Gone ⟨newCallbackRegistry disabled, []⟩ where
  nodup := nodup_nil
  given id h := by cases h
  known pc h := by cases h
  gone id h := by cases h

theorem start (h : Gone c) (a : RegistryCall) (hobtained : Obtained c (.call a)) :
    Gone ⟨c.shared, c.procs ++ [registryCall.start a]⟩ := by
  have hpending : (registryCall.start a).pending = [] := by
    cases a <;> rfl
  have hknown : ∀ id ∈ (registryCall.start a).known, id ≤ c.shared.nextID := by
    cases a with
    | unregister id =>
      rintro _ ⟨⟩
      exact h.known _ hobtained id rfl
    | _ => exact nofun
  have hnew : ∀ id, registryCall.start a ≠ .unregistered id := by
    cases a <;> exact nofun
  refine ⟨h.nodup, h.given, ?_, ?_⟩
  · exact forall_mem_append.mpr ⟨h.known, forall_mem_singleton.mpr hknown⟩
  · intro id hid
    rcases mem_append.mp hid with hid | hid
    · obtain ⟨hcallbacks, hprocs⟩ := h.gone id hid
      refine ⟨hcallbacks, forall_mem_append.mpr ⟨hprocs, forall_mem_singleton.mpr ?_⟩⟩
      rw [hpending]
      exact not_mem_nil
    · exact absurd (mem_singleton.mp hid).symm (hnew id)

/-- A process that is at `unregistered` after a step that leads elsewhere was there before. -/
theorem unregistered_of_set {id : ℕ} (hid : .unregistered id ∈ c.procs.set i pc')
    (hne : pc' ≠ .unregistered id) : .unregistered id ∈ c.procs :=
  (mem_or_eq_of_mem_set hid).resolve_right fun heq => hne heq.symm

theorem move (h : Gone c) (hi : c.procs[i]? = some pc)
    (hmove : CallbackMove c.shared pc r' pc')
    (hapart : ∀ id ∈ pc.removing, ∀ qc ∈ c.procs, id ∉ qc.pending) :
    Gone ⟨r', c.procs.set i pc'⟩ := by
  have hmem : pc ∈ c.procs := mem_of_getElem? hi
  cases hmove with
  | register hid hcallbacks =>
    have hfresh : c.shared.nextID + 1 ∉ c.shared.callbacks := fun hin =>
      absurd (h.given _ hin) (Nat.not_succ_le_self _)
    refine ⟨?_, ?_, ?_, ?_⟩
    · show r'.callbacks.Nodup
      rw [hcallbacks]
      exact Nodup.append h.nodup (nodup_singleton _)
        (disjoint_singleton.mpr hfresh)
    · show ∀ id ∈ r'.callbacks, id ≤ r'.nextID
      rw [hcallbacks, hid, forall_mem_append]
      exact ⟨fun id hid => Nat.le_succ_of_le (h.given id hid),
        forall_mem_singleton.mpr (Nat.le_refl _)⟩
    · show ∀ qc ∈ c.procs.set i _, ∀ id ∈ RegistryPc.known qc, id ≤ r'.nextID
      rw [hid]
      refine forall_mem_set (fun qc hqc id hid => Nat.le_succ_of_le (h.known qc hqc id hid)) ?_
      rintro _ ⟨⟩
      exact Nat.le_refl _
    · intro id hgone
      have hold := unregistered_of_set hgone nofun
      obtain ⟨hnot, hprocs⟩ := h.gone id hold
      have hle : id ≤ c.shared.nextID := h.known _ hold id rfl
      refine ⟨?_, forall_mem_set hprocs not_mem_nil⟩
      show id ∉ r'.callbacks
      rw [hcallbacks, mem_append, mem_singleton, not_or]
      exact ⟨hnot, by omega⟩
  | unregister id =>
    refine ⟨h.nodup.erase id, fun j hj => h.given j (mem_of_mem_erase hj), ?_, ?_⟩
    · refine forall_mem_set h.known ?_
      rintro _ ⟨⟩
      exact h.known _ hmem id rfl
    · intro j hgone
      rcases mem_or_eq_of_mem_set hgone with hold | heq
      · obtain ⟨hnot, hprocs⟩ := h.gone j hold
        exact ⟨fun hj => hnot (mem_of_mem_erase hj),
          forall_mem_set hprocs not_mem_nil⟩
      · -- The one that is taken out now: nobody has it left to run.
        obtain rfl : j = id := by cases heq; rfl
        exact ⟨h.nodup.not_mem_erase, forall_mem_set (hapart j rfl) not_mem_nil⟩
  | copy who =>
    refine ⟨h.nodup, h.given, forall_mem_set h.known nofun, ?_⟩
    intro id hgone
    obtain ⟨hnot, hprocs⟩ := h.gone id (unregistered_of_set hgone nofun)
    exact ⟨hnot, forall_mem_set hprocs hnot⟩
  | keep hid hcallbacks hpending hknown =>
    refine ⟨?_, ?_, ?_, ?_⟩
    · show r'.callbacks.Nodup
      rw [hcallbacks]
      exact h.nodup
    · show ∀ id ∈ r'.callbacks, id ≤ r'.nextID
      rw [hcallbacks, hid]
      exact h.given
    · show ∀ qc ∈ c.procs.set i _, ∀ id ∈ RegistryPc.known qc, id ≤ r'.nextID
      rw [hid]
      refine forall_mem_set h.known ?_
      rw [hknown]
      exact nofun
    · intro id hgone
      have hne : pc' ≠ .unregistered id := by
        rintro rfl
        cases hknown
      obtain ⟨hnot, hprocs⟩ := h.gone id (unregistered_of_set hgone hne)
      refine ⟨?_, forall_mem_set hprocs fun hin => hprocs pc hmem (hpending hin)⟩
      show id ∉ r'.callbacks
      rw [hcallbacks]
      exact hnot

theorem of_reachable {disabled : Bool}
    (h : (callbackRegistry disabled).Reachable (fun c l => Obtained c l ∧ NotPending c l) c) :
    Gone c := by
  refine h.invariant (.init disabled) ?_
  intro c l c' _ hinv hcond hstep
  cases ConcurrentMove.of_step hstep with
  | call a => exact hinv.start a hcond.1
  | move hi hpc => exact hinv.move hi (.of_registryStep hpc) (hcond.2 _ hi)

end Gone

/-! ### After `unregister` -/

/-- The callback that the step starts. -/
def startedCallback (c : Concurrent CallbackRegistry RegistryPc) :
    ConcurrentLabel RegistryCall RegistryInput → Option ℕ
  | .call _ => none
  | .move i _ =>
    match c.procs[i]? with
    | some (.invokeNext _ (id :: _) _) => some id
    | _ => none

theorem mem_pending_of_startedCallback {c : Concurrent CallbackRegistry RegistryPc}
    {l : ConcurrentLabel RegistryCall RegistryInput} {id : ℕ} (h : startedCallback c l = some id) :
    ∃ pc ∈ c.procs, id ∈ pc.pending := by
  cases l with
  | call a => cases h
  | move i input =>
    rw [startedCallback] at h
    split at h
    · rename_i hi
      cases h
      exact ⟨_, mem_of_getElem? hi, mem_cons_self ..⟩
    · cases h

/-- **No callback starts after its `unregister`**, if no collection had it left to run when it was
taken out. -/
theorem no_callback_after_unregister (disabled : Bool)
    {c : Concurrent CallbackRegistry RegistryPc}
    (hreach : (callbackRegistry disabled).Reachable
      (fun c l => Obtained c l ∧ NotPending c l) c)
    {id : ℕ} (hreturned : .unregistered id ∈ c.procs)
    (l : ConcurrentLabel RegistryCall RegistryInput) : startedCallback c l ≠ some id := by
  intro hstarts
  obtain ⟨pc, hpc, hpending⟩ := mem_pending_of_startedCallback hstarts
  exact ((Gone.of_reachable hreach).gone id hreturned).2 pc hpc hpending

/-- Two callbacks are registered, and `ForceFlush` copies them and runs the first. -/
def flushRunsFirst : List (ConcurrentLabel RegistryCall RegistryInput) :=
  [.call .register, .move 0 .none, .call .register, .move 1 .none, .call .forceFlush,
    .move 2 .none, .move 2 .none, .move 2 .none, .move 2 .none, .move 2 .none,
    .move 2 .callbackOk]

/-- `ForceFlush` runs the second, too. -/
def flushRunsSecond : List (ConcurrentLabel RegistryCall RegistryInput) :=
  [.move 2 .none, .move 2 .callbackOk, .move 2 .none]

/-- The second callback is unregistered. -/
def unregisterSecond : List (ConcurrentLabel RegistryCall RegistryInput) :=
  [.call (.unregister 2), .move 3 .none]

/-- The registry after these steps. -/
def oneLeft : CallbackRegistry := ⟨false, false, [1], 2, true, false, false, false, 1⟩

/-- Once `ForceFlush` has run it, it is taken out for good. -/
theorem no_callback_after_unregister_flushed :
    ∃ c, (callbackRegistry false).Reachable (fun c l => Obtained c l ∧ NotPending c l) c ∧
      .unregistered 2 ∈ c.procs ∧ ∀ l, startedCallback c l ≠ some 2 := by
  have hreach : (callbackRegistry false).Reachable (fun c l => Obtained c l ∧ NotPending c l)
      ⟨oneLeft, [.registered (some 1), .registered (some 2), .collected .forceFlush none,
        .unregistered 2]⟩ :=
    .of_labels_within _ (flushRunsFirst ++ flushRunsSecond ++ unregisterSecond) rfl
  have hreturned : RegistryPc.unregistered 2 ∈ [.registered (some 1), .registered (some 2),
      .collected .forceFlush none, .unregistered 2] :=
    .tail _ (.tail _ (.tail _ (.head _)))
  exact ⟨_, hreach, hreturned, no_callback_after_unregister false hreach hreturned⟩

/-- **A callback after its `unregister`.**  It is unregistered while `ForceFlush` runs the first,
and then `ForceFlush` starts it. -/
theorem callback_after_unregister :
    ∃ c c', (callbackRegistry false).Reachable Obtained c ∧
      .unregistered 2 ∈ c.procs ∧
      (callbackRegistry false).step c (.move 2 .none) = some c' ∧
      startedCallback c (.move 2 .none) = some 2 :=
  ⟨⟨{ oneLeft with collectMu := true }, [.registered (some 1), .registered (some 2),
      .invokeNext .forceFlush [2] false, .unregistered 2]⟩, _,
    .of_labels_within _ (flushRunsFirst ++ unregisterSecond) rfl,
    .tail _ (.tail _ (.tail _ (.head _))), rfl, rfl⟩

end ConvoyStats.Otel
