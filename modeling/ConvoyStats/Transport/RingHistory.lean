import ConvoyStats.Transport.RingSimulation

/-!
# What each call did

The slot protocol speaks of positions; callers speak of calls.  A call leaves at
most a handful of effects in the history, and `Outcome` lists every combination
of operation, result and effects a finished call can show.  `Pc.Progress` is the
same table for a call that is still running: the effects it has left by the time
it reaches a point.

`World.Sound` is the whole invariant of the ring: a view that simulates the
memory, the chronicle of its positions, and the ledger of its calls.  `start`
and `access` keep it, also when a larger system drives the ring.
-/

namespace ConvoyStats.Transport

open List Function

universe u v

variable {G : Type v} {α : Type u}

/-- A push of either kind. -/
def Op.ofPush (evict : Bool) (item : Option α) : Op α :=
  if evict then .pushDropOldest item else .push item

/-- A pop of either kind. -/
def Op.ofPop (wait : Bool) : Op α := if wait then .pop else .tryPop

/-- **The finished calls**: what was asked, what was returned, and the effects the
call left. -/
inductive Outcome : Op α → Result α → List (Effect α) → Prop
  | pushed (evict : Bool) (item : α) (pos : ℕ) :
      Outcome (.ofPush evict (some item)) (RingBuffer.pushResult evict true)
        [.published pos item]
  | rejected (evict : Bool) (item : α) :
      Outcome (.ofPush evict (some item)) (RingBuffer.pushResult evict false) [.dropCounted]
  | refused (evict : Bool) :
      Outcome (.ofPush evict none) (RingBuffer.pushResult evict false) []
  | replaced (item old : α) (readPos writePos : ℕ) :
      Outcome (.pushDropOldest (some item)) (.pushDropOldest (some old) true)
        [.claimed readPos, .obtained readPos (some old), .published writePos item, .dropCounted]
  | popped (wait : Bool) (item : α) (pos : ℕ) :
      Outcome (.ofPop wait) (.pop (some item)) [.claimed pos, .obtained pos (some item)]
  | empty (wait : Bool) : Outcome (.ofPop wait) (.pop none) []

namespace Pc

/-- The effects a running call has left when it reaches a point. -/
def Progress (op : Op α) (effects : List (Effect α)) : Pc α → Prop
  | .pushLoadRead evict item | .pushLoadWrite evict item _ | .pushAtLoadSeq evict item _
  | .pushAtCasWrite evict item _ | .pushAtStoreItem evict item _
  | .pushAtStoreSeq evict item _ => op = .ofPush evict (some item) ∧ effects = []
  | .pushAtAdded evict item writePos =>
    op = .ofPush evict (some item) ∧ effects = [.published writePos item]
  | .reject evict => ∃ item, op = .ofPush evict (some item) ∧ effects = []
  | .replaceLoadSeq item _ _ | .replaceCasSeq item _ _ | .replaceCasRead item _ _ =>
    op = .ofPush true (some item) ∧ effects = []
  | .replaceLoadItem item readPos _ =>
    op = .ofPush true (some item) ∧ effects = [.claimed readPos]
  | .replaceStoreWrite item readPos _ old | .replaceStoreItem item readPos _ old
  | .replaceStoreSeq item readPos _ old =>
    op = .ofPush true (some item) ∧
      ∃ x, old = some x ∧ effects = [.claimed readPos, .obtained readPos (some x)]
  | .replaceRemoved item readPos writePos old | .replaceDropped item readPos writePos old =>
    op = .ofPush true (some item) ∧ ∃ x, old = some x ∧
      effects = [.claimed readPos, .obtained readPos (some x), .published writePos item]
  | .replaceAdded item readPos writePos old =>
    op = .ofPush true (some item) ∧ ∃ x, old = some x ∧
      effects = [.claimed readPos, .obtained readPos (some x), .published writePos item,
        .dropCounted]
  | .popLoadRead wait | .popLoadWrite wait _ | .popLoadSeq wait _ | .popCasRead wait _ =>
    op = .ofPop wait ∧ effects = []
  | .popLoadItem readPos => ∃ wait, op = .ofPop wait ∧ effects = [.claimed readPos]
  | .popClearItem readPos item | .popStoreSeq readPos item | .popRemoved readPos item =>
    ∃ wait x, op = .ofPop wait ∧ item = some x ∧
      effects = [.claimed readPos, .obtained readPos (some x)]
  | .ret result => Outcome op result effects

theorem Progress.start (op : Op α) : (Pc.start op).Progress op [] := by
  rcases op with (_ | item) | (_ | item) | _ | _
  · exact .refused false
  · exact ⟨rfl, rfl⟩
  · exact .refused true
  · exact ⟨rfl, rfl⟩
  · exact ⟨rfl, rfl⟩
  · exact ⟨rfl, rfl⟩

/-- **One access extends the effects of its call.**  The item read from a slot is
not nil; the ring's invariant provides that. -/
theorem Progress.exec {op : Op α} {effects : List (Effect α)} {pc : Pc α} (rb : RingBuffer α)
    (hp : pc.Progress op effects)
    (hitem : ∀ pos item, (rb.exec pc).2.2 = some (.obtained pos item) →
      ∃ x, item = some x) :
    (rb.exec pc).2.1.Progress op (effects ++ (rb.exec pc).2.2.toList) := by
  cases pc <;> simp only [Progress, RingBuffer.exec] at hp hitem ⊢
  case pushLoadRead => simpa [Progress] using hp
  case pushLoadWrite evict item r =>
    obtain ⟨rfl, rfl⟩ := hp
    split_ifs with hroom hevict
    · exact ⟨rfl, rfl⟩
    · subst hevict
      exact ⟨rfl, rfl⟩
    · exact ⟨item, rfl, rfl⟩
  case pushAtLoadSeq evict item p =>
    obtain ⟨rfl, rfl⟩ := hp
    split_ifs
    · exact ⟨item, rfl, rfl⟩
    · exact ⟨rfl, rfl⟩
    · exact ⟨rfl, rfl⟩
  case pushAtCasWrite =>
    obtain ⟨rfl, rfl⟩ := hp
    split_ifs <;> exact ⟨rfl, rfl⟩
  case pushAtStoreItem => simpa [Progress] using hp
  case pushAtStoreSeq =>
    obtain ⟨rfl, rfl⟩ := hp
    exact ⟨rfl, rfl⟩
  case pushAtAdded evict item p =>
    obtain ⟨rfl, rfl⟩ := hp
    exact .pushed evict item p
  case reject evict =>
    obtain ⟨item, rfl, rfl⟩ := hp
    exact .rejected evict item
  case replaceLoadSeq item r p =>
    obtain ⟨rfl, rfl⟩ := hp
    split_ifs
    · exact ⟨item, rfl, rfl⟩
    · exact ⟨rfl, rfl⟩
    · exact ⟨rfl, rfl⟩
  case replaceCasSeq =>
    obtain ⟨rfl, rfl⟩ := hp
    split_ifs <;> exact ⟨rfl, rfl⟩
  case replaceCasRead =>
    obtain ⟨rfl, rfl⟩ := hp
    split_ifs <;> exact ⟨rfl, rfl⟩
  case replaceLoadItem =>
    obtain ⟨rfl, rfl⟩ := hp
    obtain ⟨x, hx⟩ := hitem _ _ rfl
    rw [hx]
    exact ⟨rfl, x, rfl, rfl⟩
  case replaceStoreWrite => simpa [Progress] using hp
  case replaceStoreItem => simpa [Progress] using hp
  case replaceStoreSeq =>
    obtain ⟨rfl, x, rfl, rfl⟩ := hp
    exact ⟨rfl, x, rfl, rfl⟩
  case replaceRemoved => simpa [Progress] using hp
  case replaceDropped =>
    obtain ⟨rfl, x, rfl, rfl⟩ := hp
    exact ⟨rfl, x, rfl, rfl⟩
  case replaceAdded item r p old =>
    obtain ⟨rfl, x, rfl, rfl⟩ := hp
    exact .replaced item x r p
  case popLoadRead => simpa [Progress] using hp
  case popLoadWrite wait r =>
    obtain ⟨rfl, rfl⟩ := hp
    split_ifs
    · exact .empty wait
    · exact ⟨rfl, rfl⟩
  case popLoadSeq wait r =>
    obtain ⟨rfl, rfl⟩ := hp
    split_ifs
    · exact ⟨rfl, rfl⟩
    · exact .empty wait
    · exact ⟨rfl, rfl⟩
    · exact ⟨rfl, rfl⟩
  case popCasRead wait r =>
    obtain ⟨rfl, rfl⟩ := hp
    split_ifs
    · exact ⟨wait, rfl, rfl⟩
    · exact ⟨rfl, rfl⟩
  case popLoadItem =>
    obtain ⟨wait, rfl, rfl⟩ := hp
    obtain ⟨x, hx⟩ := hitem _ _ rfl
    rw [hx]
    exact ⟨wait, x, rfl, rfl, rfl⟩
  case popClearItem => simpa [Progress] using hp
  case popStoreSeq => simpa [Progress] using hp
  case popRemoved r item =>
    obtain ⟨wait, x, rfl, rfl, rfl⟩ := hp
    exact .popped wait x r
  case ret => simpa [Progress] using hp

end Pc

/-! ### The effects of a call in the history -/

section Effects

variable [DecidableEq G]

/-- The effect an event records for a call. -/
def Event.effectOf? (call : Call G) : Event G α → Option (Effect α)
  | .effect c e => if c = call then some e else none
  | .returned .. => none

/-- The effects of a call, in order. -/
def callEffects (h : List (Event G α)) (call : Call G) : List (Effect α) :=
  h.filterMap (Event.effectOf? call)

theorem mem_callEffects {h : List (Event G α)} {call : Call G} {e : Effect α} :
    e ∈ callEffects h call ↔ .effect call e ∈ h := by
  rw [callEffects, mem_filterMap]
  constructor
  · rintro ⟨_ | _, hmem, hev⟩
    · rw [Event.effectOf?] at hev
      split at hev
      · subst call
        cases hev
        exact hmem
      · cases hev
    · cases hev
  · intro hmem
    exact ⟨_, hmem, if_pos rfl⟩

variable (h : List (Event G α))
include h

theorem callEffects_record_self (call : Call G)
    (effect : Option (Effect α)) :
    callEffects (h ++ World.record call effect) call = callEffects h call ++ effect.toList := by
  rw [callEffects, filterMap_append]
  cases effect with
  | none => rfl
  | some e =>
    refine congrArg _ ?_
    simp [World.record, Event.effectOf?]

theorem callEffects_record_ne {call other : Call G}
    (effect : Option (Effect α)) (hne : call ≠ other) :
    callEffects (h ++ World.record call effect) other = callEffects h other := by
  rw [callEffects, filterMap_append]
  cases effect with
  | none => exact append_nil _
  | some e => simp [World.record, Event.effectOf?, hne, callEffects]

theorem callEffects_returned (call other : Call G) (op : Op α)
    (result : Result α) :
    callEffects (h ++ [.returned call op result]) other = callEffects h other := by
  rw [callEffects, filterMap_append]
  exact append_nil _

end Effects

/-- The call an event returns from. -/
def Event.returnedCall? : Event G α → Option (Call G)
  | .returned call _ _ => some call
  | .effect .. => none

/-- The calls that have returned, in order. -/
def returnedCalls (h : List (Event G α)) : List (Call G) := h.filterMap Event.returnedCall?

/-- The calls that have counted a rejection or an eviction, in order. -/
def dropCountedCalls (h : List (Event G α)) : List (Call G) :=
  h.filterMap fun
    | .effect call .dropCounted => some call
    | _ => none

theorem mem_returnedCalls {h : List (Event G α)} {call : Call G} :
    call ∈ returnedCalls h ↔ ∃ op result, Event.returned call op result ∈ h := by
  rw [returnedCalls, mem_filterMap]
  constructor
  · rintro ⟨_ | ⟨c, op, result⟩, hmem, hev⟩
    · cases hev
    · cases hev
      exact ⟨op, result, hmem⟩
  · rintro ⟨op, result, hmem⟩
    exact ⟨_, hmem, rfl⟩

theorem returnedCalls_record (h : List (Event G α)) (call : Call G)
    (effect : Option (Effect α)) :
    returnedCalls (h ++ World.record call effect) = returnedCalls h := by
  rw [returnedCalls, filterMap_append]
  cases effect <;> exact append_nil _

theorem length_dropCountedCalls_record (h : List (Event G α)) (call : Call G)
    (effect : Option (Effect α)) :
    (dropCountedCalls (h ++ World.record call effect)).length =
      (dropCountedCalls h).length +
        match effect with
        | some .dropCounted => 1
        | _ => 0 := by
  rw [dropCountedCalls, filterMap_append, length_append]
  refine congrArg _ ?_
  rcases effect with _ | ⟨_ | _ | _ | _⟩ <;> rfl

theorem mem_record {call : Call G} {effect : Option (Effect α)} {ev : Event G α} :
    ev ∈ World.record call effect ↔ ∃ e, effect = some e ∧ ev = .effect call e := by
  cases effect <;> simp [World.record]

/-- **The ledger of the calls.** -/
structure Ledger [DecidableEq G] (w : World G α) : Prop where
  running : ∀ g op pc, (w.threads g).running = some (op, pc) →
    pc.Progress op (callEffects w.history (g, (w.threads g).finished))
  /-- A call that has not started has no effects. -/
  future : ∀ g n, (w.threads g).finished ≤ n →
    ((w.threads g).finished = n → (w.threads g).running = none) →
    callEffects w.history (g, n) = []
  returned : ∀ g n op result, Event.returned (g, n) op result ∈ w.history →
    n < (w.threads g).finished ∧ Outcome op result (callEffects w.history (g, n))
  /-- Every call counted as finished has returned. -/
  complete : ∀ g n, n < (w.threads g).finished →
    ∃ op result, Event.returned (g, n) op result ∈ w.history
  nodup : (returnedCalls w.history).Nodup
  /-- What is read at a position is what was published there. -/
  obtained : ∀ call pos item, Event.effect call (.obtained pos item) ∈ w.history →
    ∃ x, item = some x ∧ Published w.history pos x
  dropped : w.ring.dropped = (dropCountedCalls w.history).length

/-- An access adds to `dropped` exactly when the history records it. -/
theorem RingBuffer.exec_dropped (rb : RingBuffer α) (pc : Pc α) :
    (rb.exec pc).1.dropped = rb.dropped +
      match (rb.exec pc).2.2 with
      | some .dropCounted => 1
      | _ => 0 := by
  cases pc <;> simp only [RingBuffer.exec] <;> (try split_ifs) <;> rfl

namespace Ledger

variable [DecidableEq G] {w : World G α} {g : G} {op : Op α} {pc : Pc α}

theorem init (capacity : Int64) : Ledger (World.init G α capacity) where
  running := nofun
  future := fun _ _ _ _ => rfl
  returned := nofun
  complete := nofun
  nodup := nodup_nil
  obtained := nofun
  dropped := rfl

/-- Starting a call leaves no trace. -/
theorem start {w' : World G α} (hl : Ledger w) (hstart : w.start g op = some w') :
    Ledger w' := by
  obtain ⟨hidle, rfl⟩ := World.start_eq_some hstart
  -- the counts of finished calls are those of before
  have hfin : ∀ e, (update w.threads g ⟨(w.threads g).finished, some (op, Pc.start op)⟩
      e).finished = (w.threads e).finished := by
    intro e
    by_cases heq : e = g
    · subst heq
      rw [update_self]
    · rw [update_of_ne heq]
  refine ⟨?_, ?_, ?_, ?_, hl.nodup, hl.obtained, hl.dropped⟩
  · intro e op' pc' hrun
    rw [hfin]
    rcases running_update.mp hrun with ⟨rfl, hrun⟩ | ⟨_, hrun⟩
    · cases hrun
      rw [hl.future e _ le_rfl fun _ => hidle]
      exact Pc.Progress.start op
    · exact hl.running e op' pc' hrun
  · intro e n hle hnone
    rw [hfin] at hle hnone
    refine hl.future e n hle fun heq => ?_
    by_cases hg : e = g
    · subst hg
      exact hidle
    · simpa [hg] using hnone heq
  · intro e n op' result hmem
    rw [hfin]
    exact hl.returned e n op' result hmem
  · intro e n hlt
    rw [hfin] at hlt
    exact hl.complete e n hlt

/-- An access adds its effect to its call. -/
theorem perform (hl : Ledger w) (hrun : (w.threads g).running = some (op, pc))
    (hitem : ∀ pos item, (w.ring.exec pc).2.2 = some (.obtained pos item) →
      ∃ x, item = some x ∧ Published w.history pos x) : Ledger (w.perform g op pc) := by
  have hfin : ∀ e, ((w.perform g op pc).threads e).finished = (w.threads e).finished := by
    intro e
    by_cases heq : e = g
    · subst heq
      simp [World.perform]
    · simp [World.perform, heq]
  have hmem : ∀ {ev : Event G α}, ev ∈ w.history → ev ∈ (w.perform g op pc).history :=
    mem_append_left _
  have hself : callEffects (w.perform g op pc).history (g, (w.threads g).finished) =
      callEffects w.history (g, (w.threads g).finished) ++ (w.ring.exec pc).2.2.toList :=
    callEffects_record_self _ _ _
  have hother : ∀ {call : Call G}, (g, (w.threads g).finished) ≠ call →
      callEffects (w.perform g op pc).history call = callEffects w.history call :=
    fun hne => callEffects_record_ne _ _ hne
  have hreturned : ∀ {call : Call G} {op' : Op α} {result : Result α},
      .returned call op' result ∈ (w.perform g op pc).history →
        .returned call op' result ∈ w.history := by
    intro call op' result hev
    rcases mem_append.mp hev with hev | hev
    · exact hev
    · obtain ⟨e, -, heq⟩ := mem_record.mp hev
      cases heq
  refine ⟨?_, ?_, ?_, ?_, ?_, ?_, ?_⟩
  · intro e op' pc' hrun'
    rw [hfin]
    rcases running_update.mp hrun' with ⟨rfl, hrun'⟩ | ⟨hne, hrun'⟩
    · cases hrun'
      rw [hself]
      exact (hl.running e op pc hrun).exec w.ring fun pos item heff =>
        (hitem pos item heff).imp fun _ hx => hx.1
    · rw [hother fun heq => hne (congrArg Prod.fst heq).symm]
      exact hl.running e op' pc' hrun'
  · intro e n hle hnone
    rw [hfin] at hle hnone
    have hne : (g, (w.threads g).finished) ≠ (e, n) := by
      rintro ⟨⟩
      have := hnone rfl
      simp [World.perform] at this
    rw [hother hne]
    refine hl.future e n hle fun heq => ?_
    by_cases hg : e = g
    · subst hg
      exact absurd (by rw [heq]) hne
    · simpa [World.perform, hg] using hnone heq
  · intro e n op' result hev
    obtain ⟨hlt, hout⟩ := hl.returned e n op' result (hreturned hev)
    rw [hfin]
    refine ⟨hlt, ?_⟩
    rwa [hother]
    rintro ⟨⟩
    exact absurd hlt (Nat.lt_irrefl _)
  · intro e n hlt
    rw [hfin] at hlt
    obtain ⟨op', result, hev⟩ := hl.complete e n hlt
    exact ⟨op', result, hmem hev⟩
  · rw [World.perform, returnedCalls_record]
    exact hl.nodup
  · intro call pos item hev
    rcases mem_append.mp hev with hev | hev
    · obtain ⟨x, hx, hpub⟩ := hl.obtained call pos item hev
      exact ⟨x, hx, hpub.mono fun _ => hmem⟩
    · obtain ⟨e, heff, heq⟩ := mem_record.mp hev
      cases heq
      obtain ⟨x, hx, hpub⟩ := hitem pos item heff
      exact ⟨x, hx, hpub.mono fun _ => hmem⟩
  · refine (w.ring.exec_dropped pc).trans ?_
    rw [hl.dropped]
    exact (length_dropCountedCalls_record _ _ _).symm

/-- A call returns with the outcome its effects add up to. -/
theorem finish (hl : Ledger w) {result : Result α}
    (hrun : (w.threads g).running = some (op, .ret result)) :
    Ledger (w.finish g op result) := by
  have hmem : ∀ {ev : Event G α}, ev ∈ w.history → ev ∈ (w.finish g op result).history :=
    mem_append_left _
  have heffects : ∀ call, callEffects (w.finish g op result).history call =
      callEffects w.history call := fun call => callEffects_returned _ _ _ _ _
  have hfin : ∀ e n, n < ((w.finish g op result).threads e).finished ↔
      n < (w.threads e).finished ∨ (e, n) = (g, (w.threads g).finished) := by
    intro e n
    by_cases heq : e = g
    · subst heq
      have hsucc : ((w.finish e op result).threads e).finished = (w.threads e).finished + 1 := by
        simp [World.finish]
      rw [hsucc, Nat.lt_succ_iff_lt_or_eq, Prod.mk.injEq, eq_self_iff_true, true_and]
    · simp [World.finish, heq]
  refine ⟨?_, ?_, ?_, ?_, ?_, ?_, ?_⟩
  · intro e op' pc' hrun'
    rcases running_update.mp hrun' with ⟨rfl, hrun'⟩ | ⟨hne, hrun'⟩
    · cases hrun'
    · rw [heffects]
      have := hl.running e op' pc' hrun'
      simpa [World.finish, hne] using this
  · intro e n hle hnone
    rw [heffects]
    have hnot := mt (hfin e n).mpr (Nat.not_lt.mpr hle)
    rw [not_or] at hnot
    refine hl.future e n (Nat.le_of_not_lt hnot.1) fun heq => ?_
    by_cases hg : e = g
    · subst hg
      exact absurd (by rw [heq]) hnot.2
    · have : ((w.finish g op result).threads e) = w.threads e := update_of_ne hg ..
      rw [this] at hnone
      exact hnone heq
  · intro e n op' result' hev
    rw [heffects]
    rcases mem_append.mp hev with hev | hev
    · obtain ⟨hlt, hout⟩ := hl.returned e n op' result' hev
      exact ⟨(hfin e n).mpr (.inl hlt), hout⟩
    · rw [mem_singleton] at hev
      cases hev
      exact ⟨(hfin _ _).mpr (.inr rfl), hl.running g op _ hrun⟩
  · intro e n hlt
    rcases (hfin e n).mp hlt with hlt | heq
    · obtain ⟨op', result', hev⟩ := hl.complete e n hlt
      exact ⟨op', result', hmem hev⟩
    · cases heq
      exact ⟨op, result, mem_append_right _ (mem_singleton_self _)⟩
  · rw [World.finish, returnedCalls, filterMap_append]
    refine Nodup.append hl.nodup (nodup_singleton _) ?_
    intro call hcall hnew
    obtain rfl : call = (g, (w.threads g).finished) := mem_singleton.mp hnew
    obtain ⟨op', result', hev⟩ := mem_returnedCalls.mp hcall
    exact absurd (hl.returned _ _ _ _ hev).1 (Nat.lt_irrefl _)
  · intro call pos item hev
    rcases mem_append.mp hev with hev | hev
    · obtain ⟨x, hx, hpub⟩ := hl.obtained call pos item hev
      exact ⟨x, hx, hpub.mono fun _ => hmem⟩
    · rw [mem_singleton] at hev
      cases hev
  · rw [World.finish, dropCountedCalls, filterMap_append, length_append]
    exact hl.dropped

end Ledger

/-! ### The invariant of the ring -/

/-- **The invariant of the ring**: some view of the slot protocol simulates the
memory and the goroutines, the history agrees with that view, and every call has
left the effects its point or its result calls for. -/
structure World.Sound [DecidableEq G] (w : World G α) : Prop where
  view : ∃ v : View G, v.Ok ∧ Simulates v w ∧ Chronicle v w.history
  ledger : Ledger w

/-- The slots of a fresh ring are free for the first lap. -/
def View.init (G : Type v) (capacity : ℕ) : View G where
  capacity := capacity
  readPos := 0
  writePos := 0
  stage := fun i => .free i

/-- The capacity is the least power of two above the requested one, and at least two. -/
theorem newRingBuffer_capacity_eq (capacity : Int64) :
    (newRingBuffer α capacity).capacity =
      max (2 ^ Nat.clog 2 (max capacity.toInt 0).toNat) 2 := by
  have hle : (max capacity.toInt 0).toNat ≤ 2 ^ 63 := by
    have := capacity.toInt_lt
    omega
  rw [newRingBuffer, nextPowerOfTwo_eq hle]

/-- The capacity is a power of two, at least two. -/
theorem newRingBuffer_capacity (capacity : Int64) :
    ∃ k, 0 < k ∧ (newRingBuffer α capacity).capacity = 2 ^ k := by
  rw [newRingBuffer_capacity_eq]
  rcases Nat.eq_zero_or_pos (Nat.clog 2 (max capacity.toInt 0).toNat) with hz | hpos
  · exact ⟨1, Nat.one_pos, by rw [hz]; rfl⟩
  · exact ⟨_, hpos, max_eq_left (Nat.le_self_pow hpos.ne' 2)⟩

/-- The mask of a ring takes a position modulo the capacity. -/
theorem and_mask_eq_mod (capacity : Int64) (pos : ℕ) :
    pos &&& (newRingBuffer α capacity).mask = pos % (newRingBuffer α capacity).capacity := by
  obtain ⟨k, -, hcap⟩ := newRingBuffer_capacity (α := α) capacity
  have hmask : (newRingBuffer α capacity).mask = 2 ^ k - 1 := congrArg (· - 1) hcap
  rw [hmask, hcap]
  exact Nat.and_two_pow_sub_one_eq_mod pos k

namespace World.Sound

variable [DecidableEq G] {w w' : World G α} {g : G} {op : Op α}

theorem init (capacity : Int64) : (World.init G α capacity).Sound := by
  obtain ⟨k, hk, hcap⟩ := newRingBuffer_capacity (α := α) capacity
  have htwo : 2 ≤ 2 ^ k := Nat.le_self_pow hk.ne' 2
  refine ⟨⟨View.init G (2 ^ k), ⟨htwo, le_rfl, Nat.zero_le _, ?_, ?_⟩, ?_, ?_⟩, .init capacity⟩
  · exact fun i hi => Nat.mod_eq_of_lt hi
  · exact fun i hi => ⟨Nat.zero_le _, (Nat.zero_add _).symm ▸ hi⟩
  · refine ⟨hcap, fun pos => ?_, rfl, rfl, fun i _ => rfl, nofun, nofun, nofun⟩
    have hindex : _ = pos % (newRingBuffer α capacity).capacity := and_mask_eq_mod capacity pos
    rwa [hcap] at hindex
  · refine ⟨nodup_nil, fun p => ?_, rfl⟩
    constructor
    · nofun
    · rintro ⟨hlt, -⟩
      exact absurd hlt (Nat.not_lt_zero _)

variable (hw : w.Sound)
include hw

/-- Starting a call keeps the invariant: the first point of a call relies on
nothing. -/
theorem start (hstart : w.start g op = some w') : w'.Sound := by
  refine ⟨?_, hw.ledger.start hstart⟩
  obtain ⟨v, hv, hs, hc⟩ := hw.view
  obtain ⟨hidle, rfl⟩ := World.start_eq_some hstart
  refine ⟨v, hv, ⟨hs.capacity, hs.index, hs.readPos, hs.writePos, hs.slots, ?_, ?_, ?_⟩, hc⟩
  · intro e op' pc hrun
    rcases running_update.mp hrun with ⟨rfl, hrun⟩ | ⟨-, hrun⟩
    · cases hrun
      rcases op with (_ | item) | (_ | item) | _ | _ <;> trivial
    · exact hs.claims e op' pc hrun
  · intro e op' pc hrun
    rcases running_update.mp hrun with ⟨rfl, hrun⟩ | ⟨-, hrun⟩
    · cases hrun
      rcases op with (_ | item) | (_ | item) | _ | _ <;> trivial
    · exact hs.stored e op' pc hrun
  · intro i hi hold pos e hst
    obtain ⟨op', pc, hrun, hholds⟩ := hs.owners i hi hold pos e hst
    refine ⟨op', pc, running_update.mpr (.inr ⟨?_, hrun⟩), hholds⟩
    rintro rfl
    rw [hidle] at hrun
    cases hrun

/-- What an access reads from a slot it has claimed is the item published there. -/
theorem obtained_published {pc : Pc α}
    (hrun : (w.threads g).running = some (op, pc)) (pos : ℕ) (item : Option α)
    (heff : (w.ring.exec pc).2.2 = some (.obtained pos item)) :
    ∃ x, item = some x ∧ Published w.history pos x := by
  obtain ⟨v, -, hs, -⟩ := hw.view
  have hst := hs.stored g op pc hrun
  cases pc <;> simp only [RingBuffer.exec] at heff <;> (try split_ifs at heff) <;> cases heff
  · exact hst
  · exact hst

theorem perform {pc : Pc α} (hrun : (w.threads g).running = some (op, pc)) :
    (w.perform g op pc).Sound := by
  refine ⟨?_, hw.ledger.perform hrun (hw.obtained_published hrun)⟩
  obtain ⟨v, hv, hs, hc⟩ := hw.view
  obtain ⟨v', hm, hs'⟩ := hs.access hv hrun
  exact ⟨v', hm.ok hv, hs', hc.of_move hm hv⟩

theorem finish {result : Result α}
    (hrun : (w.threads g).running = some (op, .ret result)) :
    (w.finish g op result).Sound := by
  refine ⟨?_, hw.ledger.finish hrun⟩
  obtain ⟨v, hv, hs, hc⟩ := hw.view
  have hsub : w.history ⊆ (w.finish g op result).history := subset_append_left _ _
  refine ⟨v, hv, ⟨hs.capacity, hs.index, hs.readPos, hs.writePos,
    fun i hi => (hs.slots i hi).mono hsub, ?_, ?_, ?_⟩, ?_⟩
  · intro e op' pc hrun'
    rcases running_update.mp hrun' with ⟨rfl, hrun'⟩ | ⟨-, hrun'⟩
    · cases hrun'
    · exact hs.claims e op' pc hrun'
  · intro e op' pc hrun'
    rcases running_update.mp hrun' with ⟨rfl, hrun'⟩ | ⟨-, hrun'⟩
    · cases hrun'
    · exact (hs.stored e op' pc hrun').of_items hsub (hs.claims e op' pc hrun') hs.index rfl
        fun _ _ _ _ => rfl
  · intro i hi hold pos e hst
    obtain ⟨op', pc, hrun', hholds⟩ := hs.owners i hi hold pos e hst
    refine ⟨op', pc, running_update.mpr (.inr ⟨?_, hrun'⟩), hholds⟩
    rintro rfl
    rw [hrun] at hrun'
    cases hrun'
    cases hholds
  · have hpub : publishedPositions (w.finish g op result).history =
        publishedPositions w.history := by
      rw [World.finish, publishedPositions, filterMap_append]
      exact append_nil _
    have hclm : claimedPositions (w.finish g op result).history =
        claimedPositions w.history := by
      rw [World.finish, claimedPositions, filterMap_append]
      exact append_nil _
    exact ⟨hpub ▸ hc.nodup, hpub ▸ hc.mem_iff, hclm ▸ hc.claimed⟩

/-- An access of a running call, whether it returns or not, keeps the invariant. -/
theorem access {result : Option (Result α)}
    (haccess : w.access g = some (w', result)) : w'.Sound := by
  rw [World.access] at haccess
  split at haccess
  · cases haccess
  · cases haccess
    exact hw.finish ‹_›
  · cases haccess
    exact hw.perform ‹_›

end World.Sound

/-- **Every state of every run of the ring satisfies the invariant.** -/
theorem sound_of_reach [DecidableEq G] {capacity : Int64} {w : World G α}
    (h : (ringSystem G α capacity).Reach w) : w.Sound := by
  refine h.invariant (.init capacity) ?_
  rintro w (⟨g, op⟩ | g) w' - hw - hstep
  · exact hw.start hstep
  · obtain ⟨⟨w'', result⟩, haccess, rfl⟩ := Option.map_eq_some_iff.mp hstep
    exact hw.access haccess

end ConvoyStats.Transport
