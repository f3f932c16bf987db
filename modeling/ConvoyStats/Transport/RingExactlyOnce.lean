import ConvoyStats.Library.NodupLists
import ConvoyStats.Transport.RingHistory

/-!
# Exactly-once delivery

The calls of a run and the positions of the ring determine each other: a push
publishes at one position or none, a pop or an eviction takes from one position
or none, no position is published or taken twice, and what is taken is what was
published there.  `Leaves` joins the two sides.

`ExactlyOnce` collects what that means for the callers, and
`ring_exactly_once` proves it of every state of every run, for any requested
capacity, any number of goroutines and any interleaving of their accesses.  The
last two fields speak of the moments at which no call is in progress; there the
ring is read out by the code's own `Pop`, run to completion by one goroutine.
-/

namespace ConvoyStats.Transport

open List

universe u v

variable {G : Type v} {α : Type u}

/-! ### What the callers see -/

/-- The push an event reports as successful, with its item. -/
def Event.accepted? : Event G α → Option (Call G × α)
  | .returned call (.push (some item)) (.push true)
  | .returned call (.pushDropOldest (some item)) (.pushDropOldest _ true) => some (call, item)
  | _ => none

/-- The push of a non-nil item an event reports as failed. -/
def Event.rejected? : Event G α → Option (Call G)
  | .returned call (.push (some _)) (.push false)
  | .returned call (.pushDropOldest (some _)) (.pushDropOldest _ false) => some call
  | _ => none

/-- The pop an event reports as successful, with its item. -/
def Event.popped? : Event G α → Option (Call G × α)
  | .returned call _ (.pop (some item)) => some (call, item)
  | _ => none

/-- The eviction an event reports, with the evicted item. -/
def Event.evicted? : Event G α → Option (Call G × α)
  | .returned call _ (.pushDropOldest (some item) _) => some (call, item)
  | _ => none

/-- The pushes that reported success. -/
def accepted (h : List (Event G α)) : List (Call G × α) := h.filterMap Event.accepted?

/-- The pushes of non-nil items that reported failure. -/
def rejected (h : List (Event G α)) : List (Call G) := h.filterMap Event.rejected?

/-- The pops that returned an item. -/
def popped (h : List (Event G α)) : List (Call G × α) := h.filterMap Event.popped?

/-- The `PushDropOldest` calls that returned an evicted item. -/
def evicted (h : List (Event G α)) : List (Call G × α) := h.filterMap Event.evicted?

/-- The item pushed by the call `src` has left the ring with the call `dst`. -/
def Leaves (h : List (Event G α)) (src dst : Call G) (pos : ℕ) (item : α) : Prop :=
  .effect src (.published pos item) ∈ h ∧ .effect dst (.obtained pos (some item)) ∈ h

section Alone

variable [DecidableEq G]

/-- Run the call `g` is in until it returns, for at most `fuel` accesses. -/
def World.finishCall (g : G) : ℕ → World G α → Option (World G α × Result α)
  | 0, _ => none
  | fuel + 1, w =>
    match w.access g with
    | none => none
    | some (w', some result) => some (w', result)
    | some (w', none) => finishCall g fuel w'

/-- One `Pop` by `g` with nobody else running: nine accesses at most. -/
def World.popAlone (w : World G α) (g : G) : Option (World G α × Result α) :=
  (w.start g .pop).bind (World.finishCall g 9)

/-- `Pop` until it returns nil, for at most `fuel` calls. -/
def World.popUntilNil (g : G) : ℕ → World G α → Option (World G α × List α)
  | 0, _ => none
  | fuel + 1, w =>
    match w.popAlone g with
    | some (w', .pop none) => some (w', [])
    | some (w', .pop (some item)) =>
      (popUntilNil g fuel w').map fun (w'', items) => (w'', item :: items)
    | _ => none

end Alone

/-- **Exactly-once delivery**, as the callers of the ring see it. -/
structure ExactlyOnce [DecidableEq G] (w : World G α) : Prop where
  /-- A successful push has put its item into the ring at exactly one position. -/
  accepted_published : ∀ src item, (src, item) ∈ accepted w.history →
    ∃! pos, .effect src (.published pos item) ∈ w.history
  /-- It leaves at most once. -/
  leaves_once : ∀ src dst dst' pos pos' item item', Leaves w.history src dst pos item →
    Leaves w.history src dst' pos' item' → dst = dst' ∧ pos = pos' ∧ item = item'
  /-- Whatever a pop returns or an eviction hands back was pushed by exactly one
  call and has left with this one. -/
  returned_leaves : ∀ dst item,
    (dst, item) ∈ popped w.history ∨ (dst, item) ∈ evicted w.history →
    ∃! src, ∃ pos, Leaves w.history src dst pos item
  /-- The call an item has left with reports it. -/
  leaves_returned : ∀ src dst pos item op result, Leaves w.history src dst pos item →
    .returned dst op result ∈ w.history →
    (dst, item) ∈ popped w.history ∨ (dst, item) ∈ evicted w.history
  /-- No item is both popped and evicted. -/
  popped_or_evicted : ∀ src dst dst' pos pos' item item', Leaves w.history src dst pos item →
    Leaves w.history src dst' pos' item' → (dst, item) ∈ popped w.history →
    (dst', item') ∉ evicted w.history
  /-- A failed push, also of a nil item, never puts anything into the ring. -/
  failed_nothing : ∀ src evict item,
    .returned src (.ofPush evict item) (RingBuffer.pushResult evict false) ∈ w.history →
    ∀ pos x, .effect src (.published pos x) ∉ w.history
  /-- The item obtained at a position is the one published there. -/
  obtained_published : ∀ dst pos item, .effect dst (.obtained pos item) ∈ w.history →
    ∃ x, item = some x ∧ ∀ y, Published w.history pos y ↔ y = x
  /-- Positions are taken in increasing order, without gaps. -/
  in_order : claimedPositions w.history = range w.ring.readPos
  /-- A call obtains an item only at the position it has taken. -/
  obtained_claimed : ∀ dst pos item, .effect dst (.obtained pos item) ∈ w.history →
    .effect dst (.claimed pos) ∈ w.history
  /-- With no call in progress, popping until nil yields exactly the accepted items
  that were neither popped nor evicted, each once. -/
  drained : w.Quiescent → ∀ g fuel, w.ring.writePos - w.ring.readPos < fuel →
    ∃ (w' : World G α) (rest : List (Call G × α)),
      w.popUntilNil g fuel = some (w', rest.map Prod.snd) ∧ rest.Nodup ∧
      ∀ src item, (src, item) ∈ rest ↔ (src, item) ∈ accepted w.history ∧
        ∀ dst pos, Leaves w.history src dst pos item →
          (dst, item) ∉ popped w.history ∧ (dst, item) ∉ evicted w.history
  /-- With no call in progress, `Dropped` counts the rejections and the evictions. -/
  dropped : w.Quiescent →
    w.ring.dropped = (rejected w.history).length + (evicted w.history).length

/-! ### The effects of one call -/

/-- The effects a call can have left, finished or not. -/
inductive Shape : List (Effect α) → Prop
  | nil : Shape []
  | counted : Shape [.dropCounted]
  | published (pos : ℕ) (item : α) : Shape [.published pos item]
  | claimed (pos : ℕ) : Shape [.claimed pos]
  | taken (pos : ℕ) (item : α) : Shape [.claimed pos, .obtained pos (some item)]
  | replaced (readPos writePos : ℕ) (item old : α) :
      Shape [.claimed readPos, .obtained readPos (some old), .published writePos item]
  | evicted (readPos writePos : ℕ) (item old : α) :
      Shape [.claimed readPos, .obtained readPos (some old), .published writePos item,
        .dropCounted]

variable {op : Op α} {result : Result α}

theorem Outcome.shape {effects : List (Effect α)} (h : Outcome op result effects) :
    Shape effects := by
  cases h <;> constructor

namespace Outcome

variable {op : Op α} {result : Result α} {effects : List (Effect α)}

variable (h : Outcome op result effects)
include h

/-- A finished call has published exactly if it reports a successful push. -/
theorem published_iff (item : α) :
    (∃ pos, .published pos item ∈ effects) ↔
      (op = .push (some item) ∧ result = .push true) ∨
      (op = .pushDropOldest (some item) ∧ ∃ old, result = .pushDropOldest old true) := by
  rcases h with ⟨evict, x, pos⟩ | ⟨evict, x⟩ | evict | ⟨x, old, r, p⟩ | ⟨wait, x, pos⟩ | wait
  · cases evict <;> simp [Op.ofPush, RingBuffer.pushResult, eq_comm]
  · cases evict <;> simp [Op.ofPush, RingBuffer.pushResult]
  · cases evict <;> simp [Op.ofPush, RingBuffer.pushResult]
  · simp [eq_comm]
  · cases wait <;> simp [Op.ofPop]
  · cases wait <;> simp [Op.ofPop]

/-- A finished call has obtained an item exactly if it reports it. -/
theorem obtained_iff (item : α) :
    (∃ pos, .obtained pos (some item) ∈ effects) ↔
      result = .pop (some item) ∨ ∃ ok, result = .pushDropOldest (some item) ok := by
  rcases h with ⟨evict, x, pos⟩ | ⟨evict, x⟩ | evict | ⟨x, old, r, p⟩ | ⟨wait, x, pos⟩ | wait
  · cases evict <;> simp [RingBuffer.pushResult]
  · cases evict <;> simp [RingBuffer.pushResult]
  · cases evict <;> simp [RingBuffer.pushResult]
  · simp [eq_comm]
  · simp [eq_comm]
  · simp

/-- A finished call has counted a drop exactly if it reports the rejection of a
non-nil item or an eviction. -/
theorem dropCounted_iff :
    .dropCounted ∈ effects ↔
      ((∃ item, op = .push (some item)) ∧ result = .push false) ∨
      ((∃ item, op = .pushDropOldest (some item)) ∧
        ∃ old, result = .pushDropOldest old false) ∨
      ∃ item ok, result = .pushDropOldest (some item) ok := by
  rcases h with ⟨evict, x, pos⟩ | ⟨evict, x⟩ | evict | ⟨x, old, r, p⟩ | ⟨wait, x, pos⟩ | wait
  · cases evict <;> simp [Op.ofPush, RingBuffer.pushResult]
  · cases evict <;> simp [Op.ofPush, RingBuffer.pushResult]
  · cases evict <;> simp [Op.ofPush, RingBuffer.pushResult]
  · simp
  · cases wait <;> simp [Op.ofPop]
  · cases wait <;> simp [Op.ofPop]

/-- A finished call that has claimed a position has obtained an item there. -/
theorem obtained_of_claimed {pos : ℕ}
    (hc : .claimed pos ∈ effects) : ∃ item, .obtained pos (some item) ∈ effects := by
  rcases h with ⟨evict, x, p⟩ | ⟨evict, x⟩ | evict | ⟨x, old, r, p⟩ | ⟨wait, x, p⟩ | wait <;>
    simp_all

/-- No eviction is reported together with a failure, nor by a `Push`. -/
theorem evicted_ok {old : α} {ok : Bool}
    (hr : result = .pushDropOldest (some old) ok) :
    ok = true ∧ ∃ item, op = .pushDropOldest (some item) := by
  rcases h with ⟨evict, x, pos⟩ | ⟨evict, x⟩ | evict | ⟨x, old, r, p⟩ | ⟨wait, x, pos⟩ | wait
  · cases evict <;> simp [RingBuffer.pushResult] at hr
  · cases evict <;> simp [RingBuffer.pushResult] at hr
  · cases evict <;> simp [RingBuffer.pushResult] at hr
  · cases hr
    exact ⟨rfl, x, rfl⟩
  · cases hr
  · cases hr

end Outcome

theorem Pc.Progress.shape {effects : List (Effect α)} {pc : Pc α} (hp : pc.Progress op effects) :
    Shape effects := by
  cases pc <;> simp only [Pc.Progress] at hp
  case reject =>
    obtain ⟨item, -, rfl⟩ := hp
    exact .nil
  case replaceStoreWrite | replaceStoreItem | replaceStoreSeq =>
    obtain ⟨-, x, -, rfl⟩ := hp
    exact .taken _ x
  case replaceRemoved | replaceDropped =>
    obtain ⟨-, x, -, rfl⟩ := hp
    exact .replaced _ _ _ x
  case replaceAdded =>
    obtain ⟨-, x, -, rfl⟩ := hp
    exact .evicted _ _ _ x
  case popLoadItem =>
    obtain ⟨wait, -, rfl⟩ := hp
    exact .claimed _
  case popClearItem | popStoreSeq | popRemoved =>
    obtain ⟨wait, x, -, -, rfl⟩ := hp
    exact .taken _ x
  case ret => exact hp.shape
  all_goals
    obtain ⟨-, rfl⟩ := hp
    constructor

namespace Shape

variable {effects : List (Effect α)}

variable {pos pos' : ℕ}

variable (h : Shape effects)
include h

/-- A call publishes at most once. -/
theorem published_unique {item item' : α} (hp : .published pos item ∈ effects)
    (hp' : .published pos' item' ∈ effects) : pos = pos' ∧ item = item' := by
  cases h <;> simp_all

/-- What a call reads, it reads at the position it has claimed. -/
theorem claimed_of_obtained {item : Option α}
    (ho : .obtained pos item ∈ effects) : .claimed pos ∈ effects := by
  cases h <;> simp_all

/-- A call reads at most one item. -/
theorem obtained_unique {item item' : Option α}
    (ho : .obtained pos item ∈ effects) (ho' : .obtained pos' item' ∈ effects) :
    pos = pos' ∧ item = item' := by
  cases h <;> simp_all

/-- A call counts at most one drop. -/
theorem countP_dropCounted_le :
    effects.countP (fun e => e matches .dropCounted) ≤ 1 := by
  cases h <;> simp

end Shape

/-! ### Calls and positions determine each other -/

section Sound

variable [DecidableEq G] {w : World G α}

/-- Every call of the run, finished, running or not yet started. -/
theorem Ledger.shape (hl : Ledger w) (call : Call G) : Shape (callEffects w.history call) := by
  obtain ⟨g, n⟩ := call
  rcases Nat.lt_or_ge n (w.threads g).finished with hlt | hge
  · obtain ⟨op, result, hev⟩ := hl.complete g n hlt
    exact (hl.returned g n op result hev).2.shape
  · by_cases hidle : (w.threads g).finished = n → (w.threads g).running = none
    · rw [hl.future g n hge hidle]
      exact .nil
    · obtain ⟨rfl, hrun⟩ := Classical.not_imp.mp hidle
      obtain ⟨⟨op, pc⟩, hrun⟩ := Option.ne_none_iff_exists'.mp hrun
      exact (hl.running g op pc hrun).shape

theorem count_dropCountedCalls (h : List (Event G α)) (call : Call G) :
    (dropCountedCalls h).count call =
      (callEffects h call).countP (fun e => e matches .dropCounted) := by
  induction h with
  | nil => rfl
  | cons ev h ih =>
    rcases ev with ⟨c, e⟩ | _
    · by_cases hc : c = call
      · subst hc
        cases e <;> simp_all [dropCountedCalls, callEffects, Event.effectOf?]
      · cases e <;> simp_all [dropCountedCalls, callEffects, Event.effectOf?]
    · exact ih

namespace World.Sound

variable {call call' : Call G} {pos : ℕ}

variable (hw : w.Sound)
include hw

/-- A call publishes at most once. -/
theorem published_unique {pos' : ℕ} {item item' : α}
    (hp : .effect call (.published pos item) ∈ w.history)
    (hp' : .effect call (.published pos' item') ∈ w.history) : pos = pos' ∧ item = item' :=
  (hw.ledger.shape call).published_unique (mem_callEffects.mpr hp) (mem_callEffects.mpr hp')

/-- A position is published by one call, with one item. -/
theorem published_inj {item item' : α}
    (hp : .effect call (.published pos item) ∈ w.history)
    (hp' : .effect call' (.published pos item') ∈ w.history) : call = call' ∧ item = item' := by
  obtain ⟨v, -, -, hc⟩ := hw.view
  have heq := eq_of_nodup_filterMap hc.nodup hp hp' rfl rfl
  cases heq
  exact ⟨rfl, rfl⟩

/-- A position is claimed by one call. -/
theorem claimed_inj (hc : .effect call (.claimed pos) ∈ w.history)
    (hc' : .effect call' (.claimed pos) ∈ w.history) : call = call' := by
  obtain ⟨v, -, -, hchron⟩ := hw.view
  have hnodup : (claimedPositions w.history).Nodup := hchron.claimed ▸ nodup_range
  have heq := eq_of_nodup_filterMap hnodup hc hc' rfl rfl
  cases heq
  rfl

/-- The claimed positions are those below `readPos`. -/
theorem in_order :
    claimedPositions w.history = range w.ring.readPos := by
  obtain ⟨v, -, hs, hc⟩ := hw.view
  rw [hs.readPos]
  exact hc.claimed

theorem exists_claimed_iff :
    (∃ call, .effect call (.claimed pos) ∈ w.history) ↔ pos < w.ring.readPos := by
  rw [← mem_range, ← hw.in_order, claimedPositions, mem_filterMap]
  constructor
  · rintro ⟨call, hmem⟩
    exact ⟨_, hmem, rfl⟩
  · rintro ⟨ev, hmem, hev⟩
    rcases ev with ⟨call, _ | _ | _ | _⟩ | _ <;> cases hev
    exact ⟨call, hmem⟩

/-- A call obtains only at the position it has claimed. -/
theorem obtained_claimed {item : Option α}
    (ho : .effect call (.obtained pos item) ∈ w.history) :
    .effect call (.claimed pos) ∈ w.history :=
  mem_callEffects.mp
    ((hw.ledger.shape call).claimed_of_obtained (mem_callEffects.mpr ho))

/-- A position is obtained by one call. -/
theorem obtained_inj {item item' : Option α}
    (ho : .effect call (.obtained pos item) ∈ w.history)
    (ho' : .effect call' (.obtained pos item') ∈ w.history) :
    call = call' := hw.claimed_inj (hw.obtained_claimed ho) (hw.obtained_claimed ho')

/-- What is obtained at a position has been published there. -/
theorem published_of_obtained {item : α}
    (ho : .effect call (.obtained pos (some item)) ∈ w.history) :
    Published w.history pos item := by
  obtain ⟨x, hx, hpub⟩ := hw.ledger.obtained _ _ _ ho
  cases hx
  exact hpub

/-- One item is published at a position. -/
theorem item_unique {item item' : α} (hp : Published w.history pos item)
    (hp' : Published w.history pos item') : item = item' := by
  obtain ⟨call, hp⟩ := hp
  obtain ⟨call', hp'⟩ := hp'
  exact (hw.published_inj hp hp').2

/-- A returned call has the outcome its effects show. -/
theorem outcome (hr : .returned call op result ∈ w.history) :
    Outcome op result (callEffects w.history call) :=
  (hw.ledger.returned call.1 call.2 op result hr).2

/-- A returned call has obtained what it has claimed. -/
theorem obtained_of_claimed (hr : .returned call op result ∈ w.history)
    (hc : .effect call (.claimed pos) ∈ w.history) :
    ∃ item, .effect call (.obtained pos (some item)) ∈ w.history := by
  obtain ⟨item, ho⟩ := (hw.outcome hr).obtained_of_claimed (mem_callEffects.mpr hc)
  exact ⟨item, mem_callEffects.mp ho⟩

/-- A call returns once. -/
theorem returned_unique {op' : Op α} {result' : Result α}
    (hr : .returned call op result ∈ w.history) (hr' : .returned call op' result' ∈ w.history) :
    op = op' ∧ result = result' := by
  have heq := eq_of_nodup_filterMap hw.ledger.nodup hr hr' rfl rfl
  cases heq
  exact ⟨rfl, rfl⟩

end World.Sound

end Sound

/-! ### The caller's lists in terms of events -/

variable {h : List (Event G α)} {call : Call G} {item : α}

theorem mem_accepted :
    (call, item) ∈ accepted h ↔
      .returned call (.push (some item)) (.push true) ∈ h ∨
      ∃ old, .returned call (.pushDropOldest (some item)) (.pushDropOldest old true) ∈ h := by
  rw [accepted, mem_filterMap]
  constructor
  · rintro ⟨ev, hmem, hev⟩
    unfold Event.accepted? at hev
    split at hev <;> cases hev
    · exact .inl hmem
    · exact .inr ⟨_, hmem⟩
  · rintro (hmem | ⟨old, hmem⟩)
    · exact ⟨_, hmem, rfl⟩
    · exact ⟨_, hmem, rfl⟩

theorem mem_rejected :
    call ∈ rejected h ↔ (∃ item, .returned call (.push (some item)) (.push false) ∈ h) ∨
      ∃ item old,
        .returned call (.pushDropOldest (some item)) (.pushDropOldest old false) ∈ h := by
  rw [rejected, mem_filterMap]
  constructor
  · rintro ⟨ev, hmem, hev⟩
    unfold Event.rejected? at hev
    split at hev <;> cases hev
    · exact .inl ⟨_, hmem⟩
    · exact .inr ⟨_, _, hmem⟩
  · rintro (⟨item, hmem⟩ | ⟨item, old, hmem⟩)
    · exact ⟨_, hmem, rfl⟩
    · exact ⟨_, hmem, rfl⟩

theorem mem_dropCountedCalls : call ∈ dropCountedCalls h ↔ .effect call .dropCounted ∈ h := by
  rw [dropCountedCalls, mem_filterMap]
  constructor
  · rintro ⟨ev, hmem, hev⟩
    split at hev <;> cases hev
    exact hmem
  · intro hmem
    exact ⟨_, hmem, rfl⟩

theorem mem_popped : (call, item) ∈ popped h ↔ ∃ op, .returned call op (.pop (some item)) ∈ h := by
  rw [popped, mem_filterMap]
  constructor
  · rintro ⟨ev, hmem, hev⟩
    unfold Event.popped? at hev
    split at hev <;> cases hev
    exact ⟨_, hmem⟩
  · rintro ⟨op, hmem⟩
    exact ⟨_, hmem, rfl⟩

theorem mem_evicted :
    (call, item) ∈ evicted h ↔
      ∃ op ok, .returned call op (.pushDropOldest (some item) ok) ∈ h := by
  rw [evicted, mem_filterMap]
  constructor
  · rintro ⟨ev, hmem, hev⟩
    unfold Event.evicted? at hev
    split at hev <;> cases hev
    exact ⟨_, _, hmem⟩
  · rintro ⟨op, ok, hmem⟩
    exact ⟨_, hmem, rfl⟩

/-! ### Reading the ring out when no call is in progress -/

section Quiescent

variable [DecidableEq G] {w : World G α} {g : G}

/-- With no call in progress nobody holds a slot, so every position between the
counters is full. -/
theorem World.Sound.slot_of_quiescent (hw : w.Sound) (hq : w.Quiescent) {p : ℕ}
    (hread : w.ring.readPos ≤ p) (hwrite : p < w.ring.writePos) :
    (w.ring.slot p).seq = p + 1 ∧
      ∃ item, (w.ring.slot p).item = some item ∧ Published w.history p item := by
  obtain ⟨v, hv, hs, -⟩ := hw.view
  rw [hs.readPos] at hread
  rw [hs.writePos] at hwrite
  have henc := hs.encodes_at hv p
  have hb := hv.bounds_at p
  have hpos := Simulates.pos_mod_eq hv p
  have hfit := hv.write_le_read
  -- positions of one slot that are less than a lap apart are equal
  have hlap : ∀ {q : ℕ}, q % v.capacity = p % v.capacity → v.readPos ≤ q →
      q < v.readPos + v.capacity → q = p := by
    intro q hmod hlow hhigh
    rcases Nat.le_total p q with hle | hle
    · have := (Nat.modEq_iff_dvd' hle).mp hmod.symm
      have := Nat.eq_zero_of_dvd_of_lt this (by omega)
      omega
    · have := (Nat.modEq_iff_dvd' hle).mp hmod
      have := Nat.eq_zero_of_dvd_of_lt this (by omega)
      omega
  cases hst : v.stageAt p with
  | free q =>
    rw [hst] at hb hpos
    obtain rfl : q = p := hlap hpos (hread.trans (hwrite.le.trans hb.1)) hb.2
    exact absurd hb.1 (Nat.not_le.mpr hwrite)
  | full q =>
    rw [hst] at hb hpos henc
    obtain rfl : q = p := hlap hpos hb.1 (lt_of_lt_of_le hb.2 hfit)
    exact henc
  | held hold q e =>
    obtain ⟨op, pc, hrun, -⟩ := hs.owners _ (hv.mod_lt p) hold q e hst
    rw [hq e] at hrun
    cases hrun

/-- `w` with the memory, the history and the point of `g` replaced. -/
def World.during (w : World G α) (g : G) (op : Op α) (rb : RingBuffer α) (pc : Pc α)
    (h : List (Event G α)) : World G α where
  ring := rb
  threads := Function.update w.threads g ⟨(w.threads g).finished, some (op, pc)⟩
  history := h

/-- `w` with the memory and the history replaced and one more call of `g`
finished. -/
def World.after (w : World G α) (g : G) (rb : RingBuffer α) (h : List (Event G α)) :
    World G α where
  ring := rb
  threads := Function.update w.threads g ⟨(w.threads g).finished + 1, none⟩
  history := h

theorem World.start_eq_during (hidle : (w.threads g).running = none) (op : Op α) :
    w.start g op = some (w.during g op w.ring (Pc.start op) w.history) := by
  rw [World.start, hidle]
  rfl

theorem World.finishCall_during {rb rb' : RingBuffer α} {pc' : Pc α} {effect : Option (Effect α)}
    (fuel : ℕ) (pc : Pc α) (hret : ∀ result, pc ≠ .ret result)
    (hexec : rb.exec pc = (rb', pc', effect)) :
    World.finishCall g (fuel + 1) (w.during g op rb pc h) =
      World.finishCall g fuel (w.during g op rb' pc'
        (h ++ World.record (g, (w.threads g).finished) effect)) := by
  have hrun : ((w.during g op rb pc h).threads g).running = some (op, pc) := by
    simp [World.during]
  have haccess : (w.during g op rb pc h).access g =
      some ((w.during g op rb pc h).perform g op pc, none) := by
    rw [World.access, hrun]
    cases pc <;> first | rfl | exact absurd rfl (hret _)
  have hperform : (w.during g op rb pc h).perform g op pc = w.during g op rb' pc'
      (h ++ World.record (g, (w.threads g).finished) effect) := by
    simp [World.perform, World.during, hexec]
  rw [World.finishCall, haccess, hperform]

variable {result : Result α}

theorem World.finishCall_ret {rb : RingBuffer α} (fuel : ℕ) :
    World.finishCall g (fuel + 1) (w.during g op rb (.ret result) h) =
      some (w.after g rb (h ++ [.returned (g, (w.threads g).finished) op result]), result) := by
  have hrun : ((w.during g op rb (.ret result) h).threads g).running =
      some (op, .ret result) := by
    simp [World.during]
  have haccess : (w.during g op rb (.ret result) h).access g =
      some ((w.during g op rb (.ret result) h).finish g op result, some result) := by
    rw [World.access, hrun]
  rw [World.finishCall, haccess]
  simp [World.finish, World.during, World.after]

/-- A `Pop` of an empty ring returns nil and changes nothing. -/
theorem World.popAlone_empty (hidle : (w.threads g).running = none)
    (hempty : w.ring.writePos ≤ w.ring.readPos) :
    w.popAlone g = some (w.after g w.ring
      (w.history ++ [.returned (g, (w.threads g).finished) .pop (.pop none)]), .pop none) := by
  rw [World.popAlone, World.start_eq_during hidle, Option.bind_some, Pc.start,
    World.finishCall_during 8 (.popLoadRead true) nofun rfl,
    World.finishCall_during 7 (.popLoadWrite true w.ring.readPos) nofun (if_pos hempty),
    World.finishCall_ret]
  simp [World.record]

/-- A `Pop` with nobody else running takes the item at `readPos`. -/
theorem World.popAlone_full (hidle : (w.threads g).running = none)
    (hlt : w.ring.readPos < w.ring.writePos)
    (hseq : (w.ring.slot w.ring.readPos).seq = w.ring.readPos + 1)
    (hitem : (w.ring.slot w.ring.readPos).item = some item) :
    ∃ rb, rb.readPos = w.ring.readPos + 1 ∧ rb.writePos = w.ring.writePos ∧
      w.popAlone g = some (w.after g rb
        (w.history ++ World.record (g, (w.threads g).finished)
          (some (.claimed w.ring.readPos)) ++
          World.record (g, (w.threads g).finished)
            (some (.obtained w.ring.readPos (some item))) ++
          [.returned (g, (w.threads g).finished) .pop (.pop (some item))]),
        .pop (some item)) := by
  have hgt : ¬ (w.ring.slot w.ring.readPos).seq ≤ w.ring.readPos := by omega
  let r := w.ring.readPos
  let claimed : RingBuffer α := { w.ring with readPos := r + 1 }
  let released := (claimed.setItem r none).setSeq r (r + w.ring.capacity)
  refine ⟨{ released with removed := w.ring.removed + 1 }, rfl, rfl, ?_⟩
  have hload : claimed.exec (.popLoadItem r) =
      (claimed, .popClearItem r (some item), some (.obtained r (some item))) := by
    rw [← hitem]
    rfl
  rw [World.popAlone, World.start_eq_during hidle, Option.bind_some, Pc.start,
    World.finishCall_during 8 (.popLoadRead true) nofun rfl,
    World.finishCall_during 7 (.popLoadWrite true r) nofun (if_neg (Nat.not_le.mpr hlt)),
    World.finishCall_during 6 (.popLoadSeq true r) nofun
      ((if_neg hgt).trans (if_pos hseq)),
    World.finishCall_during 5 (.popCasRead true r) nofun (if_pos rfl),
    World.finishCall_during 4 (.popLoadItem r) nofun hload,
    World.finishCall_during 3 (.popClearItem r (some item)) nofun rfl,
    World.finishCall_during 2 (.popStoreSeq r (some item)) nofun rfl,
    World.finishCall_during 1 (.popRemoved r (some item)) nofun rfl,
    World.finishCall_ret]
  simp only [World.record, Option.map_none, Option.toList_none, append_nil]
  rfl

theorem World.Sound.finishCall (fuel : ℕ) {w' : World G α} (hw : w.Sound)
    (hcall : World.finishCall g fuel w = some (w', result)) : w'.Sound := by
  induction fuel generalizing w with
  | zero => cases hcall
  | succ fuel ih =>
    rw [World.finishCall] at hcall
    split at hcall
    · cases hcall
    · cases hcall
      exact hw.access ‹_›
    · exact ih (hw.access ‹_›) hcall

theorem World.Sound.popAlone {w' : World G α} (hw : w.Sound)
    (hpop : w.popAlone g = some (w', result)) : w'.Sound := by
  obtain ⟨w₁, hstart, hcall⟩ := Option.bind_eq_some_iff.mp hpop
  exact (hw.start hstart).finishCall 9 hcall

/-- **Reading the ring out.**  With no call in progress, popping until nil returns
the items between the counters, in the order of their positions. -/
theorem World.Sound.popUntilNil (hw : w.Sound) (hq : w.Quiescent) (g : G) (fuel : ℕ)
    (hfuel : w.ring.writePos - w.ring.readPos < fuel) :
    ∃ w' items, w.popUntilNil g fuel = some (w', items) ∧
      Forall₂ (Published w.history)
        (range' w.ring.readPos (w.ring.writePos - w.ring.readPos)) items := by
  induction fuel generalizing w with
  | zero => exact absurd hfuel (Nat.not_lt_zero _)
  | succ fuel ih =>
    rcases Nat.lt_or_ge w.ring.readPos w.ring.writePos with hlt | hge
    · obtain ⟨hseq, item, hitem, hpub⟩ := hw.slot_of_quiescent hq le_rfl hlt
      obtain ⟨rb, hread, hwrite, hpop⟩ := World.popAlone_full (hq g) hlt hseq hitem
      have hw₁ := hw.popAlone hpop
      generalize hw₁def : w.after g rb _ = w₁ at hpop hw₁
      have hring : w₁.ring = rb := by
        rw [← hw₁def]
        rfl
      have hq₁ : w₁.Quiescent := by
        intro e
        by_cases heq : e = g
        · simp [← hw₁def, World.after, heq]
        · simpa [← hw₁def, World.after, heq] using hq e
      -- a pop publishes nothing
      have hback : ∀ pos x, Published w₁.history pos x → Published w.history pos x := by
        rintro pos x ⟨call, hmem⟩
        refine ⟨call, ?_⟩
        simpa [← hw₁def, World.after, World.record] using hmem
      obtain ⟨w₂, items, hrest, hitems⟩ := ih hw₁ hq₁ (by rw [hring, hread, hwrite]; omega)
      refine ⟨w₂, item :: items, ?_, ?_⟩
      · rw [World.popUntilNil, hpop]
        simp [hrest]
      · rw [hring, hread, hwrite] at hitems
        have hcount : w.ring.writePos - w.ring.readPos =
            w.ring.writePos - (w.ring.readPos + 1) + 1 := by omega
        rw [hcount, range'_succ]
        exact .cons hpub (hitems.imp hback)
    · obtain ⟨w₁, hpop⟩ : ∃ w₁, w.popAlone g = some (w₁, .pop none) :=
        ⟨_, World.popAlone_empty (hq g) hge⟩
      refine ⟨w₁, [], ?_, ?_⟩
      · rw [World.popUntilNil, hpop]
      · rw [Nat.sub_eq_zero_of_le hge]
        exact .nil

end Quiescent

/-! ### The theorem -/

section Theorem

variable [DecidableEq G] {w : World G α}

namespace World.Sound

variable {src dst : Call G} {item : α} {pos : ℕ}

variable (hw : w.Sound)
include hw

/-- A successful push has published. -/
theorem published_of_accepted (hacc : (src, item) ∈ accepted w.history) :
    ∃ pos, .effect src (.published pos item) ∈ w.history := by
  have hout : ∃ pos, .published pos item ∈ callEffects w.history src := by
    rcases mem_accepted.mp hacc with hret | ⟨old, hret⟩
    · exact ((hw.outcome hret).published_iff item).mpr (.inl ⟨rfl, rfl⟩)
    · exact ((hw.outcome hret).published_iff item).mpr (.inr ⟨rfl, old, rfl⟩)
  exact hout.imp fun _ => mem_callEffects.mp

/-- A returned call that has published reports it. -/
theorem accepted_of_published (hret : .returned src op result ∈ w.history)
    (hpub : .effect src (.published pos item) ∈ w.history) : (src, item) ∈ accepted w.history := by
  have hout := ((hw.outcome hret).published_iff item).mp ⟨pos, mem_callEffects.mpr hpub⟩
  rcases hout with ⟨rfl, rfl⟩ | ⟨rfl, old, rfl⟩
  · exact mem_accepted.mpr (.inl hret)
  · exact mem_accepted.mpr (.inr ⟨old, hret⟩)

/-- Whatever a call hands out it has obtained. -/
theorem obtained_of_returned
    (hret : (dst, item) ∈ popped w.history ∨ (dst, item) ∈ evicted w.history) :
    ∃ pos, .effect dst (.obtained pos (some item)) ∈ w.history := by
  have hout : ∃ pos, .obtained pos (some item) ∈ callEffects w.history dst := by
    rcases hret with hpop | hev
    · obtain ⟨op, hmem⟩ := mem_popped.mp hpop
      exact ((hw.outcome hmem).obtained_iff item).mpr (.inl rfl)
    · obtain ⟨op, ok, hmem⟩ := mem_evicted.mp hev
      exact ((hw.outcome hmem).obtained_iff item).mpr (.inr ⟨ok, rfl⟩)
  exact hout.imp fun _ => mem_callEffects.mp

/-- A returned call that has obtained an item hands it out. -/
theorem returned_of_obtained (hret : .returned dst op result ∈ w.history)
    (ho : .effect dst (.obtained pos (some item)) ∈ w.history) :
    (dst, item) ∈ popped w.history ∨ (dst, item) ∈ evicted w.history := by
  have hout := ((hw.outcome hret).obtained_iff item).mp ⟨pos, mem_callEffects.mpr ho⟩
  rcases hout with rfl | ⟨ok, rfl⟩
  · exact .inl (mem_popped.mpr ⟨op, hret⟩)
  · exact .inr (mem_evicted.mpr ⟨op, ok, hret⟩)

theorem leaves_once {dst' : Call G} {pos' : ℕ} {item' : α}
    (h : Leaves w.history src dst pos item) (h' : Leaves w.history src dst' pos' item') :
    dst = dst' ∧ pos = pos' ∧ item = item' := by
  obtain ⟨rfl, rfl⟩ := hw.published_unique h.1 h'.1
  exact ⟨hw.obtained_inj h.2 h'.2, rfl, rfl⟩

/-- With no call in progress, every call with an effect has returned. -/
theorem returned_of_quiescent (hq : w.Quiescent) {e : Effect α}
    (hmem : .effect call e ∈ w.history) : ∃ op result, .returned call op result ∈ w.history := by
  rcases Nat.lt_or_ge call.2 (w.threads call.1).finished with hlt | hge
  · exact hw.ledger.complete call.1 call.2 hlt
  · have hnil := hw.ledger.future call.1 call.2 hge fun _ => hq call.1
    rw [← mem_callEffects, hnil] at hmem
    cases hmem

/-- With no call in progress, the items between the counters are the accepted ones
that have not left. -/
theorem accepted_and_stays_iff (hq : w.Quiescent) (src : Call G) (item : α) :
    ((src, item) ∈ accepted w.history ∧ ∀ dst pos, Leaves w.history src dst pos item →
        (dst, item) ∉ popped w.history ∧ (dst, item) ∉ evicted w.history) ↔
      ∃ pos, w.ring.readPos ≤ pos ∧ pos < w.ring.writePos ∧
        .effect src (.published pos item) ∈ w.history := by
  constructor
  · rintro ⟨hacc, hstay⟩
    obtain ⟨pos, hpub⟩ := hw.published_of_accepted hacc
    refine ⟨pos, ?_, ?_, hpub⟩
    · by_contra hlt
      -- a claimed position was handed out by the call that claimed it
      obtain ⟨dst, hclaim⟩ := hw.exists_claimed_iff.mpr (Nat.not_le.mp hlt)
      obtain ⟨op, result, hret⟩ := hw.returned_of_quiescent hq hclaim
      obtain ⟨x, hobt⟩ := hw.obtained_of_claimed hret hclaim
      obtain rfl := hw.item_unique ⟨src, hpub⟩ (hw.published_of_obtained hobt)
      rcases hw.returned_of_obtained hret hobt with hp | he
      · exact (hstay dst pos ⟨hpub, hobt⟩).1 hp
      · exact (hstay dst pos ⟨hpub, hobt⟩).2 he
    · obtain ⟨v, -, hs, hc⟩ := hw.view
      rw [hs.writePos]
      exact ((hc.mem_iff pos).mp (mem_filterMap.mpr ⟨_, hpub, rfl⟩)).1
  · rintro ⟨pos, hread, -, hpub⟩
    obtain ⟨op, result, hret⟩ := hw.returned_of_quiescent hq hpub
    refine ⟨hw.accepted_of_published hret hpub, ?_⟩
    rintro dst pos' ⟨hpub', hobt⟩
    obtain ⟨rfl, -⟩ := hw.published_unique hpub hpub'
    exact absurd (hw.exists_claimed_iff.mp ⟨dst, hw.obtained_claimed hobt⟩)
      (Nat.not_lt.mpr hread)

theorem drained (hq : w.Quiescent) (g : G) (fuel : ℕ)
    (hfuel : w.ring.writePos - w.ring.readPos < fuel) :
    ∃ (w' : World G α) (rest : List (Call G × α)),
      w.popUntilNil g fuel = some (w', rest.map Prod.snd) ∧ rest.Nodup ∧
      ∀ src item, (src, item) ∈ rest ↔ (src, item) ∈ accepted w.history ∧
        ∀ dst pos, Leaves w.history src dst pos item →
          (dst, item) ∉ popped w.history ∧ (dst, item) ∉ evicted w.history := by
  obtain ⟨w', items, hpop, hitems⟩ := hw.popUntilNil hq g fuel hfuel
  obtain ⟨rest, rfl, hrest⟩ := Forall₂.exists_choice hitems
  refine ⟨w', rest, hpop, ?_, fun src item => ?_⟩
  · exact hrest.nodup_right nodup_range' fun a a' c ha ha' =>
      (hw.published_unique ha ha').1
  · rw [hw.accepted_and_stays_iff hq]
    constructor
    · intro hmem
      obtain ⟨pos, hpos, hpub⟩ := hrest.exists_left_of_mem hmem
      rw [mem_range'_1] at hpos
      exact ⟨pos, hpos.1, by omega, hpub⟩
    · rintro ⟨pos, hread, hwrite, hpub⟩
      obtain ⟨⟨src', item'⟩, hmem, hpub'⟩ := hrest.exists_right_of_mem
        (mem_range'_1.mpr ⟨hread, by omega⟩)
      obtain ⟨rfl, rfl⟩ := hw.published_inj hpub hpub'
      exact hmem

/-- The rejections and the evictions are different calls. -/
theorem nodup_rejected_evicted :
    (rejected w.history ++ (evicted w.history).map Prod.fst).Nodup := by
  have hrej : (rejected w.history).Nodup := by
    refine hw.ledger.nodup.sublist (filterMap_sublist_filterMap ?_ _)
    intro ev call hev
    unfold Event.rejected? at hev
    split at hev <;> cases hev <;> rfl
  have hevi : ((evicted w.history).map Prod.fst).Nodup := by
    rw [evicted, map_filterMap]
    refine hw.ledger.nodup.sublist (filterMap_sublist_filterMap ?_ _)
    intro ev call hev
    unfold Event.evicted? at hev
    split at hev <;> cases hev
    rfl
  refine hrej.append hevi fun call hmem hmem' => ?_
  obtain ⟨⟨_, old⟩, hpair, rfl⟩ := mem_map.mp hmem'
  obtain ⟨op, ok, hret⟩ := mem_evicted.mp hpair
  obtain ⟨rfl, -⟩ := (hw.outcome hret).evicted_ok rfl
  rcases mem_rejected.mp hmem with ⟨item, hret'⟩ | ⟨item, old', hret'⟩
  · cases (hw.returned_unique hret hret').2
  · cases (hw.returned_unique hret hret').2

theorem dropped (hq : w.Quiescent) :
    w.ring.dropped = (rejected w.history).length + (evicted w.history).length := by
  have hnodup : (dropCountedCalls w.history).Nodup := by
    refine nodup_iff_count_le_one.mpr fun call => ?_
    rw [count_dropCountedCalls]
    exact (hw.ledger.shape call).countP_dropCounted_le
  have hlength : (rejected w.history).length + (evicted w.history).length =
      (rejected w.history ++ (evicted w.history).map Prod.fst).length := by
    rw [length_append, length_map]
  rw [hw.ledger.dropped, hlength]
  refine length_eq_of_nodup_of_mem_iff hnodup hw.nodup_rejected_evicted fun call => ?_
  rw [mem_dropCountedCalls, mem_append, mem_map, mem_rejected]
  constructor
  · intro hmem
    obtain ⟨op, result, hret⟩ := hw.returned_of_quiescent hq hmem
    rcases (hw.outcome hret).dropCounted_iff.mp (mem_callEffects.mpr hmem) with
      ⟨⟨item, rfl⟩, rfl⟩ | ⟨⟨item, rfl⟩, old, rfl⟩ | ⟨old, ok, rfl⟩
    · exact .inl (.inl ⟨item, hret⟩)
    · exact .inl (.inr ⟨item, old, hret⟩)
    · exact .inr ⟨(call, old), mem_evicted.mpr ⟨op, ok, hret⟩, rfl⟩
  · rintro ((⟨item, hret⟩ | ⟨item, old, hret⟩) | ⟨⟨_, old⟩, hpair, rfl⟩)
    · exact mem_callEffects.mp ((hw.outcome hret).dropCounted_iff.mpr
        (.inl ⟨⟨item, rfl⟩, rfl⟩))
    · exact mem_callEffects.mp ((hw.outcome hret).dropCounted_iff.mpr
        (.inr (.inl ⟨⟨item, rfl⟩, old, rfl⟩)))
    · obtain ⟨op, ok, hret⟩ := mem_evicted.mp hpair
      exact mem_callEffects.mp ((hw.outcome hret).dropCounted_iff.mpr
        (.inr (.inr ⟨old, ok, rfl⟩)))

end World.Sound

/-- **The ring delivers exactly once.**  For every requested capacity, in every
state of every interleaving of any number of goroutines. -/
theorem ring_exactly_once {capacity : Int64} (h : (ringSystem G α capacity).Reach w) :
    ExactlyOnce w := by
  have hw := sound_of_reach h
  refine ⟨?_, ?_, ?_, ?_, ?_, ?_, ?_, hw.in_order, ?_, hw.drained, hw.dropped⟩
  · intro src item hacc
    obtain ⟨pos, hpub⟩ := hw.published_of_accepted hacc
    exact ⟨pos, hpub, fun pos' hpub' => (hw.published_unique hpub' hpub).1⟩
  · intro src dst dst' pos pos' item item' hl hl'
    exact hw.leaves_once hl hl'
  · intro dst item hret
    obtain ⟨pos, hobt⟩ := hw.obtained_of_returned hret
    obtain ⟨src, hpub⟩ := hw.published_of_obtained hobt
    refine ⟨src, ⟨pos, hpub, hobt⟩, ?_⟩
    rintro src' ⟨pos', hpub', hobt'⟩
    obtain ⟨rfl, -⟩ := (hw.ledger.shape dst).obtained_unique (mem_callEffects.mpr hobt)
      (mem_callEffects.mpr hobt')
    exact (hw.published_inj hpub' hpub).1
  · intro src dst pos item op result hl hret
    exact hw.returned_of_obtained hret hl.2
  · intro src dst dst' pos pos' item item' hl hl' hpop hev
    obtain ⟨rfl, -, -⟩ := hw.leaves_once hl hl'
    obtain ⟨op, hret⟩ := mem_popped.mp hpop
    obtain ⟨op', ok, hret'⟩ := mem_evicted.mp hev
    cases (hw.returned_unique hret hret').2
  · intro src evict item hret pos x hpub
    have hout := ((hw.outcome hret).published_iff x).mp ⟨pos, mem_callEffects.mpr hpub⟩
    cases evict <;> simp [RingBuffer.pushResult] at hout
  · intro dst pos item hobt
    obtain ⟨x, hx, hpub⟩ := hw.ledger.obtained _ _ _ hobt
    refine ⟨x, hx, fun y => ⟨fun hpub' => hw.item_unique hpub' hpub, ?_⟩⟩
    rintro rfl
    exact hpub
  · intro dst pos item hobt
    exact hw.obtained_claimed hobt

end Theorem

/-- Two goroutines fill a ring of two slots and evict from it. -/
def evictionRun : List (Label ℕ ℕ) :=
  .start 0 (.push (some 10)) :: replicate 8 (.access 0) ++
    .start 0 (.push (some 11)) :: replicate 8 (.access 0) ++
    .start 1 (.pushDropOldest (some 12)) :: replicate 13 (.access 1)

theorem ring_exactly_once_evictionRun :
    ∃ w, (ringSystem ℕ ℕ 2).run (World.init ℕ ℕ 2) evictionRun = some w ∧
      evicted w.history = [((1, 0), 10)] ∧ ExactlyOnce w := by
  have hrun : ((ringSystem ℕ ℕ 2).run (World.init ℕ ℕ 2) evictionRun).map
      (fun w => evicted w.history) = some [((1, 0), 10)] := by decide +kernel
  obtain ⟨w, hw, hev⟩ := Option.map_eq_some_iff.mp hrun
  exact ⟨w, hw, hev, ring_exactly_once (.of_run .init hw)⟩

end ConvoyStats.Transport
