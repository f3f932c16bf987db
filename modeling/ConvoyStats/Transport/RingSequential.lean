import ConvoyStats.Library.BoundedQueue
import ConvoyStats.Library.Transducer
import ConvoyStats.Transport.RingHistory

/-!
# The ring, one call at a time

If no two calls overlap, the ring is a bounded queue.  `solo` makes the accesses of one call without
anybody else's in between; `RingCall.onRing` makes a call, and `RingCall.onQueue` says what a queue
does instead.

`Represents` is the abstraction: from `readPos` on the slots are full with the items of the queue,
and from `writePos` on they are free for the rest of the lap.  A call touches one slot, so that what
has to be shown is that the other positions of the lap are in other slots (`slot_stored_ne`).
-/

namespace ConvoyStats.Transport

open List Function

universe u

variable {α : Type u}

/-! ### Calls -/

/-- A call of the ring's methods. -/
inductive RingCall (α : Type u)
  | op (op : Op α)
  | popBatch (maxItems : ℤ)

/-- What it returns. -/
inductive RingReturn (α : Type u)
  | op (result : Result α)
  | popBatch (batch : List α)

namespace RingBuffer

/-- The accesses of a call from a point on, until it returns. -/
def solo : ℕ → RingBuffer α → Pc α → Option (RingBuffer α × Result α)
  | _, rb, .ret result => some (rb, result)
  | 0, _, _ => none
  | fuel + 1, rb, pc => solo fuel (rb.exec pc).1 (rb.exec pc).2.1

/-- A call alone.  The longest, a `PushDropOldest` that evicts, makes twelve accesses. -/
def call (rb : RingBuffer α) (op : Op α) : Option (RingBuffer α × Result α) :=
  solo 12 rb (Pc.start op)

/-- The loop of `PopBatch`. -/
def popLoop : ℕ → RingBuffer α → Option (RingBuffer α × List α)
  | 0, rb => some (rb, [])
  | k + 1, rb =>
    (rb.call .pop).bind fun r =>
      match r.2 with
      | .pop (some item) => (popLoop k r.1).map fun rest => (rest.1, item :: rest.2)
      | _ => some (r.1, [])

/-- `PopBatch`. -/
def popBatch (rb : RingBuffer α) (maxItems : ℤ) : Option (RingBuffer α × List α) :=
  if maxItems ≤ 0 then some (rb, []) else popLoop maxItems.toNat rb

/-- `Len`. -/
def len (rb : RingBuffer α) : ℕ :=
  if rb.writePos < rb.readPos then 0 else rb.writePos - rb.readPos

end RingBuffer

namespace RingCall

/-- The ring answers a call. -/
def onRing (rb : RingBuffer α) : RingCall α → Option (RingBuffer α × RingReturn α)
  | .op operation => (rb.call operation).map fun r => (r.1, .op r.2)
  | .popBatch maxItems => (rb.popBatch maxItems).map fun r => (r.1, .popBatch r.2)

/-- A bounded queue answers a call. -/
def onQueue {n : ℕ} (q : BoundedQueue α n) : RingCall α → BoundedQueue α n × RingReturn α
  | .op (.push none) => (q, .op (.push false))
  | .op (.push (some x)) =>
    if h : q.Full then (q.refuse, .op (.push false)) else (q.append x h, .op (.push true))
  | .op (.pushDropOldest none) => (q, .op (.pushDropOldest none false))
  | .op (.pushDropOldest (some x)) =>
    if h : q.Full then (q.displace x, .op (.pushDropOldest q.items.head? true))
    else (q.append x h, .op (.pushDropOldest none true))
  | .op .pop | .op .tryPop => (q.remove 1, .op (.pop q.items.head?))
  | .popBatch maxItems => (q.remove maxItems.toNat, .popBatch (q.items.take maxItems.toNat))

end RingCall

/-! ### What a call does to the ring -/

namespace RingBuffer

variable {rb rb' : RingBuffer α}

/-- A slot is overwritten. -/
def stored (rb : RingBuffer α) (pos : ℕ) (s : Slot α) : RingBuffer α :=
  { rb with slots := update rb.slots (pos &&& rb.mask) s }

theorem stored_stored (rb : RingBuffer α) (pos : ℕ) (s t : Slot α) :
    (rb.stored pos s).stored pos t = rb.stored pos t := by
  simp only [stored, update_idem]

theorem setSeq_eq_stored (rb : RingBuffer α) (pos seq : ℕ) :
    rb.setSeq pos seq = rb.stored pos ⟨seq, (rb.slot pos).item⟩ := rfl

theorem setSeq_setItem (rb : RingBuffer α) (pos seq : ℕ) (item : Option α) :
    (rb.setItem pos item).setSeq pos seq = rb.stored pos ⟨seq, item⟩ := by
  rw [setSeq_eq_stored, item_slot_setItem]
  exact stored_stored ..

/-- An item is published. -/
def appended (rb : RingBuffer α) (x : α) : RingBuffer α :=
  { rb.stored rb.writePos ⟨rb.writePos + 1, some x⟩ with
    writePos := rb.writePos + 1, added := rb.added + 1 }

/-- The oldest item is released. -/
def popped (rb : RingBuffer α) : RingBuffer α :=
  { rb.stored rb.readPos ⟨rb.readPos + rb.capacity, none⟩ with
    readPos := rb.readPos + 1, removed := rb.removed + 1 }

/-- The oldest item is evicted. -/
def displaced (rb : RingBuffer α) (x : α) : RingBuffer α :=
  { rb.stored rb.readPos ⟨rb.writePos + 1, some x⟩ with
    readPos := rb.readPos + 1, writePos := rb.writePos + 1, removed := rb.removed + 1,
    dropped := rb.dropped + 1, added := rb.added + 1 }

/-- The next access of a call. -/
theorem solo_exec {pc pc' : Pc α} {effect : Option (Effect α)} (fuel : ℕ)
    (hexec : rb.exec pc = (rb', pc', effect)) (hret : ∀ result, pc ≠ .ret result) :
    solo (fuel + 1) rb pc = solo fuel rb' pc' := by
  rw [solo, hexec]
  exact hret

variable (hle : rb.readPos ≤ rb.writePos)
include hle

theorem sub64_eq : sub64 rb.writePos rb.readPos = rb.writePos - rb.readPos := if_pos hle

/-- A push of either kind into a ring with room. -/
theorem solo_appended (evict : Bool) (x : α) (hroom : rb.writePos - rb.readPos < rb.capacity)
    (hfree : (rb.slot rb.writePos).seq = rb.writePos) :
    solo 12 rb (.pushLoadRead evict x) = some (rb.appended x, pushResult evict true) := by
  have hseq : ¬ (rb.slot rb.writePos).seq < rb.writePos := by omega
  calc solo 12 rb (.pushLoadRead evict x)
    _ = solo 11 rb (.pushLoadWrite evict x rb.readPos) := rfl
    _ = solo 10 rb (.pushAtLoadSeq evict x rb.writePos) :=
        solo_exec 10 (if_pos (by rwa [sub64_eq hle])) nofun
    _ = solo 9 rb (.pushAtCasWrite evict x rb.writePos) :=
        solo_exec 9 ((if_neg hseq).trans (if_pos hfree)) nofun
    _ = solo 8 { rb with writePos := rb.writePos + 1 } (.pushAtStoreItem evict x rb.writePos) :=
        solo_exec 8 (if_pos rfl) nofun
    _ = some ({ (({ rb with writePos := rb.writePos + 1 }.setItem rb.writePos (some x)).setSeq
          rb.writePos (rb.writePos + 1)) with added := rb.added + 1 }, pushResult evict true) := rfl
    _ = some (rb.appended x, pushResult evict true) := by
        rw [setSeq_setItem]
        rfl

/-- A `Push` into a full ring. -/
theorem solo_push_full (x : α) (hfull : ¬ rb.writePos - rb.readPos < rb.capacity) :
    solo 12 rb (.pushLoadRead false x) =
      some ({ rb with dropped := rb.dropped + 1 }, .push false) := by
  calc solo 12 rb (.pushLoadRead false x)
    _ = solo 11 rb (.pushLoadWrite false x rb.readPos) := rfl
    _ = solo 10 rb (.reject false) :=
        solo_exec 10 (if_neg (by rwa [sub64_eq hle])) nofun
    _ = some ({ rb with dropped := rb.dropped + 1 }, .push false) := rfl

/-- A `PushDropOldest` into a full ring. -/
theorem solo_displaced (x : α) (hfull : rb.writePos = rb.readPos + rb.capacity)
    (hseq : (rb.slot rb.readPos).seq = rb.readPos + 1) :
    solo 12 rb (.pushLoadRead true x) =
      some (rb.displaced x, .pushDropOldest (rb.slot rb.readPos).item true) := by
  have hno : ¬ sub64 rb.writePos rb.readPos < rb.capacity := by
    rw [sub64_eq hle]
    omega
  have hpublished : ¬ (rb.slot rb.readPos).seq ≤ rb.readPos := by omega
  have hcurrent : ¬ ((rb.slot rb.readPos).seq ≠ rb.readPos + 1 ∨
      rb.writePos ≠ rb.readPos + rb.capacity) := by omega
  have hitem :
      ((rb.setSeq rb.readPos rb.readPos).slot rb.readPos).item = (rb.slot rb.readPos).item := by
    simp [slot, setSeq]
  calc solo 12 rb (.pushLoadRead true x)
    _ = solo 11 rb (.pushLoadWrite true x rb.readPos) := rfl
    _ = solo 10 rb (.replaceLoadSeq x rb.readPos rb.writePos) :=
        solo_exec 10 ((if_neg hno).trans (if_pos rfl)) (by simp)
    _ = solo 9 rb (.replaceCasSeq x rb.readPos rb.writePos) :=
        solo_exec 9 ((if_neg hpublished).trans (if_neg hcurrent)) (by simp)
    _ = solo 8 (rb.setSeq rb.readPos rb.readPos) (.replaceCasRead x rb.readPos rb.writePos) :=
        solo_exec 8 (if_pos hseq) (by simp)
    _ = solo 7 { rb.setSeq rb.readPos rb.readPos with readPos := rb.readPos + 1 }
          (.replaceLoadItem x rb.readPos rb.writePos) := solo_exec 7 (if_pos rfl) (by simp)
    _ = some ({ ((({ rb.setSeq rb.readPos rb.readPos with
            readPos := rb.readPos + 1, writePos := rb.writePos + 1 }.setItem
            rb.readPos (some x)).setSeq rb.readPos (rb.writePos + 1))) with
          removed := rb.removed + 1, dropped := rb.dropped + 1, added := rb.added + 1 },
          .pushDropOldest ((rb.setSeq rb.readPos rb.readPos).slot rb.readPos).item true) := rfl
    _ = some (rb.displaced x, .pushDropOldest (rb.slot rb.readPos).item true) := by
        rw [setSeq_setItem, hitem]
        exact congrArg (fun r : RingBuffer α => some ({ r with
          readPos := rb.readPos + 1, writePos := rb.writePos + 1, removed := rb.removed + 1,
          dropped := rb.dropped + 1, added := rb.added + 1 },
          Result.pushDropOldest (rb.slot rb.readPos).item true)) (stored_stored rb rb.readPos _ _)

omit hle in
/-- A pop from a ring with items. -/
theorem solo_popped (wait : Bool) (hitems : rb.readPos < rb.writePos)
    (hseq : (rb.slot rb.readPos).seq = rb.readPos + 1) :
    solo 12 rb (.popLoadRead wait) = some (rb.popped, .pop (rb.slot rb.readPos).item) := by
  have hpublished : ¬ (rb.slot rb.readPos).seq ≤ rb.readPos := by omega
  calc solo 12 rb (.popLoadRead wait)
    _ = solo 11 rb (.popLoadWrite wait rb.readPos) := rfl
    _ = solo 10 rb (.popLoadSeq wait rb.readPos) := solo_exec 10 (if_neg hitems.not_ge) nofun
    _ = solo 9 rb (.popCasRead wait rb.readPos) :=
        solo_exec 9 ((if_neg hpublished).trans (if_pos hseq)) nofun
    _ = solo 8 { rb with readPos := rb.readPos + 1 } (.popLoadItem rb.readPos) :=
        solo_exec 8 (if_pos rfl) nofun
    _ = some ({ (({ rb with readPos := rb.readPos + 1 }.setItem rb.readPos none).setSeq
          rb.readPos (rb.readPos + rb.capacity)) with removed := rb.removed + 1 },
          .pop (rb.slot rb.readPos).item) := rfl
    _ = some (rb.popped, .pop (rb.slot rb.readPos).item) := by
        rw [setSeq_setItem]
        rfl

omit hle in
/-- A pop from an empty ring. -/
theorem solo_pop_empty (wait : Bool) (hempty : rb.writePos = rb.readPos) :
    solo 12 rb (.popLoadRead wait) = some (rb, .pop none) := by
  calc solo 12 rb (.popLoadRead wait)
    _ = solo 11 rb (.popLoadWrite wait rb.readPos) := rfl
    _ = solo 10 rb (.ret (.pop none)) := solo_exec 10 (if_pos hempty.le) nofun
    _ = some (rb, .pop none) := rfl

end RingBuffer

/-! ### The abstraction -/

/-- **The ring holds the items of the queue.** -/
structure Represents {n : ℕ} (rb : RingBuffer α) (q : BoundedQueue α n) : Prop where
  two_le : 2 ≤ n
  capacity : rb.capacity = n
  index : ∀ pos, pos &&& rb.mask = pos % n
  writePos : rb.writePos = rb.readPos + q.items.length
  /-- From `readPos` on the slots have the items. -/
  full : ∀ i x, q.items[i]? = some x → rb.slot (rb.readPos + i) = ⟨rb.readPos + i + 1, some x⟩
  /-- From `writePos` on they are free. -/
  free : ∀ p, rb.writePos ≤ p → p < rb.readPos + n → (rb.slot p).seq = p
  added : rb.added = rb.removed + q.items.length
  dropped : rb.dropped = q.dropped

namespace Represents

variable {n : ℕ} {rb : RingBuffer α} {q : BoundedQueue α n}

variable (h : Represents rb q)
include h

theorem read_le_write : rb.readPos ≤ rb.writePos := by
  rw [h.writePos]
  exact Nat.le_add_right ..

theorem len_eq : rb.len = q.items.length := by
  rw [RingBuffer.len, if_neg h.read_le_write.not_gt, h.writePos]
  exact Nat.add_sub_cancel_left ..

/-- The oldest item. -/
theorem slot_readPos {x : α} (hx : q.items.head? = some x) :
    rb.slot rb.readPos = ⟨rb.readPos + 1, some x⟩ := by
  rw [head?_eq_getElem?] at hx
  exact h.full 0 x hx

theorem slot_stored {p j : ℕ} (s : Slot α) (hj : j % n = p % n) :
    (rb.stored p s).slot j = s := by
  show update rb.slots (p &&& rb.mask) s (j &&& rb.mask) = s
  rw [h.index, h.index, hj]
  exact update_self ..

/-- Another position of the lap is in another slot. -/
theorem slot_stored_ne {p j : ℕ} (s : Slot α) (hne : j ≠ p) (hp : p < j + n)
    (hj : j < p + n) : (rb.stored p s).slot j = rb.slot j := by
  have hslot : j % n ≠ p % n := by
    intro hmod
    rcases Nat.lt_or_gt_of_ne hne with hlt | hgt
    · have := add_le_of_mod_eq hmod hlt
      omega
    · have := add_le_of_mod_eq hmod.symm hgt
      omega
  show update rb.slots (p &&& rb.mask) s (j &&& rb.mask) = _
  rw [h.index, h.index, update_of_ne hslot, ← h.index]
  rfl

theorem append (hfull : ¬ q.Full) (x : α) :
    Represents (rb.appended x) (q.append x hfull) := by
  have hlt := q.length_lt hfull
  have hwrite := h.writePos
  have hlength : (q.append x hfull).items.length = q.items.length + 1 := length_append
  refine ⟨h.two_le, h.capacity, h.index, ?_, ?_, ?_, ?_, h.dropped⟩
  · rw [hlength]
    show rb.writePos + 1 = rb.readPos + (q.items.length + 1)
    omega
  · intro i y hy
    change (q.items ++ [x])[i]? = some y at hy
    show (rb.stored _ _).slot (rb.readPos + i) = ⟨rb.readPos + i + 1, some y⟩
    by_cases hi : i = q.items.length
    · subst hi
      rw [getElem?_concat_length] at hy
      cases hy
      rw [← hwrite]
      exact h.slot_stored _ rfl
    · have hi' : i < q.items.length := by
        have := (List.getElem?_eq_some_iff.mp hy).1
        rw [length_append, length_singleton] at this
        omega
      rw [getElem?_append_left hi'] at hy
      rw [h.slot_stored_ne _ (by omega) (by omega) (by omega)]
      exact h.full i y hy
  · intro p hge hltp
    change rb.writePos + 1 ≤ p at hge
    change p < rb.readPos + n at hltp
    show ((rb.stored _ _).slot p).seq = p
    rw [h.slot_stored_ne _ (by omega) (by omega) (by omega)]
    exact h.free p (by omega) hltp
  · rw [hlength]
    have hadded := h.added
    show rb.added + 1 = rb.removed + (q.items.length + 1)
    omega

theorem refuse :
    Represents { rb with dropped := rb.dropped + 1 } q.refuse :=
  ⟨h.two_le, h.capacity, h.index, h.writePos, h.full, h.free, h.added, congrArg (· + 1) h.dropped⟩

theorem pop (hne : q.items ≠ []) : Represents rb.popped (q.remove 1) := by
  have hwrite := h.writePos
  have hcap := h.capacity
  have hle := q.length_le
  have hpos := length_pos_iff.mpr hne
  have hlength : (q.remove 1).items.length = q.items.length - 1 := length_drop
  refine ⟨h.two_le, h.capacity, h.index, ?_, ?_, ?_, ?_, h.dropped⟩
  · rw [hlength]
    show rb.writePos = rb.readPos + 1 + (q.items.length - 1)
    omega
  · intro i y hy
    change (q.items.drop 1)[i]? = some y at hy
    rw [getElem?_drop] at hy
    have hi := (List.getElem?_eq_some_iff.mp hy).1
    show (rb.stored _ _).slot (rb.readPos + 1 + i) = ⟨rb.readPos + 1 + i + 1, some y⟩
    rw [Nat.add_assoc, h.slot_stored_ne _ (by omega) (by omega) (by omega)]
    exact h.full (1 + i) y hy
  · intro p hge hlt
    change rb.writePos ≤ p at hge
    change p < rb.readPos + 1 + n at hlt
    show ((rb.stored _ _).slot p).seq = p
    by_cases hp : p = rb.readPos + n
    · subst hp
      rw [h.slot_stored _ (Nat.add_mod_right ..), hcap]
    · rw [h.slot_stored_ne _ (by omega) (by omega) (by omega)]
      exact h.free p hge (by omega)
  · rw [hlength]
    have hadded := h.added
    show rb.added = rb.removed + 1 + (q.items.length - 1)
    omega

theorem displace (hfull : q.Full) (x : α) :
    Represents (rb.displaced x) (q.displace x) := by
  have hwrite := h.writePos
  have hn : q.items.length = n := hfull
  have htwo := h.two_le
  have hne : q.items ≠ [] := length_pos_iff.mp (by omega)
  have hitems : (q.displace x).items = q.items.tail ++ [x] := tail_append_of_ne_nil hne
  have hlength : (q.displace x).items.length = n := by
    rw [hitems, length_append, length_tail, length_singleton]
    omega
  refine ⟨htwo, h.capacity, h.index, ?_, ?_, ?_, ?_, congrArg (· + 1) h.dropped⟩
  · rw [hlength]
    show rb.writePos + 1 = rb.readPos + 1 + n
    omega
  · intro i y hy
    rw [hitems] at hy
    show (rb.stored _ _).slot (rb.readPos + 1 + i) = ⟨rb.readPos + 1 + i + 1, some y⟩
    by_cases hi : i = q.items.length - 1
    · have hy' : y = x := by
        rw [hi, ← length_tail, getElem?_concat_length] at hy
        exact (Option.some.inj hy).symm
      have hlap : rb.readPos + 1 + i = rb.readPos + n := by omega
      rw [hlap, h.slot_stored _ (Nat.add_mod_right ..), hy', hwrite, hn]
    · have hi' : i < q.items.tail.length := by
        have := (List.getElem?_eq_some_iff.mp hy).1
        rw [length_append, length_singleton, length_tail] at this
        rw [length_tail]
        omega
      rw [getElem?_append_left hi', getElem?_tail] at hy
      rw [length_tail] at hi'
      rw [Nat.add_assoc rb.readPos, Nat.add_comm 1, h.slot_stored_ne _ (by omega) (by omega)
        (by omega)]
      exact h.full (i + 1) y hy
  · intro p hge hlt
    change rb.writePos + 1 ≤ p at hge
    change p < rb.readPos + 1 + n at hlt
    omega
  · rw [hlength]
    have hadded := h.added
    show rb.added + 1 = rb.removed + 1 + n
    omega

/-! ### Refinement -/

/-- A push of either kind into a queue with room. -/
theorem push_refines (hfull : ¬ q.Full) (evict : Bool) (x : α) :
    RingBuffer.solo 12 rb (.pushLoadRead evict x) =
      some (rb.appended x, RingBuffer.pushResult evict true) := by
  have hlt := q.length_lt hfull
  have hwrite := h.writePos
  have hcap := h.capacity
  exact RingBuffer.solo_appended h.read_le_write evict x (by omega) (h.free _ le_rfl (by omega))

theorem pop_refines (wait : Bool) :
    ∃ rb', RingBuffer.solo 12 rb (.popLoadRead wait) = some (rb', .pop q.items.head?) ∧
      Represents rb' (q.remove 1) := by
  have hwrite := h.writePos
  cases hq : q.items with
  | nil =>
    have hempty : rb.writePos = rb.readPos := by
      rw [hwrite, hq]
      rfl
    refine ⟨rb, RingBuffer.solo_pop_empty wait hempty, ?_⟩
    rw [q.remove_eq_self hq]
    exact h
  | cons x xs =>
    have hslot := h.slot_readPos (x := x) (by rw [hq]; rfl)
    have hitems : rb.readPos < rb.writePos := by
      rw [hwrite, hq, length_cons]
      omega
    refine ⟨rb.popped, ?_, h.pop (by rw [hq]; nofun)⟩
    rw [RingBuffer.solo_popped wait hitems (by rw [hslot]), hslot]
    rfl

theorem displace_refines (hfull : q.Full) (x : α) :
    RingBuffer.solo 12 rb (.pushLoadRead true x) =
      some (rb.displaced x, .pushDropOldest q.items.head? true) := by
  have hn : q.items.length = n := hfull
  have htwo := h.two_le
  have hfullRing : rb.writePos = rb.readPos + rb.capacity := by
    rw [h.writePos, h.capacity, hn]
  cases hq : q.items with
  | nil =>
    rw [hq, length_nil] at hn
    omega
  | cons y ys =>
    have hslot := h.slot_readPos (x := y) (by rw [hq]; rfl)
    rw [RingBuffer.solo_displaced h.read_le_write x hfullRing (by rw [hslot]), hslot]
    rfl

/-- `PopBatch` takes what there is, up to its limit. -/
theorem popLoop_refines (k : ℕ) :
    ∃ rb', RingBuffer.popLoop k rb = some (rb', q.items.take k) ∧ Represents rb' (q.remove k) := by
  induction k generalizing rb q with
  | zero => exact ⟨rb, rfl, h⟩
  | succ k ih =>
    obtain ⟨rb₁, hcall, h₁⟩ := h.pop_refines true
    change rb.call .pop = _ at hcall
    cases hq : q.items with
    | nil =>
      refine ⟨rb₁, ?_, ?_⟩
      · rw [RingBuffer.popLoop, hcall, hq]
        rfl
      · rw [q.remove_eq_self hq] at h₁ ⊢
        exact h₁
    | cons x xs =>
      obtain ⟨rb', hrest, h'⟩ := ih h₁
      refine ⟨rb', ?_, ?_⟩
      · have hitems : (q.remove 1).items = xs := by
          show q.items.drop 1 = xs
          rw [hq]
          rfl
        rw [RingBuffer.popLoop, hcall, hq, Option.bind_some]
        show (RingBuffer.popLoop k rb₁).map _ = _
        rw [hrest, hitems]
        rfl
      · rw [BoundedQueue.remove_remove, Nat.add_comm] at h'
        exact h'

/-- **Every call of the ring is a call of the queue.** -/
theorem call_refines (c : RingCall α) :
    ∃ rb', c.onRing rb = some (rb', (c.onQueue q).2) ∧ Represents rb' (c.onQueue q).1 := by
  cases c with
  | op operation =>
    cases operation with
    | push item =>
      cases item with
      | none => exact ⟨rb, rfl, h⟩
      | some x =>
        by_cases hfull : q.Full
        · have hno : ¬ rb.writePos - rb.readPos < rb.capacity := by
            have hn : q.items.length = n := hfull
            rw [h.writePos, h.capacity, hn]
            omega
          simp only [RingCall.onQueue, dif_pos hfull]
          exact ⟨_, congrArg (Option.map _) (RingBuffer.solo_push_full h.read_le_write x hno),
            h.refuse⟩
        · simp only [RingCall.onQueue, dif_neg hfull]
          exact ⟨_, congrArg (Option.map _) (h.push_refines hfull false x), h.append hfull x⟩
    | pushDropOldest item =>
      cases item with
      | none => exact ⟨rb, rfl, h⟩
      | some x =>
        by_cases hfull : q.Full
        · simp only [RingCall.onQueue, dif_pos hfull]
          exact ⟨_, congrArg (Option.map _) (h.displace_refines hfull x), h.displace hfull x⟩
        · simp only [RingCall.onQueue, dif_neg hfull]
          exact ⟨_, congrArg (Option.map _) (h.push_refines hfull true x), h.append hfull x⟩
    | pop =>
      obtain ⟨rb', hcall, h'⟩ := h.pop_refines true
      exact ⟨rb', congrArg (Option.map _) hcall, h'⟩
    | tryPop =>
      obtain ⟨rb', hcall, h'⟩ := h.pop_refines false
      exact ⟨rb', congrArg (Option.map _) hcall, h'⟩
  | popBatch maxItems =>
    obtain ⟨rb', hloop, h'⟩ := h.popLoop_refines maxItems.toNat
    refine ⟨rb', ?_, h'⟩
    have hbatch : rb.popBatch maxItems = some (rb', q.items.take maxItems.toNat) := by
      rw [RingBuffer.popBatch, ← hloop]
      split_ifs with hnone
      · rw [Int.toNat_of_nonpos hnone]
        rfl
      · rfl
    rw [RingCall.onRing, hbatch]
    rfl

end Represents

/-- The least power of two above a capacity. -/
theorem isLeast_two_pow_clog (c : ℤ) :
    IsLeast {m : ℕ | (∃ k, m = 2 ^ k) ∧ c ≤ m} (2 ^ Nat.clog 2 (max c 0).toNat) := by
  refine ⟨⟨⟨_, rfl⟩, ?_⟩, ?_⟩
  · have := Nat.le_pow_clog Nat.one_lt_two (max c 0).toNat
    omega
  · rintro _ ⟨⟨k, rfl⟩, hle⟩
    refine Nat.pow_le_pow_right Nat.two_pos ((Nat.clog_le_iff_le_pow Nat.one_lt_two).mpr ?_)
    have : 0 < 2 ^ k := Nat.two_pow_pos k
    omega

/-- **Ring capacities are exact.**  `nextPowerOfTwo` returns the least power of two that is at least
its argument, for every argument up to `2 ^ 63`, and in a ring of any requested capacity the slot of
a position is the position modulo the capacity. -/
theorem nextPowerOfTwo_isLeast_slot_mod (α : Type u) {n : ℕ} (hn : n ≤ 2 ^ 63) :
    IsLeast {m : ℕ | (∃ k, m = 2 ^ k) ∧ n ≤ m} (nextPowerOfTwo n) ∧
      ∀ capacity pos, pos &&& (newRingBuffer α capacity).mask =
        pos % (newRingBuffer α capacity).capacity := by
  have hleast := isLeast_two_pow_clog n
  rw [max_eq_left (Int.natCast_nonneg n), Int.toNat_natCast] at hleast
  simp only [Int.ofNat_le] at hleast
  exact ⟨nextPowerOfTwo_eq hn ▸ hleast, and_mask_eq_mod⟩

theorem nextPowerOfTwo_isLeast_slot_mod_five :
    nextPowerOfTwo 5 = 8 ∧ 13 &&& (newRingBuffer Unit 5).mask = 5 ∧
      IsLeast {m : ℕ | (∃ k, m = 2 ^ k) ∧ 5 ≤ m} (nextPowerOfTwo 5) :=
  ⟨by decide, by decide, (nextPowerOfTwo_isLeast_slot_mod Unit (by decide)).1⟩

/-- A fresh ring is an empty queue. -/
theorem represents_new (capacity : Int64) {n : ℕ} (hn : (newRingBuffer α capacity).capacity = n) :
    Represents (newRingBuffer α capacity) (.empty : BoundedQueue α n) := by
  obtain ⟨k, hk, hcap⟩ := newRingBuffer_capacity (α := α) capacity
  have hindex : ∀ pos, pos &&& (newRingBuffer α capacity).mask = pos % n :=
    hn ▸ and_mask_eq_mod capacity
  refine ⟨hn ▸ hcap ▸ Nat.le_self_pow hk.ne' 2, hn, hindex, rfl, nofun, ?_, rfl, rfl⟩
  intro p _ hlt
  have hp : p < n := Nat.zero_add n ▸ hlt
  show p &&& (newRingBuffer α capacity).mask = p
  rw [hindex, Nat.mod_eq_of_lt hp]

/-- Calls that do not overlap return what the queue returns. -/
theorem Represents.run_refines {n : ℕ} {rb : RingBuffer α} {q : BoundedQueue α n}
    (h : Represents rb q) (calls : List (RingCall α)) :
    ∃ rb' q' returns,
      Transducer.run (fun rb c => RingCall.onRing rb c) rb calls = some (rb', returns) ∧
      Transducer.run (fun q c => some (RingCall.onQueue q c)) q calls = some (q', returns) ∧
      Represents rb' q' := by
  refine Transducer.run_simulation ?_ h calls
  intro rb q c h
  obtain ⟨rb', hcall, h'⟩ := h.call_refines c
  exact ⟨rb', _, _, hcall, rfl, h'⟩

/-- **The ring is a bounded queue.**  For every requested capacity and every sequence of calls that
do not overlap, the ring returns what a queue of capacity `max 2 p` returns, where `p` is the least
power of two above the requested capacity; it has as many items, and its statistics agree. -/
theorem ring_refines_queue (capacity : Int64) (calls : List (RingCall α)) :
    ∃ p, IsLeast {m : ℕ | (∃ k, m = 2 ^ k) ∧ capacity.toInt ≤ m} p ∧
      ∃ (rb : RingBuffer α) (q : BoundedQueue α (max 2 p)) (returns : List (RingReturn α)),
        Transducer.run (fun rb c => RingCall.onRing rb c) (newRingBuffer α capacity) calls =
          some (rb, returns) ∧
        Transducer.run (fun q c => some (RingCall.onQueue q c)) .empty calls = some (q, returns) ∧
        rb.len = q.items.length ∧ rb.added = rb.removed + rb.len ∧ rb.dropped = q.dropped := by
  refine ⟨_, isLeast_two_pow_clog capacity.toInt, ?_⟩
  have hnew :=
    represents_new (α := α) capacity ((newRingBuffer_capacity_eq capacity).trans (max_comm ..))
  obtain ⟨rb, q, returns, hring, hqueue, h⟩ := hnew.run_refines calls
  exact ⟨rb, q, returns, hring, hqueue, h.len_eq, h.len_eq ▸ h.added, h.dropped⟩

end ConvoyStats.Transport
