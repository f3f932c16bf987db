import ConvoyStats.Library.TransitionSystem
import ConvoyStats.Transport.NextPowerOfTwo
import Mathlib.Data.Int.Basic

/-!
# The ring buffer, one atomic access at a time

`transport/buffer.go` is a bounded multi-producer multi-consumer queue: every
slot carries a sequence number, `readPos` and `writePos` are claimed by
compare-and-swap, and `PushDropOldest` replaces the oldest item of a full ring
in place.  This module is the code at the grain its correctness depends on:

* `RingBuffer` is the shared memory, field by field.
* `Pc` is what a goroutine holds between two accesses: the point it has reached
  in `Push`, `PushDropOldest` or `pop`, with the local variables live there.
* `RingBuffer.exec` performs the single atomic load, store, add or
  compare-and-swap at a point, and moves to the next one.  Reading and writing a
  slot's `item` are accesses of their own.
* `World` runs any number of goroutines, each making any sequence of calls; a
  `Label` says which goroutine starts a call or takes its next access.

Positions are natural numbers.  On values below `2 ^ 64` every operation below is
the `uint64` one; `sub64` keeps the wrap-around of the one subtraction the code
makes, so that the argument that it never wraps is part of the proofs.

The history is auxiliary: the code has no such list.  It records which call
claimed, obtained and published at which position, and what each call returned.
-/

namespace ConvoyStats.Transport

universe u v

/-- One slot: its sequence number and the item published through it (`none` is
Go's `nil`). -/
structure Slot (α : Type u) where
  seq : ℕ
  item : Option α

/-- The fields of `RingBuffer`.  Only the slots below `capacity` are ever used. -/
structure RingBuffer (α : Type u) where
  slots : ℕ → Slot α
  capacity : ℕ
  mask : ℕ
  writePos : ℕ
  readPos : ℕ
  dropped : ℕ
  added : ℕ
  removed : ℕ

/-- `NewRingBuffer`: the capacity rounded up to a power of two, and to at least
two. -/
def newRingBuffer (α : Type u) (capacity : Int64) : RingBuffer α :=
  let capCount := max (nextPowerOfTwo (max capacity.toInt 0).toNat) 2
  { slots := fun i => ⟨i, none⟩
    capacity := capCount
    mask := capCount - 1
    writePos := 0
    readPos := 0
    dropped := 0
    added := 0
    removed := 0 }

/-- `uint64` subtraction of positions below `2 ^ 64`. -/
def sub64 (a b : ℕ) : ℕ := if b ≤ a then a - b else a + 2 ^ 64 - b

/-- What a caller asks of the ring.  `none` is a `nil` item. -/
inductive Op (α : Type u)
  | push (item : Option α)
  | pushDropOldest (item : Option α)
  | pop
  | tryPop

/-- What a call returns. -/
inductive Result (α : Type u)
  | push (ok : Bool)
  | pushDropOldest (evicted : Option α) (ok : Bool)
  | pop (item : Option α)

/-- The next access of a running call, with the variables still live.  `evict`
tells `PushDropOldest` from `Push` where the two share code; `wait` is
`waitForWriter`. -/
inductive Pc (α : Type u)
  | pushLoadRead (evict : Bool) (item : α)
  | pushLoadWrite (evict : Bool) (item : α) (readPos : ℕ)
  | pushAtLoadSeq (evict : Bool) (item : α) (writePos : ℕ)
  | pushAtCasWrite (evict : Bool) (item : α) (writePos : ℕ)
  | pushAtStoreItem (evict : Bool) (item : α) (writePos : ℕ)
  | pushAtStoreSeq (evict : Bool) (item : α) (writePos : ℕ)
  | pushAtAdded (evict : Bool) (item : α) (writePos : ℕ)
  | reject (evict : Bool)
  | replaceLoadSeq (item : α) (readPos writePos : ℕ)
  | replaceCasSeq (item : α) (readPos writePos : ℕ)
  | replaceCasRead (item : α) (readPos writePos : ℕ)
  | replaceLoadItem (item : α) (readPos writePos : ℕ)
  | replaceStoreWrite (item : α) (readPos writePos : ℕ) (old : Option α)
  | replaceStoreItem (item : α) (readPos writePos : ℕ) (old : Option α)
  | replaceStoreSeq (item : α) (readPos writePos : ℕ) (old : Option α)
  | replaceRemoved (item : α) (readPos writePos : ℕ) (old : Option α)
  | replaceDropped (item : α) (readPos writePos : ℕ) (old : Option α)
  | replaceAdded (item : α) (readPos writePos : ℕ) (old : Option α)
  | popLoadRead (wait : Bool)
  | popLoadWrite (wait : Bool) (readPos : ℕ)
  | popLoadSeq (wait : Bool) (readPos : ℕ)
  | popCasRead (wait : Bool) (readPos : ℕ)
  | popLoadItem (readPos : ℕ)
  | popClearItem (readPos : ℕ) (item : Option α)
  | popStoreSeq (readPos : ℕ) (item : Option α)
  | popRemoved (readPos : ℕ) (item : Option α)
  | ret (result : Result α)

/-- The first access of a call; a `nil` item is refused before any. -/
def Pc.start {α : Type u} : Op α → Pc α
  | .push none => .ret (.push false)
  | .push (some item) => .pushLoadRead false item
  | .pushDropOldest none => .ret (.pushDropOldest none false)
  | .pushDropOldest (some item) => .pushLoadRead true item
  | .pop => .popLoadRead true
  | .tryPop => .popLoadRead false

/-- What the history records of an access: a position claimed from `readPos`, the
item read there, an item published, a rejection or eviction counted. -/
inductive Effect (α : Type u)
  | claimed (pos : ℕ)
  | obtained (pos : ℕ) (item : Option α)
  | published (pos : ℕ) (item : α)
  | dropCounted

namespace RingBuffer

variable {α : Type u}

/-- The slot of a position, `slots[pos & mask]`. -/
def slot (rb : RingBuffer α) (pos : ℕ) : Slot α := rb.slots (pos &&& rb.mask)

/-- Store to a slot's sequence number. -/
def setSeq (rb : RingBuffer α) (pos seq : ℕ) : RingBuffer α :=
  { rb with slots := Function.update rb.slots (pos &&& rb.mask) ⟨seq, (rb.slot pos).item⟩ }

/-- Store to a slot's item. -/
def setItem (rb : RingBuffer α) (pos : ℕ) (item : Option α) : RingBuffer α :=
  { rb with slots := Function.update rb.slots (pos &&& rb.mask) ⟨(rb.slot pos).seq, item⟩ }

theorem item_slot_setItem (rb : RingBuffer α) (pos : ℕ) (item : Option α) :
    ((rb.setItem pos item).slot pos).item = item := by
  simp [slot, setItem]

/-- What a finished push of either kind returns. -/
def pushResult (evict ok : Bool) : Result α :=
  if evict then .pushDropOldest none ok else .push ok

/-- **One atomic access.**  The shared memory after it, the next access, and what
the history records.  A lost compare-and-swap or a stale position goes back to
the head of the call's loop. -/
def exec (rb : RingBuffer α) : Pc α → RingBuffer α × Pc α × Option (Effect α)
  -- Push and PushDropOldest
  | .pushLoadRead evict item => (rb, .pushLoadWrite evict item rb.readPos, none)
  | .pushLoadWrite evict item readPos =>
    if sub64 rb.writePos readPos < rb.capacity then
      (rb, .pushAtLoadSeq evict item rb.writePos, none)
    else if evict then (rb, .replaceLoadSeq item readPos rb.writePos, none)
    else (rb, .reject evict, none)
  | .reject evict =>
    ({ rb with dropped := rb.dropped + 1 }, .ret (pushResult evict false), some .dropCounted)
  -- pushAt
  | .pushAtLoadSeq evict item writePos =>
    if (rb.slot writePos).seq < writePos then (rb, .reject evict, none)
    else if (rb.slot writePos).seq = writePos then
      (rb, .pushAtCasWrite evict item writePos, none)
    else (rb, .pushLoadRead evict item, none)
  | .pushAtCasWrite evict item writePos =>
    if rb.writePos = writePos then
      ({ rb with writePos := writePos + 1 }, .pushAtStoreItem evict item writePos, none)
    else (rb, .pushLoadRead evict item, none)
  | .pushAtStoreItem evict item writePos =>
    (rb.setItem writePos (some item), .pushAtStoreSeq evict item writePos, none)
  | .pushAtStoreSeq evict item writePos =>
    (rb.setSeq writePos (writePos + 1), .pushAtAdded evict item writePos,
      some (.published writePos item))
  | .pushAtAdded evict _ _ =>
    ({ rb with added := rb.added + 1 }, .ret (pushResult evict true), none)
  -- replaceOldest
  | .replaceLoadSeq item readPos writePos =>
    if (rb.slot readPos).seq ≤ readPos then (rb, .reject true, none)
    else if (rb.slot readPos).seq ≠ readPos + 1 ∨ writePos ≠ readPos + rb.capacity then
      (rb, .pushLoadRead true item, none)
    else (rb, .replaceCasSeq item readPos writePos, none)
  | .replaceCasSeq item readPos writePos =>
    if (rb.slot readPos).seq = readPos + 1 then
      (rb.setSeq readPos readPos, .replaceCasRead item readPos writePos, none)
    else (rb, .pushLoadRead true item, none)
  | .replaceCasRead item readPos writePos =>
    if rb.readPos = readPos then
      ({ rb with readPos := readPos + 1 }, .replaceLoadItem item readPos writePos,
        some (.claimed readPos))
    else (rb, .pushLoadRead true item, none)
  | .replaceLoadItem item readPos writePos =>
    (rb, .replaceStoreWrite item readPos writePos (rb.slot readPos).item,
      some (.obtained readPos (rb.slot readPos).item))
  | .replaceStoreWrite item readPos writePos old =>
    ({ rb with writePos := writePos + 1 }, .replaceStoreItem item readPos writePos old, none)
  | .replaceStoreItem item readPos writePos old =>
    (rb.setItem readPos (some item), .replaceStoreSeq item readPos writePos old, none)
  | .replaceStoreSeq item readPos writePos old =>
    (rb.setSeq readPos (writePos + 1), .replaceRemoved item readPos writePos old,
      some (.published writePos item))
  | .replaceRemoved item readPos writePos old =>
    ({ rb with removed := rb.removed + 1 }, .replaceDropped item readPos writePos old, none)
  | .replaceDropped item readPos writePos old =>
    ({ rb with dropped := rb.dropped + 1 }, .replaceAdded item readPos writePos old,
      some .dropCounted)
  | .replaceAdded _ _ _ old =>
    ({ rb with added := rb.added + 1 }, .ret (.pushDropOldest old true), none)
  -- pop
  | .popLoadRead wait => (rb, .popLoadWrite wait rb.readPos, none)
  | .popLoadWrite wait readPos =>
    if rb.writePos ≤ readPos then (rb, .ret (.pop none), none)
    else (rb, .popLoadSeq wait readPos, none)
  | .popLoadSeq wait readPos =>
    if (rb.slot readPos).seq ≤ readPos then
      if wait then (rb, .popLoadRead wait, none) else (rb, .ret (.pop none), none)
    else if (rb.slot readPos).seq = readPos + 1 then (rb, .popCasRead wait readPos, none)
    else (rb, .popLoadRead wait, none)
  | .popCasRead wait readPos =>
    if rb.readPos = readPos then
      ({ rb with readPos := readPos + 1 }, .popLoadItem readPos, some (.claimed readPos))
    else (rb, .popLoadRead wait, none)
  | .popLoadItem readPos =>
    (rb, .popClearItem readPos (rb.slot readPos).item,
      some (.obtained readPos (rb.slot readPos).item))
  | .popClearItem readPos item => (rb.setItem readPos none, .popStoreSeq readPos item, none)
  | .popStoreSeq readPos item =>
    (rb.setSeq readPos (readPos + rb.capacity), .popRemoved readPos item, none)
  | .popRemoved _ item => ({ rb with removed := rb.removed + 1 }, .ret (.pop item), none)
  | .ret result => (rb, .ret result, none)

end RingBuffer

/-- A call: the goroutine that makes it and how many calls it made before. -/
abbrev Call (G : Type v) := G × ℕ

/-- A line of the history. -/
inductive Event (G : Type v) (α : Type u)
  | effect (call : Call G) (effect : Effect α)
  | returned (call : Call G) (op : Op α) (result : Result α)

/-- A goroutine: the calls it has finished and the one it is in, if any. -/
structure Thread (α : Type u) where
  finished : ℕ
  running : Option (Op α × Pc α)

/-- The ring, its goroutines and the history of the run so far. -/
structure World (G : Type v) (α : Type u) where
  ring : RingBuffer α
  threads : G → Thread α
  history : List (Event G α)

/-- A step of the world: a goroutine starts a call, or takes its next access. -/
inductive Label (G : Type v) (α : Type u)
  | start (g : G) (op : Op α)
  | access (g : G)

namespace World

variable {G : Type v} {α : Type u}

/-- A fresh ring that nobody has called yet. -/
def init (G : Type v) (α : Type u) (capacity : Int64) : World G α where
  ring := newRingBuffer α capacity
  threads := fun _ => ⟨0, none⟩
  history := []

variable [DecidableEq G]

/-- An idle goroutine starts a call. -/
def start (w : World G α) (g : G) (op : Op α) : Option (World G α) :=
  match (w.threads g).running with
  | some _ => none
  | none => some { w with
      threads := Function.update w.threads g ⟨(w.threads g).finished, some (op, Pc.start op)⟩ }

/-- A call starts where none is running. -/
theorem start_eq_some {w w' : World G α} {g : G} {op : Op α} (h : w.start g op = some w') :
    (w.threads g).running = none ∧ w' = { w with
      threads := Function.update w.threads g
        ⟨(w.threads g).finished, some (op, Pc.start op)⟩ } := by
  rw [start] at h
  split at h
  · cases h
  · rename_i hidle
    cases h
    exact ⟨hidle, rfl⟩

/-- The history line of an access that has one. -/
def record (call : Call G) (effect : Option (Effect α)) : List (Event G α) :=
  (effect.map (Event.effect call)).toList

/-- The world after the access at `pc`. -/
def perform (w : World G α) (g : G) (op : Op α) (pc : Pc α) : World G α where
  ring := (w.ring.exec pc).1
  threads := Function.update w.threads g
    ⟨(w.threads g).finished, some (op, (w.ring.exec pc).2.1)⟩
  history := w.history ++ record (g, (w.threads g).finished) (w.ring.exec pc).2.2

/-- The world after the call of `g` has returned. -/
def finish (w : World G α) (g : G) (op : Op α) (result : Result α) : World G α where
  ring := w.ring
  threads := Function.update w.threads g ⟨(w.threads g).finished + 1, none⟩
  history := w.history ++ [.returned (g, (w.threads g).finished) op result]

/-- A running goroutine takes its next access, or returns with a result. -/
def access (w : World G α) (g : G) : Option (World G α × Option (Result α)) :=
  match (w.threads g).running with
  | none => none
  | some (op, .ret result) => some (w.finish g op result, some result)
  | some (op, pc) => some (w.perform g op pc, none)

/-- One step of the world. -/
def step (w : World G α) : Label G α → Option (World G α)
  | .start g op => w.start g op
  | .access g => (w.access g).map Prod.fst

/-- No call is in progress. -/
def Quiescent (w : World G α) : Prop := ∀ g, (w.threads g).running = none

end World

/-- The runs of a fresh ring of the requested capacity. -/
def ringSystem (G : Type v) (α : Type u) [DecidableEq G] (capacity : Int64) :
    TransitionSystem (World G α) (Label G α) where
  init := World.init G α capacity
  step := World.step

end ConvoyStats.Transport
