import ConvoyStats.Transport.RingBuffer
import Mathlib.Data.List.Range
import Mathlib.Data.List.Nodup

/-!
# The slot protocol

What the sequence numbers of the ring implement, without the sequence numbers.
A slot is *free* for one future position, *full* with the item of one position,
or *held* by one goroutine for one position.  `View` is the two counters and the
stage of every slot; `Move` lists everything a goroutine can do to them.

The interesting stage is `marked`: a `PushDropOldest` that wants to evict the
oldest item first un-publishes it, and only then competes for `readPos` with the
readers that saw it published.  Whoever wins the position holds the slot next,
so a marked slot may turn into a `reading` or an `evicting` one.

* `View.Ok` bounds the position of every stage by the counters and `Move.ok`
  keeps it.
* `Move.held_of_ne`, `Move.free_of_eq`, `Move.marked_of_eq` and
  `Move.available_of_eq` say what a goroutine may rely on across the moves of
  the others.
* `Chronicle` reads the published and claimed positions off a history, and
  `Chronicle.of_move` keeps it.
-/

namespace ConvoyStats.Transport

open List Function

universe u v

/-- Why a goroutine holds a slot: to publish an item claimed through `writePos`,
to evict an item it has un-published, to hand out an item claimed through
`readPos`, and the two halves of an eviction after the claim, before and after
`writePos` has moved past it. -/
inductive Hold
  | writing
  | marked
  | reading
  | evicting
  | rewriting
  deriving DecidableEq

/-- The stage of a slot. -/
inductive Stage (G : Type v)
  | free (pos : ℕ)
  | full (pos : ℕ)
  | held (hold : Hold) (pos : ℕ) (g : G)

/-- The position a stage belongs to. -/
def Stage.pos {G : Type v} : Stage G → ℕ
  | .free pos | .full pos | .held _ pos _ => pos

/-- The counters of the ring and the stage of every slot. -/
structure View (G : Type v) where
  capacity : ℕ
  readPos : ℕ
  writePos : ℕ
  stage : ℕ → Stage G

namespace View

variable {G : Type v}

/-- The stage of the slot of a position. -/
def stageAt (v : View G) (pos : ℕ) : Stage G := v.stage (pos % v.capacity)

/-- Change the stage of the slot of a position. -/
def set (v : View G) (pos : ℕ) (st : Stage G) : View G :=
  { v with stage := update v.stage (pos % v.capacity) st }

/-- The positions a stage can have under the given counters. -/
def Bounds (v : View G) : Stage G → Prop
  | .free pos => v.writePos ≤ pos ∧ pos < v.readPos + v.capacity
  | .full pos => v.readPos ≤ pos ∧ pos < v.writePos
  | .held .writing pos _ => v.readPos ≤ pos ∧ pos < v.writePos
  | .held .marked pos _ => v.readPos ≤ pos ∧ pos < v.writePos
  | .held .reading pos _ => pos < v.readPos ∧ v.writePos ≤ pos + v.capacity
  | .held .evicting pos _ => pos < v.readPos ∧ v.writePos = pos + v.capacity
  | .held .rewriting pos _ => v.readPos ≤ pos ∧ pos < v.writePos

/-- The invariant of the counters and the stages. -/
structure Ok (v : View G) : Prop where
  two_le_capacity : 2 ≤ v.capacity
  read_le_write : v.readPos ≤ v.writePos
  write_le_read : v.writePos ≤ v.readPos + v.capacity
  /-- A stage sits in the slot of its position. -/
  slot : ∀ i < v.capacity, (v.stage i).pos % v.capacity = i
  bounds : ∀ i < v.capacity, v.Bounds (v.stage i)

@[simp] theorem set_capacity (v : View G) (pos : ℕ) (st : Stage G) :
    (v.set pos st).capacity = v.capacity := rfl

@[simp] theorem set_readPos (v : View G) (pos : ℕ) (st : Stage G) :
    (v.set pos st).readPos = v.readPos := rfl

@[simp] theorem set_writePos (v : View G) (pos : ℕ) (st : Stage G) :
    (v.set pos st).writePos = v.writePos := rfl

theorem set_stage_same (v : View G) (pos : ℕ) (st : Stage G) :
    (v.set pos st).stage (pos % v.capacity) = st := update_self ..

theorem set_stage_ne (v : View G) {pos i : ℕ} (st : Stage G) (h : i ≠ pos % v.capacity) :
    (v.set pos st).stage i = v.stage i := update_of_ne h ..

/-- Setting a slot to the stage it has changes nothing. -/
theorem set_self {v : View G} {pos : ℕ} {st : Stage G} (h : v.stageAt pos = st) :
    v.set pos st = v := by
  subst h
  exact congrArg (View.mk _ _ _) (update_eq_self _ _)

namespace Ok

variable {v : View G}

theorem capacity_pos (hv : v.Ok) : 0 < v.capacity := by
  have := hv.two_le_capacity
  omega

theorem mod_lt (hv : v.Ok) (pos : ℕ) : pos % v.capacity < v.capacity :=
  Nat.mod_lt _ hv.capacity_pos

/-- The bounds of the stage found at a position. -/
theorem bounds_at (hv : v.Ok) (pos : ℕ) : v.Bounds (v.stageAt pos) :=
  hv.bounds _ (hv.mod_lt pos)

end Ok

end View

/-- The moves of a goroutine `g` on the view, with the effect the history records.
Every access that changes neither a counter nor a stage is a `stay`. -/
inductive Move {G : Type v} {α : Type u} (g : G) (v : View G) :
    Option (Effect α) → View G → Prop
  | stay (effect : Option (Effect α))
      (hclaim : ∀ pos, effect ≠ some (.claimed pos))
      (hpublish : ∀ pos item, effect ≠ some (.published pos item)) :
      Move g v effect v
  /-- `pushAt` claims `writePos`. -/
  | claimWrite (hfree : v.stageAt v.writePos = .free v.writePos) :
      Move g v none
        { v.set v.writePos (.held .writing v.writePos g) with writePos := v.writePos + 1 }
  /-- A writer publishes. -/
  | publish (hold : Hold) (pos : ℕ) (item : α)
      (hhold : hold = .writing ∨ hold = .rewriting)
      (hheld : v.stageAt pos = .held hold pos g) :
      Move g v (some (.published pos item)) (v.set pos (.full pos))
  /-- `replaceOldest` un-publishes the oldest item. -/
  | mark (pos : ℕ) (hfull : v.stageAt pos = .full pos) :
      Move g v none (v.set pos (.held .marked pos g))
  /-- A reader claims `readPos`, possibly from under an evictor's mark. -/
  | claimRead
      (havail : v.stageAt v.readPos = .full v.readPos ∨
        ∃ e, v.stageAt v.readPos = .held .marked v.readPos e) :
      Move g v (some (.claimed v.readPos))
        { v.set v.readPos (.held .reading v.readPos g) with readPos := v.readPos + 1 }
  /-- An evictor claims `readPos` of a full ring. -/
  | evict (hmark : v.stageAt v.readPos = .held .marked v.readPos g)
      (hring : v.writePos = v.readPos + v.capacity) :
      Move g v (some (.claimed v.readPos))
        { v.set v.readPos (.held .evicting v.readPos g) with readPos := v.readPos + 1 }
  /-- An evictor moves `writePos` past the position it is about to publish. -/
  | advance (pos : ℕ) (hheld : v.stageAt pos = .held .evicting pos g) :
      Move g v none
        { v.set pos (.held .rewriting (pos + v.capacity) g) with writePos := v.writePos + 1 }
  /-- A reader releases its slot for the next lap. -/
  | release (pos : ℕ) (hheld : v.stageAt pos = .held .reading pos g) :
      Move g v none (v.set pos (.free (pos + v.capacity)))

namespace Move

variable {G : Type v} {α : Type u} {g : G} {v v' : View G} {effect : Option (Effect α)}

variable (h : Move g v effect v')
include h

theorem capacity_eq : v'.capacity = v.capacity := by
  cases h <;> rfl

theorem readPos_le : v.readPos ≤ v'.readPos := by
  cases h <;> simp

theorem writePos_le : v.writePos ≤ v'.writePos := by
  cases h <;> simp

end Move

/-- Rebuild the slot part of the invariant after one slot has changed: the changed
slot by hand, every other one from its old bounds and the fact that its position
is in another slot. -/
theorem View.Ok.of_set {G : Type v} {v v' : View G} (hv : v.Ok) (pos : ℕ) {st : Stage G}
    (hcap : v'.capacity = v.capacity) (hstage : v'.stage = (v.set pos st).stage)
    (hrw : v'.readPos ≤ v'.writePos) (hwr : v'.writePos ≤ v'.readPos + v.capacity)
    (hpos : st.pos % v.capacity = pos % v.capacity) (hst : v'.Bounds st)
    (hother : ∀ other : Stage G, other.pos % v.capacity ≠ pos % v.capacity →
      v.Bounds other → v'.Bounds other) : v'.Ok := by
  refine ⟨hcap ▸ hv.two_le_capacity, hrw, hcap ▸ hwr, ?_, ?_⟩
  · intro i hi
    rw [hcap] at hi ⊢
    rw [hstage]
    by_cases heq : i = pos % v.capacity
    · subst heq
      rw [View.set_stage_same, hpos]
    · rw [View.set_stage_ne _ _ heq]
      exact hv.slot i hi
  · intro i hi
    rw [hcap] at hi
    rw [hstage]
    by_cases heq : i = pos % v.capacity
    · subst heq
      rw [View.set_stage_same]
      exact hst
    · rw [View.set_stage_ne _ _ heq]
      exact hother _ (by rw [hv.slot i hi]; exact heq) (hv.bounds i hi)

namespace Move

variable {G : Type v} {α : Type u} {g : G} {v v' : View G} {effect : Option (Effect α)}

/-- Two positions in different slots are different, also a lap apart. -/
theorem ne_of_mod_ne {p q n : ℕ} (h : p % n ≠ q % n) : p ≠ q ∧ p + n ≠ q ∧ p ≠ q + n := by
  refine ⟨?_, ?_, ?_⟩ <;> rintro rfl <;> simp at h

/-- Moving `writePos` past one slot keeps the bounds of the others.  Only an
evicting slot pins `writePos`, and that slot is the one `writePos` is in. -/
theorem bounds_of_write_succ {other : Stage G} (hcap : v'.capacity = v.capacity)
    (hread : v'.readPos = v.readPos) (hwrite : v'.writePos = v.writePos + 1)
    (hne : other.pos % v.capacity ≠ v.writePos % v.capacity) (hb : v.Bounds other) :
    v'.Bounds other := by
  have hdiff := ne_of_mod_ne hne
  rcases other with p | p | ⟨hold, p, e⟩
  · simp only [View.Bounds, Stage.pos, hcap, hread, hwrite] at *
    omega
  · simp only [View.Bounds, hread, hwrite] at *
    omega
  · cases hold <;> simp only [View.Bounds, Stage.pos, hcap, hread, hwrite] at * <;> omega

/-- Moving `readPos` past one slot keeps the bounds of the others. -/
theorem bounds_of_read_succ {other : Stage G} (hcap : v'.capacity = v.capacity)
    (hread : v'.readPos = v.readPos + 1) (hwrite : v'.writePos = v.writePos)
    (hne : other.pos % v.capacity ≠ v.readPos % v.capacity) (hb : v.Bounds other) :
    v'.Bounds other := by
  have hdiff := ne_of_mod_ne hne
  rcases other with p | p | ⟨hold, p, e⟩
  · simp only [View.Bounds, hcap, hread, hwrite] at *
    omega
  · simp only [View.Bounds, Stage.pos, hread, hwrite] at *
    omega
  · cases hold <;> simp only [View.Bounds, Stage.pos, hcap, hread, hwrite] at * <;> omega

/-- **Every move keeps the bounds of every slot.** -/
theorem ok (h : Move g v effect v') (hv : v.Ok) : v'.Ok := by
  have hrw := hv.read_le_write
  have hwr := hv.write_le_read
  cases h with
  | stay => exact hv
  | claimWrite hfree =>
    have hb := hv.bounds_at v.writePos
    rw [hfree] at hb
    obtain ⟨-, hlt⟩ := hb
    refine hv.of_set v.writePos rfl rfl ?_ ?_ rfl ⟨hrw, Nat.lt_succ_self _⟩
      fun other hne hb => bounds_of_write_succ (v := v) rfl rfl rfl hne hb
    · exact hrw.trans (Nat.le_succ _)
    · exact hlt
  | publish _ pos _ hhold hheld =>
    have hb := hv.bounds_at pos
    rw [hheld] at hb
    refine hv.of_set pos rfl rfl hrw hwr rfl ?_ fun _ _ hb => hb
    rcases hhold with rfl | rfl <;> exact hb
  | mark pos hfull =>
    have hb := hv.bounds_at pos
    rw [hfull] at hb
    exact hv.of_set pos rfl rfl hrw hwr rfl hb fun _ _ hb => hb
  | claimRead havail =>
    have hlt : v.readPos < v.writePos := by
      have hb := hv.bounds_at v.readPos
      rcases havail with hst | ⟨e, hst⟩ <;> rw [hst] at hb <;> exact hb.2
    refine hv.of_set v.readPos rfl rfl hlt ?_ rfl ⟨Nat.lt_succ_self _, hwr⟩
      fun other hne hb => bounds_of_read_succ (v := v) rfl rfl rfl hne hb
    simp only [View.set_writePos]
    omega
  | evict hmark hring =>
    have hb := hv.bounds_at v.readPos
    rw [hmark] at hb
    obtain ⟨-, hlt⟩ := hb
    refine hv.of_set v.readPos rfl rfl hlt ?_ rfl ⟨Nat.lt_succ_self _, hring⟩
      fun other hne hb => bounds_of_read_succ (v := v) rfl rfl rfl hne hb
    simp only [View.set_writePos]
    omega
  | advance pos hheld =>
    have hb := hv.bounds_at pos
    rw [hheld] at hb
    obtain ⟨hlt, heq⟩ := hb
    have hslot : v.writePos % v.capacity = pos % v.capacity := by rw [heq, Nat.add_mod_right]
    refine hv.of_set pos rfl rfl ?_ ?_ (Nat.add_mod_right _ _) ?_
      fun other hne hb => bounds_of_write_succ (v := v) rfl rfl rfl (hslot ▸ hne) hb
    · exact hrw.trans (Nat.le_succ _)
    · simp only [View.set_readPos]
      omega
    · simp only [View.Bounds, View.set_readPos]
      omega
  | release pos hheld =>
    have hb := hv.bounds_at pos
    rw [hheld] at hb
    obtain ⟨hlt, hle⟩ := hb
    refine hv.of_set pos rfl rfl hrw hwr (Nat.add_mod_right _ _) ⟨hle, ?_⟩
      fun _ _ hb => hb
    exact Nat.add_lt_add_right hlt _

/-! ### What the other goroutines may rely on -/

/-- The stage of a position that is not in the changed slot. -/
theorem stageAt_set_ne (v : View G) {pos p : ℕ} (st : Stage G)
    (h : v.stageAt p ≠ v.stageAt pos) : (v.set pos st).stageAt p = v.stageAt p :=
  View.set_stage_ne _ _ fun heq => h (congrArg v.stage heq)

variable (hm : Move g v effect v')
include hm

/-- A slot held for anything but an eviction not yet claimed stays with its
holder. -/
theorem held_of_ne {h : G} {hold : Hold} {pos p : ℕ} (hne : h ≠ g)
    (hmark : hold ≠ .marked) (hst : v.stageAt p = .held hold pos h) :
    v'.stageAt p = .held hold pos h := by
  rw [← hst]
  cases hm with
  | stay => rfl
  | claimWrite hfree => exact stageAt_set_ne v _ (by rw [hst, hfree]; nofun)
  | publish hold' q item hhold hheld | advance q hheld | release q hheld =>
    exact stageAt_set_ne v _ (by rw [hst, hheld]; intro heq; cases heq; exact hne rfl)
  | mark q hfull => exact stageAt_set_ne v _ (by rw [hst, hfull]; nofun)
  | claimRead havail =>
    rcases havail with hav | ⟨e, hav⟩
    · exact stageAt_set_ne v _ (by rw [hst, hav]; nofun)
    · exact stageAt_set_ne v _ (by rw [hst, hav]; intro heq; cases heq; exact hmark rfl)
  | evict hmarked hring =>
    exact stageAt_set_ne v _ (by rw [hst, hmarked]; intro heq; cases heq; exact hne rfl)

/-- A slot that is free for `writePos` stays so while `writePos` does not move. -/
theorem free_of_eq {p : ℕ} (hp : p ≤ v.writePos)
    (heq : p = v'.writePos) (hst : p = v.writePos → v.stageAt p = .free p) :
    v'.stageAt p = .free p := by
  obtain rfl : p = v.writePos := le_antisymm hp (heq ▸ hm.writePos_le)
  have hfree := hst rfl
  rw [← hfree]
  cases hm with
  | stay => rfl
  | claimWrite | advance => exact absurd heq (Nat.ne_of_lt (Nat.lt_succ_self _))
  | publish hold q item hhold hheld | release q hheld =>
    exact stageAt_set_ne v _ (by rw [hfree, hheld]; nofun)
  | mark q hfull => exact stageAt_set_ne v _ (by rw [hfree, hfull]; nofun)
  | claimRead havail =>
    rcases havail with hav | ⟨e, hav⟩ <;>
      exact stageAt_set_ne v _ (by rw [hfree, hav]; nofun)
  | evict hmarked => exact stageAt_set_ne v _ (by rw [hfree, hmarked]; nofun)

/-- A mark stays with its evictor while `readPos` does not move. -/
theorem marked_of_eq {h : G} {p : ℕ} (hne : h ≠ g)
    (hp : p ≤ v.readPos) (heq : p = v'.readPos)
    (hst : p = v.readPos → v.stageAt p = .held .marked p h) :
    v'.stageAt p = .held .marked p h := by
  obtain rfl : p = v.readPos := le_antisymm hp (heq ▸ hm.readPos_le)
  have hmark := hst rfl
  rw [← hmark]
  cases hm with
  | stay => rfl
  | claimWrite hfree => exact stageAt_set_ne v _ (by rw [hmark, hfree]; nofun)
  | publish _ q _ _ hheld =>
    exact stageAt_set_ne v _ (by rw [hmark, hheld]; intro heq; cases heq; exact hne rfl)
  | mark q hfull => exact stageAt_set_ne v _ (by rw [hmark, hfull]; nofun)
  | claimRead | evict => exact absurd heq (Nat.ne_of_lt (Nat.lt_succ_self _))
  | advance q hheld | release q hheld => exact stageAt_set_ne v _ (by rw [hmark, hheld]; nofun)

/-- The oldest item stays available to a reader that saw it while `readPos` does
not move, though an evictor may mark it. -/
theorem available_of_eq {p : ℕ} (hp : p ≤ v.readPos)
    (heq : p = v'.readPos)
    (hst : p = v.readPos →
      v.stageAt p = .full p ∨ ∃ e, v.stageAt p = .held .marked p e) :
    v'.stageAt p = .full p ∨ ∃ e, v'.stageAt p = .held .marked p e := by
  obtain rfl : p = v.readPos := le_antisymm hp (heq ▸ hm.readPos_le)
  have havail := hst rfl
  -- a move that leaves this slot alone keeps the stage as it is
  have keep : ∀ {q : ℕ} (st : Stage G), v.stageAt v.readPos ≠ v.stageAt q →
      (v.set q st).stageAt v.readPos = .full v.readPos ∨
        ∃ e, (v.set q st).stageAt v.readPos = .held .marked v.readPos e := by
    intro q st hdiff
    rw [stageAt_set_ne v st hdiff]
    exact havail
  cases hm with
  | stay => exact havail
  | claimWrite hfree =>
    refine keep _ ?_
    rcases havail with hav | ⟨e, hav⟩ <;> rw [hav, hfree] <;> nofun
  | publish _ q _ hhold hheld =>
    refine keep _ ?_
    rcases havail with hav | ⟨e, hav⟩ <;> rw [hav, hheld]
    · nofun
    · rintro heq
      cases heq
      simp at hhold
  | mark q hfull =>
    by_cases hslot : v.readPos % v.capacity = q % v.capacity
    · have hsame : v.stageAt v.readPos = v.stageAt q := congrArg v.stage hslot
      rw [hfull] at hsame
      have hpos : q = v.readPos := by
        rcases havail with hav | ⟨e, hav⟩ <;> rw [hav] at hsame <;> cases hsame
        rfl
      subst hpos
      exact .inr ⟨g, View.set_stage_same _ _ _⟩
    · rw [View.stageAt, View.set_capacity, View.set_stage_ne _ _ hslot]
      exact havail
  | claimRead | evict => exact absurd heq (Nat.ne_of_lt (Nat.lt_succ_self _))
  | advance q hheld | release q hheld =>
    refine keep _ ?_
    rcases havail with hav | ⟨e, hav⟩ <;> rw [hav, hheld] <;> nofun

end Move

/-! ### The published and the claimed positions of a history -/

section Chronicle

variable {G : Type v} {α : Type u}

/-- The position an event publishes at. -/
def Event.publishedPos? : Event G α → Option ℕ
  | .effect _ (.published pos _) => some pos
  | _ => none

/-- The position an event claims from `readPos`. -/
def Event.claimedPos? : Event G α → Option ℕ
  | .effect _ (.claimed pos) => some pos
  | _ => none

/-- The positions published so far, in publication order. -/
def publishedPositions (h : List (Event G α)) : List ℕ := h.filterMap Event.publishedPos?

/-- The positions claimed so far, in claim order. -/
def claimedPositions (h : List (Event G α)) : List ℕ := h.filterMap Event.claimedPos?

/-- The position a slot's holder is about to publish at. -/
def Stage.pendingPos? : Stage G → Option ℕ
  | .held .writing pos _ | .held .rewriting pos _ => some pos
  | _ => none

/-- A position below `writePos` whose writer has not published yet. -/
def View.Writing (v : View G) (p : ℕ) : Prop := (v.stageAt p).pendingPos? = some p

/-- Writing after one slot has changed is read off the new stage in that slot. -/
theorem View.writing_set_iff (v : View G) (q p : ℕ) (st : Stage G) :
    (v.set q st).Writing p ↔
      if p % v.capacity = q % v.capacity then st.pendingPos? = some p else v.Writing p := by
  unfold View.Writing View.stageAt
  rw [View.set_capacity]
  split
  · rename_i heq
    rw [heq, View.set_stage_same]
  · rename_i hne
    rw [View.set_stage_ne _ _ hne]

/-- A history agrees with a view: positions are published at most once, exactly
the positions below `writePos` without a pending writer are published, and the
positions below `readPos` were claimed one after the other. -/
structure Chronicle (v : View G) (h : List (Event G α)) : Prop where
  nodup : (publishedPositions h).Nodup
  mem_iff : ∀ p, p ∈ publishedPositions h ↔ p < v.writePos ∧ ¬ v.Writing p
  claimed : claimedPositions h = range v.readPos

theorem publishedPositions_record (h : List (Event G α)) (call : Call G)
    (effect : Option (Effect α)) :
    publishedPositions (h ++ World.record call effect) =
      publishedPositions h ++ match effect with
        | some (.published pos _) => [pos]
        | _ => [] := by
  rw [publishedPositions, filterMap_append]
  rcases effect with _ | ⟨_ | _ | _ | _⟩ <;> rfl

theorem claimedPositions_record (h : List (Event G α)) (call : Call G)
    (effect : Option (Effect α)) :
    claimedPositions (h ++ World.record call effect) =
      claimedPositions h ++ match effect with
        | some (.claimed pos) => [pos]
        | _ => [] := by
  rw [claimedPositions, filterMap_append]
  rcases effect with _ | ⟨_ | _ | _ | _⟩ <;> rfl

namespace Chronicle

variable {v v' : View G} {h : List (Event G α)}

/-- A slot that changes between two stages without a pending writer leaves the
published positions as they are. -/
theorem mem_iff_of_quiet (hc : Chronicle v h) {q : ℕ} {st : Stage G}
    (hold : (v.stageAt q).pendingPos? = none) (hnew : st.pendingPos? = none) (p : ℕ) :
    p ∈ publishedPositions h ↔ p < v.writePos ∧ ¬ (v.set q st).Writing p := by
  rw [hc.mem_iff, View.writing_set_iff, hnew]
  by_cases hslot : p % v.capacity = q % v.capacity
  · have hsame : v.stageAt p = v.stageAt q := congrArg v.stage hslot
    simp [hslot, View.Writing, hsame, hold]
  · simp [hslot]

/-- Claiming `writePos` adds a pending writer there and publishes nothing. -/
theorem mem_iff_of_claim (hc : Chronicle v h) {q : ℕ} {st : Stage G}
    (hold : (v.stageAt q).pendingPos? = none) (hnew : st.pendingPos? = some v.writePos)
    (hslot : v.writePos % v.capacity = q % v.capacity) (p : ℕ) :
    p ∈ publishedPositions h ↔ p < v.writePos + 1 ∧ ¬ (v.set q st).Writing p := by
  rw [hc.mem_iff, View.writing_set_iff, hnew]
  by_cases hp : p % v.capacity = q % v.capacity
  · have hsame : v.stageAt p = v.stageAt q := congrArg v.stage hp
    simp only [if_pos hp, View.Writing, hsame, hold, Option.some.injEq]
    simp only [reduceCtorEq, not_false_eq_true, and_true]
    omega
  · have hne := (Move.ne_of_mod_ne (hslot ▸ hp)).1
    rw [if_neg hp]
    refine and_congr_left fun _ => ?_
    omega

/-- Publishing moves one position from pending to published. -/
theorem mem_iff_of_publish (hc : Chronicle v h) {q : ℕ} (hlt : q < v.writePos)
    (hold : (v.stageAt q).pendingPos? = some q) (p : ℕ) :
    p ∈ publishedPositions h ++ [q] ↔ p < v.writePos ∧ ¬ (v.set q (.full q)).Writing p := by
  rw [mem_append, mem_singleton, hc.mem_iff, View.writing_set_iff]
  by_cases hp : p % v.capacity = q % v.capacity
  · have hsame : v.stageAt p = v.stageAt q := congrArg v.stage hp
    have hfull : ¬ (Stage.full q : Stage G).pendingPos? = some p := nofun
    simp only [if_pos hp, View.Writing, hsame, hold, Option.some.injEq, hfull,
      not_false_eq_true, and_true]
    constructor
    · rintro (⟨hpw, -⟩ | rfl)
      · exact hpw
      · exact hlt
    · intro hpw
      by_cases heq : p = q
      · exact .inr heq
      · exact .inl ⟨hpw, Ne.symm heq⟩
  · rw [if_neg hp]
    constructor
    · rintro (hpw | rfl)
      · exact hpw
      · exact absurd rfl hp
    · exact .inl

/-- **Every move extends the chronicle by its effect.** -/
theorem of_move {g : G} {effect : Option (Effect α)} {call : Call G}
    (hm : Move g v effect v') (hv : v.Ok) (hc : Chronicle v h) :
    Chronicle v' (h ++ World.record call effect) := by
  have hpub := publishedPositions_record h call effect
  have hclm := claimedPositions_record h call effect
  cases hm with
  | stay _ hclaim hpublish =>
    have hpub' : publishedPositions (h ++ World.record call effect) = publishedPositions h := by
      rw [hpub]
      rcases effect with _ | ⟨_ | _ | ⟨pos, item⟩ | _⟩ <;>
        first | exact append_nil _ | exact absurd rfl (hpublish pos item)
    have hclm' : claimedPositions (h ++ World.record call effect) = claimedPositions h := by
      rw [hclm]
      rcases effect with _ | ⟨pos | _ | _ | _⟩ <;>
        first | exact append_nil _ | exact absurd rfl (hclaim pos)
    exact ⟨hpub' ▸ hc.nodup, hpub' ▸ hc.mem_iff, hclm' ▸ hc.claimed⟩
  | claimWrite hfree =>
    simp only [append_nil] at hpub hclm
    refine ⟨hpub ▸ hc.nodup, fun p => ?_, hclm ▸ hc.claimed⟩
    rw [hpub]
    exact hc.mem_iff_of_claim (by rw [hfree]; rfl) rfl rfl p
  | publish _ pos _ hhold hheld =>
    have hpending : (v.stageAt pos).pendingPos? = some pos := by
      rw [hheld]
      rcases hhold with rfl | rfl <;> rfl
    have hlt : pos < v.writePos := by
      have hb := hv.bounds_at pos
      rw [hheld] at hb
      rcases hhold with rfl | rfl <;> exact hb.2
    simp only [append_nil] at hpub hclm
    refine ⟨?_, fun p => ?_, hclm ▸ hc.claimed⟩
    · rw [hpub, nodup_append]
      refine ⟨hc.nodup, nodup_singleton _, ?_⟩
      rintro p hp q hq rfl
      obtain rfl : p = pos := by simpa using hq
      exact ((hc.mem_iff p).mp hp).2 hpending
    · rw [hpub]
      exact hc.mem_iff_of_publish hlt hpending p
  | mark pos hfull =>
    simp only [append_nil] at hpub hclm
    refine ⟨hpub ▸ hc.nodup, fun p => ?_, hclm ▸ hc.claimed⟩
    rw [hpub]
    exact hc.mem_iff_of_quiet (by rw [hfull]; rfl) rfl p
  | claimRead havail =>
    simp only [append_nil] at hpub hclm
    refine ⟨hpub ▸ hc.nodup, fun p => ?_, ?_⟩
    · rw [hpub]
      refine hc.mem_iff_of_quiet ?_ rfl p
      rcases havail with hav | ⟨e, hav⟩ <;> rw [hav] <;> rfl
    · rw [hclm, hc.claimed]
      exact range_succ.symm
  | evict hmark hring =>
    simp only [append_nil] at hpub hclm
    refine ⟨hpub ▸ hc.nodup, fun p => ?_, ?_⟩
    · rw [hpub]
      exact hc.mem_iff_of_quiet (by rw [hmark]; rfl) rfl p
    · rw [hclm, hc.claimed]
      exact range_succ.symm
  | advance pos hheld =>
    have hb := hv.bounds_at pos
    rw [hheld] at hb
    obtain ⟨-, heq⟩ := hb
    simp only [append_nil] at hpub hclm
    refine ⟨hpub ▸ hc.nodup, fun p => ?_, hclm ▸ hc.claimed⟩
    rw [hpub]
    refine hc.mem_iff_of_claim (by rw [hheld]; rfl) (by rw [heq]; rfl) ?_ p
    rw [heq, Nat.add_mod_right]
  | release pos hheld =>
    simp only [append_nil] at hpub hclm
    refine ⟨hpub ▸ hc.nodup, fun p => ?_, hclm ▸ hc.claimed⟩
    rw [hpub]
    exact hc.mem_iff_of_quiet (by rw [hheld]; rfl) rfl p

end Chronicle

end Chronicle

end ConvoyStats.Transport
