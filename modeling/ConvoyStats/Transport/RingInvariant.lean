import ConvoyStats.Transport.SlotProtocol
import Mathlib.Data.Nat.ModEq

/-!
# The ring implements the slot protocol

`Simulates v w` ties the shared memory and the goroutines of a `World` to a view
of the slot protocol: the sequence number of every slot encodes its stage, every
goroutine's local variables are still good for the access it is about to make,
and a held slot is held by a goroutine that is at the matching point of its
call.  `access_simulated` is the step theorem: every access of every goroutine is
one `Move` of the protocol.

Two facts carry the argument.  A slot shows `pos + 1` only from the publication
of `pos` until it is released or re-published, also when an evictor or a slow
reader is at work on it (`stage_of_seq_succ`); and a slot shows `writePos` only
when it is free for it (`free_of_seq`).  Both need a capacity of at least two.
-/

namespace ConvoyStats.Transport

open Function

universe u v

variable {G : Type v} {α : Type u}

variable {p : ℕ}

/-- An earlier position of the same slot is at least one lap behind. -/
theorem add_le_of_mod_eq {q n : ℕ} (hmod : q % n = p % n) (hlt : q < p) : q + n ≤ p := by
  have hdvd : n ∣ p - q := (Nat.modEq_iff_dvd' hlt.le).mp hmod
  have := Nat.le_of_dvd (by omega) hdvd
  omega

/-- Some call has published `item` at `pos`. -/
def Published (h : List (Event G α)) (pos : ℕ) (item : α) : Prop :=
  ∃ call, Event.effect call (.published pos item) ∈ h

variable {h h' : List (Event G α)}

theorem Published.mono (hsub : h ⊆ h') {pos : ℕ} {item : α} (hp : Published h pos item) :
    Published h' pos item := by
  obtain ⟨call, hmem⟩ := hp
  exact ⟨call, hsub hmem⟩

/-- How the fields of a slot encode its stage. -/
def Slot.Encodes (h : List (Event G α)) (capacity : ℕ) (s : Slot α) : Stage G → Prop
  | .free pos => s.seq = pos
  | .full pos => s.seq = pos + 1 ∧ ∃ item, s.item = some item ∧ Published h pos item
  | .held .writing pos _ => s.seq = pos
  | .held .marked pos _ => s.seq = pos ∧ ∃ item, s.item = some item ∧ Published h pos item
  | .held .reading pos _ => s.seq = pos ∨ s.seq = pos + 1
  | .held .evicting pos _ => s.seq = pos
  | .held .rewriting pos _ => s.seq + capacity = pos

theorem Slot.Encodes.mono (hsub : h ⊆ h') {capacity : ℕ} {s : Slot α} {st : Stage G}
    (he : s.Encodes h capacity st) : s.Encodes h' capacity st := by
  rcases st with pos | pos | ⟨hold, pos, g⟩
  · exact he
  · obtain ⟨hseq, item, hitem, hpub⟩ := he
    exact ⟨hseq, item, hitem, hpub.mono hsub⟩
  · cases hold
    case marked =>
      obtain ⟨hseq, item, hitem, hpub⟩ := he
      exact ⟨hseq, item, hitem, hpub.mono hsub⟩
    all_goals exact he

variable {g : G}

/-- Except under a mark, the encoding of a held slot is in its sequence number. -/
theorem Slot.Encodes.of_seq {capacity : ℕ} {s s' : Slot α} {hold : Hold} {pos : ℕ}
    (he : s.Encodes h capacity (.held hold pos g)) (hmark : hold ≠ .marked)
    (hseq : s'.seq = s.seq) :
    s'.Encodes h capacity (.held hold pos g) := by
  cases hold <;> simp only [Slot.Encodes, hseq] at he ⊢
  case marked => exact absurd rfl hmark
  all_goals exact he

namespace Pc

/-- The slot a goroutine holds at a point of its call. -/
def holds : Pc α → Option (Hold × ℕ)
  | .pushAtStoreItem _ _ writePos | .pushAtStoreSeq _ _ writePos => some (.writing, writePos)
  | .replaceCasRead _ readPos _ => some (.marked, readPos)
  | .replaceLoadItem _ readPos _ | .replaceStoreWrite _ readPos _ _ =>
    some (.evicting, readPos)
  | .replaceStoreItem _ _ writePos _ | .replaceStoreSeq _ _ writePos _ =>
    some (.rewriting, writePos)
  | .popLoadItem readPos | .popClearItem readPos _ | .popStoreSeq readPos _ =>
    some (.reading, readPos)
  | _ => none

/-- What a goroutine knows of the view through its local variables.  A position
loaded earlier may be stale; what was seen of its slot still counts as long as
the counter has not moved. -/
def Claims (v : View G) (g : G) : Pc α → Prop
  | .pushLoadWrite _ _ readPos => readPos ≤ v.readPos
  | .pushAtLoadSeq _ _ writePos => writePos ≤ v.writePos
  | .pushAtCasWrite _ _ writePos =>
    writePos ≤ v.writePos ∧ (writePos = v.writePos → v.stageAt writePos = .free writePos)
  | .pushAtStoreItem _ _ writePos | .pushAtStoreSeq _ _ writePos =>
    v.stageAt writePos = .held .writing writePos g
  | .replaceLoadSeq _ readPos writePos => readPos ≤ v.readPos ∧ writePos ≤ v.writePos
  | .replaceCasSeq _ readPos writePos =>
    readPos ≤ v.readPos ∧ writePos ≤ v.writePos ∧ writePos = readPos + v.capacity
  | .replaceCasRead _ readPos writePos =>
    readPos ≤ v.readPos ∧ writePos ≤ v.writePos ∧ writePos = readPos + v.capacity ∧
      (readPos = v.readPos → v.stageAt readPos = .held .marked readPos g)
  | .replaceLoadItem _ readPos writePos | .replaceStoreWrite _ readPos writePos _ =>
    writePos = readPos + v.capacity ∧ v.stageAt readPos = .held .evicting readPos g
  | .replaceStoreItem _ readPos writePos _ | .replaceStoreSeq _ readPos writePos _ =>
    writePos = readPos + v.capacity ∧ v.stageAt writePos = .held .rewriting writePos g
  | .popLoadWrite _ readPos | .popLoadSeq _ readPos => readPos ≤ v.readPos
  | .popCasRead _ readPos =>
    readPos ≤ v.readPos ∧ (readPos = v.readPos →
      v.stageAt readPos = .full readPos ∨ ∃ e, v.stageAt readPos = .held .marked readPos e)
  | .popLoadItem readPos | .popClearItem readPos _ | .popStoreSeq readPos _ =>
    v.stageAt readPos = .held .reading readPos g
  | _ => True

/-- What the slot a goroutine holds has in its `item` field. -/
def Stored (rb : RingBuffer α) (h : List (Event G α)) : Pc α → Prop
  | .pushAtStoreSeq _ item writePos => (rb.slot writePos).item = some item
  | .replaceStoreSeq item readPos _ _ => (rb.slot readPos).item = some item
  | .popLoadItem readPos | .replaceLoadItem _ readPos _ =>
    ∃ item, (rb.slot readPos).item = some item ∧ Published h readPos item
  | _ => True

/-- The moves of the others leave a goroutine's knowledge intact. -/
theorem Claims.of_move {e : G} {v v' : View G} {effect : Option (Effect α)} {pc : Pc α}
    (hm : Move e v effect v') (hne : g ≠ e) (hc : pc.Claims v g) : pc.Claims v' g := by
  have hr := hm.readPos_le
  have hw := hm.writePos_le
  have hcap := hm.capacity_eq
  cases pc <;> simp only [Claims, hcap] at hc ⊢
  case pushLoadWrite => exact hc.trans hr
  case pushAtLoadSeq => exact hc.trans hw
  case pushAtCasWrite => exact ⟨hc.1.trans hw, fun heq => hm.free_of_eq hc.1 heq hc.2⟩
  case pushAtStoreItem => exact hm.held_of_ne hne (by decide) hc
  case pushAtStoreSeq => exact hm.held_of_ne hne (by decide) hc
  case replaceLoadSeq => exact ⟨hc.1.trans hr, hc.2.trans hw⟩
  case replaceCasSeq => exact ⟨hc.1.trans hr, hc.2.1.trans hw, hc.2.2⟩
  case replaceCasRead =>
    obtain ⟨hread, hwrite, hlap, hmark⟩ := hc
    exact ⟨hread.trans hr, hwrite.trans hw, hlap,
      fun heq => hm.marked_of_eq hne hread heq hmark⟩
  case replaceLoadItem => exact ⟨hc.1, hm.held_of_ne hne (by decide) hc.2⟩
  case replaceStoreWrite => exact ⟨hc.1, hm.held_of_ne hne (by decide) hc.2⟩
  case replaceStoreItem => exact ⟨hc.1, hm.held_of_ne hne (by decide) hc.2⟩
  case replaceStoreSeq => exact ⟨hc.1, hm.held_of_ne hne (by decide) hc.2⟩
  case popLoadWrite => exact hc.trans hr
  case popLoadSeq => exact hc.trans hr
  case popCasRead => exact ⟨hc.1.trans hr, fun heq => hm.available_of_eq hc.1 heq hc.2⟩
  case popLoadItem => exact hm.held_of_ne hne (by decide) hc
  case popClearItem => exact hm.held_of_ne hne (by decide) hc
  case popStoreSeq => exact hm.held_of_ne hne (by decide) hc

/-- A goroutine that relies on the item of a slot holds that slot. -/
theorem Stored.of_items {v : View G} {rb rb' : RingBuffer α} {pc : Pc α} (hsub : h ⊆ h')
    (hc : pc.Claims v g) (hindex : ∀ pos, pos &&& rb.mask = pos % v.capacity)
    (hmask : rb'.mask = rb.mask)
    (hitem : ∀ i hold pos, v.stage i = .held hold pos g → (rb'.slots i).item = (rb.slots i).item)
    (hs : pc.Stored rb h) : pc.Stored rb' h' := by
  -- the item of a slot held by `g` is the same in both memories
  have hslot : ∀ {p q : ℕ} {hold : Hold}, v.stageAt p = .held hold q g →
      (rb'.slot p).item = (rb.slot p).item := by
    intro p q hold hst
    unfold RingBuffer.slot
    rw [hmask]
    refine hitem _ hold q ?_
    rw [hindex]
    exact hst
  cases pc <;> simp only [Claims, Stored] at hc hs ⊢
  case pushAtStoreSeq => rw [hslot hc]; exact hs
  case replaceStoreSeq =>
    obtain ⟨rfl, hst⟩ := hc
    rw [View.stageAt, Nat.add_mod_right] at hst
    rw [hslot hst]
    exact hs
  case popLoadItem =>
    obtain ⟨item, hit, hpub⟩ := hs
    exact ⟨item, (hslot hc).trans hit, hpub.mono hsub⟩
  case replaceLoadItem =>
    obtain ⟨item, hit, hpub⟩ := hs
    exact ⟨item, (hslot hc.2).trans hit, hpub.mono hsub⟩

end Pc

/-- **The simulation relation** between the memory and the goroutines of a world
and a view of the slot protocol. -/
structure Simulates (v : View G) (w : World G α) : Prop where
  capacity : w.ring.capacity = v.capacity
  /-- Masking finds the slot of a position. -/
  index : ∀ pos, pos &&& w.ring.mask = pos % v.capacity
  readPos : w.ring.readPos = v.readPos
  writePos : w.ring.writePos = v.writePos
  slots : ∀ i < v.capacity, (w.ring.slots i).Encodes w.history v.capacity (v.stage i)
  claims : ∀ g op pc, (w.threads g).running = some (op, pc) → pc.Claims v g
  stored : ∀ g op pc, (w.threads g).running = some (op, pc) →
    pc.Stored w.ring w.history
  /-- A held slot is held by a goroutine at the matching point of its call. -/
  owners : ∀ i < v.capacity, ∀ hold pos g, v.stage i = .held hold pos g →
    ∃ op pc, (w.threads g).running = some (op, pc) ∧ pc.holds = some (hold, pos)

namespace Simulates

variable {v : View G} {w : World G α}

theorem slot_eq (hs : Simulates v w) (pos : ℕ) :
    w.ring.slot pos = w.ring.slots (pos % v.capacity) := by
  rw [RingBuffer.slot, hs.index]

/-- The encoding of the stage found at a position. -/
theorem encodes_at (hs : Simulates v w) (hv : v.Ok) (pos : ℕ) :
    (w.ring.slot pos).Encodes w.history v.capacity (v.stageAt pos) := by
  rw [hs.slot_eq]
  exact hs.slots _ (hv.mod_lt pos)

theorem setSeq_same (hs : Simulates v w) (q seq : ℕ) :
    (w.ring.setSeq q seq).slots (q % v.capacity) = ⟨seq, (w.ring.slot q).item⟩ := by
  rw [RingBuffer.setSeq, hs.index]
  exact update_self ..

variable {q : ℕ}

theorem setSeq_ne (hs : Simulates v w) {seq i : ℕ} (hi : i ≠ q % v.capacity) :
    (w.ring.setSeq q seq).slots i = w.ring.slots i := by
  rw [RingBuffer.setSeq, hs.index]
  exact update_of_ne hi ..

theorem setItem_same (hs : Simulates v w) (q : ℕ) (item : Option α) :
    (w.ring.setItem q item).slots (q % v.capacity) = ⟨(w.ring.slot q).seq, item⟩ := by
  rw [RingBuffer.setItem, hs.index]
  exact update_self ..

theorem setItem_ne (hs : Simulates v w) {i : ℕ} {item : Option α} (hi : i ≠ q % v.capacity) :
    (w.ring.setItem q item).slots i = w.ring.slots i := by
  rw [RingBuffer.setItem, hs.index]
  exact update_of_ne hi ..

/-- Neighbouring positions are in different slots. -/
theorem succ_mod_ne (hv : v.Ok) (hslot : p % v.capacity = q % v.capacity) :
    p ≠ q + 1 ∧ p + 1 ≠ q := by
  have h2 := hv.two_le_capacity
  have hne : ∀ a : ℕ, (a + 1) % v.capacity ≠ a % v.capacity := by
    intro a heq
    have hmod : a + 1 ≡ a + 0 [MOD v.capacity] := heq
    have := (Nat.ModEq.add_left_cancel' a hmod : 1 ≡ 0 [MOD v.capacity])
    rw [Nat.ModEq, Nat.mod_eq_of_lt (by omega), Nat.zero_mod] at this
    omega
  constructor <;> rintro rfl
  · exact hne q hslot
  · exact hne p hslot.symm

/-- The position of the stage found at `p` is in the slot of `p`. -/
theorem pos_mod_eq (hv : v.Ok) (p : ℕ) :
    (v.stageAt p).pos % v.capacity = p % v.capacity := hv.slot _ (hv.mod_lt p)

/-- **A slot shows `pos + 1` only between the publication of `pos` and its
release**: it is full with that item, or a reader has claimed it. -/
theorem stage_of_seq_succ (hs : Simulates v w) (hv : v.Ok) (hseq : (w.ring.slot p).seq = p + 1) :
    v.stageAt p = .full p ∨ ∃ e, v.stageAt p = .held .reading p e := by
  have henc := hs.encodes_at hv p
  have hpos := pos_mod_eq hv p
  cases hst : v.stageAt p with
  | free q =>
    rw [hst] at henc hpos
    exact absurd (henc.symm.trans hseq) (succ_mod_ne hv hpos).1
  | full q =>
    rw [hst] at henc
    obtain rfl : q = p := by
      have := henc.1
      omega
    exact .inl rfl
  | held hold q e =>
    rw [hst] at henc hpos
    have hne := succ_mod_ne hv hpos
    cases hold
    case writing => exact absurd (henc.symm.trans hseq) hne.1
    case marked => exact absurd (henc.1.symm.trans hseq) hne.1
    case reading =>
      rcases henc with hq | hq
      · exact absurd (hq.symm.trans hseq) hne.1
      · obtain rfl : q = p := by omega
        exact .inr ⟨e, rfl⟩
    case evicting => exact absurd (henc.symm.trans hseq) hne.1
    case rewriting =>
      -- one lap further the slot shows the mark of the evicted position
      have hq : q = p + 1 + v.capacity := by
        have : (w.ring.slot p).seq + v.capacity = q := henc
        omega
      subst hq
      have hlap : (p + 1) % v.capacity = p % v.capacity := by
        rw [← hpos]
        exact (Nat.add_mod_right _ _).symm
      exact absurd rfl (succ_mod_ne hv hlap).1

/-- **A slot shows `writePos` only when it is free for it.** -/
theorem free_of_seq (hs : Simulates v w) (hv : v.Ok)
    (hseq : (w.ring.slot v.writePos).seq = v.writePos) :
    v.stageAt v.writePos = .free v.writePos := by
  have henc := hs.encodes_at hv v.writePos
  have hpos := pos_mod_eq hv v.writePos
  have hb := hv.bounds_at v.writePos
  have hrw := hv.read_le_write
  have hcap := hv.capacity_pos
  cases hst : v.stageAt v.writePos with
  | free q =>
    rw [hst] at henc
    exact congrArg Stage.free (henc.symm.trans hseq)
  | full q =>
    rw [hst] at henc hpos
    exact absurd (henc.1.symm.trans hseq) (succ_mod_ne hv hpos).2
  | held hold q e =>
    rw [hst] at henc hpos hb
    have hne := succ_mod_ne hv hpos
    cases hold <;> simp only [Slot.Encodes, View.Bounds, Stage.pos] at henc hb hne <;> omega

end Simulates

end ConvoyStats.Transport
