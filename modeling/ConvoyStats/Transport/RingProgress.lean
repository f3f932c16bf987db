import ConvoyStats.Transport.RingAdvance
import ConvoyStats.Transport.RingRejections

/-!
# No push waits for another goroutine

`Push`, `PushDropOldest` and `TryPop` never depend on another goroutine running: wherever the
others have stopped, the call returns.

A retry is the only way back in their code, and it needs a position that the others have moved past
since it was loaded.  `Pc.fresh` says that there is none; then each access leads closer to the
return.  The slots between the counters carry the argument, as they show no position beyond
`writePos` (`seq_le`).
-/

namespace ConvoyStats.Transport

universe u v

variable {G : Type v} {α : Type u}

namespace Pc

/-- The accesses that are left unless the call has to retry. -/
def left : Pc α → ℕ
  | .ret _ => 0
  | .reject _ | .pushAtAdded .. | .replaceAdded .. | .popRemoved .. => 1
  | .pushAtStoreSeq .. | .replaceDropped .. | .popStoreSeq .. => 2
  | .pushAtStoreItem .. | .replaceRemoved .. | .popClearItem .. => 3
  | .pushAtCasWrite .. | .replaceStoreSeq .. | .popLoadItem _ => 4
  | .pushAtLoadSeq .. | .replaceStoreItem .. | .popCasRead .. => 5
  | .replaceStoreWrite .. | .popLoadSeq .. => 6
  | .replaceLoadItem .. | .popLoadWrite .. => 7
  | .replaceCasRead .. | .popLoadRead _ => 8
  | .replaceCasSeq .. => 9
  | .replaceLoadSeq .. => 10
  | .pushLoadWrite .. => 11
  | .pushLoadRead .. => 12

/-- What the call has loaded still holds. -/
def fresh (rb : RingBuffer α) : Pc α → Bool
  | .pushLoadWrite _ _ r | .replaceCasRead _ r _ | .popLoadWrite _ r | .popCasRead _ r =>
    r = rb.readPos
  | .popLoadSeq _ r => r = rb.readPos ∧ r < rb.writePos
  | .pushAtLoadSeq _ _ p | .pushAtCasWrite _ _ p => p = rb.writePos
  | .replaceLoadSeq _ r p => r = rb.readPos ∧ p = rb.writePos ∧ p = r + rb.capacity
  | .replaceCasSeq _ r _ => r = rb.readPos ∧ (rb.slot r).seq = r + 1
  | _ => true

/-- The accesses that are left to a call that runs alone, at most. -/
def rank (rb : RingBuffer α) (pc : Pc α) : ℕ := pc.left + if pc.fresh rb then 0 else 13

end Pc

section

variable [DecidableEq G] {w : World G α} {g : G} {op : Op α} {pc : Pc α}

namespace World.Sound

variable (hw : w.Sound)
include hw

/-- The slots between the counters show no position beyond their own, nor beyond `writePos`. -/
theorem seq_le {p : ℕ} (hread : w.ring.readPos ≤ p) (hwrite : p ≤ w.ring.writePos) :
    (w.ring.slot p).seq ≤ p + 1 ∧ (w.ring.slot p).seq ≤ w.ring.writePos := by
  obtain ⟨v, hv, hs, -⟩ := hw.view
  rw [hs.readPos] at hread
  rw [hs.writePos] at hwrite ⊢
  have henc := hs.encodes_at hv p
  have hpos := Simulates.pos_mod_eq hv p
  have hb := hv.bounds_at p
  have hwr := hv.write_le_read
  generalize v.stageAt p = st at henc hpos hb
  -- the stage of a later position of the slot is a lap away
  have hlap : p < st.pos → p + v.capacity ≤ st.pos := add_le_of_mod_eq hpos.symm
  rcases st with q | q | ⟨_ | _ | _ | _ | _, q, e⟩ <;>
    simp only [Slot.Encodes, View.Bounds, Stage.pos] at henc hb hlap <;> omega

variable (hop : op ≠ .pop) (hrun : (w.threads g).running = some (op, pc))
include hop hrun

/-- **Each access of a call that runs alone leads closer to its return.** -/
theorem rank_exec_lt (hret : ∀ result, pc ≠ .ret result) :
    (w.ring.exec pc).2.1.rank (w.ring.exec pc).1 < pc.rank w.ring := by
  have hrw := hw.readPos_le_writePos
  have hwr := hw.writePos_le
  have hseq := fun p => hw.seq_le (p := p)
  have hprogress := hw.ledger.running g op pc hrun
  cases pc
  case ret result => exact absurd rfl (hret result)
  case' pushAtLoadSeq evict item p => have := hseq p
  case' replaceLoadSeq item r p => have := hseq r
  case' popLoadSeq wait r =>
    have := hseq r
    -- only `Pop` waits for the writer
    obtain rfl : wait = false := by
      cases wait
      · rfl
      · exact absurd hprogress.1 hop
  all_goals
    simp only [RingBuffer.exec, RingBuffer.setSeq, sub64, Bool.false_eq_true, if_false]
    (try split_ifs) <;> simp only [Pc.rank, Pc.left, Pc.fresh, decide_eq_true_eq, true_and] <;>
      split_ifs <;> omega

theorem finishCall_isSome {fuel : ℕ} (hfuel : pc.rank w.ring < fuel) :
    (w.finishCall g fuel).isSome = true := by
  induction fuel generalizing w pc with
  | zero => exact absurd hfuel (Nat.not_lt_zero _)
  | succ fuel ih =>
    rw [World.finishCall, World.access, hrun]
    by_cases hret : ∃ result, pc = .ret result
    · obtain ⟨result, rfl⟩ := hret
      rfl
    · have hlt := hw.rank_exec_lt hop hrun fun result h => hret ⟨result, h⟩
      have hgoes := ih (hw.perform hrun) (by simp [World.perform])
        (hlt.trans_le (Nat.le_of_lt_succ hfuel))
      cases pc <;> first | exact hgoes | exact absurd ⟨_, rfl⟩ hret

end World.Sound

/-- **No `Push`, `PushDropOldest` or `TryPop` waits for another goroutine.**  In every interleaving,
wherever the others have stopped, the call returns within 26 accesses of its own. -/
theorem returns_alone {capacity : Int64} (h : (ringSystem G α capacity).Reach w)
    (hrun : (w.threads g).running = some (op, pc)) (hop : op ≠ .pop) :
    (w.finishCall g 26).isSome = true := by
  have hleft : pc.left ≤ 12 := by cases pc <;> simp [Pc.left]
  refine (sound_of_reach h).finishCall_isSome hop hrun ?_
  rw [Pc.rank]
  split_ifs <;> omega

/-- A writer has stopped between the claim of its position and its store; a `TryPop` returns. -/
theorem returns_alone_writer_stopped :
    ∃ w : World Bool ℕ, (ringSystem Bool ℕ 2).Reach w ∧ w.ring.writePos = 1 ∧
      (w.ring.slot 0).seq = 0 ∧ (w.finishCall false 26).isSome = true := by
  have hreach : (ringSystem Bool ℕ 2).Reach _ :=
    .of_labels (soloCall true (.push (some 7)) 4 ++ soloCall false .tryPop 0) rfl
  exact ⟨_, hreach, rfl, rfl, returns_alone hreach rfl (by simp)⟩

end

end ConvoyStats.Transport
