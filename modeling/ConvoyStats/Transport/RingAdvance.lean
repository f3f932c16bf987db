import ConvoyStats.Transport.RingExactlyOnce

/-!
# What a caller of the ring may rely on

A component built on the ring sees it move one goroutine at a time.  `Advances g`
is what such a step guarantees to everybody: positions only grow, the history is
only extended, the other goroutines stay where they are, and a new claim is made
by the call `g` is in, at the old `readPos`.

`World.inHand` counts the positions the current call of a goroutine has claimed.
While no call returns, `readPos` and `inHand` grow together; a component that
counts what it has popped therefore knows how far `readPos` has moved.
-/

namespace ConvoyStats.Transport

open List Function

universe u v

variable {G : Type v} {α : Type u} [DecidableEq G]

/-- The positions the current call of `g` has claimed. -/
def World.inHand (w : World G α) (g : G) : ℕ :=
  (callEffects w.history (g, (w.threads g).finished)).countP fun e => e matches .claimed _

/-- **A step of goroutine `g`**, as the rest of the system sees it. -/
structure World.Advances (g : G) (w w' : World G α) : Prop where
  sound : w'.Sound
  capacity : w'.ring.capacity = w.ring.capacity
  readPos_le : w.ring.readPos ≤ w'.ring.readPos
  writePos_le : w.ring.writePos ≤ w'.ring.writePos
  history : w.history <+: w'.history
  others : ∀ e, e ≠ g → w'.threads e = w.threads e
  claimed : ∀ call pos, .effect call (.claimed pos) ∈ w'.history →
    .effect call (.claimed pos) ∈ w.history ∨
      call = (g, (w.threads g).finished) ∧ pos = w.ring.readPos
  /-- The other goroutines have claimed what they had. -/
  inHand_ne : ∀ e, e ≠ g → w'.inHand e = w.inHand e

/-- The invariant bounds the positions. -/
theorem World.Sound.readPos_le_writePos {w : World G α} (hw : w.Sound) :
    w.ring.readPos ≤ w.ring.writePos := by
  obtain ⟨v, hv, hs, -⟩ := hw.view
  rw [hs.readPos, hs.writePos]
  exact hv.read_le_write

theorem World.Sound.writePos_le {w : World G α} (hw : w.Sound) :
    w.ring.writePos ≤ w.ring.readPos + w.ring.capacity := by
  obtain ⟨v, hv, hs, -⟩ := hw.view
  rw [hs.readPos, hs.writePos, hs.capacity]
  exact hv.write_le_read

/-- A published position is below `writePos`. -/
theorem World.Sound.published_lt {w : World G α} (hw : w.Sound) {pos : ℕ} {item : α}
    (hp : Published w.history pos item) : pos < w.ring.writePos := by
  obtain ⟨v, -, hs, hc⟩ := hw.view
  obtain ⟨call, hmem⟩ := hp
  rw [hs.writePos]
  exact ((hc.mem_iff pos).mp (mem_filterMap.mpr ⟨_, hmem, rfl⟩)).1

namespace World.Advances

variable {w w' : World G α} {g : G} {op : Op α} {pc : Pc α}

theorem refl (hw : w.Sound) : Advances g w w :=
  ⟨hw, rfl, le_rfl, le_rfl, prefix_rfl, fun _ _ => rfl, fun _ _ => .inl, fun _ _ => rfl⟩

theorem start (hw : w.Sound) (hstart : w.start g op = some w') : Advances g w w' := by
  have hsound := hw.start hstart
  obtain ⟨-, rfl⟩ := World.start_eq_some hstart
  have hothers : ∀ e, e ≠ g → update w.threads g
      ⟨(w.threads g).finished, some (op, Pc.start op)⟩ e = w.threads e :=
    fun e he => update_of_ne he ..
  refine ⟨hsound, rfl, le_rfl, le_rfl, prefix_rfl, hothers, fun _ _ => .inl, ?_⟩
  intro e he
  simp only [inHand, hothers e he]

/-- An access moves `readPos` exactly when it claims. -/
theorem perform (hw : w.Sound) (hrun : (w.threads g).running = some (op, pc)) :
    Advances g w (w.perform g op pc) := by
  have hsound := hw.perform hrun
  obtain ⟨v, hv, hs, -⟩ := hw.view
  obtain ⟨v', hm, hs'⟩ := hs.access hv hrun
  have hothers : ∀ e, e ≠ g → (w.perform g op pc).threads e = w.threads e :=
    fun e he => update_of_ne he ..
  refine ⟨hsound, ?_, ?_, ?_, prefix_append .., hothers, ?_, ?_⟩
  · rw [hs'.capacity, hs.capacity, hm.capacity_eq]
  · rw [hs'.readPos, hs.readPos]
    exact hm.readPos_le
  · rw [hs'.writePos, hs.writePos]
    exact hm.writePos_le
  · intro call pos hmem
    rcases mem_append.mp hmem with hold | hnew
    · exact .inl hold
    · obtain ⟨e, heff, hev⟩ := mem_record.mp hnew
      cases hev
      rw [heff] at hm
      cases hm with
      | stay _ hclaim _ => exact absurd rfl (hclaim pos)
      | claimRead _ | evict _ _ => exact .inr ⟨rfl, hs.readPos.symm⟩
  · intro e he
    have hne : (g, (w.threads g).finished) ≠ (e, (w.threads e).finished) :=
      fun heq => he (congrArg Prod.fst heq).symm
    simp only [inHand, hothers e he]
    rw [World.perform, callEffects_record_ne _ _ hne]

theorem finish (hw : w.Sound) {result : Result α}
    (hrun : (w.threads g).running = some (op, .ret result)) :
    Advances g w (w.finish g op result) := by
  have hothers : ∀ e, e ≠ g → (w.finish g op result).threads e = w.threads e :=
    fun e he => update_of_ne he ..
  refine ⟨hw.finish hrun, rfl, le_rfl, le_rfl, prefix_append .., hothers, ?_, ?_⟩
  · intro call pos hmem
    rcases mem_append.mp hmem with hold | hnew
    · exact .inl hold
    · simp at hnew
  · intro e he
    simp only [inHand, hothers e he]
    rw [World.finish, callEffects_returned]

end World.Advances

/-! ### What the moving goroutine has in hand -/

variable {w : World G α} {g : G} {op : Op α} {pc : Pc α}

section

variable (hw : w.Sound)
include hw

/-- An idle goroutine has nothing in hand. -/
theorem World.Sound.inHand_idle (hidle : (w.threads g).running = none) :
    w.inHand g = 0 := by
  rw [inHand, hw.ledger.future g _ le_rfl fun _ => hidle]
  rfl

/-- A call that has just started has nothing in hand. -/
theorem World.Sound.inHand_start {w' : World G α}
    (hstart : w.start g op = some w') : w'.inHand g = 0 := by
  obtain ⟨hidle, rfl⟩ := World.start_eq_some hstart
  have hnil := hw.ledger.future g _ le_rfl fun _ => hidle
  simp [inHand, hnil]

/-- **`readPos` and what `g` has in hand grow together.** -/
theorem World.Sound.inHand_perform
    (hrun : (w.threads g).running = some (op, pc)) :
    (w.perform g op pc).inHand g + w.ring.readPos =
      w.inHand g + (w.perform g op pc).ring.readPos := by
  have hlen : ∀ u : World G α, u.Sound → (claimedPositions u.history).length = u.ring.readPos := by
    intro u hu
    rw [hu.in_order, length_range]
  have hnew := hlen _ (hw.perform hrun)
  rw [World.perform, claimedPositions_record, length_append, hlen w hw] at hnew
  have hfinished : ((w.perform g op pc).threads g).finished = (w.threads g).finished := by
    simp [World.perform]
  rw [inHand, hfinished, World.perform, callEffects_record_self, countP_append, ← hnew,
    ← inHand]
  rcases (w.ring.exec pc).2.2 with _ | ⟨_ | _ | _ | _⟩ <;> simp +arith

/-- A pop that returns an item has one position in hand. -/
theorem World.Sound.inHand_popped {item : α}
    (hrun : (w.threads g).running = some (op, .ret (.pop (some item)))) : w.inHand g = 1 := by
  have hout : Outcome op _ (callEffects w.history (g, (w.threads g).finished)) :=
    hw.ledger.running g op _ hrun
  rw [inHand]
  generalize callEffects w.history (g, (w.threads g).finished) = effects at hout
  generalize hres : Result.pop (some item) = result at hout
  cases hout with
  | pushed evict | rejected evict | refused evict => cases evict <;> cases hres
  | replaced => cases hres
  | popped => rfl
  | empty => cases hres

/-- After a call has returned its goroutine has nothing in hand. -/
theorem World.Sound.inHand_finish {result : Result α}
    (hrun : (w.threads g).running = some (op, .ret result)) :
    (w.finish g op result).inHand g = 0 :=
  (hw.finish hrun).inHand_idle (by simp [World.finish])

/-- **A `Pop` that is about to report an empty ring has seen it empty.** -/
theorem World.Sound.empty_of_perform
    (hrun : (w.threads g).running = some (.pop, pc))
    (hret : (w.ring.exec pc).2.1 = .ret (.pop none)) :
    pc = .ret (.pop none) ∨ w.ring.writePos ≤ w.ring.readPos := by
  obtain ⟨v, -, hs, -⟩ := hw.view
  have hprog := hw.ledger.running g _ pc hrun
  have hclaims := hs.claims g _ pc hrun
  cases pc with
  | popLoadWrite wait readPos =>
    simp only [RingBuffer.exec] at hret
    split at hret
    · right
      have hle : readPos ≤ v.readPos := hclaims
      rw [← hs.readPos] at hle
      exact le_trans ‹_› hle
    · cases hret
  | popLoadSeq wait readPos =>
    -- only `TryPop` gives up on a slot that is being written
    obtain ⟨hop, -⟩ := hprog
    cases wait with
    | true =>
      simp only [RingBuffer.exec] at hret
      split_ifs at hret
    | false => cases hop
  | popRemoved readPos item =>
    obtain ⟨wait, x, -, rfl, -⟩ := hprog
    cases hret
  | ret result => exact .inl hret
  | pushAtAdded evict item writePos | reject evict =>
    simp only [RingBuffer.exec] at hret
    cases evict <;> cases hret
  | _ =>
    simp only [RingBuffer.exec] at hret
    try split_ifs at hret
    all_goals cases hret

/-- Only a push moves `writePos`. -/
theorem World.Sound.writePos_perform_pop
    (hrun : (w.threads g).running = some (.pop, pc)) :
    (w.perform g .pop pc).ring.writePos = w.ring.writePos := by
  have hprog := hw.ledger.running g _ pc hrun
  cases pc with
  | pushAtCasWrite evict item writePos =>
    obtain ⟨hop, -⟩ := hprog
    cases evict <;> cases hop
  | replaceStoreWrite =>
    obtain ⟨hop, -⟩ := hprog
    cases hop
  | _ =>
    simp only [World.perform, RingBuffer.exec, RingBuffer.setItem, RingBuffer.setSeq]
    try split_ifs
    all_goals rfl

end

/-! ### Who published -/

/-- A running call that has published was asked to push that item. -/
theorem Pc.Progress.published_op {effects : List (Effect α)} (h : pc.Progress op effects)
    {pos : ℕ} {item : α} (hmem : .published pos item ∈ effects) :
    op = .push (some item) ∨ op = .pushDropOldest (some item) := by
  have hpush : ∀ evict, Op.ofPush evict (some item) = .push (some item) ∨
      Op.ofPush evict (some item) = .pushDropOldest (some item) := by
    intro evict
    cases evict
    · exact .inl rfl
    · exact .inr rfl
  cases pc with
  | pushAtAdded evict item' writePos =>
    obtain ⟨rfl, rfl⟩ := h
    simp only [mem_singleton, Effect.published.injEq] at hmem
    exact hmem.2 ▸ hpush evict
  | replaceRemoved item' readPos writePos old | replaceDropped item' readPos writePos old
  | replaceAdded =>
    obtain ⟨rfl, x, -, rfl⟩ := h
    simp only [mem_cons, reduceCtorEq, Effect.published.injEq, not_mem_nil, or_false,
      false_or] at hmem
    exact hmem.2 ▸ hpush true
  | ret result =>
    rcases (Outcome.published_iff h item).mp ⟨pos, hmem⟩ with ⟨hop, -⟩ | ⟨hop, -⟩
    · exact .inl hop
    · exact .inr hop
  | _ =>
    simp only [Progress] at h
    grind

/-- A call with an effect has returned, or it is the one its goroutine is in. -/
theorem World.Sound.returned_or_running (hw : w.Sound) {n : ℕ} {e : Effect α}
    (hmem : .effect (g, n) e ∈ w.history) :
    (n < (w.threads g).finished ∧ ∃ op result, .returned (g, n) op result ∈ w.history) ∨
      n = (w.threads g).finished ∧ ∃ op pc, (w.threads g).running = some (op, pc) := by
  rcases Nat.lt_or_ge n (w.threads g).finished with hlt | hge
  · exact .inl ⟨hlt, hw.ledger.complete g n hlt⟩
  · right
    by_cases hidle : (w.threads g).finished = n → (w.threads g).running = none
    · rw [← mem_callEffects, hw.ledger.future g n hge hidle] at hmem
      cases hmem
    · obtain ⟨heq, hrun⟩ := Classical.not_imp.mp hidle
      obtain ⟨⟨op, pc⟩, hrun⟩ := Option.ne_none_iff_exists'.mp hrun
      exact ⟨heq.symm, op, pc, hrun⟩

end ConvoyStats.Transport
