import ConvoyStats.Transport.RingHistory
import Mathlib.Data.Fintype.Defs

/-!
# Why `Push` returns false

`Push` refuses an item in two places: where the positions it has loaded leave no room, and in
`pushAt`, where the write slot has not been released.  `Reason` is what should have been the case at
some moment of the call: the ring was full, or the item in the way had been claimed by its reader
and not yet released.

A slot that is not released is a reason at that very moment, but for one case: an evictor may have
taken the position in the meantime, and then there was a reason just before it did (`Rewriting`).

The two loads are another matter.  `readPos` is loaded first, and by the time `writePos` is loaded
readers may have moved on: the difference is then that of two moments, and `Push` can find a ring
full that never was (`push_rejected_with_room`).  `Fresh` excludes it.
-/

namespace ConvoyStats.Transport

open Function

universe u v

variable {G : Type v} {α : Type u}

/-! ### Reasons -/

/-- The position whose item a call has claimed and not yet released. -/
def Pc.claimedPos? (pc : Pc α) : Option ℕ :=
  match pc.holds with
  | some (.reading, pos) | some (.evicting, pos) => some pos
  | _ => none

namespace World

/-- The ring is full. -/
def Full (w : World G α) : Prop := w.ring.writePos - w.ring.readPos = w.ring.capacity

/-- The item that was last in the write slot is claimed and not yet released. -/
def WriteSlotClaimed (w : World G α) : Prop :=
  ∃ g, ∃ call ∈ (w.threads g).running, ∃ pos ∈ call.2.claimedPos?,
    pos + w.ring.capacity = w.ring.writePos

/-- What `Push` may refuse an item for. -/
def Reason (w : World G α) : Prop := w.Full ∨ w.WriteSlotClaimed

instance [Fintype G] (w : World G α) : Decidable w.Reason :=
  inferInstanceAs (Decidable (_ = _ ∨ ∃ g, ∃ call ∈ (w.threads g).running,
    ∃ pos ∈ Pc.claimedPos? call.2, _ = _))

/-- A `Push` of `g` that finds no room has loaded a `readPos` that has not moved since. -/
def Fresh [DecidableEq G] (g : G) (w : World G α) : Label G α → Bool
  | .access e =>
    e ≠ g ||
    match (w.threads g).running with
    | some (_, .pushLoadWrite false _ readPos) =>
      sub64 w.ring.writePos readPos < w.ring.capacity || readPos = w.ring.readPos
    | _ => true
  | .start _ _ => true

/-- An evictor has taken the position and has yet to publish there. -/
def Rewriting (w : World G α) (pos : ℕ) : Prop :=
  ∃ g op pc, (w.threads g).running = some (op, pc) ∧ pc.holds = some (.rewriting, pos)

theorem Sound.full {w : World G α} [DecidableEq G] (hw : w.Sound)
    (h : w.ring.readPos + w.ring.capacity ≤ w.ring.writePos) : w.Reason := by
  obtain ⟨v, hv, hs, -⟩ := hw.view
  have hle := hv.write_le_read
  rw [← hs.readPos, ← hs.writePos, ← hs.capacity] at hle
  refine .inl ?_
  rw [Full]
  omega

end World

/-! ### Evictors -/

/-- An access after which the goroutine is rewriting a position: it was, or it has moved `writePos`
past it. -/
theorem holds_rewriting_of_exec {rb : RingBuffer α} {pc : Pc α} {p : ℕ}
    (h : (rb.exec pc).2.1.holds = some (.rewriting, p)) :
    pc.holds = some (.rewriting, p) ∨
      ∃ item readPos old, pc = .replaceStoreWrite item readPos p old := by
  cases pc with
  | replaceStoreWrite item readPos _ old =>
    cases h
    exact .inr ⟨item, readPos, old, rfl⟩
  | replaceStoreItem => exact .inl h
  | _ =>
    simp only [RingBuffer.exec] at h
    (try split_ifs at h) <;> cases h

variable [DecidableEq G] {w w' : World G α} {g e : G} {op : Op α} {pc : Pc α}

/-- **Before an evictor takes a position there is a reason.**  It holds the item that was last in
the write slot. -/
theorem rewriting_of_perform (hw : w.Sound) (hreason : ¬ w.Reason)
    (hrun : (w.threads e).running = some (op, pc)) {p : ℕ}
    (h : (w.perform e op pc).Rewriting p) : w.Rewriting p := by
  obtain ⟨f, op', pc', hrun', hholds⟩ := h
  rcases running_update.mp hrun' with ⟨rfl, heq⟩ | ⟨-, hrun'⟩
  · cases heq
    rcases holds_rewriting_of_exec hholds with hholds | ⟨item, r, old, rfl⟩
    · exact ⟨f, op, pc, hrun, hholds⟩
    · obtain ⟨v, hv, hs, -⟩ := hw.view
      obtain ⟨-, hheld⟩ := hs.claims f _ _ hrun
      have hb := hv.bounds_at r
      rw [hheld] at hb
      refine absurd (.inr ⟨f, _, hrun, r, rfl, ?_⟩) hreason
      rw [hs.capacity, hs.writePos]
      exact hb.2.symm
  · exact ⟨f, op', pc', hrun', hholds⟩

theorem rewriting_of_start (hstart : w.start e op = some w') {p : ℕ} (h : w'.Rewriting p) :
    w.Rewriting p := by
  obtain ⟨-, rfl⟩ := World.start_eq_some hstart
  obtain ⟨f, op', pc', hrun, hholds⟩ := h
  rcases running_update.mp hrun with ⟨rfl, heq⟩ | ⟨-, hrun⟩
  · cases heq
    rcases op with (_ | item) | (_ | item) | _ | _ <;> cases hholds
  · exact ⟨f, op', pc', hrun, hholds⟩

theorem rewriting_of_finish {result : Result α} {p : ℕ} (h : (w.finish e op result).Rewriting p) :
    w.Rewriting p := by
  obtain ⟨f, op', pc', hrun, hholds⟩ := h
  rcases running_update.mp hrun with ⟨rfl, heq⟩ | ⟨-, hrun⟩
  · cases heq
  · exact ⟨f, op', pc', hrun, hholds⟩

/-- Nobody is rewriting `writePos` itself. -/
theorem not_rewriting_writePos (hw : w.Sound) : ¬ w.Rewriting w.ring.writePos := by
  rintro ⟨f, op', pc', hrun, hholds⟩
  obtain ⟨v, hv, hs, -⟩ := hw.view
  have hclaims := hs.claims f op' pc' hrun
  have hb := hv.bounds_at w.ring.writePos
  have hheld : v.stageAt w.ring.writePos = .held .rewriting w.ring.writePos f := by
    cases pc' <;> cases hholds
    · exact hclaims.2
    · exact hclaims.2
  rw [hheld, hs.writePos] at hb
  exact Nat.lt_irrefl _ hb.2

/-- **The write slot is in the way.**  A slot that shows less than the position is full a lap
behind, or its reader is at work, or an evictor has taken the position. -/
theorem reason_of_seq_lt (hw : w.Sound) {p : ℕ} (hp : p ≤ w.ring.writePos)
    (hnot : ¬ w.Rewriting p) (hseq : (w.ring.slot p).seq < p) : w.Reason := by
  obtain ⟨v, hv, hs, -⟩ := id hw.view
  have henc := hs.encodes_at hv p
  have hpos := Simulates.pos_mod_eq hv p
  have hb := hv.bounds_at p
  have hle := hv.write_le_read
  -- What is in the ring a lap behind `p` fills it.
  rw [hs.writePos] at hp
  have hfull : ∀ q, q % v.capacity = p % v.capacity → q < p → v.readPos ≤ q → w.Reason := by
    intro q hmod hlt hread
    have := add_le_of_mod_eq hmod hlt
    refine hw.full ?_
    rw [hs.readPos, hs.writePos, hs.capacity]
    omega
  cases hst : v.stageAt p with
  | free q =>
    rw [hst] at henc hb
    simp only [Slot.Encodes, View.Bounds] at henc hb
    omega
  | full q =>
    rw [hst] at henc hpos hb
    refine hfull q hpos ?_ hb.1
    have := henc.1
    omega
  | held hold q e =>
    rw [hst] at henc hpos hb
    obtain ⟨op, pc, hrun, hholds⟩ := hs.owners _ (hv.mod_lt p) hold q e hst
    -- A reader or an evictor holds the item a lap behind `writePos`.
    have hclaimed : pc.claimedPos? = some q → q + v.capacity = v.writePos → w.Reason := by
      intro hpc hlast
      refine .inr ⟨e, _, hrun, q, hpc, ?_⟩
      rw [hs.capacity, hs.writePos]
      exact hlast
    cases hold with
    | writing => exact hfull q hpos (henc ▸ hseq) hb.1
    | marked => exact hfull q hpos (henc.1 ▸ hseq) hb.1
    | reading =>
      have hlt : q < p := by
        rcases henc with heq | heq <;> omega
      have hlap : q + v.capacity ≤ p := add_le_of_mod_eq hpos hlt
      exact hclaimed (by rw [Pc.claimedPos?, hholds]) (Nat.le_antisymm (by omega) hb.2)
    | evicting => exact hclaimed (by rw [Pc.claimedPos?, hholds]) hb.2.symm
    | rewriting =>
      rcases Nat.lt_trichotomy q p with hlt | rfl | hgt
      · exact hfull q hpos hlt hb.1
      · exact absurd ⟨e, op, pc, hrun, hholds⟩ hnot
      · have hnext : p + v.capacity ≤ q := add_le_of_mod_eq hpos.symm hgt
        simp only [Slot.Encodes] at henc
        omega

/-! ### A call that is not refused -/

/-- The points of a `Push` that has not been refused. -/
def Pc.pushing : Pc α → Bool
  | .pushLoadRead false _ | .pushLoadWrite false _ _ | .pushAtLoadSeq false _ _ => true
  | .pushAtCasWrite false _ _ | .pushAtStoreItem false _ _ => true
  | .pushAtStoreSeq false _ _ | .pushAtAdded false _ _ => true
  | .ret (.push true) => true
  | _ => false

/-- A `Push` has not been refused.  Between its loads of `writePos` and of the sequence number
nobody has evicted the position. -/
structure Pc.Unrejected (w : World G α) (pc : Pc α) : Prop where
  pushing : pc.pushing = true
  seq : ∀ item writePos, pc = .pushAtLoadSeq false item writePos → ¬ w.Rewriting writePos

omit [DecidableEq G] in
theorem Pc.Unrejected.of_rewriting (h : pc.Unrejected w)
    (hback : ∀ p, w'.Rewriting p → w.Rewriting p) : pc.Unrejected w' :=
  ⟨h.pushing, fun item p heq hrew => h.seq item p heq (hback p hrew)⟩

/-- **A step of the `Push`.**  It is refused only for a reason. -/
theorem Pc.Unrejected.perform (hw : w.Sound) (hreason : ¬ w.Reason)
    (hrun : (w.threads g).running = some (op, pc)) (hfresh : w.Fresh g (.access g) = true)
    (h : pc.Unrejected w) : (w.ring.exec pc).2.1.Unrejected (w.perform g op pc) := by
  have hback : ∀ p, (w.perform g op pc).Rewriting p → w.Rewriting p :=
    fun p => rewriting_of_perform hw hreason hrun
  obtain ⟨v, hv, hs, -⟩ := id hw.view
  have hclaims := hs.claims g op pc hrun
  obtain ⟨hpushing, hseq⟩ := h
  cases pc with
  | pushLoadRead evict item | pushAtStoreItem evict item p | pushAtStoreSeq evict item p
  | pushAtAdded evict item p =>
    cases evict <;> cases hpushing
    exact ⟨rfl, by rintro _ _ ⟨⟩⟩
  | pushLoadWrite evict item readPos =>
    cases evict <;> cases hpushing
    simp only [World.Fresh, hrun, ne_eq, not_true_eq_false, decide_false, Bool.false_or,
      Bool.or_eq_true, decide_eq_true_eq] at hfresh
    have hroom : sub64 w.ring.writePos readPos < w.ring.capacity := by
      rcases hfresh with hroom | rfl
      · exact hroom
      · by_contra hfull
        refine hreason (hw.full ?_)
        have hle : w.ring.readPos ≤ w.ring.writePos := by
          rw [hs.readPos, hs.writePos]
          exact hv.read_le_write
        rw [sub64, if_pos hle] at hfull
        omega
    have hexec : (w.ring.exec (.pushLoadWrite false item readPos)).2.1 =
        .pushAtLoadSeq false item w.ring.writePos := by
      rw [RingBuffer.exec, if_pos hroom]
    rw [hexec]
    refine ⟨rfl, ?_⟩
    rintro _ _ ⟨⟩ hrew
    exact not_rewriting_writePos hw (hback _ hrew)
  | pushAtLoadSeq evict item p =>
    cases evict <;> cases hpushing
    have hge : ¬ (w.ring.slot p).seq < p := fun hlt =>
      hreason (reason_of_seq_lt hw (hs.writePos ▸ hclaims) (hseq item p rfl) hlt)
    simp only [RingBuffer.exec, if_neg hge]
    split_ifs <;> exact ⟨rfl, by rintro _ _ ⟨⟩⟩
  | pushAtCasWrite evict item p =>
    cases evict <;> cases hpushing
    simp only [RingBuffer.exec]
    split_ifs <;> exact ⟨rfl, by rintro _ _ ⟨⟩⟩
  | ret result => exact ⟨hpushing, by rintro _ _ ⟨⟩⟩
  | _ => cases hpushing

/-- The call `n` of `g` has returned, or is a `Push` that has not been refused. -/
def World.Unrejected (g : G) (n : ℕ) (w : World G α) : Prop :=
  w.Sound ∧ (n < (w.threads g).finished ∨ (w.threads g).finished = n ∧
    ∃ op pc, (w.threads g).running = some (op, pc) ∧ pc.Unrejected w)

namespace World.Unrejected

variable {n : ℕ}

variable (h : w.Unrejected g n)
include h

/-- A step that leaves the goroutine alone. -/
theorem of_other (hsound : w'.Sound) (hthread : w'.threads g = w.threads g)
    (hback : ∀ p, w'.Rewriting p → w.Rewriting p) : w'.Unrejected g n := by
  obtain ⟨-, hover | ⟨hn, op, pc, hrun, hpc⟩⟩ := h
  · exact ⟨hsound, .inl (hthread ▸ hover)⟩
  · exact ⟨hsound, .inr ⟨hthread ▸ hn, op, pc, hthread ▸ hrun, hpc.of_rewriting hback⟩⟩

theorem start (hstart : w.start e op = some w') : w'.Unrejected g n := by
  have hsound := h.1.start hstart
  have hback : ∀ p, w'.Rewriting p → w.Rewriting p := fun p => rewriting_of_start hstart
  obtain ⟨hidle, rfl⟩ := World.start_eq_some hstart
  by_cases heq : g = e
  · subst heq
    obtain ⟨-, hover | ⟨-, op, pc, hrun, -⟩⟩ := h
    · refine ⟨hsound, .inl ?_⟩
      simpa using hover
    · rw [hidle] at hrun
      cases hrun
  · exact h.of_other hsound (update_of_ne heq ..) hback

theorem finish {result : Result α}
    (hrun : (w.threads e).running = some (op, .ret result)) :
    (w.finish e op result).Unrejected g n := by
  have hsound := h.1.finish hrun
  by_cases heq : g = e
  · subst heq
    have hle : n ≤ (w.threads g).finished := by
      rcases h.2 with hover | ⟨hn, -⟩
      · exact hover.le
      · exact hn.ge
    refine ⟨hsound, .inl ?_⟩
    simp only [World.finish, update_self]
    omega
  · exact h.of_other hsound (update_of_ne heq ..) fun p => rewriting_of_finish

theorem perform (hreason : ¬ w.Reason)
    (hrun : (w.threads e).running = some (op, pc)) (hfresh : w.Fresh g (.access e) = true) :
    (w.perform e op pc).Unrejected g n := by
  have hsound := h.1.perform hrun
  by_cases heq : g = e
  · subst heq
    obtain ⟨hw, hover | ⟨hn, op', pc', hrun', hpc⟩⟩ := h
    · refine ⟨hsound, .inl ?_⟩
      simpa only [World.perform, update_self] using hover
    · rw [hrun] at hrun'
      cases hrun'
      refine ⟨hsound, .inr ⟨?_, op, _, running_update.mpr (.inl ⟨rfl, rfl⟩),
        hpc.perform hw hreason hrun hfresh⟩⟩
      simpa only [World.perform, update_self] using hn
  · exact h.of_other hsound (update_of_ne heq ..)
      fun p => rewriting_of_perform h.1 hreason hrun

theorem step {capacity : Int64} (hreason : ¬ w.Reason) {l : Label G α}
    (hfresh : w.Fresh g l = true) (hstep : (ringSystem G α capacity).step w l = some w') :
    w'.Unrejected g n := by
  rcases l with ⟨e, op⟩ | e
  · exact h.start hstep
  · obtain ⟨⟨w'', result⟩, haccess, rfl⟩ := Option.map_eq_some_iff.mp hstep
    rw [World.access] at haccess
    split at haccess
    · cases haccess
    · cases haccess
      exact h.finish ‹_›
    · cases haccess
      exact h.perform hreason ‹_› hfresh

end World.Unrejected

/-- **`Push` rejects only for a reason**, if it has no stale `readPos` when it finds no room: from
the start of the call to its return there is a moment with a full ring, or with the write slot's
previous item claimed and not yet released. -/
theorem push_rejects_for_a_reason {capacity : Int64} {w w₁ w₂ : World G α} {g : G} {item : α}
    {ls : List (Label G α)} (hreach : (ringSystem G α capacity).Reach w)
    (hstart : (ringSystem G α capacity).step w (.start g (.push (some item))) = some w₁)
    (hrun : (ringSystem G α capacity).runWithin (World.Fresh g) w₁ ls = some w₂)
    (hret : w₂.threads g = ⟨(w.threads g).finished, some (.push (some item), .ret (.push false))⟩) :
    (ringSystem G α capacity).Passes World.Reason w₁ ls := by
  have hsound := sound_of_reach (.step hreach trivial hstart)
  have hbegin : w₁.Unrejected g (w.threads g).finished := by
    change w.start g (.push (some item)) = some w₁ at hstart
    obtain ⟨-, rfl⟩ := World.start_eq_some hstart
    refine ⟨hsound, .inr ⟨?_, _, _, running_update.mpr (.inl ⟨rfl, rfl⟩), rfl, by rintro _ _ ⟨⟩⟩⟩
    simp only [update_self]
  refine TransitionSystem.passes_of_runWithin (Q := World.Unrejected g (w.threads g).finished)
    (fun w l w' h hreason hfresh hstep => h.step hreason hfresh hstep) hbegin hrun ?_
  rintro ⟨-, hover | ⟨-, op, pc, hpc, hunrejected⟩⟩
  · rw [hret] at hover
    exact Nat.lt_irrefl _ hover
  · rw [hret] at hpc
    cases hpc
    cases hunrejected.pushing

/-- The call that `false` began in `w` is about to return false. -/
def refused (w w₂ : World Bool ℕ) : Bool :=
  match w₂.threads false with
  | ⟨n, some (.push (some 0), .ret (.push false))⟩ => n = (w.threads false).finished
  | _ => false

/-- In a ring of two slots these steps lead to a `Push` of `false`, and then the steps `ls` to its
refusal. -/
def refusedAfter (check : World Bool ℕ → Label Bool ℕ → Bool) (P : World Bool ℕ → Bool)
    (before ls : List (Label Bool ℕ)) : Bool :=
  ((ringSystem Bool ℕ 2).run (World.init Bool ℕ 2) before).any fun w =>
    ((ringSystem Bool ℕ 2).step w (.start false (.push (some 0)))).any fun w₁ =>
      P w₁ && ((ringSystem Bool ℕ 2).runWithin check w₁ ls).any (refused w)

theorem of_refusedAfter {check : World Bool ℕ → Label Bool ℕ → Bool} {P : World Bool ℕ → Bool}
    {before ls : List (Label Bool ℕ)} (h : refusedAfter check P before ls = true) :
    ∃ w w₁ w₂, (ringSystem Bool ℕ 2).Reach w ∧
      (ringSystem Bool ℕ 2).step w (.start false (.push (some 0))) = some w₁ ∧ P w₁ = true ∧
      (ringSystem Bool ℕ 2).runWithin check w₁ ls = some w₂ ∧
      w₂.threads false =
        ⟨(w.threads false).finished, some (.push (some 0), .ret (.push false))⟩ := by
  obtain ⟨w, hbefore, h⟩ := (Option.any_eq_true _ _).mp h
  obtain ⟨w₁, hstart, h⟩ := (Option.any_eq_true _ _).mp h
  obtain ⟨hP, h⟩ := Bool.and_eq_true_iff.mp h
  obtain ⟨w₂, hrun, hrefused⟩ := (Option.any_eq_true _ _).mp h
  refine ⟨w, w₁, w₂, .of_labels before hbefore, hstart, hP, hrun, ?_⟩
  unfold refused at hrefused
  split at hrefused
  · rename_i n heq
    rw [heq, of_decide_eq_true hrefused]
  · cases hrefused

/-- A goroutine makes a call of this many accesses, its return included. -/
def soloCall (g : G) (op : Op α) (accesses : ℕ) : List (Label G α) :=
  .start g op :: List.replicate accesses (.access g)

/-- Two items fill the ring, and a third is refused. -/
theorem push_rejects_for_a_reason_full :
    ∃ w w₁ w₂ : World Bool ℕ, (ringSystem Bool ℕ 2).Reach w ∧
      (ringSystem Bool ℕ 2).step w (.start false (.push (some 0))) = some w₁ ∧
      (ringSystem Bool ℕ 2).runWithin (World.Fresh false) w₁ (List.replicate 3 (.access false)) =
        some w₂ ∧
      w₂.threads false = ⟨(w.threads false).finished, some (.push (some 0), .ret (.push false))⟩ ∧
      (ringSystem Bool ℕ 2).Passes World.Reason w₁ (List.replicate 3 (.access false)) := by
  have hrefused : refusedAfter (World.Fresh false) (fun _ => true)
      (soloCall true (.push (some 1)) 8 ++ soloCall true (.push (some 2)) 8)
      (List.replicate 3 (.access false)) = true := by decide +kernel
  obtain ⟨w, w₁, w₂, hreach, hstart, -, hrun, hret⟩ := of_refusedAfter hrefused
  exact ⟨w, w₁, w₂, hreach, hstart, hrun, hret, push_rejects_for_a_reason hreach hstart hrun hret⟩

/-- Between the two loads of a `Push` an item is pushed, popped, and another one pushed. -/
def staleLoads : List (Label Bool ℕ) :=
  [.access false] ++ soloCall true (.push (some 1)) 8 ++ soloCall true .pop 9 ++
    soloCall true (.push (some 2)) 8 ++ [.access false, .access false]

/-- **A `Push` refused by a ring with room.**  The ring has two slots and never more than one
item. -/
theorem push_rejected_with_room :
    ∃ w w₁ w₂ : World Bool ℕ, (ringSystem Bool ℕ 2).Reach w ∧
      (ringSystem Bool ℕ 2).step w (.start false (.push (some 0))) = some w₁ ∧
      (ringSystem Bool ℕ 2).run w₁ staleLoads = some w₂ ∧
      w₂.threads false = ⟨(w.threads false).finished, some (.push (some 0), .ret (.push false))⟩ ∧
      ¬ (ringSystem Bool ℕ 2).Passes World.Reason w₁ staleLoads := by
  have hrefused : refusedAfter (fun _ _ => true)
      (fun w₁ => decide ¬ (ringSystem Bool ℕ 2).Passes World.Reason w₁ staleLoads) [] staleLoads =
        true := by decide +kernel
  obtain ⟨w, w₁, w₂, hreach, hstart, hnever, hrun, hret⟩ := of_refusedAfter hrefused
  exact ⟨w, w₁, w₂, hreach, hstart, TransitionSystem.run_of_runWithin hrun, hret,
    of_decide_eq_true hnever⟩

end ConvoyStats.Transport
