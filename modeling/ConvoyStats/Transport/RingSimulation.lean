import ConvoyStats.Transport.RingInvariant

/-!
# Every access is a move

The step theorem of the simulation.  An access touches at most one slot and one
counter, so what has to be re-established is small: the encoding of that slot,
the knowledge of the acting goroutine, and that nobody else's slot has changed.
`Acts` collects these obligations, `Simulates.of_acts` discharges the rest once,
and the lemmas below name the move each access makes.
-/

namespace ConvoyStats.Transport

open List

universe u v

variable {G : Type v} {α : Type u} {g : G} {v v' : View G} {w : World G α}

variable {hold : Hold} {pos : ℕ}

/-- A move of `g` gives no slot to anybody else. -/
theorem Move.held_back {effect : Option (Effect α)} {i : ℕ} {e : G} (hm : Move g v effect v')
    (hne : e ≠ g) (hst : v'.stage i = .held hold pos e) : v.stage i = .held hold pos e := by
  -- the changed slot is not held by anybody but `g` afterwards
  have key : ∀ {q : ℕ} {st : Stage G}, (∀ hold pos, st ≠ .held hold pos e) →
      (v.set q st).stage i = .held hold pos e → v.stage i = .held hold pos e := by
    intro q st hnew hset
    by_cases heq : i = q % v.capacity
    · subst heq
      rw [View.set_stage_same] at hset
      exact absurd hset (hnew hold pos)
    · rwa [View.set_stage_ne _ _ heq] at hset
  cases hm with
  | stay => exact hst
  | claimWrite | mark | claimRead | evict | advance =>
    exact key (fun _ _ heq => by cases heq; exact hne rfl) hst
  | publish | release => exact key (fun _ _ heq => by cases heq) hst

/-- What an access of `g` has to re-establish: the new memory `rb`, next point
`pc` and history `h` against the new view. -/
structure Acts (v v' : View G) (w : World G α) (g : G) (rb : RingBuffer α) (pc : Pc α)
    (h : List (Event G α)) : Prop where
  capacity : rb.capacity = w.ring.capacity
  mask : rb.mask = w.ring.mask
  readPos : rb.readPos = v'.readPos
  writePos : rb.writePos = v'.writePos
  slots : ∀ i < v.capacity, (rb.slots i).Encodes h v.capacity (v'.stage i)
  /-- Only the item of a slot held by `g` may change. -/
  items : ∀ i, (∀ hold pos, v.stage i ≠ .held hold pos g) →
    (rb.slots i).item = (w.ring.slots i).item
  claims : pc.Claims v' g
  stored : pc.Stored rb h
  owners : ∀ i < v.capacity, ∀ hold pos, v'.stage i = .held hold pos g →
    pc.holds = some (hold, pos)

variable {op : Op α} {pc pc' : Pc α} {rb : RingBuffer α}

/-- A goroutine holds no slot but the one of its current point. -/
theorem Simulates.holds_of_held (hs : Simulates v w) (hrun : (w.threads g).running = some (op, pc))
    {i : ℕ} (hi : i < v.capacity) (hst : v.stage i = .held hold pos g) :
    pc.holds = some (hold, pos) := by
  obtain ⟨op', pc', hrun', hholds⟩ := hs.owners i hi hold pos g hst
  rw [hrun] at hrun'
  cases hrun'
  exact hholds

/-- Apart from the statistics, a load leaves memory and view as they are.  A slot
the goroutine gives up without a store is one the counters have passed. -/
theorem Acts.of_load (hs : Simulates v w) (hv : v.Ok) {h : List (Event G α)}
    (hrun : (w.threads g).running = some (op, pc)) (hsub : w.history ⊆ h)
    (hrb : ∃ d a r, rb = { w.ring with dropped := d, added := a, removed := r })
    (hclaims : pc'.Claims v g) (hstored : pc'.Stored rb h)
    (hholds : ∀ hold pos, pc.holds = some (hold, pos) →
      pc'.holds = some (hold, pos) ∨ ¬ v.Bounds (.held hold pos g)) : Acts v v w g rb pc' h := by
  obtain ⟨d, a, r, rfl⟩ := hrb
  refine ⟨rfl, rfl, hs.readPos, hs.writePos, fun i hi => (hs.slots i hi).mono hsub,
    fun _ _ => rfl, hclaims, hstored, ?_⟩
  intro i hi hold pos hst
  rcases hholds hold pos (hs.holds_of_held hrun hi hst) with hpc | hout
  · exact hpc
  · exact absurd (hst ▸ hv.bounds i hi) hout

/-- An access to the slot of `q`, which goes to stage `st`. -/
theorem Acts.of_set (hs : Simulates v w) (hv : v.Ok) {h : List (Event G α)} (q : ℕ) {st : Stage G}
    (hrun : (w.threads g).running = some (op, pc)) (hsub : w.history ⊆ h)
    (hstage : v'.stage = (v.set q st).stage) (hcap : rb.capacity = w.ring.capacity)
    (hmask : rb.mask = w.ring.mask) (hread : rb.readPos = v'.readPos)
    (hwrite : rb.writePos = v'.writePos)
    (hsame : ∀ i, i ≠ q % v.capacity → rb.slots i = w.ring.slots i)
    (henc : (rb.slots (q % v.capacity)).Encodes h v.capacity st)
    (hitem : (∃ hold pos, v.stageAt q = .held hold pos g) ∨
      (rb.slots (q % v.capacity)).item = (w.ring.slots (q % v.capacity)).item)
    (hclaims : pc'.Claims v' g) (hstored : pc'.Stored rb h)
    (hown : ∀ hold pos, st = .held hold pos g → pc'.holds = some (hold, pos))
    (hheld : ∀ hold pos, pc.holds = some (hold, pos) → pos % v.capacity = q % v.capacity) :
    Acts v v' w g rb pc' h where
  capacity := hcap
  mask := hmask
  readPos := hread
  writePos := hwrite
  slots := by
    intro i hi
    rw [hstage]
    by_cases heq : i = q % v.capacity
    · subst heq
      rw [View.set_stage_same]
      exact henc
    · rw [View.set_stage_ne _ _ heq, hsame i heq]
      exact (hs.slots i hi).mono hsub
  items := by
    intro i hfree
    by_cases heq : i = q % v.capacity
    · subst heq
      rcases hitem with ⟨hold, pos, hst⟩ | hitem
      · exact absurd hst (hfree hold pos)
      · exact hitem
    · rw [hsame i heq]
  claims := hclaims
  stored := hstored
  owners := by
    intro i hi hold pos hst
    rw [hstage] at hst
    by_cases heq : i = q % v.capacity
    · subst heq
      rw [View.set_stage_same] at hst
      exact hown hold pos hst
    · -- any other slot of `g` would be the one of its old point, which is the slot of `q`
      rw [View.set_stage_ne _ _ heq] at hst
      have hslot := hv.slot i hi
      rw [hst] at hslot
      exact absurd (hslot.symm.trans (hheld hold pos (hs.holds_of_held hrun hi hst))) heq

variable [DecidableEq G]

/-- The running calls after one goroutine has changed. -/
theorem running_update {threads : G → Thread α} {t : Thread α} {e : G} {call : Op α × Pc α} :
    (Function.update threads g t e).running = some call ↔
      (e = g ∧ t.running = some call) ∨ (e ≠ g ∧ (threads e).running = some call) := by
  by_cases heq : e = g
  · subst heq
    simp
  · simp [heq]

/-- The access of `g` at `pc` is a move of the protocol, and the world after it is
simulated by the view after that move. -/
def Simulated (v : View G) (w : World G α) (g : G) (op : Op α) (pc : Pc α) : Prop :=
  ∃ v', Move g v (w.ring.exec pc).2.2 v' ∧ Simulates v' (w.perform g op pc)

/-- The goroutines that did not act keep what the simulation says of them. -/
theorem Simulated.of_acts (hs : Simulates v w) {effect : Option (Effect α)}
    (hexec : w.ring.exec pc = (rb, pc', effect)) (hm : Move g v effect v')
    (ha : Acts v v' w g rb pc' (w.history ++ World.record (g, (w.threads g).finished) effect)) :
    Simulated v w g op pc := by
  have hcap := hm.capacity_eq
  have hperform : w.perform g op pc =
      ⟨rb, Function.update w.threads g ⟨(w.threads g).finished, some (op, pc')⟩,
        w.history ++ World.record (g, (w.threads g).finished) effect⟩ := by
    rw [World.perform, hexec]
  refine ⟨v', by rwa [hexec], ?_⟩
  rw [hperform]
  refine ⟨?_, ?_, ha.readPos, ha.writePos, ?_, ?_, ?_, ?_⟩
  · rw [hcap, ← hs.capacity]
    exact ha.capacity
  · intro pos
    rw [hcap, ← hs.index pos]
    exact congrArg _ ha.mask
  · rw [hcap]
    exact ha.slots
  · intro e op' pc'' hrun
    rcases running_update.mp hrun with ⟨rfl, hrun⟩ | ⟨hne, hrun⟩
    · cases hrun
      exact ha.claims
    · exact (hs.claims e op' pc'' hrun).of_move hm hne
  · intro e op' pc'' hrun
    rcases running_update.mp hrun with ⟨rfl, hrun⟩ | ⟨hne, hrun⟩
    · cases hrun
      exact ha.stored
    · refine (hs.stored e op' pc'' hrun).of_items (subset_append_left _ _)
        (hs.claims e op' pc'' hrun) hs.index ha.mask
        fun i hold pos hst => ha.items i fun hold' pos' hst' => ?_
      rw [hst] at hst'
      cases hst'
      exact hne rfl
  · intro i hi hold pos e hst
    rw [hcap] at hi
    by_cases heq : e = g
    · subst heq
      exact ⟨op, pc', running_update.mpr (.inl ⟨rfl, rfl⟩), ha.owners i hi hold pos hst⟩
    · obtain ⟨op', pc'', hrun, hholds⟩ := hs.owners i hi hold pos e (hm.held_back heq hst)
      exact ⟨op', pc'', running_update.mpr (.inr ⟨heq, hrun⟩), hholds⟩

section Accesses

variable {op : Op α} {pc pc' : Pc α} {effect : Option (Effect α)}

/-- An access that leaves slots and counters alone.  Most have nothing to show but what the
goroutine claims next. -/
theorem Simulated.of_load (hs : Simulates v w) (hv : v.Ok)
    (hrun : (w.threads g).running = some (op, pc)) (hexec : w.ring.exec pc = (rb, pc', effect))
    (hclaims : pc'.Claims v g)
    (hrb : ∃ d a r, rb = { w.ring with dropped := d, added := a, removed := r } := by
      exact ⟨_, _, _, rfl⟩)
    (hclaim : ∀ pos, effect ≠ some (.claimed pos) := by simp)
    (hpublish : ∀ pos item, effect ≠ some (.published pos item) := by simp)
    (hstored : ∀ h, w.history ⊆ h → pc'.Stored rb h := by exact fun _ _ => trivial)
    (hholds : ∀ hold pos, pc.holds = some (hold, pos) →
      pc'.holds = some (hold, pos) ∨ ¬ v.Bounds (.held hold pos g) := by rintro _ _ ⟨⟩) :
    Simulated v w g op pc :=
  .of_acts hs hexec (.stay _ hclaim hpublish)
    (.of_load hs hv hrun (subset_append_left _ _) hrb hclaims
      (hstored _ (subset_append_left _ _)) hholds)

/-- A store to the item of a slot the goroutine holds. -/
theorem Simulated.of_setItem (hs : Simulates v w) (hv : v.Ok)
    (hrun : (w.threads g).running = some (op, pc)) {q : ℕ} {item : Option α}
    (hheld : v.stageAt q = .held hold pos g) (hmark : hold ≠ .marked)
    (hexec : w.ring.exec pc = (w.ring.setItem q item, pc', none)) (hclaims : pc'.Claims v g)
    (hstored : pc'.Stored (w.ring.setItem q item) w.history)
    (hholds : pc'.holds = some (hold, pos)) :
    Simulated v w g op pc := by
  have hpos := Simulates.pos_mod_eq hv q
  have hpc := hs.holds_of_held hrun (hv.mod_lt q) hheld
  have henc := hs.encodes_at hv q
  rw [hheld] at hpos henc
  refine .of_acts hs hexec (.stay _ nofun nofun)
    (.of_set hs hv q hrun (subset_append_left _ _) (congrArg View.stage (View.set_self hheld).symm)
      rfl rfl hs.readPos hs.writePos (fun i hi => hs.setItem_ne hi) ?_ (.inl ⟨_, _, hheld⟩)
      hclaims (by rwa [World.record, Option.map_none, Option.toList_none, append_nil]) ?_ ?_)
  · rw [hs.setItem_same]
    refine .mono (subset_append_left _ _) (henc.of_seq hmark ?_)
    rfl
  · rintro _ _ ⟨⟩
    exact hholds
  · intro hold' pos' hpc'
    rw [hpc] at hpc'
    cases hpc'
    exact hpos

/-- A store to the sequence number of a slot. -/
theorem Simulated.of_setSeq (hs : Simulates v w) (hv : v.Ok)
    (hrun : (w.threads g).running = some (op, pc)) {q seq : ℕ} {st : Stage G}
    (hexec : w.ring.exec pc = (w.ring.setSeq q seq, pc', effect))
    (hm : Move g v effect (v.set q st))
    (henc : (Slot.mk seq (w.ring.slot q).item).Encodes
      (w.history ++ World.record (g, (w.threads g).finished) effect) v.capacity st)
    (hclaims : pc'.Claims (v.set q st) g := by trivial)
    (hstored : ∀ rb h, pc'.Stored (G := G) rb h := by exact fun _ _ => trivial)
    (hown : ∀ hold pos, st = .held hold pos g → pc'.holds = some (hold, pos) := by simp)
    (hheld : ∀ hold pos, pc.holds = some (hold, pos) → pos % v.capacity = q % v.capacity := by
      rintro _ _ ⟨⟩
      rfl) :
    Simulated v w g op pc := by
  refine .of_acts hs hexec hm
    (.of_set hs hv q hrun (subset_append_left _ _) rfl rfl rfl hs.readPos hs.writePos
      (fun i hi => hs.setSeq_ne hi) ?_ (.inr ?_) hclaims (hstored _ _) hown hheld)
  · rwa [hs.setSeq_same]
  · rw [hs.setSeq_same, hs.slot_eq]

variable {item : α} {p r : ℕ}

variable (hs : Simulates v w)
include hs

variable (hv : v.Ok)
include hv

/-- The writer that wins `writePos` holds its slot. -/
theorem Simulated.pushAtCasWrite {evict : Bool}
    (hrun : (w.threads g).running = some (op, .pushAtCasWrite evict item p))
    (hwin : w.ring.writePos = p) : Simulated v w g op (.pushAtCasWrite evict item p) := by
  obtain rfl : p = v.writePos := hwin.symm.trans hs.writePos
  have hfree := (hs.claims g _ _ hrun).2 rfl
  have henc := hs.encodes_at hv v.writePos
  rw [hfree, hs.slot_eq] at henc
  refine .of_acts hs (if_pos hwin) (.claimWrite hfree)
    (.of_set hs hv v.writePos hrun (subset_append_left _ _) rfl rfl rfl hs.readPos rfl
      (fun _ _ => rfl) henc (.inr rfl) (v.set_stage_same v.writePos _) trivial ?_ nofun)
  rintro _ _ ⟨⟩
  rfl

/-- The reader that wins `readPos` holds its slot, with the item still in it. -/
theorem Simulated.popCasRead {wait : Bool}
    (hrun : (w.threads g).running = some (op, .popCasRead wait r)) (hwin : w.ring.readPos = r) :
    Simulated v w g op (.popCasRead wait r) := by
  obtain rfl : r = v.readPos := hwin.symm.trans hs.readPos
  have havail := (hs.claims g _ _ hrun).2 rfl
  have henc := hs.encodes_at hv v.readPos
  -- published or marked, the slot has the item of `readPos`
  have hslot : ((w.ring.slot v.readPos).seq = v.readPos ∨
      (w.ring.slot v.readPos).seq = v.readPos + 1) ∧
      ∃ item, (w.ring.slot v.readPos).item = some item ∧
        Published w.history v.readPos item := by
    rcases havail with hav | ⟨e, hav⟩ <;> rw [hav] at henc
    · exact ⟨.inr henc.1, henc.2⟩
    · exact ⟨.inl henc.1, henc.2⟩
  obtain ⟨hseq, x, hitem, hpub⟩ := hslot
  rw [hs.slot_eq] at hseq
  refine .of_acts hs (if_pos hwin) (.claimRead havail)
    (.of_set hs hv v.readPos hrun (subset_append_left _ _) rfl rfl rfl rfl hs.writePos
      (fun _ _ => rfl) hseq (.inr rfl) (v.set_stage_same v.readPos _)
      ⟨x, hitem, hpub.mono (subset_append_left _ _)⟩ ?_ nofun)
  rintro _ _ ⟨⟩
  rfl

/-- The evictor that wins `readPos` under its mark does so on a full ring. -/
theorem Simulated.replaceCasRead
    (hrun : (w.threads g).running = some (op, .replaceCasRead item r p))
    (hwin : w.ring.readPos = r) :
    Simulated v w g op (.replaceCasRead item r p) := by
  obtain rfl : r = v.readPos := hwin.symm.trans hs.readPos
  obtain ⟨-, hwrite, hlap, hmark⟩ := hs.claims g _ _ hrun
  have hring : v.writePos = v.readPos + v.capacity := by
    have := hv.write_le_read
    omega
  have henc := hs.encodes_at hv v.readPos
  rw [hmark rfl] at henc
  obtain ⟨hseq, x, hitem, hpub⟩ := henc
  rw [hs.slot_eq] at hseq
  refine .of_acts hs (if_pos hwin) (.evict (hmark rfl) hring)
    (.of_set hs hv v.readPos hrun (subset_append_left _ _) rfl rfl rfl rfl hs.writePos
      (fun _ _ => rfl) hseq (.inr rfl) ⟨hlap, v.set_stage_same v.readPos _⟩
      ⟨x, hitem, hpub.mono (subset_append_left _ _)⟩ ?_ ?_)
  · rintro _ _ ⟨⟩
    rfl
  · rintro _ _ ⟨⟩
    rfl

/-- The evictor's store to `writePos` moves it by one: nobody else has claimed it. -/
theorem Simulated.replaceStoreWrite {old : Option α}
    (hrun : (w.threads g).running = some (op, .replaceStoreWrite item r p old)) :
    Simulated v w g op (.replaceStoreWrite item r p old) := by
  obtain ⟨rfl, hheld⟩ := hs.claims g _ _ hrun
  have hb := hv.bounds_at r
  have henc := hs.encodes_at hv r
  rw [hheld] at hb henc
  obtain ⟨-, hwrite⟩ := hb
  rw [hs.slot_eq] at henc
  refine .of_acts hs rfl (.advance r hheld)
    (.of_set hs hv r hrun (subset_append_left _ _) rfl rfl rfl hs.readPos ?_
      (fun _ _ => rfl) (congrArg (· + v.capacity) henc) (.inr rfl) ⟨rfl, ?_⟩ trivial ?_ ?_)
  · exact congrArg (· + 1) hwrite.symm
  · rw [View.stageAt, View.set_capacity, Nat.add_mod_right]
    exact View.set_stage_same _ _ _
  · rintro _ _ ⟨⟩
    rfl
  · rintro _ _ ⟨⟩
    rfl

/-- Un-publishing the oldest item: either it is still there and is now marked, or a
reader has claimed it in the meantime and will overwrite the mark. -/
theorem Simulated.replaceCasSeq
    (hrun : (w.threads g).running = some (op, .replaceCasSeq item r p))
    (hwin : (w.ring.slot r).seq = r + 1) : Simulated v w g op (.replaceCasSeq item r p) := by
  obtain ⟨hread, hwrite, hlap⟩ := hs.claims g _ _ hrun
  have henc := hs.encodes_at hv r
  rcases hs.stage_of_seq_succ hv hwin with hfull | ⟨e, hreading⟩
  · rw [hfull] at henc
    refine .of_setSeq hs hv hrun (if_pos hwin) (.mark r hfull) ?_
      ⟨hread, hwrite, hlap, fun _ => View.set_stage_same _ _ _⟩ (fun _ _ => trivial) ?_ nofun
    · exact Slot.Encodes.mono (subset_append_left _ _) ⟨rfl, henc.2⟩
    · rintro _ _ ⟨⟩
      rfl
  · have hb := hv.bounds_at r
    rw [hreading] at hb
    have hstay : Move g v (none : Option (Effect α)) (v.set r (.held .reading r e)) := by
      rw [View.set_self hreading]
      exact .stay _ nofun nofun
    refine .of_setSeq hs hv hrun (if_pos hwin) hstay (.inl rfl)
      ⟨hread, hwrite, hlap, fun heq => absurd heq (Nat.ne_of_lt hb.1)⟩ (fun _ _ => trivial)
      ?_ nofun
    rintro _ _ ⟨⟩
    cases hs.holds_of_held hrun (hv.mod_lt r) hreading

end Accesses

/-- **Every access is a move.**  Whatever point of its call a goroutine is at, its
next access is a move of the slot protocol. -/
theorem Simulates.access (hs : Simulates v w) (hv : v.Ok)
    (hrun : (w.threads g).running = some (op, pc)) : Simulated v w g op pc := by
  have hc := hs.claims g op pc hrun
  have hr := hs.readPos.le
  have hw := hs.writePos.le
  cases pc with
  | pushLoadRead evict item | popLoadRead wait =>
    exact .of_load hs hv hrun rfl hr
  | pushLoadWrite evict item r =>
    by_cases hroom : sub64 w.ring.writePos r < w.ring.capacity
    · exact .of_load hs hv hrun (if_pos hroom) hw
    · cases evict with
      | true =>
        exact .of_load hs hv hrun (if_neg hroom) ⟨hc, hw⟩
      | false =>
        exact .of_load hs hv hrun (if_neg hroom) trivial
  | pushAtLoadSeq evict item p =>
    by_cases hlt : (w.ring.slot p).seq < p
    · exact .of_load hs hv hrun (if_pos hlt) trivial
    · by_cases heq : (w.ring.slot p).seq = p
      · refine .of_load hs hv hrun ((if_neg hlt).trans (if_pos heq)) ⟨hc, ?_⟩
        rintro rfl
        exact hs.free_of_seq hv heq
      · exact .of_load hs hv hrun ((if_neg hlt).trans (if_neg heq)) trivial
  | pushAtCasWrite evict item p =>
    by_cases hwin : w.ring.writePos = p
    · exact .pushAtCasWrite hs hv hrun hwin
    · exact .of_load hs hv hrun (if_neg hwin) trivial
  | pushAtStoreItem =>
    exact .of_setItem hs hv hrun hc (by decide) rfl hc (RingBuffer.item_slot_setItem _ _ _) rfl
  | pushAtStoreSeq evict item p =>
    exact .of_setSeq hs hv hrun rfl (.publish .writing p item (.inl rfl) hc)
      ⟨rfl, item, hs.stored g _ _ hrun, _, mem_append_right _ (mem_singleton_self _)⟩
  | pushAtAdded evict item p | reject evict | replaceRemoved item r p old
  | replaceDropped item r p old | replaceAdded item r p old | popRemoved r item | ret result =>
    exact .of_load hs hv hrun rfl trivial
  | replaceLoadSeq item r p =>
    by_cases hle : (w.ring.slot r).seq ≤ r
    · exact .of_load hs hv hrun (if_pos hle) trivial
    · by_cases hstale : (w.ring.slot r).seq ≠ r + 1 ∨ p ≠ r + w.ring.capacity
      · exact .of_load hs hv hrun ((if_neg hle).trans (if_pos hstale)) trivial
      · refine .of_load hs hv hrun ((if_neg hle).trans (if_neg hstale)) ⟨hc.1, hc.2, ?_⟩
        rw [← hs.capacity]
        exact not_not.mp (not_or.mp hstale).2
  | replaceCasSeq item r p =>
    by_cases hwin : (w.ring.slot r).seq = r + 1
    · exact .replaceCasSeq hs hv hrun hwin
    · exact .of_load hs hv hrun (if_neg hwin) trivial
  | replaceCasRead item r p =>
    by_cases hwin : w.ring.readPos = r
    · exact .replaceCasRead hs hv hrun hwin
    · -- `readPos` has moved on, so the mark is gone with the reader that claimed the slot
      refine .of_load hs hv hrun (if_neg hwin) trivial ⟨_, _, _, rfl⟩ (by simp) (by simp)
        (fun _ _ => trivial) ?_
      rintro _ _ ⟨⟩
      have hle := hc.1
      have hread := hs.readPos
      refine .inr fun hb => ?_
      have := hb.1
      omega
  | replaceLoadItem item r p | popLoadItem r =>
    exact .of_load hs hv hrun rfl hc ⟨_, _, _, rfl⟩ (by simp) (by simp) (fun _ _ => trivial)
      fun _ _ hpc => .inl hpc
  | replaceStoreWrite => exact .replaceStoreWrite hs hv hrun
  | replaceStoreItem _ r p =>
    obtain ⟨rfl, hheld⟩ := hc
    have hslot : v.stageAt r = .held .rewriting (r + v.capacity) g := by
      rwa [View.stageAt, Nat.add_mod_right] at hheld
    exact .of_setItem hs hv hrun hslot (by decide) rfl ⟨rfl, hheld⟩
      (RingBuffer.item_slot_setItem _ _ _) rfl
  | replaceStoreSeq item r p old =>
    obtain ⟨rfl, hheld⟩ := hc
    -- the evicted and the published position share the slot
    have hslot : (r + v.capacity) &&& w.ring.mask = r &&& w.ring.mask := by
      rw [hs.index, hs.index, Nat.add_mod_right]
    have hexec : w.ring.exec (.replaceStoreSeq item r (r + v.capacity) old) =
        (w.ring.setSeq (r + v.capacity) (r + v.capacity + 1),
          .replaceRemoved item r (r + v.capacity) old,
          some (.published (r + v.capacity) item)) := by
      rw [RingBuffer.setSeq, RingBuffer.slot, hslot]
      rfl
    have hitem : (w.ring.slot (r + v.capacity)).item = some item := by
      rw [RingBuffer.slot, hslot]
      exact hs.stored g _ _ hrun
    exact .of_setSeq hs hv hrun hexec (.publish .rewriting _ item (.inr rfl) hheld)
      ⟨rfl, item, hitem, _, mem_append_right _ (mem_singleton_self _)⟩
  | popLoadWrite wait r =>
    by_cases hempty : w.ring.writePos ≤ r
    · exact .of_load hs hv hrun (if_pos hempty) trivial
    · exact .of_load hs hv hrun (if_neg hempty) hc
  | popLoadSeq wait r =>
    by_cases hle : (w.ring.slot r).seq ≤ r
    · cases wait <;>
        exact .of_load hs hv hrun (if_pos hle) trivial
    · by_cases heq : (w.ring.slot r).seq = r + 1
      · refine .of_load hs hv hrun ((if_neg hle).trans (if_pos heq)) ⟨hc, ?_⟩
        rintro rfl
        rcases hs.stage_of_seq_succ hv heq with hfull | ⟨e, hreading⟩
        · exact .inl hfull
        · have hb := hv.bounds_at v.readPos
          rw [hreading] at hb
          exact absurd hb.1 (Nat.lt_irrefl _)
      · exact .of_load hs hv hrun ((if_neg hle).trans (if_neg heq)) trivial
  | popCasRead wait r =>
    by_cases hwin : w.ring.readPos = r
    · exact .popCasRead hs hv hrun hwin
    · exact .of_load hs hv hrun (if_neg hwin) trivial
  | popClearItem r item =>
    exact .of_setItem hs hv hrun hc (by decide) rfl hc trivial rfl
  | popStoreSeq r item =>
    refine .of_setSeq hs hv hrun rfl (.release r hc) ?_
    rw [Slot.Encodes, hs.capacity]

end ConvoyStats.Transport
