import Mathlib.Algebra.Order.BigOperators.Group.List
import Mathlib.Algebra.Order.Group.Nat
import ConvoyStats.Netstats.Conn

/-!
# Connection accounting

Every call and every byte of a connection is recorded once.

* `Balanced`: what the calls have added to a total is recorded, still in the total, or in the hands
  of a flush.  So nothing is recorded twice.
* `Draining`: once `closed` is set, a total that is not zero has a flush that will swap it.  The
  first `Close` sets `closed` before it flushes, and a call adds before it looks at `closed`: if it
  finds it set it flushes, and if not, the flush of `Close` is yet to come.

`tick` flushes while it holds `mu`, and `Close` sets `closed` under `mu`, so after `Close` no tick
has anything in its hands.
-/

namespace ConvoyStats.Netstats

open List Process

/-! ### What was done and what is recorded -/

/-- What a record contributes to a total. -/
def NetRecord.amount (k : Total) : NetRecord → ℕ
  | .total j v => if j = k then v else 0
  | _ => 0

/-- The sum of the records of a total. -/
def recorded (k : Total) (log : List NetRecord) : ℕ := (log.map (NetRecord.amount k)).sum

/-- The number of `conn.close.count` records. -/
def closeRecords (log : List NetRecord) : ℕ := log.count .closed

/-- What a call that has moved `n` bytes contributes to a total. -/
def share (dir : Direction) (n : ℕ) : Total → ℕ
  | .calls d => if d = dir then 1 else 0
  | .bytes d => if d = dir then n else 0

namespace ConnPc

/-- The direction and the bytes of a call that is back from the underlying connection. -/
def transferOf : ConnPc → Option (Direction × ℕ)
  | .addCalls dir n _ | .addBytes dir n _ | .fail dir n _ => some (dir, n)
  | .touchClosed dir n | .touchArmed dir n | .touchLocked dir n => some (dir, n)
  | .flushSwap (.late dir n) _ | .flushRecord (.late dir n) _ _ _ => some (dir, n)
  | .transferred dir n => some (dir, n)
  | _ => none

/-- What the call has done. -/
def done (k : Total) (pc : ConnPc) : ℕ :=
  match pc.transferOf with
  | some (dir, n) => share dir n k
  | none => 0

/-- What the call has added to the totals. -/
def added (k : Total) : ConnPc → ℕ
  | .addCalls _ _ _ => 0
  | .addBytes dir _ _ => share dir 0 k
  | pc => pc.done k

/-- What a flush has swapped out and not recorded. -/
def inHand (k : Total) : ConnPc → ℕ
  | .flushRecord _ j v _ => if j = k then v else 0
  | _ => 0

end ConnPc

/-- The actual number of calls or bytes. -/
def actual (k : Total) (procs : List ConnPc) : ℕ := (procs.map (ConnPc.done k)).sum

theorem recorded_concat (k : Total) (log : List NetRecord) (r : NetRecord) :
    recorded k (log ++ [r]) = recorded k log + r.amount k := by
  rw [recorded, map_append, sum_append, map_singleton, sum_singleton]
  rfl

theorem recorded_record (k j : Total) (v : ℕ) (c : Conn) :
    recorded k (c.record j v).log = recorded k c.log + if j = k then v else 0 := by
  by_cases hv : v = 0
  · rw [Conn.record, if_pos hv, hv, ite_self, Nat.add_zero]
  · rw [Conn.record, if_neg hv]
    exact recorded_concat ..

theorem closeRecords_concat (log : List NetRecord) (r : NetRecord) :
    closeRecords (log ++ [r]) = closeRecords log + if r = .closed then 1 else 0 := by
  rw [closeRecords, count_append, count_singleton]
  simp only [beq_iff_eq]
  rfl

theorem log_record (c : Conn) (k : Total) (v : ℕ) :
    (c.record k v).totals = c.totals ∧ (c.record k v).closed = c.closed ∧
      (c.record k v).mu = c.mu ∧ closeRecords (c.record k v).log = closeRecords c.log := by
  rw [Conn.record]
  split_ifs
  · exact ⟨rfl, rfl, rfl, rfl⟩
  · exact ⟨rfl, rfl, rfl, closeRecords_concat ..⟩

theorem share_zero (dir : Direction) (k : Total) :
    share dir 0 k = if k = .calls dir then 1 else 0 := by
  rcases k with d | d <;> cases d <;> cases dir <;> rfl

theorem share_eq (dir : Direction) (n : ℕ) (k : Total) :
    share dir n k = share dir 0 k + if k = .bytes dir then n else 0 := by
  rcases k with d | d <;> cases d <;> cases dir <;> first | rfl | exact (Nat.zero_add _).symm

theorem log_fail (c : Conn) (operation : Operation) (err : Option ConnError) :
    (c.fail operation err).totals = c.totals ∧ (c.fail operation err).closed = c.closed ∧
      (c.fail operation err).mu = c.mu ∧
      (∀ k, recorded k (c.fail operation err).log = recorded k c.log) ∧
      closeRecords (c.fail operation err).log = closeRecords c.log := by
  rw [Conn.fail]
  split_ifs
  · exact ⟨rfl, rfl, rfl, fun k => recorded_concat .., closeRecords_concat ..⟩
  · exact ⟨rfl, rfl, rfl, fun _ => rfl, rfl⟩

/-- **What a step does to the books.** -/
theorem connStep_balance {c c' : Conn} {pc pc' : ConnPc} {input : ConnInput}
    (h : connStep c pc input = some (c', pc')) (k : Total) :
    recorded k c'.log + c'.totals.get k + pc'.inHand k + pc.added k =
      recorded k c.log + c.totals.get k + pc.inHand k + pc'.added k := by
  cases pc with
  | transfer dir | close | tickReset =>
    cases input <;> cases h
    rfl
  | addCalls dir n err =>
    cases input <;> cases h
    show recorded k c.log + (c.totals.add _ _).get k + 0 + 0 = _ + _ + 0 + share dir 0 k
    rw [Totals.get_add, share_zero]
    omega
  | addBytes dir n err =>
    cases input <;> cases h
    show recorded k c.log + (c.totals.add _ _).get k + 0 + share dir 0 k = _ + _ + 0 + share dir n k
    rw [Totals.get_add, share_eq dir n]
    omega
  | fail dir n err =>
    cases input <;> cases h
    obtain ⟨htotals, -, -, hlog, -⟩ := log_fail c dir.operation err
    rw [htotals, hlog]
    rfl
  | touchClosed dir n | touchArmed dir n =>
    cases input <;> cases h
    split_ifs <;> rfl
  | touchLocked dir n | closeLocked | tickLock =>
    cases input <;> try cases h
    rw [connStep] at h
    split_ifs at h <;> cases h <;> rfl
  | closeFail err =>
    cases input <;> cases h
    obtain ⟨htotals, -, -, hlog, -⟩ := log_fail c .close err
    rw [htotals, hlog]
    rfl
  | closeCount =>
    cases input <;> cases h
    show recorded k (c.log ++ [.closed]) + _ + 0 + 0 = _ + _ + 0 + 0
    rw [recorded_concat]
    rfl
  | tick =>
    cases input <;> try cases h
    rw [connStep] at h
    split_ifs at h
    cases h
    rfl
  | flushSwap who rest =>
    cases rest with
    | nil =>
      cases input <;> cases h
      cases who <;> rfl
    | cons j rest =>
      cases input <;> cases h
      have hadded : (ConnPc.flushRecord who j (c.totals.get j) rest).added k =
          (ConnPc.flushSwap who (j :: rest)).added k := by
        cases who <;> rfl
      show recorded k c.log + (c.totals.set 0 j).get k + (if j = k then c.totals.get j else 0) + _ =
        _ + _ + 0 + _
      rw [hadded, Totals.get_set]
      by_cases hk : k = j
      · rw [if_pos hk, if_pos hk.symm, hk]
        omega
      · rw [if_neg hk, if_neg (Ne.symm hk)]
  | flushRecord who j v rest =>
    cases input <;> cases h
    have hadded :
        (ConnPc.flushSwap who rest).added k = (ConnPc.flushRecord who j v rest).added k := by
      cases who <;> rfl
    show _ + _ + 0 + _ = _ + _ + (if j = k then v else 0) + _
    rw [hadded, (log_record c j v).1, recorded_record]
    omega
  | transferred dir n => cases h
  | closed first => cases h
  | ticked => cases h

/-! ### The books -/

/-- What the calls have added is recorded, in the totals, or in the hands of a flush. -/
def Balanced (c : Concurrent Conn ConnPc) : Prop :=
  ∀ k, recorded k c.shared.log + c.shared.totals.get k + (c.procs.map (ConnPc.inHand k)).sum =
    (c.procs.map (ConnPc.added k)).sum

namespace Balanced

variable {c : Concurrent Conn ConnPc}

theorem init : Balanced ⟨newConn, []⟩ := by
  intro k
  rcases k with (_ | _) | (_ | _) <;> rfl

theorem start (h : Balanced c) (a : ConnCall) :
    Balanced ⟨c.shared, c.procs ++ [connCall.start a]⟩ := by
  intro k
  have hstart : (connCall.start a).inHand k = 0 ∧ (connCall.start a).added k = 0 := by
    cases a <;> exact ⟨rfl, rfl⟩
  simp only [map_append, map_singleton, sum_append, sum_singleton, hstart.1,
    hstart.2]
  exact h k

theorem move (h : Balanced c) {i : ℕ} {pc pc' : ConnPc} {input : ConnInput} {s : Conn}
    (hi : c.procs[i]? = some pc) (hstep : connStep c.shared pc input = some (s, pc')) :
    Balanced ⟨s, c.procs.set i pc'⟩ := by
  intro k
  have hk := h k
  have hbalance := connStep_balance hstep k
  have hhand := sum_map_set_add (ConnPc.inHand k) pc' hi
  have hadded := sum_map_set_add (ConnPc.added k) pc' hi
  show recorded k s.log + s.totals.get k + ((c.procs.set i pc').map _).sum =
    ((c.procs.set i pc').map _).sum
  omega

theorem of_reachable (h : connection.Reach c) : Balanced c := by
  refine h.invariant .init ?_
  intro c l c' _ hinv _ hstep
  cases ConcurrentMove.of_step hstep with
  | call a => exact hinv.start a
  | move hi hpc => exact hinv.move hi hpc

end Balanced

theorem ConnPc.added_le_done (k : Total) (pc : ConnPc) : pc.added k ≤ pc.done k := by
  cases pc with
  | addCalls => exact Nat.zero_le _
  | addBytes dir n err =>
    show share dir 0 k ≤ share dir n k
    rw [share_eq dir n]
    exact Nat.le_add_right _ _
  | _ => exact Nat.le_refl _

/-- Nothing is recorded twice. -/
theorem Balanced.recorded_le {c : Concurrent Conn ConnPc} (h : Balanced c) (k : Total) :
    recorded k c.shared.log ≤ actual k c.procs := by
  have hle : (c.procs.map (ConnPc.added k)).sum ≤ (c.procs.map (ConnPc.done k)).sum :=
    sum_le_sum fun pc _ => pc.added_le_done k
  have hk := h k
  rw [actual]
  omega

/-! ### Closing -/

namespace ConnPc

/-- The call has added to a total, or is about to, and has yet to look at `closed`. -/
def beforeTouch : ConnPc → Bool
  | .addCalls _ _ _ | .addBytes _ _ _ | .fail _ _ _ | .touchClosed _ _ => true
  | _ => false

/-- The totals that a flush has yet to swap. -/
def unswapped : ConnPc → List Total
  | .flushSwap _ rest | .flushRecord _ _ _ rest => rest
  | _ => []

/-- Once `closed` is set, the call will swap this total. -/
def WillSwap (k : Total) (pc : ConnPc) : Prop := pc.beforeTouch = true ∨ k ∈ pc.unswapped

/-- The call is the `Close` that set `closed`. -/
def isFirst : ConnPc → Bool
  | .flushSwap .closer _ | .flushRecord .closer _ _ _ | .closeCount | .closed true => true
  | _ => false

/-- The call is a `tick` that holds `mu`. -/
def ticking : ConnPc → Bool
  | .flushSwap .tick _ | .flushRecord .tick _ _ _ | .tickReset => true
  | _ => false

end ConnPc

theorem ConnPc.of_beforeTouch {pc : ConnPc} (h : pc.beforeTouch = true) :
    pc.isFirst = false ∧ pc.ticking = false ∧ ∀ first, pc ≠ .closed first := by
  cases pc <;> first | exact ⟨rfl, rfl, nofun⟩ | cases h

theorem mem_flushOrder (k : Total) : k ∈ flushOrder := by
  rcases k with (_ | _) | (_ | _) <;> decide

/-- What a step does to `closed`, to `mu` and to what is still to be swapped. -/
inductive ConnMove (c : Conn) : ConnPc → Conn → ConnPc → Prop
  | closeFirst {timer : Option Bool} (hmu : c.mu = false) (hopen : c.closed = false) :
      ConnMove c .closeLocked { c with closed := true, timer := timer }
        (.flushSwap .closer flushOrder)
  | closeCount : ConnMove c .closeCount { c with log := c.log ++ [.closed] } (.closed true)
  | tickEnter (hmu : c.mu = false) (hopen : c.closed = false) :
      ConnMove c .tickLock { c with mu := true } (.flushSwap .tick flushOrder)
  | tickLeave : ConnMove c .tickReset { c with timer := some true, mu := false } .ticked
  | swap (who : Flusher) (k : Total) (rest : List Total) :
      ConnMove c (.flushSwap who (k :: rest)) { c with totals := c.totals.set 0 k }
        (.flushRecord who k (c.totals.get k) rest)
  | add {pc pc' : ConnPc} (totals : Totals) (hpc : pc.beforeTouch = true)
      (hpc' : pc'.beforeTouch = true) : ConnMove c pc { c with totals := totals } pc'
  | keep {pc pc' : ConnPc} {c' : Conn} (hclosed : c'.closed = c.closed) (hmu : c'.mu = c.mu)
      (htotals : c'.totals = c.totals) (hlog : closeRecords c'.log = closeRecords c.log)
      (hfirst : pc'.isFirst = pc.isFirst) (htick : pc'.ticking = pc.ticking)
      (hpc : pc ≠ .closed true) (hpc' : pc' ≠ .closed true)
      (hreturned : ∀ first, pc' = .closed first → c.closed = true)
      (hswap : c.closed = true → ∀ k, pc.WillSwap k → pc'.WillSwap k) : ConnMove c pc c' pc'

theorem ConnMove.of_connStep {c c' : Conn} {pc pc' : ConnPc} {input : ConnInput}
    (h : connStep c pc input = some (c', pc')) : ConnMove c pc c' pc' := by
  cases pc with
  | transfer dir | close =>
    cases input <;> cases h
    exact .keep rfl rfl rfl rfl rfl rfl nofun nofun nofun nofun
  | addCalls dir n err | addBytes dir n err =>
    cases input <;> cases h
    exact .add _ rfl rfl
  | fail dir n err =>
    cases input <;> cases h
    obtain ⟨htotals, hclosed, hmu, -, hlog⟩ := log_fail c dir.operation err
    exact .keep hclosed hmu htotals hlog rfl rfl nofun nofun nofun fun _ _ _ => .inl rfl
  | touchClosed dir n =>
    cases input <;> cases h
    split_ifs with hclosed
    · exact .keep rfl rfl rfl rfl rfl rfl nofun nofun nofun fun _ k _ => .inr (mem_flushOrder k)
    · exact .keep rfl rfl rfl rfl rfl rfl nofun nofun nofun fun htrue => absurd htrue hclosed
  | touchArmed dir n =>
    cases input <;> cases h
    split_ifs <;> exact .keep rfl rfl rfl rfl rfl rfl nofun nofun nofun nofun
  | touchLocked dir n =>
    cases input <;> try cases h
    rw [connStep] at h
    split_ifs at h <;> cases h <;> exact .keep rfl rfl rfl rfl rfl rfl nofun nofun nofun nofun
  | closeFail err =>
    cases input <;> cases h
    obtain ⟨htotals, hclosed, hmu, -, hlog⟩ := log_fail c .close err
    exact .keep hclosed hmu htotals hlog rfl rfl nofun nofun nofun nofun
  | closeLocked =>
    cases input <;> try cases h
    rw [connStep] at h
    split_ifs at h with hmu hclosed <;> cases h
    · exact .keep hclosed.symm rfl rfl rfl rfl rfl nofun nofun (fun _ _ => hclosed) nofun
    · exact .closeFirst (eq_false_of_ne_true hmu) (eq_false_of_ne_true hclosed)
  | closeCount =>
    cases input <;> cases h
    exact .closeCount
  | tick =>
    cases input <;> try cases h
    rw [connStep] at h
    split_ifs at h
    cases h
    exact .keep rfl rfl rfl rfl rfl rfl nofun nofun nofun nofun
  | tickLock =>
    cases input <;> try cases h
    rw [connStep] at h
    split_ifs at h with hmu hclosed <;> cases h
    · exact .keep rfl rfl rfl rfl rfl rfl nofun nofun nofun nofun
    · exact .tickEnter (eq_false_of_ne_true hmu) (eq_false_of_ne_true hclosed)
  | tickReset =>
    cases input <;> cases h
    exact .tickLeave
  | flushSwap who rest =>
    cases rest with
    | nil =>
      cases input <;> cases h
      cases who <;> exact .keep rfl rfl rfl rfl rfl rfl nofun nofun nofun nofun
    | cons k rest =>
      cases input <;> cases h
      exact .swap who k rest
  | flushRecord who k v =>
    cases input <;> cases h
    obtain ⟨htotals, hclosed, hmu, hlog⟩ := log_record c k v
    cases who <;> exact .keep hclosed hmu htotals hlog rfl rfl nofun nofun nofun fun _ _ => id
  | transferred dir n => cases h
  | closed first => cases h
  | ticked => cases h

/-- **The invariant of closing.** -/
structure Draining (c : Concurrent Conn ConnPc) : Prop where
  /-- One `Close` is the first. -/
  first : c.procs.countP ConnPc.isFirst = if c.shared.closed then 1 else 0
  /-- It records the close before it returns, and nobody else does. -/
  closes : closeRecords c.shared.log = c.procs.count (.closed true)
  returned : ∀ first, .closed first ∈ c.procs → c.shared.closed = true
  locked : c.procs.countP ConnPc.ticking = if c.shared.mu then 1 else 0
  ticking : (∃ pc ∈ c.procs, pc.ticking = true) → c.shared.closed = false
  drains : c.shared.closed = true → ∀ k, c.shared.totals.get k ≠ 0 →
    ∃ pc ∈ c.procs, pc.WillSwap k

namespace Draining

variable {c : Concurrent Conn ConnPc} {i : ℕ} {pc pc' : ConnPc} {s : Conn}

theorem init : Draining ⟨newConn, []⟩ where
  first := rfl
  closes := rfl
  returned first h := by cases h
  locked := rfl
  ticking h := by
    obtain ⟨pc, hpc, -⟩ := h
    cases hpc
  drains h := by cases h

theorem start (h : Draining c) (a : ConnCall) :
    Draining ⟨c.shared, c.procs ++ [connCall.start a]⟩ := by
  have hstart : (connCall.start a).isFirst = false ∧ (connCall.start a).ticking = false ∧
      ∀ first, connCall.start a ≠ .closed first := by
    cases a <;> exact ⟨rfl, rfl, nofun⟩
  obtain ⟨hfirst, htick, hreturned⟩ := hstart
  refine ⟨?_, ?_, ?_, ?_, ?_, ?_⟩
  · show (c.procs ++ [_]).countP _ = _
    rw [countP_append, countP_singleton, hfirst]
    exact h.first
  · show _ = (c.procs ++ [_]).count _
    rw [count_append, count_singleton, beq_eq_false_iff_ne.mpr (hreturned true)]
    exact h.closes
  · intro first hmem
    rcases mem_append.mp hmem with hmem | hmem
    · exact h.returned first hmem
    · exact absurd (mem_singleton.mp hmem).symm (hreturned first)
  · show (c.procs ++ [_]).countP _ = _
    rw [countP_append, countP_singleton, htick]
    exact h.locked
  · rintro ⟨pc, hpc, hpct⟩
    rcases mem_append.mp hpc with hpc | hpc
    · exact h.ticking ⟨pc, hpc, hpct⟩
    · rw [mem_singleton.mp hpc, htick] at hpct
      cases hpct
  · intro hclosed k hk
    obtain ⟨pc, hpc, hswap⟩ := h.drains hclosed k hk
    exact ⟨pc, mem_append_left _ hpc, hswap⟩

/-- While nobody holds `mu`, nobody ticks. -/
theorem not_ticking (h : Draining c) (hmu : c.shared.mu = false) :
    ∀ pc ∈ c.procs, pc.ticking = false := by
  have hlocked := h.locked
  rw [hmu] at hlocked
  intro pc hpc
  exact eq_false_of_ne_true (countP_eq_zero.mp hlocked pc hpc)

theorem first_move (h : Draining c) (hi : c.procs[i]? = some pc)
    (hmove : ConnMove c.shared pc s pc') :
    (c.procs.set i pc').countP ConnPc.isFirst = if s.closed then 1 else 0 := by
  have hcount := countP_set_add ConnPc.isFirst pc' hi
  rw [h.first] at hcount
  cases hmove with
  | closeFirst hmu hopen =>
    rw [hopen] at hcount
    exact hcount
  | swap who k rest => cases who <;> exact Nat.add_right_cancel hcount
  | add totals hpc hpc' =>
    rw [(ConnPc.of_beforeTouch hpc).1, (ConnPc.of_beforeTouch hpc').1] at hcount
    exact hcount
  | keep hclosed _ _ _ hfirst =>
    rw [hfirst, Nat.add_right_cancel_iff] at hcount
    rw [hclosed]
    exact hcount
  | _ => exact Nat.add_right_cancel hcount

theorem closes_move (h : Draining c) (hi : c.procs[i]? = some pc)
    (hmove : ConnMove c.shared pc s pc') :
    closeRecords s.log = (c.procs.set i pc').count (.closed true) := by
  have hcount := countP_set_add (· == ConnPc.closed true) pc' hi
  have hcloses : closeRecords c.shared.log = c.procs.countP (· == ConnPc.closed true) := h.closes
  show closeRecords s.log = (c.procs.set i pc').countP (· == ConnPc.closed true)
  have hsame : ∀ {log : List NetRecord}, closeRecords log = closeRecords c.shared.log →
      pc ≠ .closed true → pc' ≠ .closed true →
      closeRecords log = (c.procs.set i pc').countP (· == ConnPc.closed true) := by
    intro log hlog hpc hpc'
    rw [beq_eq_false_iff_ne.mpr hpc, beq_eq_false_iff_ne.mpr hpc'] at hcount
    rw [hlog, hcloses]
    exact hcount.symm
  cases hmove with
  | closeCount =>
    show closeRecords (c.shared.log ++ [.closed]) = _
    rw [closeRecords_concat, hcloses]
    exact hcount.symm
  | add totals hpc hpc' =>
    exact hsame rfl ((ConnPc.of_beforeTouch hpc).2.2 true) ((ConnPc.of_beforeTouch hpc').2.2 true)
  | keep _ _ _ hlog _ _ hpc hpc' => exact hsame hlog hpc hpc'
  | _ => exact hsame rfl nofun nofun

/-- `closed` stays set. -/
theorem closed_mono (hmove : ConnMove c.shared pc s pc') (hclosed : c.shared.closed = true) :
    s.closed = true := by
  cases hmove with
  | closeFirst hmu hopen => rfl
  | keep heq => exact heq.trans hclosed
  | _ => exact hclosed

theorem returned_move (h : Draining c) (hi : c.procs[i]? = some pc)
    (hmove : ConnMove c.shared pc s pc') :
    ∀ first, .closed first ∈ c.procs.set i pc' → s.closed = true := by
  intro first hmem
  rcases mem_or_eq_of_mem_set hmem with hmem | heq
  · exact closed_mono hmove (h.returned first hmem)
  · cases hmove with
    | closeCount =>
      -- The first `Close` is there because `closed` is set.
      by_contra hopen
      have hfirst := h.first
      rw [if_neg hopen] at hfirst
      exact countP_eq_zero.mp hfirst _ (mem_of_getElem? hi) rfl
    | add totals hpc hpc' => exact absurd heq.symm ((ConnPc.of_beforeTouch hpc').2.2 first)
    | keep hclosed _ _ _ _ _ _ _ hreturned => exact hclosed.trans (hreturned first heq.symm)
    | _ => cases heq

theorem locked_move (h : Draining c) (hi : c.procs[i]? = some pc)
    (hmove : ConnMove c.shared pc s pc') :
    (c.procs.set i pc').countP ConnPc.ticking = if s.mu then 1 else 0 := by
  have hcount := countP_set_add ConnPc.ticking pc' hi
  rw [h.locked] at hcount
  cases hmove with
  | tickEnter hmu hopen =>
    rw [hmu] at hcount
    exact hcount
  | tickLeave =>
    change _ + 1 = _ + 0 at hcount
    show _ = 0
    split_ifs at hcount <;> omega
  | swap who k rest => cases who <;> exact Nat.add_right_cancel hcount
  | add totals hpc hpc' =>
    rw [(ConnPc.of_beforeTouch hpc).2.1, (ConnPc.of_beforeTouch hpc').2.1] at hcount
    exact hcount
  | keep _ hmu _ _ _ htick =>
    rw [htick, Nat.add_right_cancel_iff] at hcount
    rw [hmu]
    exact hcount
  | _ => exact Nat.add_right_cancel hcount

theorem ticking_move (h : Draining c) (hi : c.procs[i]? = some pc)
    (hmove : ConnMove c.shared pc s pc') :
    (∃ qc ∈ c.procs.set i pc', qc.ticking = true) → s.closed = false := by
  rintro ⟨qc, hqc, htick⟩
  have hmem : pc ∈ c.procs := mem_of_getElem? hi
  -- Who ticks after the step ticked before, or has just locked `mu`.
  have hbefore : (pc'.ticking = true → pc.ticking = true) → ∃ qc ∈ c.procs, qc.ticking = true := by
    intro hpc
    rcases mem_or_eq_of_mem_set hqc with hqc | rfl
    · exact ⟨qc, hqc, htick⟩
    · exact ⟨pc, hmem, hpc htick⟩
  cases hmove with
  | closeFirst hmu hopen =>
    obtain ⟨qc, hqc, htick⟩ := hbefore nofun
    exact absurd ((h.not_ticking hmu qc hqc).symm.trans htick) Bool.false_ne_true
  | tickEnter hmu hopen => exact hopen
  | swap who k rest => exact h.ticking (hbefore fun htrue => by cases who <;> exact htrue)
  | add totals hpc hpc' =>
    refine h.ticking (hbefore fun htrue => ?_)
    exact absurd ((ConnPc.of_beforeTouch hpc').2.1.symm.trans htrue) Bool.false_ne_true
  | keep hclosed _ _ _ _ heq => exact hclosed.trans (h.ticking (hbefore fun htrue => heq ▸ htrue))
  | _ => exact h.ticking (hbefore nofun)

theorem drains_move (h : Draining c) (hi : c.procs[i]? = some pc)
    (hmove : ConnMove c.shared pc s pc') (hclosed : s.closed = true) (k : Total)
    (hk : s.totals.get k ≠ 0) : ∃ qc ∈ c.procs.set i pc', qc.WillSwap k := by
  have hmem' : pc' ∈ c.procs.set i pc' := mem_set_self_of hi
  -- If the one that will swap is the one that moves, it still will.
  have hstill : c.shared.closed = true → c.shared.totals.get k ≠ 0 →
      (pc.WillSwap k → pc'.WillSwap k) → ∃ qc ∈ c.procs.set i pc', qc.WillSwap k := by
    intro hset hnz hpc
    rcases exists_mem_of_set pc' hi (h.drains hset k hnz) with hold | hwill
    · exact hold
    · exact ⟨pc', hmem', hpc hwill⟩
  cases hmove with
  | closeFirst hmu hopen => exact ⟨_, hmem', .inr (mem_flushOrder k)⟩
  | closeCount | tickLeave => exact hstill hclosed hk nofun
  | tickEnter hmu hopen => exact absurd (hopen.symm.trans hclosed) Bool.false_ne_true
  | swap who j rest =>
    have hne : k ≠ j := by
      rintro rfl
      refine hk ?_
      show (c.shared.totals.set 0 k).get k = 0
      rw [Totals.get_set, if_pos rfl]
    have hget : (c.shared.totals.set 0 j).get k = c.shared.totals.get k := by
      rw [Totals.get_set, if_neg hne]
    refine hstill hclosed (fun hzero => hk (hget.trans hzero)) ?_
    rintro (hbefore | hin)
    · cases hbefore
    · exact .inr ((mem_cons.mp hin).resolve_left hne)
  | add totals hpc hpc' => exact ⟨pc', hmem', .inl hpc'⟩
  | keep heq _ htotals _ _ _ _ _ _ hswap =>
    have hset : c.shared.closed = true := heq.symm.trans hclosed
    exact hstill hset (htotals ▸ hk) (hswap hset k)

theorem of_reachable (h : connection.Reach c) : Draining c := by
  refine h.invariant .init ?_
  intro c l c' _ hinv _ hstep
  cases ConcurrentMove.of_step hstep with
  | call a => exact hinv.start a
  | move hi hpc =>
    have hmove := ConnMove.of_connStep hpc
    exact ⟨hinv.first_move hi hmove, hinv.closes_move hi hmove, hinv.returned_move hi hmove,
      hinv.locked_move hi hmove, hinv.ticking_move hi hmove, hinv.drains_move hi hmove⟩

end Draining

/-! ### The accounts of a closed connection -/

/-- The process is a `tick`, wherever it is, or a call that has returned. -/
def ConnPc.settled : ConnPc → Bool
  | .tick | .tickLock | .tickReset | .ticked => true
  | .flushSwap .tick _ | .flushRecord .tick _ _ _ => true
  | .transferred _ _ | .closed _ => true
  | _ => false

/-- A settled process that does not hold `mu` has nothing left to add, to swap or to record. -/
theorem ConnPc.settled_spec {pc : ConnPc} (h : pc.settled = true) (htick : pc.ticking = false)
    (k : Total) :
    pc.inHand k = 0 ∧ pc.added k = pc.done k ∧ ¬ pc.WillSwap k ∧
      (pc.isFirst = true ↔ pc = .closed true) := by
  have hclosed :
      ∀ {first}, (ConnPc.closed first).isFirst = true ↔ ConnPc.closed first = .closed true := by
    intro first
    cases first <;> decide
  cases pc with
  | tick | tickLock | ticked | transferred dir n => exact ⟨rfl, rfl, nofun, nofun, nofun⟩
  | closed first => exact ⟨rfl, rfl, nofun, hclosed⟩
  | tickReset => cases htick
  | flushSwap who rest | flushRecord who j v rest =>
    cases who with
    | tick => cases htick
    | _ => cases h
  | _ => cases h

/-- **Connection accounting.**  Nothing is recorded twice; the close is recorded once, by the first
`Close`; and when a `Close` and all calls have returned, every call and every byte is recorded. -/
theorem connection_accounting {c : Concurrent Conn ConnPc} (hreach : connection.Reach c) :
    (∀ k, recorded k c.shared.log ≤ actual k c.procs) ∧
      closeRecords c.shared.log ≤ 1 ∧
      (.closed true ∈ c.procs → closeRecords c.shared.log = 1) ∧
      ((∃ first, .closed first ∈ c.procs) → (∀ pc ∈ c.procs, pc.settled = true) →
        (∀ k, recorded k c.shared.log = actual k c.procs) ∧
          closeRecords c.shared.log = 1) := by
  have hbalanced := Balanced.of_reachable hreach
  have hdraining := Draining.of_reachable hreach
  have hclose : closeRecords c.shared.log ≤ 1 := by
    rw [hdraining.closes]
    calc c.procs.count (.closed true)
      _ ≤ c.procs.countP ConnPc.isFirst := countP_mono_left fun pc _ heq => by
          rw [eq_of_beq heq]
          rfl
      _ ≤ 1 := by
          rw [hdraining.first]
          split_ifs <;> omega
  refine ⟨hbalanced.recorded_le, hclose, fun hmem => ?_, ?_⟩
  · refine Nat.le_antisymm hclose ?_
    rw [hdraining.closes]
    exact count_pos_iff.mpr hmem
  rintro ⟨first, hreturned⟩ hsettled
  have hclosed := hdraining.returned first hreturned
  have hspec : ∀ pc ∈ c.procs, ∀ k, _ := fun pc hpc =>
    ConnPc.settled_spec (hsettled pc hpc) <| eq_false_of_ne_true fun htick =>
      Bool.false_ne_true ((hdraining.ticking ⟨pc, hpc, htick⟩).symm.trans hclosed)
  constructor
  · intro k
    have hzero : c.shared.totals.get k = 0 := by
      by_contra hne
      obtain ⟨pc, hpc, hwill⟩ := hdraining.drains hclosed k hne
      exact (hspec pc hpc k).2.2.1 hwill
    have hhand : (c.procs.map (ConnPc.inHand k)).sum = 0 :=
      sum_eq_zero fun v hv => by
        obtain ⟨pc, hpc, rfl⟩ := mem_map.mp hv
        exact (hspec pc hpc k).1
    have hdone : c.procs.map (ConnPc.added k) = c.procs.map (ConnPc.done k) :=
      map_congr_left fun pc hpc => (hspec pc hpc k).2.1
    calc recorded k c.shared.log
      _ = recorded k c.shared.log + c.shared.totals.get k +
            (c.procs.map (ConnPc.inHand k)).sum := by rw [hzero, hhand]; rfl
      _ = actual k c.procs := by rw [hbalanced k, hdone]; rfl
  · have hfirst := hdraining.first
    rw [if_pos hclosed] at hfirst
    rw [hdraining.closes, ← hfirst]
    refine countP_congr fun pc hpc => ?_
    rw [beq_iff_eq]
    exact (hspec pc hpc (.calls .read)).2.2.2.symm

/-- A read of five bytes starts the timer, a tick flushes it, a write adds before `Close` and looks
at `closed` after its flush: it flushes what was added meanwhile. -/
def lateWrite : List (ConcurrentLabel ConnCall ConnInput) :=
  [.call (.transfer .read), .move 0 (.moved 5 none)] ++ replicate 6 (.move 0 .none) ++
    [.call .tick] ++ replicate 12 (.move 1 .none) ++
    [.call (.transfer .write), .move 2 (.moved 7 none), .move 2 .none] ++
    [.call .close, .move 3 (.closed none)] ++ replicate 12 (.move 3 .none) ++
    replicate 12 (.move 2 .none)

theorem connection_accounting_late_write :
    ∃ c, connection.Reach c ∧ .closed true ∈ c.procs ∧ recorded (.bytes .read) c.shared.log = 5 ∧
      recorded (.bytes .write) c.shared.log = 7 ∧ closeRecords c.shared.log = 1 := by
  have hreach : connection.Reach ⟨⟨⟨0, 0, 0, 0⟩, true, true, false, some false,
      [.opened, .total (.calls .read) 1, .total (.bytes .read) 5, .total (.calls .write) 1, .closed,
        .total (.bytes .write) 7]⟩,
      [.transferred .read 5, .ticked, .transferred .write 7, .closed true]⟩ :=
    .of_labels lateWrite rfl
  obtain ⟨-, -, -, hall⟩ := connection_accounting hreach
  obtain ⟨hrecorded, hclose⟩ := hall ⟨true, by decide⟩ (by decide)
  exact ⟨_, hreach, by decide, hrecorded _, hrecorded _, hclose⟩

end ConvoyStats.Netstats
