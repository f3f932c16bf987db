import ConvoyStats.Exporters.BufferLots

/-!
# What is written when calls return

`Flush` skips the buffers that others have.  So an `Export` can return while its own packets are
still in a buffer: another call took that buffer between its `Handle` and its `Flush`
(`export_unwritten`).  They are written if no other call has the buffer when its `Flush` comes to
it.

All together nothing is lost.  A lot in a buffer has a call that will come to the buffer: one that
is not through with its `Handle`, or whose `Flush` has yet to come to it (`Owed`).  A call that
skips the buffer leaves that to the one that has it, which either has its own `Flush` before it
or is about to write the buffer.
-/

namespace ConvoyStats.Exporters

open List Process

variable {M E : Type} {cfg : BufferConfig M E}

/-- The writes of a step do not fail. -/
def WritesSucceed : ConcurrentLabel (BufferCall M) BufferInput → Prop
  | .move _ (.writeFailed _) => False
  | _ => True

instance (l : ConcurrentLabel (BufferCall M) BufferInput) : Decidable (WritesSucceed l) :=
  match l with
  | .move _ (.writeFailed _) => .isFalse id
  | .move _ .none | .move _ .wrote | .call _ => .isTrue trivial

theorem WritesSucceed.input {i : ℕ} {input : BufferInput}
    (h : WritesSucceed (.move i input : ConcurrentLabel (BufferCall M) BufferInput)) (n : ℕ) :
    input ≠ .writeFailed n := by
  rintro rfl
  exact h

/-! ### Exports by themselves -/

/-- A step of a run of `Export` calls whose writes do not fail. -/
def OnlyExports : ConcurrentLabel (BufferCall M) BufferInput → Prop
  | .call (.export _) => True
  | .call _ => False
  | l => WritesSucceed l

instance (l : ConcurrentLabel (BufferCall M) BufferInput) : Decidable (OnlyExports l) :=
  match l with
  | .call (.export _) => .isTrue trivial
  | .call (.handle _) | .call .flush => .isFalse id
  | .move i input => inferInstanceAs (Decidable (WritesSucceed (.move i input)))

namespace BufferPc

/-- The call will come to the buffer `k` in its `Flush`. -/
def comesTo (k : ℕ) : BufferPc E → Bool
  | .probe _ | .acquire _ _ | .append _ _ | .drain _ => true
  | .release _ failed => !failed
  | .flushAcquire j _ _ | .flushDrain j _ _ => j ≤ k
  | .flushRelease j _ _ => j < k
  | _ => false

end BufferPc

/-- What a step does to a call that will come to the buffer `k`: it still will, or it skips the
buffer, or it writes it. -/
theorem comesTo_move {b b' : Buffer} {metrics : List M} {pc pc' : BufferPc E} {input : BufferInput}
    {k : ℕ} (hmove : BufferMove cfg b (.export metrics) pc input b' pc')
    (hinput : ∀ n, input ≠ .writeFailed n) (hk : k < b.buffers.length)
    (hpc : pc.comesTo k = true) :
    pc'.comesTo k = true ∨
      (∃ mine failed buf, pc = .flushAcquire k mine failed ∧ b.buffers[k]? = some buf ∧
        buf.lock = true) ∨
      ∃ mine failed, pc = .flushDrain k mine failed := by
  cases hmove with
  | serialize hcall => cases hpc
  | probe packets k => exact .inl rfl
  | busy k packets => exact .inl rfl
  | acquire packets hbuf => exact .inl rfl
  | append packets hbuf hpc' => rcases hpc' with rfl | rfl <;> exact .inl rfl
  | drain hbuf hdrain =>
    obtain ⟨rfl, -⟩ := drain_cases hbuf hdrain hinput
    exact .inl rfl
  | release failed hbuf =>
    cases failed with
    | false => exact .inl (decide_eq_true (Nat.zero_le k))
    | true => cases hpc
  | flushed =>
    have hle := of_decide_eq_true hpc
    omega
  | @skip j buf mine failed hbuf hheld =>
    rcases Nat.eq_or_lt_of_le (of_decide_eq_true hpc) with rfl | hlt
    · exact .inr (.inl ⟨mine, failed, buf, rfl, hbuf, hheld⟩)
    · exact .inl (decide_eq_true hlt)
  | flushAcquire => exact .inl hpc
  | @flushDrain j _ _ _ _ mine failed _ =>
    rcases Nat.eq_or_lt_of_le (of_decide_eq_true hpc) with rfl | hlt
    · exact .inr (.inr ⟨mine, failed, rfl⟩)
    · exact .inl (decide_eq_true hlt)
  | flushRelease =>
    have hlt := of_decide_eq_true hpc
    exact .inl (decide_eq_true hlt)

/-- **The invariant of a run of `Export` calls.** -/
structure Owed (c : Concurrent Buffer (BufferProc M E)) (piles : Piles Lot) : Prop where
  exports : ∀ proc ∈ c.procs, ∃ metrics, proc.call = .export metrics
  unfailed : ∀ proc ∈ c.procs, ∀ k, proc.pc ≠ .release k true
  owed : ∀ k, piles.pile k ≠ [] → ∃ proc ∈ c.procs, proc.pc.comesTo k = true
  emptied : ∀ (i : ℕ) (proc : BufferProc M E) (k : ℕ) (mine : Option ℕ) (failed : Bool),
    c.procs[i]? = some proc → proc.pc = .flushRelease k mine failed → piles.pile k = []

namespace Owed

variable {c : Concurrent Buffer (BufferProc M E)} {piles : Piles Lot} {i k : ℕ}
  {proc : BufferProc M E} {pc' : BufferPc E} {b' : Buffer} {input : BufferInput}

theorem init (cfg : BufferConfig M E) :
    Owed (⟨cfg.prepare, []⟩ : Concurrent Buffer (BufferProc M E)) (.empty cfg.poolSize) where
  exports proc hproc := by cases hproc
  unfailed proc hproc := by cases hproc
  owed k hk := absurd (Piles.pile_empty _) hk
  emptied i proc k mine failed hi := by cases hi

theorem start (h : Owed c piles) (cfg : BufferConfig M E) (metrics : List M) :
    Owed ⟨c.shared, c.procs ++ [(bufferCall cfg).start (.export metrics)]⟩ piles where
  exports proc hproc := by
    rcases mem_append.mp hproc with hproc | hproc
    · exact h.exports proc hproc
    · exact ⟨metrics, by rw [mem_singleton.mp hproc]; rfl⟩
  unfailed proc hproc k hpc := by
    rcases mem_append.mp hproc with hproc | hproc
    · exact h.unfailed proc hproc k hpc
    · rw [mem_singleton.mp hproc] at hpc
      cases hpc
  owed k hk := by
    obtain ⟨proc, hproc, hcomes⟩ := h.owed k hk
    exact ⟨proc, mem_append_left _ hproc, hcomes⟩
  emptied i proc k mine failed hi hpc := by
    rcases getElem?_concat_eq_some.mp hi with hi | ⟨-, rfl⟩
    · exact h.emptied i proc k mine failed hi hpc
    · cases hpc

/-- A call that has the lock of a buffer with lots in it will come to the buffer. -/
theorem comesTo_of_holds (h : Owed c piles) (hi : c.procs[i]? = some proc)
    (hholds : proc.pc.holds = some k) (hne : piles.pile k ≠ []) : proc.pc.comesTo k = true := by
  obtain ⟨call, pc⟩ := proc
  cases pc with
  | append j packets => rfl
  | drain j => rfl
  | release j failed =>
    cases failed with
    | false => rfl
    | true => exact absurd rfl (h.unfailed _ (mem_of_getElem? hi) j)
  | flushDrain =>
    cases hholds
    exact decide_eq_true le_rfl
  | flushRelease j mine failed =>
    cases hholds
    exact absurd (h.emptied i _ k mine failed hi rfl) hne
  | _ => cases hholds

/-- Where there are lots after a step, the step has appended, or they were there before. -/
theorem pile_nextPiles {pc : BufferPc E} (hne : (nextPiles piles i pc).pile k ≠ []) :
    (∃ packets, pc = .append k packets) ∨ piles.pile k ≠ [] := by
  have htake : ∀ j, (piles.take j).pile k ≠ [] → piles.pile k ≠ [] := by
    intro j hj
    by_cases hjk : k = j
    · subst hjk
      exact absurd Piles.pile_take_self hj
    · rwa [Piles.pile_take_of_ne hjk] at hj
  cases pc with
  | append j packets =>
    by_cases hjk : k = j
    · exact .inl ⟨packets, by rw [hjk]⟩
    · refine .inr ?_
      rwa [nextPiles, Piles.pile_put_of_ne hjk] at hne
  | drain j | flushDrain j mine failed => exact .inr (htake j hne)
  | _ => exact .inr hne

/-- **A step keeps the lots owed.** -/
theorem owed_move (h : Owed c piles) (hlots : Lots cfg c piles) (hex : Exclusive c)
    (hi : c.procs[i]? = some proc) (hmove : BufferMove cfg c.shared proc.call proc.pc input b' pc')
    (hinput : ∀ n, input ≠ .writeFailed n) (hne : (nextPiles piles i proc.pc).pile k ≠ []) :
    ∃ proc' ∈ c.procs.set i ⟨proc.call, pc'⟩, proc'.pc.comesTo k = true := by
  rcases pile_nextPiles hne with ⟨packets, hpc⟩ | hold
  · -- The step appends, and its call will come to every buffer.
    rw [hpc] at hmove
    refine ⟨_, mem_set_self_of hi, ?_⟩
    cases hmove with
    | append packets hbuf hpc' => rcases hpc' with rfl | rfl <;> rfl
  · obtain ⟨metrics, hcall⟩ := h.exports proc (mem_of_getElem? hi)
    have hk : k < c.shared.buffers.length := hlots.length ▸ Piles.lt_length_of_pile hold
    rcases exists_mem_of_set ⟨proc.call, pc'⟩ hi (h.owed k hold) with hother | hself
    · exact hother
    · rcases comesTo_move (hcall ▸ hmove) hinput hk hself with
        hcomes | ⟨mine, failed, buf, hpc, hbuf, hlock⟩ | ⟨mine, failed, hpc⟩
      · exact ⟨_, mem_set_self_of hi, hcomes⟩
      · -- The buffer is skipped, and left to the call that has it.
        obtain ⟨holder, hmem, hholds⟩ := hex.exists_holder hbuf hlock
        obtain ⟨j, hj⟩ := getElem?_of_mem hmem
        have hcomes := h.comesTo_of_holds hj hholds hold
        refine ⟨holder, mem_of_getElem? ((getElem?_set_eq_some hi).mpr
          (.inr ⟨?_, hj⟩)), hcomes⟩
        rintro rfl
        obtain rfl := Option.some.inj (hi.symm.trans hj)
        rw [hpc] at hholds
        cases hholds
      · rw [hpc] at hne
        exact absurd Piles.pile_take_self hne

/-- A call that has yet to give a buffer back after its `Flush` has written it has just written
it. -/
theorem flushDrain_of_flushRelease {b : Buffer} {call : BufferCall M} {pc pc' : BufferPc E}
    {mine : Option ℕ} {failed : Bool} (hmove : BufferMove cfg b call pc input b' pc')
    (hpc' : pc' = .flushRelease k mine failed) :
    ∃ mine' failed', pc = .flushDrain k mine' failed' := by
  have hholds := congrArg BufferPc.holds hpc'
  cases hmove with
  | serialize hcall =>
    rw [holds_serializeStep] at hholds
    cases hholds
  | append packets hbuf hpc => rcases hpc with rfl | rfl <;> cases hpc'
  | release failed hbuf =>
    rw [holds_afterHandle] at hholds
    cases hholds
  | flushDrain mine failed =>
    cases hpc'
    exact ⟨mine, _, rfl⟩
  | _ => cases hpc'

/-- No `Handle` fails. -/
theorem ne_release_of_move {b : Buffer} {call : BufferCall M} {pc pc' : BufferPc E}
    (hmove : BufferMove cfg b call pc input b' pc') (hinput : ∀ n, input ≠ .writeFailed n) :
    pc' ≠ .release k true := by
  intro hpc'
  have hholds := congrArg BufferPc.holds hpc'
  cases hmove with
  | serialize hcall =>
    rw [holds_serializeStep] at hholds
    cases hholds
  | append packets hbuf hpc => rcases hpc with rfl | rfl <;> cases hpc'
  | drain hbuf hdrain =>
    obtain ⟨rfl, -⟩ := drain_cases hbuf hdrain hinput
    cases hpc'
  | release failed hbuf =>
    rw [holds_afterHandle] at hholds
    cases hholds
  | _ => cases hpc'

/-- A buffer that a call has written and not yet given back stays empty. -/
theorem emptied_move (h : Owed c piles) (hex : Exclusive c) (hi : c.procs[i]? = some proc)
    (hmove : BufferMove cfg c.shared proc.call proc.pc input b' pc') {j : ℕ}
    {proc' : BufferProc M E} {mine : Option ℕ} {failed : Bool}
    (hj : (c.procs.set i ⟨proc.call, pc'⟩)[j]? = some proc')
    (hpc : proc'.pc = .flushRelease k mine failed) :
    (nextPiles piles i proc.pc).pile k = [] := by
  by_contra hne
  rcases (getElem?_set_eq_some hi).mp hj with ⟨rfl, rfl⟩ | ⟨hji, hj⟩
  · obtain ⟨_, _, hdrain⟩ := flushDrain_of_flushRelease hmove hpc
    rw [hdrain] at hne
    exact hne Piles.pile_take_self
  · rcases pile_nextPiles hne with ⟨packets, happend⟩ | hold
    · -- Both calls would have the lock of the buffer.
      rw [happend] at hmove
      cases hmove with
      | append _ hbuf =>
        exact hji (hex.unique hbuf hj hi (by rw [hpc]; rfl) (by rw [happend]; rfl))
    · exact hold (h.emptied j proc' k mine failed hj hpc)

/-- **A step keeps the invariant.** -/
theorem move (h : Owed c piles) (hlots : Lots cfg c piles) (hex : Exclusive c)
    (hi : c.procs[i]? = some proc) (hmove : BufferMove cfg c.shared proc.call proc.pc input b' pc')
    (hinput : ∀ n, input ≠ .writeFailed n) :
    Owed ⟨b', c.procs.set i ⟨proc.call, pc'⟩⟩ (nextPiles piles i proc.pc) where
  exports := forall_mem_set h.exports (h.exports proc (mem_of_getElem? hi))
  unfailed := forall_mem_set h.unfailed fun _ => ne_release_of_move hmove hinput
  owed _ := h.owed_move hlots hex hi hmove hinput
  emptied _ _ _ _ _ := h.emptied_move hex hi hmove

end Owed

/-- **Every lot in a buffer has a call that will come to the buffer.** -/
theorem owed_of_reachable {c : Concurrent Buffer (BufferProc M E)}
    (h : (buffered cfg).Reachable (fun _ l => OnlyExports l) c) :
    ∃ piles, Account cfg c piles ∧ Owed c piles := by
  refine h.invariant (I := fun c => ∃ piles, Account cfg c piles ∧ Owed c piles)
    ⟨_, .init cfg, .init cfg⟩ ?_
  rintro c l c' - ⟨piles, hacc, howed⟩ honly hs
  cases ConcurrentMove.of_step hs with
  | call a =>
    cases a with
    | «export» metrics => exact ⟨piles, hacc.start _, howed.start cfg metrics⟩
    | handle metrics => exact honly.elim
    | flush => exact honly.elim
  | @move i input _ _ b' hi hstep =>
    obtain ⟨⟨b', pc'⟩, hcall, heq⟩ := Option.map_eq_some_iff.mp hstep
    cases heq
    have hmove := BufferMove.of_callStep hcall
    have hinput : ∀ n, input ≠ .writeFailed n := WritesSucceed.input honly
    exact ⟨_, hacc.move hi hmove hinput, howed.move hacc.lots hacc.exclusive hi hmove hinput⟩

/-- What has been written, whatever the calls are. -/
theorem Account.written {c : Concurrent Buffer (BufferProc M E)} {piles : Piles Lot}
    (h : Account cfg c piles) :
    c.shared.dst = piles.written.flatMap lotBytes ∧ (piles.written.map Prod.fst).Nodup ∧
      ∀ lot ∈ piles.written,
        ∃ proc, c.procs[lot.1]? = some proc ∧ proc.call.packets cfg = some lot.2 := by
  refine ⟨h.lots.dst, ?_, fun lot hlot => ?_⟩
  · have honce := h.lots.once
    rw [Piles.all, map_append] at honce
    exact honce.of_append_left
  · obtain ⟨proc, hproc, -, hpackets⟩ := h.lots.sound lot (Piles.mem_all_of_written hlot)
    exact ⟨proc, hproc, hpackets⟩

/-- **Nothing is lost and nothing is written twice.**  In every run of `Export` calls whose writes
do not fail, `Dst` has got the bytes of a list of lots, each the packets of a call, as a whole and
in order, and no call twice; and once all calls have returned it has got those of every call with
packets, and the buffers are empty. -/
theorem exports_written_once {c : Concurrent Buffer (BufferProc M E)}
    (h : (buffered cfg).Reachable (fun _ l => OnlyExports l) c) :
    ∃ lots : List Lot,
      c.shared.dst = lots.flatMap lotBytes ∧ (lots.map Prod.fst).Nodup ∧
      (∀ lot ∈ lots, ∃ proc, c.procs[lot.1]? = some proc ∧ proc.call.packets cfg = some lot.2) ∧
      ((∀ proc ∈ c.procs, ∃ mine err, proc.pc = .returned mine err) →
        (∀ buf ∈ c.shared.buffers, buf.data = []) ∧
        ∀ (i : ℕ) (proc : BufferProc M E) (packets : List Bytes), c.procs[i]? = some proc →
          proc.call.packets cfg = some packets → (i, packets) ∈ lots) := by
  obtain ⟨piles, hacc, howed⟩ := owed_of_reachable h
  obtain ⟨hdst, honce, hsound⟩ := hacc.written
  refine ⟨piles.written, hdst, honce, hsound, fun hreturned => ?_⟩
  · -- No call is left to come to a buffer, so there are no lots in one.
    have hempty : ∀ k, piles.pile k = [] := by
      intro k
      by_contra hne
      obtain ⟨proc, hproc, hcomes⟩ := howed.owed k hne
      obtain ⟨mine, err, hpc⟩ := hreturned proc hproc
      rw [hpc] at hcomes
      cases hcomes
    refine ⟨fun buf hbuf => ?_, fun i proc packets hi hpackets => ?_⟩
    · obtain ⟨k, hk⟩ := getElem?_of_mem hbuf
      rw [hacc.lots.data k buf hk, hempty k]
      rfl
    · obtain ⟨mine, err, hpc⟩ := hreturned proc (mem_of_getElem? hi)
      obtain ⟨k, -, hwritten | hpile⟩ := hacc.placed_of_returned hi hpc hpackets
      · exact hwritten
      · rw [hempty k] at hpile
        cases hpile

/-- One buffer, and metrics that are their own packets. -/
def oneBuffer : BufferConfig Bytes Empty := ⟨0, 1, .ok, 1⟩

/-- The call `i` goes on, `n` times. -/
def steps (i n : ℕ) : List (ConcurrentLabel (BufferCall Bytes) BufferInput) :=
  replicate n (.move i .none)

/-- The call 0 has appended; the call 1 has its buffer when the `Flush` of the call 0 comes to
it. -/
def skipped : List (ConcurrentLabel (BufferCall Bytes) BufferInput) :=
  [.call (.export [[97, 98]]), .call (.export [[99, 10]])] ++ steps 0 5 ++ steps 1 3 ++ steps 0 2

/-- The call 1 writes both. -/
def bothWritten : List (ConcurrentLabel (BufferCall Bytes) BufferInput) :=
  skipped ++ steps 1 3 ++ [.move 1 .wrote] ++ steps 1 2

theorem exports_written_once_bothWritten :
    ∃ c, (buffered oneBuffer).Reachable (fun _ l => OnlyExports l) c ∧
      c.shared.dst = [97, 98, 10, 99, 10] ∧ (∀ buf ∈ c.shared.buffers, buf.data = []) ∧
      ∃ lots : List Lot, c.shared.dst = lots.flatMap lotBytes ∧
        (0, [[97, 98]]) ∈ lots ∧ (1, [[99, 10]]) ∈ lots := by
  have hreach : (buffered oneBuffer).Reachable (fun _ l => OnlyExports l)
      ⟨⟨2, [⟨false, []⟩], [97, 98, 10, 99, 10]⟩, [⟨.export [[97, 98]], .returned (some 0) none⟩,
        ⟨.export [[99, 10]], .returned (some 0) none⟩]⟩ :=
    .of_labels_within _ bothWritten rfl
  obtain ⟨lots, hdst, -, -, hend⟩ := exports_written_once hreach
  obtain ⟨hempty, hall⟩ := hend fun proc hproc => by
    rcases mem_pair.mp hproc with rfl | rfl <;> exact ⟨_, _, rfl⟩
  exact ⟨_, hreach, rfl, hempty, lots, hdst, hall 0 _ _ rfl rfl, hall 1 _ _ rfl rfl⟩

/-! ### One export -/

/-- The buffer that the `Flush` of a call is at, where its `Handle` has appended to it. -/
def BufferPc.atOwn : BufferPc E → Option ℕ
  | .flushAcquire k mine _ => if mine = some k then some k else none
  | _ => none

/-- When the `Flush` of a call comes to the buffer that its `Handle` has appended to, no call has
the buffer. -/
def OwnFree (c : Concurrent Buffer (BufferProc M E)) :
    ConcurrentLabel (BufferCall M) BufferInput → Prop
  | .call _ => True
  | .move i _ =>
    ∀ proc ∈ c.procs[i]?, ∀ k ∈ proc.pc.atOwn, ∀ buf ∈ c.shared.buffers[k]?, buf.lock = false

instance (c : Concurrent Buffer (BufferProc M E))
    (l : ConcurrentLabel (BufferCall M) BufferInput) : Decidable (OwnFree c l) :=
  match l with
  | .call _ => .isTrue trivial
  | .move i _ => inferInstanceAs (Decidable (∀ proc ∈ c.procs[i]?, _))

/-- The `Flush` of an `Export` is past the buffer that its `Handle` has appended to, or it has
returned nil. -/
def BufferProc.passed (proc : BufferProc M E) : Bool :=
  match proc.pc with
  | .flushAcquire j (some k) _ | .flushDrain j (some k) _ => k < j
  | .flushRelease j (some k) _ => k ≤ j
  | .returned (some _) none =>
    match proc.call with
    | .export _ => true
    | _ => false
  | _ => false

theorem passed_afterHandle (E : Type) (call : BufferCall M) (mine : Option ℕ) (failed : Bool) :
    BufferProc.passed (⟨call, call.afterHandle mine failed⟩ : BufferProc M E) = false := by
  unfold BufferCall.afterHandle
  split_ifs
  · cases mine <;> rfl
  · cases call <;> cases mine <;> rfl

theorem passed_serializeStep (cfg : BufferConfig M E) (call : BufferCall M) (metrics : List M) :
    BufferProc.passed ⟨call, serializeStep cfg call metrics⟩ = false := by
  unfold serializeStep
  split_ifs
  · exact passed_afterHandle E call none false
  · cases cfg.serialize metrics <;> rfl

/-- How a call gets past its buffer. -/
theorem passed_move {b b' : Buffer} {call : BufferCall M} {pc pc' : BufferPc E}
    {input : BufferInput} (hmove : BufferMove cfg b call pc input b' pc')
    (hfree : ∀ k ∈ pc.atOwn, ∀ buf ∈ b.buffers[k]?, buf.lock = false)
    (hpassed : BufferProc.passed ⟨call, pc'⟩ = true) :
    BufferProc.passed ⟨call, pc⟩ = true ∨
      (∃ k failed, pc = .flushDrain k (some k) failed) ∨
      ∃ j k failed, pc = .flushAcquire j (some k) failed ∧ b.buffers.length ≤ j := by
  cases hmove with
  | @serialize metrics hcall =>
    rw [passed_serializeStep] at hpassed
    cases hpassed
  | probe packets k => cases hpassed
  | busy k packets => cases hpassed
  | acquire packets hbuf => cases hpassed
  | append packets hbuf hpc => rcases hpc with rfl | rfl <;> cases hpassed
  | drain => cases hpassed
  | release failed hbuf =>
    rw [passed_afterHandle] at hpassed
    cases hpassed
  | flushed mine failed hlength =>
    cases mine with
    | none => cases hpassed
    | some k => exact .inr (.inr ⟨_, k, failed, rfl, hlength⟩)
  | @skip j buf mine _ hbuf hheld =>
    cases mine with
    | none => cases hpassed
    | some k =>
      rcases Nat.eq_or_lt_of_le (Nat.le_of_lt_succ (of_decide_eq_true hpassed)) with rfl | hlt
      · rw [hfree k (if_pos rfl) buf hbuf] at hheld
        cases hheld
      · exact .inl (decide_eq_true hlt)
  | flushAcquire mine failed hbuf =>
    cases mine with
    | none => cases hpassed
    | some k => exact .inl hpassed
  | @flushDrain j _ _ _ _ mine failed _ =>
    cases mine with
    | none => cases hpassed
    | some k =>
      rcases Nat.eq_or_lt_of_le (of_decide_eq_true hpassed) with rfl | hlt
      · exact .inr (.inl ⟨k, failed, rfl⟩)
      · exact .inl (decide_eq_true hlt)
  | @flushRelease j _ mine _ _ =>
    cases mine with
    | none => cases hpassed
    | some k => exact .inl (decide_eq_true (Nat.le_of_lt_succ (of_decide_eq_true hpassed)))

/-- **The invariant.**  An `Export` whose `Flush` is past its buffer has had its packets
written. -/
def Kept (cfg : BufferConfig M E) (c : Concurrent Buffer (BufferProc M E)) (piles : Piles Lot) :
    Prop :=
  ∀ (i : ℕ) (proc : BufferProc M E) (packets : List Bytes), c.procs[i]? = some proc →
    proc.passed = true → proc.call.packets cfg = some packets → (i, packets) ∈ piles.written

theorem written_nextPiles {piles : Piles Lot} {lot : Lot} (h : lot ∈ piles.written) (i : ℕ)
    (pc : BufferPc E) : lot ∈ (nextPiles piles i pc).written := by
  cases pc <;> first | exact h | exact Piles.mem_written_take h

namespace Kept

variable {c : Concurrent Buffer (BufferProc M E)} {piles : Piles Lot} {i : ℕ}
  {proc : BufferProc M E} {pc' : BufferPc E} {b' : Buffer} {input : BufferInput}

theorem start (h : Kept cfg c piles) (a : BufferCall M) :
    Kept cfg ⟨c.shared, c.procs ++ [(bufferCall cfg).start a]⟩ piles := by
  intro i proc packets hi hpassed hpackets
  rcases getElem?_concat_eq_some.mp hi with hi | ⟨-, rfl⟩
  · exact h i proc packets hi hpassed hpackets
  · cases a <;> cases hpassed

/-- **A step keeps the invariant**, if the buffer of the call is free when its `Flush` comes to
it. -/
theorem move (h : Kept cfg c piles) (hacc : Account cfg c piles) (hi : c.procs[i]? = some proc)
    (hmove : BufferMove cfg c.shared proc.call proc.pc input b' pc')
    (hfree : OwnFree c (.move i input : ConcurrentLabel (BufferCall M) BufferInput)) :
    Kept cfg ⟨b', c.procs.set i ⟨proc.call, pc'⟩⟩ (nextPiles piles i proc.pc) := by
  intro j proc' packets hj hpassed hpackets
  rcases (getElem?_set_eq_some hi).mp hj with ⟨rfl, rfl⟩ | ⟨-, hj⟩
  · have hplaced : ∀ k, proc.pc.mine = some k →
        (j, packets) ∈ piles.written ∨ (j, packets) ∈ piles.pile k := by
      intro k hmine
      obtain ⟨packets', hp, hplaced⟩ := hacc.lots.placed j proc k hi hmine
      obtain rfl := Option.some.inj (hpackets.symm.trans hp)
      exact hplaced
    rcases passed_move hmove (hfree proc hi) hpassed with
      hbefore | ⟨k, failed, hpc⟩ | ⟨n, k, failed, hpc, hlength⟩
    · exact written_nextPiles (h j proc packets hi hbefore hpackets) j proc.pc
    · -- `Flush` writes the buffer.
      rw [hpc]
      rcases hplaced k (by rw [hpc]; rfl) with hwritten | hpile
      · exact Piles.mem_written_take hwritten
      · exact mem_append_right _ hpile
    · -- `Flush` has been at every buffer, so also at this one.
      rcases hplaced k (by rw [hpc]; rfl) with hwritten | hpile
      · exact written_nextPiles hwritten j proc.pc
      · have hk : k < c.shared.buffers.length :=
          hacc.lots.length ▸ Piles.lt_length_of_pile (ne_nil_of_mem hpile)
        have hbefore : proc.passed = true := by
          rw [BufferProc.passed, hpc]
          exact decide_eq_true (hk.trans_le hlength)
        exact written_nextPiles (h j proc packets hi hbefore hpackets) j proc.pc
  · exact written_nextPiles (h j proc' packets hj hpassed hpackets) i proc.pc

end Kept

/-- **Exports are complete.**  In every run of `Handle`, `Export` and `Flush` calls whose writes do
not fail, and in which no other call has the buffer that an `Export` has appended to when its
`Flush` comes to it, `Dst` has got the bytes of a list of lots, each the packets of a call, and no
call twice; and the packets of every `Export` that has returned nil are among them. -/
theorem export_written {c : Concurrent Buffer (BufferProc M E)}
    (h : (buffered cfg).Reachable (fun c l => WritesSucceed l ∧ OwnFree c l) c) :
    ∃ lots : List Lot, c.shared.dst = lots.flatMap lotBytes ∧ (lots.map Prod.fst).Nodup ∧
      (∀ lot ∈ lots, ∃ proc, c.procs[lot.1]? = some proc ∧ proc.call.packets cfg = some lot.2) ∧
      ∀ (i : ℕ) (metrics : List M) (mine : Option ℕ) (packets : List Bytes),
        c.procs[i]? = some ⟨.export metrics, .returned mine none⟩ →
        (BufferCall.export metrics).packets cfg = some packets → (i, packets) ∈ lots := by
  have hI : ∃ piles, Account cfg c piles ∧ Kept cfg c piles := by
    refine h.invariant (I := fun c => ∃ piles, Account cfg c piles ∧ Kept cfg c piles)
      ⟨_, .init cfg, fun i proc packets hi => by cases hi⟩ ?_
    rintro c l c' - ⟨piles, hacc, hkept⟩ ⟨hwrites, hfree⟩ hs
    cases ConcurrentMove.of_step hs with
    | call a => exact ⟨piles, hacc.start a, hkept.start a⟩
    | @move i input _ _ b' hi hstep =>
      obtain ⟨⟨b', pc'⟩, hcall, heq⟩ := Option.map_eq_some_iff.mp hstep
      cases heq
      have hmove := BufferMove.of_callStep hcall
      exact ⟨_, hacc.move hi hmove hwrites.input, hkept.move hacc hi hmove hfree⟩
  obtain ⟨piles, hacc, hkept⟩ := hI
  obtain ⟨hdst, honce, hsound⟩ := hacc.written
  refine ⟨piles.written, hdst, honce, hsound, fun i metrics mine packets hi hpackets => ?_⟩
  obtain ⟨k, rfl, -⟩ := hacc.placed_of_returned hi rfl hpackets
  exact hkept i _ packets hi rfl hpackets

/-- The call 0 is through when the call 1, with the same packet, gets the buffer. -/
def inTurn : List (ConcurrentLabel (BufferCall Bytes) BufferInput) :=
  [.call (.export [[97, 98]]), .call (.handle [[97, 98]])] ++ steps 0 6 ++ [.move 0 .wrote] ++
    steps 0 2 ++ steps 1 5

theorem export_written_inTurn :
    ∃ c, (buffered oneBuffer).Reachable (fun c l => WritesSucceed l ∧ OwnFree c l) c ∧
      c.procs[0]? = some ⟨.export [[97, 98]], .returned (some 0) none⟩ ∧
      c.shared.dst = [97, 98, 10] ∧
      ∃ lots : List Lot, c.shared.dst = lots.flatMap lotBytes ∧ (0, [[97, 98]]) ∈ lots := by
  have hreach : (buffered oneBuffer).Reachable (fun c l => WritesSucceed l ∧ OwnFree c l) _ :=
    .of_labels_within _ inTurn rfl
  obtain ⟨lots, hdst, -, -, hall⟩ := export_written hreach
  exact ⟨_, hreach, rfl, rfl, lots, hdst, hall 0 [[97, 98]] (some 0) _ rfl rfl⟩

/-- **An export returns before its packets are written.** -/
theorem export_unwritten :
    ∃ c, (buffered oneBuffer).Reachable (fun _ l => WritesSucceed l) c ∧
      c.procs[0]? = some ⟨.export [[97, 98]], .returned (some 0) none⟩ ∧
      (BufferCall.export [[97, 98]]).packets oneBuffer = some [[97, 98]] ∧ c.shared.dst = [] := by
  have hreach : (buffered oneBuffer).Reachable (fun _ l => WritesSucceed l) _ :=
    .of_labels_within _ skipped rfl
  exact ⟨_, hreach, rfl, rfl, rfl⟩

end ConvoyStats.Exporters
