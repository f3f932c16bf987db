import ConvoyStats.Library.IndexedList
import ConvoyStats.Library.Piles
import ConvoyStats.Exporters.Buffer

/-!
# Where the packets are

The packets of a call are a lot.  `Handle` puts it on a buffer as a whole, and `drain` writes the
lots of a buffer.  So a buffer is a pile of lots, and the bytes in it and those in `Dst` are those
of lots (`Lots`).  The piles are no part of the source: a run determines them (`nextPiles`), and the
invariants here and in the modules after this one are about a state and its piles.

`Exclusive` is what the spin locks are for: at most one call is at a buffer.
-/

namespace ConvoyStats.Exporters

open List Process

variable {M E : Type} {cfg : BufferConfig M E}

/-! ### Lots -/

/-- A call and its packets. -/
abbrev Lot := ℕ × List Bytes

/-- What is written of a lot. -/
def lotBytes (lot : Lot) : Bytes := lot.2.flatMap line

/-- The packets of a call, where it has some. -/
def BufferCall.packets (cfg : BufferConfig M E) : BufferCall M → Option (List Bytes)
  | .handle metrics | .export metrics =>
    if metrics.isEmpty then none else (cfg.serialize metrics).toOption
  | .flush => none

namespace BufferPc

/-- The packets that a call has yet to append. -/
def carries : BufferPc E → Option (List Bytes)
  | .probe packets | .acquire _ packets | .append _ packets => some packets
  | _ => none

/-- The buffer that a call has appended to. -/
def mine : BufferPc E → Option ℕ
  | .drain k | .release k _ => some k
  | .flushAcquire _ mine _ | .flushDrain _ mine _ | .flushRelease _ mine _ => mine
  | .returned mine _ => mine
  | _ => none

/-- The buffer whose lock a call has. -/
def holds : BufferPc E → Option ℕ
  | .append k _ | .drain k | .release k _ | .flushDrain k _ _ | .flushRelease k _ _ => some k
  | _ => none

end BufferPc

/-- The piles after a step of the call `i`. -/
def nextPiles (piles : Piles Lot) (i : ℕ) : BufferPc E → Piles Lot
  | .append k packets => piles.put k (i, packets)
  | .drain k | .flushDrain k _ _ => piles.take k
  | _ => piles

/-! ### The invariant of the lots -/

/-- **The invariant.** -/
structure Lots (cfg : BufferConfig M E) (c : Concurrent Buffer (BufferProc M E))
    (piles : Piles Lot) : Prop where
  length : piles.piles.length = c.shared.buffers.length
  dst : c.shared.dst = piles.written.flatMap lotBytes
  data : ∀ k buf, c.shared.buffers[k]? = some buf → buf.data = (piles.pile k).flatMap lotBytes
  once : (piles.all.map Prod.fst).Nodup
  sound : ∀ lot ∈ piles.all, ∃ proc, c.procs[lot.1]? = some proc ∧ proc.pc.mine.isSome = true ∧
    proc.call.packets cfg = some lot.2
  carried : ∀ proc ∈ c.procs, ∀ packets ∈ proc.pc.carries, proc.call.packets cfg = some packets
  placed : ∀ i proc k, c.procs[i]? = some proc → proc.pc.mine = some k →
    ∃ packets, proc.call.packets cfg = some packets ∧
      ((i, packets) ∈ piles.written ∨ (i, packets) ∈ piles.pile k)

namespace Lots

variable {c : Concurrent Buffer (BufferProc M E)} {piles : Piles Lot} {i k : ℕ}
  {proc : BufferProc M E} {pc' : BufferPc E} {b' : Buffer}

theorem init (cfg : BufferConfig M E) : Lots cfg ⟨cfg.prepare, []⟩ (.empty cfg.poolSize) where
  length := by simp [Piles.empty, BufferConfig.prepare]
  dst := rfl
  data k buf hbuf := by
    obtain ⟨-, rfl⟩ := mem_replicate.mp (mem_of_getElem? hbuf)
    simp
  once := by simp
  sound lot hlot := by simp at hlot
  carried proc hproc := by cases hproc
  placed i proc k hi := by cases hi

section

variable (h : Lots cfg c piles)
include h

/-- A call is started. -/
theorem start (a : BufferCall M) :
    Lots cfg ⟨c.shared, c.procs ++ [(bufferCall cfg).start a]⟩ piles := by
  have hstart : ((bufferCall cfg).start a).pc.carries = none ∧
      ((bufferCall cfg).start a).pc.mine = none := by
    cases a <;> exact ⟨rfl, rfl⟩
  refine ⟨h.length, h.dst, h.data, h.once, fun lot hlot => ?_, fun proc hproc packets hp => ?_,
    fun i proc k hi hmine => ?_⟩
  · obtain ⟨proc, hproc, hrest⟩ := h.sound lot hlot
    exact ⟨proc, getElem?_append_left (List.getElem?_eq_some_iff.mp hproc).1 ▸ hproc, hrest⟩
  · rcases mem_append.mp hproc with hproc | hproc
    · exact h.carried proc hproc packets hp
    · rw [mem_singleton.mp hproc, hstart.1] at hp
      cases hp
  · rcases getElem?_concat_eq_some.mp hi with hi | ⟨-, rfl⟩
    · exact h.placed i proc k hi hmine
    · rw [hstart.2] at hmine
      cases hmine

variable (hi : c.procs[i]? = some proc)
include hi

/-- The call of a lot, after a step of a call that keeps its buffer. -/
theorem sound_set
    (hmine : pc'.mine = proc.pc.mine) {lot : Lot} (hlot : lot ∈ piles.all) :
    ∃ proc', (c.procs.set i ⟨proc.call, pc'⟩)[lot.1]? = some proc' ∧
      proc'.pc.mine.isSome = true ∧ proc'.call.packets cfg = some lot.2 := by
  obtain ⟨proc', hproc', hsome, hpackets⟩ := h.sound lot hlot
  by_cases hlast : lot.1 = i
  · obtain rfl : proc' = proc := Option.some.inj (hproc'.symm.trans (hlast ▸ hi))
    exact ⟨_, (getElem?_set_eq_some hi).mpr (.inl ⟨hlast, rfl⟩), hmine ▸ hsome, hpackets⟩
  · exact ⟨proc', (getElem?_set_eq_some hi).mpr (.inr ⟨hlast, hproc'⟩), hsome, hpackets⟩

/-- The lot of a call, after a step of a call that keeps its buffer. -/
theorem placed_set
    (hmine : pc'.mine = proc.pc.mine) {j : ℕ} {proc' : BufferProc M E}
    (hj : (c.procs.set i ⟨proc.call, pc'⟩)[j]? = some proc') (hk : proc'.pc.mine = some k) :
    ∃ packets, proc'.call.packets cfg = some packets ∧
      ((j, packets) ∈ piles.written ∨ (j, packets) ∈ piles.pile k) := by
  rcases (getElem?_set_eq_some hi).mp hj with ⟨rfl, rfl⟩ | ⟨-, hj⟩
  · exact h.placed j proc k hi (hmine ▸ hk)
  · exact h.placed j proc' k hj hk

/-- A step that moves no lot. -/
theorem of_same
    (hbuffers : b'.buffers.map PooledBuffer.data = c.shared.buffers.map PooledBuffer.data)
    (hdst : b'.dst = c.shared.dst) (hmine : pc'.mine = proc.pc.mine)
    (hcarries : ∀ packets ∈ pc'.carries, proc.call.packets cfg = some packets) :
    Lots cfg ⟨b', c.procs.set i ⟨proc.call, pc'⟩⟩ piles where
  length := by
    have hlength := congrArg List.length hbuffers
    rw [length_map, length_map] at hlength
    exact h.length.trans hlength.symm
  dst := hdst.trans h.dst
  data k buf hbuf := by
    have hdata := congrArg (fun l => l[k]?) hbuffers
    simp only [getElem?_map, hbuf, Option.map_some] at hdata
    obtain ⟨buf', hbuf', heq⟩ := Option.map_eq_some_iff.mp hdata.symm
    exact heq ▸ h.data k buf' hbuf'
  once := h.once
  sound _ := h.sound_set hi hmine
  carried := forall_mem_set h.carried hcarries
  placed _ _ _ := h.placed_set hi hmine

end

variable {buf : PooledBuffer}

/-- `Handle` appends. -/
theorem append (h : Lots cfg c piles) {packets : List Bytes} (hi : c.procs[i]? = some proc)
    (hcarries : proc.pc.carries = some packets) (hnone : proc.pc.mine = none)
    (hbuf : c.shared.buffers[k]? = some buf) (hpc : pc' = .drain k ∨ pc' = .release k false) :
    Lots cfg
      ⟨{ c.shared with
          buffers := c.shared.buffers.set k { buf with data := buf.data ++ packets.flatMap line } },
        c.procs.set i ⟨proc.call, pc'⟩⟩
      (piles.put k (i, packets)) := by
  have hk : k < piles.piles.length := h.length ▸ (List.getElem?_eq_some_iff.mp hbuf).1
  have hmine : pc'.mine = some k ∧ pc'.carries = none := by
    rcases hpc with rfl | rfl <;> exact ⟨rfl, rfl⟩
  have hpackets : proc.call.packets cfg = some packets :=
    h.carried proc (mem_of_getElem? hi) packets hcarries
  refine ⟨by simpa using h.length, h.dst, fun j buf' hj => ?_, ?_, fun lot hlot => ?_,
    forall_mem_set h.carried fun packets' hp => ?_, fun j proc' k' hj hmine' => ?_⟩
  · rcases (getElem?_set_eq_some hbuf).mp hj with ⟨rfl, rfl⟩ | ⟨hne, hj⟩
    · rw [Piles.pile_put_self hk, flatMap_append, ← h.data j buf hbuf]
      simp [lotBytes]
    · rw [Piles.pile_put_of_ne hne]
      exact h.data j buf' hj
  · -- A call that has appended already is not at this step.
    rw [((Piles.all_put hk).map Prod.fst).nodup_iff, map_cons, nodup_cons]
    refine ⟨fun hmem => ?_, h.once⟩
    obtain ⟨lot, hlot, hfst⟩ := mem_map.mp hmem
    obtain ⟨proc', hproc', hsome, -⟩ := h.sound lot hlot
    obtain rfl : proc' = proc := Option.some.inj (hproc'.symm.trans (hfst ▸ hi))
    rw [hnone] at hsome
    cases hsome
  · rcases (Piles.mem_all_put hk).mp hlot with rfl | hlot
    · exact ⟨_, (getElem?_set_eq_some hi).mpr (.inl ⟨rfl, rfl⟩), by rw [hmine.1]; rfl, hpackets⟩
    · obtain ⟨proc', hproc', hsome, hrest⟩ := h.sound lot hlot
      refine ⟨proc', (getElem?_set_eq_some hi).mpr (.inr ⟨fun hlast => ?_, hproc'⟩), hsome, hrest⟩
      obtain rfl : proc' = proc := Option.some.inj (hproc'.symm.trans (hlast ▸ hi))
      rw [hnone] at hsome
      cases hsome
  · rw [hmine.2] at hp
    cases hp
  · rcases (getElem?_set_eq_some hi).mp hj with ⟨rfl, rfl⟩ | ⟨-, hj⟩
    · obtain rfl : k = k' := Option.some.inj (hmine.1.symm.trans hmine')
      refine ⟨packets, hpackets, .inr ?_⟩
      rw [Piles.pile_put_self hk]
      exact mem_append_right _ (mem_singleton_self _)
    · obtain ⟨packets', hp, hplaced⟩ := h.placed j proc' k' hj hmine'
      exact ⟨packets', hp, Piles.placed_put hplaced⟩

/-- `drain` writes the lots of a buffer. -/
theorem drain (h : Lots cfg c piles) (hi : c.procs[i]? = some proc)
    (hbuf : c.shared.buffers[k]? = some buf) (hmine : pc'.mine = proc.pc.mine)
    (hcarries : pc'.carries = none) :
    Lots cfg
      ⟨{ c.shared with
          buffers := c.shared.buffers.set k { buf with data := [] }
          dst := c.shared.dst ++ buf.data },
        c.procs.set i ⟨proc.call, pc'⟩⟩
      (piles.take k) := by
  refine ⟨by simpa using h.length, ?_, fun j buf' hj => ?_, ?_,
    fun lot hlot => h.sound_set hi hmine (Piles.mem_all_take.mp hlot),
    forall_mem_set h.carried fun packets hp => ?_, fun j proc' k' hj hmine' => ?_⟩
  · rw [Piles.written_take, flatMap_append, ← h.dst, h.data k buf hbuf]
  · rcases (getElem?_set_eq_some hbuf).mp hj with ⟨rfl, rfl⟩ | ⟨hne, hj⟩
    · rw [Piles.pile_take_self]
      rfl
    · rw [Piles.pile_take_of_ne hne]
      exact h.data j buf' hj
  · rw [(Piles.all_take.map Prod.fst).nodup_iff]
    exact h.once
  · rw [hcarries] at hp
    cases hp
  · obtain ⟨packets, hp, hplaced⟩ := h.placed_set hi hmine hj hmine'
    exact ⟨packets, hp, Piles.placed_take hplaced⟩

/-- The packets of a call, where `Handle` has got them. -/
theorem packets_of_serializeStep (cfg : BufferConfig M E) {call : BufferCall M} {metrics : List M}
    (hcall : call = .handle metrics ∨ call = .export metrics) :
    (serializeStep cfg call metrics).mine = none ∧
      ∀ packets ∈ (serializeStep cfg call metrics).carries, call.packets cfg = some packets := by
  have hpackets : call.packets cfg =
      if metrics.isEmpty then none else (cfg.serialize metrics).toOption := by
    rcases hcall with rfl | rfl <;> rfl
  rw [hpackets, serializeStep]
  split_ifs with hempty
  · rcases hcall with rfl | rfl <;> exact ⟨rfl, nofun⟩
  · cases hserialize : cfg.serialize metrics with
    | error err => exact ⟨rfl, nofun⟩
    | ok packets =>
      refine ⟨rfl, fun packets' hp => ?_⟩
      exact hp

theorem data_setLock {b : Buffer} (hbuf : b.buffers[k]? = some buf) (lock : Bool) :
    (b.setLock k buf lock).buffers.map PooledBuffer.data = b.buffers.map PooledBuffer.data := by
  rw [Buffer.setLock, map_set]
  exact set_getElem?_self (by rw [getElem?_map, hbuf]; rfl)

theorem mine_afterHandle (E : Type) (call : BufferCall M) (mine : Option ℕ) (failed : Bool) :
    (call.afterHandle mine failed : BufferPc E).mine = mine ∧
      (call.afterHandle mine failed : BufferPc E).carries = none := by
  unfold BufferCall.afterHandle
  split_ifs
  · exact ⟨rfl, rfl⟩
  · cases call <;> exact ⟨rfl, rfl⟩

/-- **A step keeps the invariant**, as long as writes do not fail. -/
theorem move (h : Lots cfg c piles) {input : BufferInput} (hi : c.procs[i]? = some proc)
    (hmove : BufferMove cfg c.shared proc.call proc.pc input b' pc')
    (hinput : ∀ n, input ≠ .writeFailed n) :
    Lots cfg ⟨b', c.procs.set i ⟨proc.call, pc'⟩⟩ (nextPiles piles i proc.pc) := by
  obtain ⟨call, pc⟩ := proc
  have hcarried : ∀ packets ∈ pc.carries, call.packets cfg = some packets :=
    h.carried _ (mem_of_getElem? hi)
  dsimp only at hmove
  cases hmove with
  | serialize hcall =>
    obtain ⟨hmine, hcarries⟩ := packets_of_serializeStep cfg hcall
    exact h.of_same hi rfl rfl hmine hcarries
  | probe packets k | busy k packets => exact h.of_same hi rfl rfl rfl hcarried
  | acquire packets hbuf => exact h.of_same hi (data_setLock hbuf true) rfl rfl hcarried
  | append packets hbuf hpc => exact h.append hi rfl rfl hbuf hpc
  | drain hbuf hdrain | flushDrain mine failed hbuf hdrain =>
    obtain ⟨-, rfl⟩ := drain_cases hbuf hdrain hinput
    exact h.drain hi hbuf rfl rfl
  | @release k _ failed hbuf =>
    obtain ⟨hmine, hcarries⟩ := mine_afterHandle E call (some k) failed
    refine h.of_same hi (data_setLock hbuf false) rfl hmine fun packets hp => ?_
    rw [hcarries] at hp
    cases hp
  | flushed mine failed | skip mine failed => exact h.of_same hi rfl rfl rfl nofun
  | flushAcquire mine failed hbuf => exact h.of_same hi (data_setLock hbuf true) rfl rfl nofun
  | flushRelease mine failed hbuf => exact h.of_same hi (data_setLock hbuf false) rfl rfl nofun

end Lots

/-! ### The locks -/

/-- What a step does to the locks. -/
inductive LockMove (b : Buffer) (pc : BufferPc E) : Buffer → BufferPc E → Prop
  | same {b' : Buffer} {pc' : BufferPc E} (hholds : pc'.holds = pc.holds)
      (hlocks : b'.buffers.map PooledBuffer.lock = b.buffers.map PooledBuffer.lock) :
      LockMove b pc b' pc'
  | take {k : ℕ} {buf : PooledBuffer} {pc' : BufferPc E} (hbuf : b.buffers[k]? = some buf)
      (hfree : buf.lock = false) (hpc : pc.holds = none) (hpc' : pc'.holds = some k) :
      LockMove b pc (b.setLock k buf true) pc'
  | give {k : ℕ} {buf : PooledBuffer} {pc' : BufferPc E} (hbuf : b.buffers[k]? = some buf)
      (hpc : pc.holds = some k) (hpc' : pc'.holds = none) :
      LockMove b pc (b.setLock k buf false) pc'

variable {b : Buffer} {buf : PooledBuffer}

theorem lock_set_data {k : ℕ} (hbuf : b.buffers[k]? = some buf) (data : Bytes) :
    (b.buffers.set k { buf with data := data }).map PooledBuffer.lock =
      b.buffers.map PooledBuffer.lock := by
  rw [map_set]
  exact set_getElem?_self (by rw [getElem?_map, hbuf]; rfl)

theorem lock_drain {b' : Buffer} {k : ℕ} {input : BufferInput} {failed : Bool}
    (hbuf : b.buffers[k]? = some buf) (h : b.drain k buf input = some (b', failed)) :
    b'.buffers.map PooledBuffer.lock = b.buffers.map PooledBuffer.lock := by
  unfold Buffer.drain at h
  dsimp only at h
  split_ifs at h
  · cases input <;> cases h
    rfl
  · cases input <;> cases h <;> exact lock_set_data hbuf []

theorem holds_afterHandle (E : Type) (call : BufferCall M) (mine : Option ℕ) (failed : Bool) :
    (call.afterHandle mine failed : BufferPc E).holds = none := by
  unfold BufferCall.afterHandle
  split_ifs
  · rfl
  · cases call <;> rfl

theorem holds_serializeStep (cfg : BufferConfig M E) (call : BufferCall M) (metrics : List M) :
    (serializeStep cfg call metrics).holds = none := by
  unfold serializeStep
  split_ifs
  · exact holds_afterHandle E call none false
  · cases cfg.serialize metrics <;> rfl

theorem LockMove.of_move {b' : Buffer} {call : BufferCall M} {pc pc' : BufferPc E}
    {input : BufferInput} (hmove : BufferMove cfg b call pc input b' pc') :
    LockMove b pc b' pc' := by
  cases hmove with
  | serialize hcall => exact .same (holds_serializeStep cfg call _) rfl
  | probe packets k => exact .same rfl rfl
  | busy k packets => exact .same rfl rfl
  | acquire packets hbuf hfree | flushAcquire mine failed hbuf hfree =>
    exact .take hbuf hfree rfl rfl
  | append packets hbuf hpc =>
    refine .same ?_ (lock_set_data hbuf _)
    rcases hpc with rfl | rfl <;> rfl
  | drain hbuf hdrain | flushDrain mine failed hbuf hdrain =>
    exact .same rfl (lock_drain hbuf hdrain)
  | release failed hbuf => exact .give hbuf rfl (holds_afterHandle E call _ failed)
  | flushed mine failed => exact .same rfl rfl
  | skip mine failed => exact .same rfl rfl
  | flushRelease mine failed hbuf => exact .give hbuf rfl rfl

/-- The call has the lock of the buffer `k`. -/
def BufferProc.isAt (k : ℕ) (proc : BufferProc M E) : Bool := proc.pc.holds = some k

/-- **The invariant of the locks.**  A lock that is set is that of one call. -/
def Exclusive (c : Concurrent Buffer (BufferProc M E)) : Prop :=
  ∀ k buf, c.shared.buffers[k]? = some buf →
    c.procs.countP (BufferProc.isAt k) = if buf.lock then 1 else 0

namespace Exclusive

variable {c : Concurrent Buffer (BufferProc M E)} {i k : ℕ} {proc : BufferProc M E}
  {pc' : BufferPc E} {b' : Buffer}

theorem init (cfg : BufferConfig M E) :
    Exclusive (⟨cfg.prepare, []⟩ : Concurrent Buffer (BufferProc M E)) := by
  intro k buf hbuf
  obtain ⟨-, rfl⟩ := mem_replicate.mp (mem_of_getElem? hbuf)
  rfl

variable (h : Exclusive c)
include h

theorem start (cfg : BufferConfig M E) (a : BufferCall M) :
    Exclusive ⟨c.shared, c.procs ++ [(bufferCall cfg).start a]⟩ := by
  intro k buf hbuf
  have hstart : ((bufferCall cfg).start a).isAt k = false := by cases a <;> rfl
  rw [countP_append, h k buf hbuf, countP_singleton, hstart]
  rfl

theorem move (hi : c.procs[i]? = some proc)
    (hmove : LockMove c.shared proc.pc b' pc') :
    Exclusive ⟨b', c.procs.set i ⟨proc.call, pc'⟩⟩ := by
  intro k buf hbuf
  have hcount := countP_set_add (BufferProc.isAt k) ⟨proc.call, pc'⟩ hi
  cases hmove with
  | same hholds hlocks =>
    have hat : BufferProc.isAt k ⟨proc.call, pc'⟩ = proc.isAt k := by
      simp only [BufferProc.isAt, hholds]
    rw [hat, Nat.add_right_cancel_iff] at hcount
    have hlock := congrArg (fun l => l[k]?) hlocks
    simp only [getElem?_map, hbuf, Option.map_some] at hlock
    obtain ⟨buf', hbuf', heq⟩ := Option.map_eq_some_iff.mp hlock.symm
    rw [hcount, ← heq, h k buf' hbuf']
  | @take j old _ hold hfree hpc hpc' =>
    have hat : proc.isAt k = false := by simp [BufferProc.isAt, hpc]
    rcases (getElem?_set_eq_some hold).mp hbuf with ⟨rfl, rfl⟩ | ⟨hne, hbuf⟩
    · have hat' : BufferProc.isAt k ⟨proc.call, pc'⟩ = true := by simp [BufferProc.isAt, hpc']
      simpa [hat, hat', h k old hold, hfree] using hcount
    · have hat' : BufferProc.isAt k ⟨proc.call, pc'⟩ = false := by
        simp [BufferProc.isAt, hpc', hne.symm]
      simpa [hat, hat', h k buf hbuf] using hcount
  | @give j old _ hold hpc hpc' =>
    have hat' : BufferProc.isAt k ⟨proc.call, pc'⟩ = false := by simp [BufferProc.isAt, hpc']
    rcases (getElem?_set_eq_some hold).mp hbuf with ⟨rfl, rfl⟩ | ⟨hne, hbuf⟩
    · -- The call that gives the lock back was the one that had it.
      have hat : proc.isAt k = true := by simp [BufferProc.isAt, hpc]
      have hone := h k old hold
      simp only [hat, hat', hone, if_true] at hcount
      simp only [Bool.false_eq_true, if_false] at hcount ⊢
      split at hcount <;> omega
    · have hat : proc.isAt k = false := by simp [BufferProc.isAt, hpc, hne.symm]
      simpa [hat, hat', h k buf hbuf] using hcount

/-- A lock that is set is that of a call. -/
theorem exists_holder (hbuf : c.shared.buffers[k]? = some buf)
    (hlock : buf.lock = true) : ∃ proc ∈ c.procs, proc.pc.holds = some k := by
  have hone := h k buf hbuf
  rw [if_pos hlock] at hone
  obtain ⟨proc, hproc, hat⟩ := countP_pos_iff.mp (hone ▸ Nat.one_pos)
  exact ⟨proc, hproc, of_decide_eq_true hat⟩

/-- Two calls do not have the same lock. -/
theorem unique (hbuf : c.shared.buffers[k]? = some buf) {j : ℕ}
    {proc' : BufferProc M E} (hi : c.procs[i]? = some proc) (hj : c.procs[j]? = some proc')
    (hproc : proc.pc.holds = some k) (hproc' : proc'.pc.holds = some k) : i = j := by
  refine eq_of_countP_le_one (q := BufferProc.isAt k) ?_ hi hj (decide_eq_true hproc)
    (decide_eq_true hproc')
  rw [h k buf hbuf]
  split <;> omega

end Exclusive

/-! ### The account -/

/-- A call with packets has yet to get them, has yet to append them, or has appended them. -/
def BufferProc.Underway (cfg : BufferConfig M E) (proc : BufferProc M E) : Prop :=
  ∀ packets, proc.call.packets cfg = some packets →
    proc.pc = .serialize ∨ proc.pc.carries.isSome = true ∨ proc.pc.mine.isSome = true

theorem carries_serializeStep {call : BufferCall M} {metrics : List M} {packets : List Bytes}
    (hcall : call = .handle metrics ∨ call = .export metrics)
    (hpackets : call.packets cfg = some packets) :
    (serializeStep cfg call metrics).carries = some packets := by
  have heq : (if metrics.isEmpty then none else (cfg.serialize metrics).toOption) =
      some packets := by
    rcases hcall with rfl | rfl <;> exact hpackets
  split_ifs at heq with hempty
  rw [serializeStep, if_neg hempty]
  cases hserialize : cfg.serialize metrics with
  | error err =>
    rw [hserialize] at heq
    cases heq
  | ok packets' =>
    rw [hserialize] at heq
    exact heq

theorem BufferProc.Underway.move {b b' : Buffer} {call : BufferCall M} {pc pc' : BufferPc E}
    {input : BufferInput} (h : BufferProc.Underway cfg ⟨call, pc⟩)
    (hmove : BufferMove cfg b call pc input b' pc') : BufferProc.Underway cfg ⟨call, pc'⟩ := by
  intro packets hpackets
  have hbefore := h packets hpackets
  cases hmove with
  | serialize hcall =>
    exact .inr (.inl (by rw [carries_serializeStep hcall hpackets]; rfl))
  | probe packets k | busy k packets | acquire packets hbuf => exact .inr (.inl rfl)
  | append packets hbuf hpc => exact .inr (.inr (by rcases hpc with rfl | rfl <;> rfl))
  | drain => exact .inr (.inr rfl)
  | release failed hbuf => exact .inr (.inr (by rw [(Lots.mine_afterHandle E call _ _).1]; rfl))
  | _ =>
    rcases hbefore with hpc | hcarries | hmine
    · cases hpc
    · cases hcarries
    · exact .inr (.inr hmine)

/-- **The account of a state**: where the packets are, and who has which buffer. -/
structure Account (cfg : BufferConfig M E) (c : Concurrent Buffer (BufferProc M E))
    (piles : Piles Lot) : Prop where
  lots : Lots cfg c piles
  exclusive : Exclusive c
  underway : ∀ proc ∈ c.procs, proc.Underway cfg

namespace Account

variable {c : Concurrent Buffer (BufferProc M E)} {piles : Piles Lot} {i : ℕ}
  {proc : BufferProc M E} {pc' : BufferPc E} {b' : Buffer} {input : BufferInput}

theorem init (cfg : BufferConfig M E) : Account cfg ⟨cfg.prepare, []⟩ (.empty cfg.poolSize) :=
  ⟨.init cfg, .init cfg, fun _ h => by cases h⟩

variable (h : Account cfg c piles)
include h

theorem start (a : BufferCall M) :
    Account cfg ⟨c.shared, c.procs ++ [(bufferCall cfg).start a]⟩ piles := by
  refine ⟨h.lots.start a, h.exclusive.start cfg a, fun proc hproc => ?_⟩
  rcases mem_append.mp hproc with hproc | hproc
  · exact h.underway proc hproc
  · rw [mem_singleton.mp hproc]
    intro packets hpackets
    cases a with
    | handle metrics => exact .inl rfl
    | «export» metrics => exact .inl rfl
    | flush => cases hpackets

theorem move (hi : c.procs[i]? = some proc)
    (hmove : BufferMove cfg c.shared proc.call proc.pc input b' pc')
    (hinput : ∀ n, input ≠ .writeFailed n) :
    Account cfg ⟨b', c.procs.set i ⟨proc.call, pc'⟩⟩ (nextPiles piles i proc.pc) where
  lots := h.lots.move hi hmove hinput
  exclusive := h.exclusive.move hi (.of_move hmove)
  underway := forall_mem_set h.underway
    ((h.underway proc (mem_of_getElem? hi)).move hmove)

/-- A call that has returned and has packets has appended them. -/
theorem placed_of_returned (hi : c.procs[i]? = some proc)
    {mine : Option ℕ} {err : Option (BufferError E)} (hpc : proc.pc = .returned mine err)
    {packets : List Bytes} (hpackets : proc.call.packets cfg = some packets) :
    ∃ k, mine = some k ∧ ((i, packets) ∈ piles.written ∨ (i, packets) ∈ piles.pile k) := by
  have hmine : proc.pc.mine = mine := by rw [hpc]; rfl
  rcases h.underway proc (mem_of_getElem? hi) packets hpackets with hserialize | hcarries | hsome
  · rw [hpc] at hserialize
    cases hserialize
  · rw [hpc] at hcarries
    cases hcarries
  · rw [hmine] at hsome
    obtain ⟨k, rfl⟩ := Option.isSome_iff_exists.mp hsome
    obtain ⟨packets', hp, hplaced⟩ := h.lots.placed i proc k hi hmine
    obtain rfl := Option.some.inj (hpackets.symm.trans hp)
    exact ⟨k, rfl, hplaced⟩

end Account

end ConvoyStats.Exporters
