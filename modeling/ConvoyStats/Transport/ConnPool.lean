import ConvoyStats.Library.Processes
import ConvoyStats.Models.Text

/-!
# The connection pool

`Get`, `Put`, `Send`, `SendBatch` and `Close` of `transport/udp.go`, by any number of goroutines,
on a pool whose dials succeeded.  A connection is a number, and nil is `none`.  What a
connection answers and when a context ends are choices of the step.

A read lock that is taken and released around one test is one step, and so are closing a
connection and the counter that goes with it.  `Put` keeps the read lock from its test of
`closed` to the end, and `Close` the write lock.

`Get` tests `closed` under the lock and receives from the channel after it has released it.  If
`Close` comes in between, the channel it receives from is closed; once that is empty the
connection is nil and the error too.
-/

namespace ConvoyStats.Transport.ConnPool

open List Process

/-- Datagrams. -/
abbrev Bytes := Models.Bytes

/-- A `Conn` that is not nil. -/
abbrev Conn := ℕ

/-- `UDPConnPool`. -/
structure UDPConnPool where
  /-- What the channel `pool` holds. -/
  pool : List Conn
  /-- The channel has been closed. -/
  poolClosed : Bool
  maxConns : ℕ
  /-- The read locks that are held of `mu`. -/
  readers : ℕ
  /-- The write lock of `mu` is held. -/
  writer : Bool
  closed : Bool
  activeConns : ℤ
  totalSent : ℕ
  totalErrors : ℕ
  /-- The connections that have been closed, in order. -/
  closedConns : List Conn

/-- `NewPool`, all of whose dials succeed. -/
def newPool (poolSize : ℤ) : UDPConnPool :=
  let size := if poolSize ≤ 0 then 4 else poolSize.toNat
  ⟨range size, false, size, 0, false, false, size, 0, 0, []⟩

namespace UDPConnPool

variable (p : UDPConnPool)

/-- `conn.Close` and `activeConns.Add(-1)`. -/
def closeConn (conn : Conn) : UDPConnPool :=
  { p with activeConns := p.activeConns - 1, closedConns := p.closedConns ++ [conn] }

/-- `totalErrors.Add(1)`. -/
def addError : UDPConnPool := { p with totalErrors := p.totalErrors + 1 }

/-- `totalSent.Add(1)`. -/
def addSent : UDPConnPool := { p with totalSent := p.totalSent + 1 }

end UDPConnPool

/-! ### Calls -/

/-- The errors of the calls. -/
inductive PoolError
  /-- "connection pool is closed" -/
  | closed
  /-- The error of the context. -/
  | context
  /-- "set deadline: …" -/
  | deadline
  /-- "UDP write: …" -/
  | write
  /-- "incomplete write: wrote … of … bytes" -/
  | incomplete (wrote length : ℕ)
  /-- "all writes failed: …" -/
  | allFailed
  deriving DecidableEq

/-- What a call returns. -/
inductive PoolResult
  /-- `Get`: a connection and a nil error. -/
  | conn (conn : Option Conn)
  /-- An error, or nil. -/
  | err (err : Option PoolError)
  /-- A method of a nil connection, or a send on the closed channel. -/
  | panicked
  deriving DecidableEq

/-- What a connection is got for. -/
inductive PoolUse
  | get
  | send (data : Bytes)
  | sendBatch (dataList : List Bytes)
  deriving DecidableEq

/-- The calls. -/
inductive PoolCall
  | acquire (use : PoolUse)
  | put (conn : Option Conn)
  | close

/-- Where a call is: what it does next. -/
inductive PoolPc
  /-- `Get` tests `closed`. -/
  | getTest (use : PoolUse)
  /-- `Get` has found it open and receives. -/
  | getReceive (use : PoolUse)
  /-- `Send` and `SendBatch` set the deadline. -/
  | deadline (conn : Option Conn) (use : PoolUse)
  | write (conn : Conn) (data : Bytes)
  /-- The loop of `SendBatch`. -/
  | writeBatch (conn : Conn) (dataList : List Bytes) (failed : Bool) (successCount : ℕ)
  /-- `Put` takes the read lock and tests `closed`; the error is that of the call it is deferred
  in. -/
  | putTest (conn : Option Conn) (err : Option PoolError)
  | putClosed (conn : Conn) (err : Option PoolError)
  | putOpen (conn : Conn) (err : Option PoolError)
  | closeLock
  | closePool
  | closeConns
  | returned (result : PoolResult)
  deriving DecidableEq

/-- What a step is given from outside. -/
inductive PoolInput
  | none
  | contextDone
  | deadlineSet
  | deadlineFailed
  | wrote (n : ℕ)
  | writeFailed
  deriving DecidableEq

/-- `Get` has a connection. -/
def PoolUse.withConn (conn : Option Conn) : PoolUse → PoolPc
  | .get => .returned (.conn conn)
  | use => .deadline conn use

/-- `Get` has failed; `Send` and `SendBatch` count it. -/
def PoolUse.failed (p : UDPConnPool) : PoolUse → UDPConnPool
  | .get => p
  | _ => p.addError

/-- The first step of a call. -/
def PoolCall.start : PoolCall → PoolPc
  | .acquire (.sendBatch []) => .returned (.err none)
  | .acquire use => .getTest use
  | .put conn => .putTest conn none
  | .close => .closeLock

/-- A step of a call. -/
def poolStep (p : UDPConnPool) : PoolPc → PoolInput → Option (UDPConnPool × PoolPc)
  | .getTest use, .none =>
    if p.writer then none
    else if p.closed then some (use.failed p, .returned (.err (some .closed)))
    else some (p, .getReceive use)
  | .getReceive use, .none =>
    match p.pool with
    | conn :: rest => some ({ p with pool := rest }, use.withConn (some conn))
    | [] => if p.poolClosed then some (p, use.withConn none) else none
  | .getReceive use, .contextDone => some (use.failed p, .returned (.err (some .context)))
  | .deadline none _, .none => some (p, .returned .panicked)
  | .deadline (some conn) use, .deadlineSet =>
    match use with
    | .send data => some (p, .write conn data)
    | .sendBatch dataList => some (p, .writeBatch conn dataList false 0)
    | .get => none
  | .deadline (some conn) _, .deadlineFailed =>
    some (p.addError, .putTest (some conn) (some .deadline))
  | .write conn data, .wrote n =>
    if n ≠ data.length then
      some (p.addError, .putTest (some conn) (some (.incomplete n data.length)))
    else some (p.addSent, .putTest (some conn) none)
  | .write conn _, .writeFailed => some (p.addError, .putTest (some conn) (some .write))
  | .writeBatch conn [] failed successCount, .none =>
    some (p, .putTest (some conn) (if successCount = 0 ∧ failed then some .allFailed else none))
  | .writeBatch conn ([] :: rest) failed successCount, .none =>
    some (p, .writeBatch conn rest failed successCount)
  | .writeBatch conn ((_ :: _) :: rest) failed successCount, .wrote _ =>
    some (p.addSent, .writeBatch conn rest failed (successCount + 1))
  | .writeBatch conn ((_ :: _) :: rest) _ successCount, .writeFailed =>
    some (p.addError, .writeBatch conn rest true successCount)
  | .putTest none err, .none => some (p, .returned (.err err))
  | .putTest (some conn) err, .none =>
    if p.writer then none
    else
      some ({ p with readers := p.readers + 1 },
        if p.closed then .putClosed conn err else .putOpen conn err)
  | .putClosed conn err, .none =>
    some ({ p.closeConn conn with readers := p.readers - 1 }, .returned (.err err))
  | .putOpen conn err, .none =>
    let unlocked := { p with readers := p.readers - 1 }
    if p.poolClosed then some (unlocked, .returned .panicked)
    else if p.pool.length < p.maxConns then
      some ({ unlocked with pool := p.pool ++ [conn] }, .returned (.err err))
    else some (unlocked.closeConn conn, .returned (.err err))
  | .closeLock, .none =>
    if p.writer ∨ p.readers ≠ 0 then none
    else if p.closed then some (p, .returned (.err none))
    else some ({ p with closed := true, writer := true }, .closePool)
  | .closePool, .none => some ({ p with poolClosed := true }, .closeConns)
  | .closeConns, .none =>
    match p.pool with
    | conn :: rest => some ({ p.closeConn conn with pool := rest }, .closeConns)
    | [] => some ({ p with writer := false }, .returned (.err none))
  | _, _ => none

/-- The calls on a pool. -/
def poolCall : Process UDPConnPool PoolCall PoolPc PoolInput where
  start := PoolCall.start
  step _ := poolStep

/-- A pool of this size and the calls on it. -/
def connPool (poolSize : ℤ) :
    TransitionSystem (Concurrent UDPConnPool PoolPc) (ConcurrentLabel PoolCall PoolInput) :=
  poolCall.concurrent (newPool poolSize)

/-! ### Nil connections -/

/-- `Get` has returned a nil connection and a nil error, to its caller or to `Send` and
`SendBatch`. -/
def PoolPc.hasNil : PoolPc → Bool
  | .returned (.conn none) | .deadline none _ => true
  | _ => false

/-- `Get` has found the pool open and has yet to receive. -/
def PoolPc.receives : PoolPc → Bool
  | .getReceive _ => true
  | _ => false

/-- What a step does to the flags, and to what the calls hold of them. -/
inductive FlagMove (p : UDPConnPool) : PoolPc → UDPConnPool → PoolPc → Prop
  | test (use : PoolUse) (hopen : p.closed = false) :
      FlagMove p (.getTest use) p (.getReceive use)
  | receiveNil (use : PoolUse) (hclosed : p.poolClosed = true) :
      FlagMove p (.getReceive use) p (use.withConn none)
  | close (hopen : p.closed = false) :
      FlagMove p .closeLock { p with closed := true, writer := true } .closePool
  | closePool : FlagMove p .closePool { p with poolClosed := true } .closeConns
  | quiet {pc pc' : PoolPc} {p' : UDPConnPool} (hclosed : p'.closed = p.closed)
      (hpool : p'.poolClosed = p.poolClosed) (hreceives : pc'.receives = false)
      (hnil : pc'.hasNil = false) (hclose : pc' ≠ .closePool) : FlagMove p pc p' pc'

@[simp] theorem failed_closed (p : UDPConnPool) (use : PoolUse) :
    (use.failed p).closed = p.closed := by cases use <;> rfl

@[simp] theorem failed_poolClosed (p : UDPConnPool) (use : PoolUse) :
    (use.failed p).poolClosed = p.poolClosed := by cases use <;> rfl

theorem FlagMove.of_poolStep {p p' : UDPConnPool} {pc pc' : PoolPc} {input : PoolInput}
    (h : poolStep p pc input = some (p', pc')) : FlagMove p pc p' pc' := by
  cases pc
  case getTest use =>
    cases input <;> try cases h
    rw [poolStep] at h
    split_ifs at h with hwriter hclosed <;> cases h
    · exact .quiet (failed_closed ..) (failed_poolClosed ..) rfl rfl nofun
    · exact .test use (Bool.eq_false_of_not_eq_true hclosed)
  case getReceive use =>
    cases input <;> try cases h
    · rw [poolStep] at h
      cases hpool : p.pool with
      | cons conn rest =>
        rw [hpool] at h
        cases h
        cases use <;> exact .quiet rfl rfl rfl rfl nofun
      | nil =>
        rw [hpool] at h
        dsimp only at h
        split_ifs at h with hclosed
        cases h
        exact .receiveNil use hclosed
    · exact .quiet (failed_closed ..) (failed_poolClosed ..) rfl rfl nofun
  case closeLock =>
    cases input <;> try cases h
    rw [poolStep] at h
    split_ifs at h with hlock hclosed <;> cases h
    · exact .quiet rfl rfl rfl rfl nofun
    · exact .close (Bool.eq_false_of_not_eq_true hclosed)
  case closePool =>
    cases input <;> cases h
    exact .closePool
  -- The other steps leave the flags alone.
  case deadline conn use =>
    cases conn <;> cases input <;> try cases h
    · exact .quiet rfl rfl rfl rfl nofun
    · cases use <;> cases h <;> exact .quiet rfl rfl rfl rfl nofun
    · exact .quiet rfl rfl rfl rfl nofun
  case write conn data =>
    cases input <;> try cases h
    · rw [poolStep] at h
      split_ifs at h <;> cases h <;> exact .quiet rfl rfl rfl rfl nofun
    · exact .quiet rfl rfl rfl rfl nofun
  case writeBatch conn dataList failed successCount =>
    rcases dataList with _ | ⟨_ | ⟨_, _⟩, rest⟩ <;> cases input <;> cases h <;>
      exact .quiet rfl rfl rfl rfl nofun
  case putTest conn err =>
    cases conn <;> cases input <;> try cases h
    · exact .quiet rfl rfl rfl rfl nofun
    · rw [poolStep] at h
      split_ifs at h <;> cases h <;> exact .quiet rfl rfl rfl rfl nofun
  case putClosed conn err =>
    cases input <;> cases h
    exact .quiet rfl rfl rfl rfl nofun
  case putOpen conn err =>
    cases input <;> try cases h
    rw [poolStep] at h
    dsimp only at h
    split_ifs at h <;> cases h <;> exact .quiet rfl rfl rfl rfl nofun
  case closeConns =>
    cases input <;> try cases h
    rw [poolStep] at h
    split at h <;> cases h <;> exact .quiet rfl rfl rfl rfl nofun
  case returned => cases h

/-! ### Runs -/

/-- No `Close` comes between the test of a `Get` and its receive. -/
def CloseApart (c : Concurrent UDPConnPool PoolPc) : ConcurrentLabel PoolCall PoolInput → Prop
  | .call _ => True
  | .move i _ =>
    c.procs[i]? = some .closeLock → c.shared.closed = false →
      ∀ pc ∈ c.procs, pc.receives = false

instance (c : Concurrent UDPConnPool PoolPc) (l : ConcurrentLabel PoolCall PoolInput) :
    Decidable (CloseApart c l) :=
  match l with
  | .call _ => .isTrue trivial
  | .move i _ => inferInstanceAs (Decidable (c.procs[i]? = some .closeLock → _))

/-- **The invariant.** -/
structure Safe (c : Concurrent UDPConnPool PoolPc) : Prop where
  poolClosed : c.shared.poolClosed = true → c.shared.closed = true
  closing : .closePool ∈ c.procs → c.shared.closed = true
  receives : c.shared.closed = true → ∀ pc ∈ c.procs, pc.receives = false
  hasNil : ∀ pc ∈ c.procs, pc.hasNil = false

theorem Safe.init (poolSize : ℤ) : Safe ⟨newPool poolSize, []⟩ where
  poolClosed h := by cases h
  closing h := by cases h
  receives _ _ h := by cases h
  hasNil _ h := by cases h

theorem Safe.call {c : Concurrent UDPConnPool PoolPc} (hI : Safe c) (a : PoolCall) :
    Safe ⟨c.shared, c.procs ++ [a.start]⟩ := by
  have hstart : a.start.receives = false ∧ a.start.hasNil = false ∧ a.start ≠ .closePool := by
    rcases a with (_ | _ | ⟨_ | _⟩) | _ | _ <;> exact ⟨rfl, rfl, nofun⟩
  refine ⟨hI.poolClosed, fun hmem => ?_, fun hclosed pc hpc => ?_, fun pc hpc => ?_⟩
  · rcases mem_append.mp hmem with hmem | hmem
    · exact hI.closing hmem
    · exact absurd (mem_singleton.mp hmem).symm hstart.2.2
  · rcases mem_append.mp hpc with hpc | hpc
    · exact hI.receives hclosed pc hpc
    · exact mem_singleton.mp hpc ▸ hstart.1
  · rcases mem_append.mp hpc with hpc | hpc
    · exact hI.hasNil pc hpc
    · exact mem_singleton.mp hpc ▸ hstart.2.1

theorem Safe.move {c : Concurrent UDPConnPool PoolPc} (hI : Safe c) {i : ℕ} {input : PoolInput}
    (hapart : CloseApart c (.move i input)) {pc pc' : PoolPc} {p' : UDPConnPool}
    (hi : c.procs[i]? = some pc) (hmove : FlagMove c.shared pc p' pc') :
    Safe ⟨p', c.procs.set i pc'⟩ := by
  have hmem : pc ∈ c.procs := mem_of_getElem? hi
  cases hmove with
  | test use hopen =>
    refine ⟨hI.poolClosed, fun h => ?_, fun h => ?_, forall_mem_set hI.hasNil rfl⟩
    · rcases mem_or_eq_of_mem_set h with h | h
      · exact hI.closing h
      · cases h
    · exact absurd hopen (by simp [show c.shared.closed = true from h])
  | receiveNil use hclosed =>
    -- The pool is closed, so no `Get` is there to receive.
    cases hI.receives (hI.poolClosed hclosed) _ hmem
  | close hopen =>
    refine ⟨fun _ => rfl, fun _ => rfl, fun _ => ?_, forall_mem_set hI.hasNil rfl⟩
    exact forall_mem_set (hapart hi hopen) rfl
  | closePool =>
    have hclosed : c.shared.closed = true := hI.closing hmem
    exact ⟨fun _ => hclosed, fun _ => hclosed,
      fun _ => forall_mem_set (hI.receives hclosed) rfl, forall_mem_set hI.hasNil rfl⟩
  | quiet hclosed hpool hreceives hnil hclose =>
    refine ⟨fun h => ?_, fun h => ?_, fun h => ?_, forall_mem_set hI.hasNil hnil⟩
    · exact hclosed.trans (hI.poolClosed (hpool.symm.trans h))
    · rcases mem_or_eq_of_mem_set h with h | h
      · exact hclosed.trans (hI.closing h)
      · exact absurd h.symm hclose
    · exact forall_mem_set (hI.receives (hclosed.symm.trans h)) hreceives

/-- **No nil connections.**  In every run in which no `Close` comes between the test of a `Get` and
its receive, no `Get` returns a nil connection and a nil error, to its caller or within `Send` and
`SendBatch`. -/
theorem get_not_nil {poolSize : ℤ} {c : Concurrent UDPConnPool PoolPc}
    (h : (connPool poolSize).Reachable CloseApart c) : ∀ pc ∈ c.procs, pc.hasNil = false := by
  refine (h.invariant (I := Safe) (.init poolSize) ?_).hasNil
  intro c l c' _ hI hapart hs
  cases ConcurrentMove.of_step hs with
  | call a => exact hI.call a
  | move hi hstep => exact hI.move hapart hi (.of_poolStep hstep)

/-- A `Get` on a pool of one, and a `Close` before it has been put back. -/
def getThenClose : List (ConcurrentLabel PoolCall PoolInput) :=
  [.call (.acquire .get), .call .close, .move 0 .none, .move 0 .none, .move 1 .none, .move 1 .none,
    .move 1 .none]

theorem get_not_nil_getThenClose :
    ∃ c, (connPool 1).Reachable CloseApart c ∧
      c.procs = [.returned (.conn (some 0)), .returned (.err none)] ∧
      ∀ pc ∈ c.procs, pc.hasNil = false := by
  have hreach : (connPool 1).Reachable CloseApart _ := .of_labels_within _ getThenClose rfl
  exact ⟨_, hreach, rfl, get_not_nil hreach⟩

/-- A `Close` while a `Get` and a `Send` have found the pool open. -/
def closeBetween : List (ConcurrentLabel PoolCall PoolInput) :=
  [.call (.acquire .get), .call (.acquire (.send [1])), .call .close, .move 0 .none, .move 1 .none,
    .move 2 .none, .move 2 .none, .move 2 .none, .move 0 .none, .move 1 .none, .move 1 .none]

/-- **A nil connection.**  The `Get` returns it without an error, and the `Send` calls a method of
it. -/
theorem get_nil :
    ∃ c, (connPool 1).Reach c ∧
      c.procs = [.returned (.conn none), .returned .panicked, .closeConns] := by
  have hreach : (connPool 1).Reach _ := .of_labels closeBetween rfl
  exact ⟨_, hreach, rfl⟩

end ConvoyStats.Transport.ConnPool
