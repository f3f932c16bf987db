import ConvoyStats.Library.Processes

/-!
# Instrumented connections

`conn` of `netstats/conn.go`: `Read`, `Write`, `Close` and the timer's `tick`, by any number of
goroutines on one connection.  What the underlying connection returns and when the timer fires are
choices of the step.  `touch` and `Close` hold `mu` for tests and stores that nobody else sees
half done, so such a section is one step that needs `mu` free; `tick` holds `mu` while it flushes.
A flush swaps one total after the other for zero and records what it got, each in two steps.

The recorder takes every record; the log is what it has taken.
-/

namespace ConvoyStats.Netstats

open Process

/-! ### Totals -/

inductive Direction
  | read
  | write
  deriving DecidableEq

/-- What is counted: calls and bytes, of each direction. -/
inductive Total
  | calls (dir : Direction)
  | bytes (dir : Direction)
  deriving DecidableEq

/-- The totals in the order in which `flush` swaps them. -/
def flushOrder : List Total := [.calls .read, .calls .write, .bytes .read, .bytes .write]

/-- `readCalls`, `writeCalls`, `readBytes` and `writeBytes`. -/
structure Totals where
  readCalls : ℕ
  writeCalls : ℕ
  readBytes : ℕ
  writeBytes : ℕ
  deriving DecidableEq

namespace Totals

def get (t : Totals) : Total → ℕ
  | .calls .read => t.readCalls
  | .calls .write => t.writeCalls
  | .bytes .read => t.readBytes
  | .bytes .write => t.writeBytes

def set (t : Totals) (v : ℕ) : Total → Totals
  | .calls .read => { t with readCalls := v }
  | .calls .write => { t with writeCalls := v }
  | .bytes .read => { t with readBytes := v }
  | .bytes .write => { t with writeBytes := v }

/-- `Add`. -/
def add (t : Totals) (k : Total) (n : ℕ) : Totals := t.set (t.get k + n) k

theorem get_set (t : Totals) (v : ℕ) (k j : Total) :
    (t.set v k).get j = if j = k then v else t.get j := by
  rcases k with (_ | _) | (_ | _) <;> rcases j with (_ | _) | (_ | _) <;> rfl

theorem get_add (t : Totals) (k : Total) (n : ℕ) (j : Total) :
    (t.add k n).get j = t.get j + if j = k then n else 0 := by
  rw [add, get_set]
  split_ifs with hj
  · rw [hj]
  · rfl

end Totals

/-! ### The connection -/

/-- The operations whose errors are counted. -/
inductive Operation
  | read
  | write
  | close
  deriving DecidableEq

/-- What an operation of the underlying connection fails with. -/
inductive ConnError
  | eof
  | other
  deriving DecidableEq

/-- The records: `conn.open.count`, `conn.close.count`, `conn.error.count` with its operation, and
the four totals. -/
inductive NetRecord
  | opened
  | closed
  | error (operation : Operation)
  | total (k : Total) (v : ℕ)
  deriving DecidableEq

/-- `conn`. -/
structure Conn where
  totals : Totals
  armed : Bool
  closed : Bool
  /-- `mu` is locked. -/
  mu : Bool
  /-- `timer`, and whether it runs. -/
  timer : Option Bool
  log : List NetRecord
  deriving DecidableEq

/-- `newConn`. -/
def newConn : Conn := ⟨⟨0, 0, 0, 0⟩, false, false, false, none, [.opened]⟩

/-- `fail`. -/
def Conn.fail (c : Conn) (operation : Operation) (err : Option ConnError) : Conn :=
  if err = some .other then { c with log := c.log ++ [.error operation] } else c

/-- `count` and `observe` of a total. -/
def Conn.record (c : Conn) (k : Total) (v : ℕ) : Conn :=
  if v = 0 then c else { c with log := c.log ++ [.total k v] }

/-! ### Calls -/

inductive ConnCall
  | transfer (dir : Direction)
  | close
  | tick
  deriving DecidableEq

/-- Who flushes: a call after `Close`, the first `Close`, or `tick`. -/
inductive Flusher
  | late (dir : Direction) (n : ℕ)
  | closer
  | tick
  deriving DecidableEq

/-- Where a call is: what it does next. -/
inductive ConnPc
  /-- `Read` or `Write` calls the underlying connection. -/
  | transfer (dir : Direction)
  | addCalls (dir : Direction) (n : ℕ) (err : Option ConnError)
  | addBytes (dir : Direction) (n : ℕ) (err : Option ConnError)
  | fail (dir : Direction) (n : ℕ) (err : Option ConnError)
  /-- `touch` looks at `closed`. -/
  | touchClosed (dir : Direction) (n : ℕ)
  /-- It looks at `armed`. -/
  | touchArmed (dir : Direction) (n : ℕ)
  /-- It locks `mu`, looks again and starts the timer. -/
  | touchLocked (dir : Direction) (n : ℕ)
  | close
  | closeFail (err : Option ConnError)
  /-- `Close` sets `closed` and stops the timer. -/
  | closeLocked
  | closeCount
  /-- The timer has yet to fire. -/
  | tick
  /-- `tick` locks `mu` and looks at `closed`. -/
  | tickLock
  /-- It starts the timer again and unlocks `mu`. -/
  | tickReset
  /-- `flush` swaps the first of these totals. -/
  | flushSwap (who : Flusher) (rest : List Total)
  /-- It records what it got. -/
  | flushRecord (who : Flusher) (k : Total) (v : ℕ) (rest : List Total)
  | transferred (dir : Direction) (n : ℕ)
  | closed (first : Bool)
  | ticked
  deriving DecidableEq

/-- What a step is given from outside. -/
inductive ConnInput
  | none
  /-- `Read` or `Write` of the underlying connection returns. -/
  | moved (n : ℕ) (err : Option ConnError)
  /-- `Close` of the underlying connection returns. -/
  | closed (err : Option ConnError)
  deriving DecidableEq

def Direction.operation : Direction → Operation
  | .read => .read
  | .write => .write

/-- What follows a flush. -/
def Flusher.after : Flusher → ConnPc
  | .late dir n => .transferred dir n
  | .closer => .closeCount
  | .tick => .tickReset

/-- A step of a call. -/
def connStep (c : Conn) : ConnPc → ConnInput → Option (Conn × ConnPc)
  | .transfer dir, .moved n err => some (c, .addCalls dir n err)
  | .addCalls dir n err, .none =>
    some ({ c with totals := c.totals.add (.calls dir) 1 }, .addBytes dir n err)
  | .addBytes dir n err, .none =>
    some ({ c with totals := c.totals.add (.bytes dir) n }, .fail dir n err)
  | .fail dir n err, .none => some (c.fail dir.operation err, .touchClosed dir n)
  | .touchClosed dir n, .none =>
    some (c, if c.closed then .flushSwap (.late dir n) flushOrder else .touchArmed dir n)
  | .touchArmed dir n, .none =>
    some (c, if c.armed then .transferred dir n else .touchLocked dir n)
  | .touchLocked dir n, .none =>
    if c.mu then none
    else if c.closed || c.armed then some (c, .transferred dir n)
    else some ({ c with armed := true, timer := some true }, .transferred dir n)
  | .close, .closed err => some (c, .closeFail err)
  | .closeFail err, .none => some (c.fail .close err, .closeLocked)
  | .closeLocked, .none =>
    if c.mu then none
    else
      some ({ c with closed := true, timer := c.timer.map fun _ => false },
        if c.closed then .closed false else .flushSwap .closer flushOrder)
  | .closeCount, .none => some ({ c with log := c.log ++ [.closed] }, .closed true)
  | .tick, .none =>
    if c.timer = some true then some ({ c with timer := some false }, .tickLock) else none
  | .tickLock, .none =>
    if c.mu then none
    else if c.closed then some (c, .ticked)
    else some ({ c with mu := true }, .flushSwap .tick flushOrder)
  | .tickReset, .none => some ({ c with timer := some true, mu := false }, .ticked)
  | .flushSwap who (k :: rest), .none =>
    some ({ c with totals := c.totals.set 0 k }, .flushRecord who k (c.totals.get k) rest)
  | .flushSwap who [], .none => some (c, who.after)
  | .flushRecord who k v rest, .none => some (c.record k v, .flushSwap who rest)
  | _, _ => none

/-- The calls on a connection. -/
def connCall : Process Conn ConnCall ConnPc ConnInput where
  start
    | .transfer dir => .transfer dir
    | .close => .close
    | .tick => .tick
  step _ := connStep

/-- A new connection and the calls on it. -/
def connection : TransitionSystem (Concurrent Conn ConnPc) (ConcurrentLabel ConnCall ConnInput) :=
  connCall.concurrent newConn

end ConvoyStats.Netstats
