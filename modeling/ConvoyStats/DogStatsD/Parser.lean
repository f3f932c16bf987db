import ConvoyStats.DogStatsD.Serializer
import ConvoyStats.Library.Outcomes

/-!
# Reading DogStatsD

`statstest/dogstatsd_parse.go`.  What the handler is called with is the result; the address the
datagram came from goes through unread.  `int` has 64 bits and its sums wrap, and an index or a
slice out of range is an outcome of its own.  `strconv.ParseFloat` is given.

`dispatchDatagram` cuts off one line after the other.  `dispatchDatagram_eq` says what comes of
it: each line of the datagram is looked at, in order.
-/

namespace ConvoyStats.DogStatsD

open List Models Outcome

/-! ### Messages -/

/-- `DogStatsDMetricType`: the codes the server understands. -/
inductive DogStatsDMetricType
  | counter
  | gauge
  | histogram
  | distribution
  | set
  | timing
  deriving DecidableEq

namespace DogStatsDMetricType

def code : DogStatsDMetricType → Bytes
  | .counter => text "c"
  | .gauge => text "g"
  | .histogram => text "h"
  | .distribution => text "d"
  | .set => text "s"
  | .timing => text "ms"

/-- The switch over the codes. -/
def ofCode (code : Bytes) : Option DogStatsDMetricType :=
  [counter, gauge, histogram, distribution, set, timing].find? fun typ => typ.code = code

end DogStatsDMetricType

/-- `DogStatsDMetric`. -/
structure DogStatsDMetric where
  name : Bytes
  value : Float64
  type : DogStatsDMetricType
  tags : List Bytes
  sampleRate : Float64
  deriving DecidableEq

/-- `DogStatsDEvent`. -/
structure DogStatsDEvent where
  title : Bytes
  text : Bytes
  timestamp : Instant
  host : Bytes
  priority : Bytes
  alertType : Bytes
  aggregationKey : Bytes
  sourceTypeName : Bytes
  tags : List Bytes
  deriving DecidableEq

/-- `DogStatsDMessage`. -/
inductive DogStatsDMessage
  | metric (m : DogStatsDMetric)
  | event (e : DogStatsDEvent)
  deriving DecidableEq

/-! ### Metrics -/

/-- `splitTags`. -/
def splitTags (s : Bytes) : List Bytes := (s.splitOn 44).filter (· ≠ [])

section Floats

variable (parseFloat : Bytes → Option Float64)

/-- The body of the loop over the sections after the type. -/
def metricSection (m : DogStatsDMetric) (sec : Bytes) : Outcome DogStatsDMetric :=
  if (text "@").isPrefixOf sec then do
    let rate ← orReject (parseFloat (← sec.sliceFrom 1))
    require (0 < rate ∧ rate ≤ .finite 1)
    pure { m with sampleRate := rate }
  else if (text "#").isPrefixOf sec then do
    pure { m with tags := splitTags (← sec.sliceFrom 1) }
  else pure m

/-- `parseDogStatsDMetric`. -/
def parseDogStatsDMetric (line : Bytes) : Outcome DogStatsDMetric := do
  let (name, rest) ← orReject (line.cut [58])
  require (name ≠ [])
  let sections := rest.splitOn 124
  require (2 ≤ sections.length)
  let value ← orReject (parseFloat (← sections.index 0))
  require (value ≠ .nan)
  let typ ← orReject (DogStatsDMetricType.ofCode (← sections.index 1))
  (← sections.sliceFrom 2).foldlM (metricSection parseFloat) ⟨name, value, typ, [], .finite 1⟩

end Floats

/-! ### Events -/

/-- A sum of `int`s. -/
def addInt (a b : ℤ) : ℤ := (a + b).bmod (2 ^ 64)

/-- `unescapeEvent`. -/
def unescapeEvent : Bytes → Bytes
  | [] => []
  | [c] => [c]
  | c :: d :: rest =>
    if c = 92 ∧ d = 110 then 10 :: unescapeEvent rest else c :: unescapeEvent (d :: rest)

/-- `setField`. -/
def setField (e : DogStatsDEvent) (sec : Bytes) : Outcome DogStatsDEvent :=
  if (text "d:").isPrefixOf sec then do
    let ts ← orReject (parseInt (← sec.sliceFrom 2))
    pure { e with timestamp := unixTime (.ofInt ts) }
  else if (text "h:").isPrefixOf sec then do
    pure { e with host := ← sec.sliceFrom 2 }
  else if (text "p:").isPrefixOf sec then do
    pure { e with priority := ← sec.sliceFrom 2 }
  else if (text "t:").isPrefixOf sec then do
    pure { e with alertType := ← sec.sliceFrom 2 }
  else if (text "k:").isPrefixOf sec then do
    pure { e with aggregationKey := ← sec.sliceFrom 2 }
  else if (text "s:").isPrefixOf sec then do
    pure { e with sourceTypeName := ← sec.sliceFrom 2 }
  else if (text "#").isPrefixOf sec then do
    pure { e with tags := splitTags (← sec.sliceFrom 1) }
  else pure e

/-- `parseDogStatsDEvent`. -/
def parseDogStatsDEvent (line : Bytes) : Outcome DogStatsDEvent := do
  let (header, body) ← orReject ((← line.sliceFrom 3).cut (text "\x7d:"))
  let (tl, xl) ← orReject (header.cut [44])
  let titleLen ← orReject (parseInt tl)
  let textLen ← orReject (parseInt xl)
  require (0 < titleLen ∧ 0 ≤ textLen)
  require (addInt (addInt titleLen 1) textLen ≤ body.length)
  require ((← body.index titleLen) = 124)
  let title ← body.sliceTo titleLen
  let body ← body.sliceFrom (addInt titleLen 1)
  let text ← body.sliceTo textLen
  let body ← body.sliceFrom textLen
  if body = [] then pure () else require ((← body.index 0) = 124)
  (body.splitOn 124).foldlM setField
    ⟨unescapeEvent title, unescapeEvent text, ⟨0, 0⟩, [], [], [], [], [], []⟩

/-! ### Datagrams -/

section Dispatch

variable (parseFloat : Bytes → Option Float64)

/-- The body of the loop over the lines: what the handler is called with. -/
def dispatchLine (line : Bytes) : Outcome (List DogStatsDMessage) :=
  let line := line.trimSuffix [13]
  if line = [] then pure []
  else if (text "_e\x7b").isPrefixOf line then do
    pure ((← (parseDogStatsDEvent line).accepted).map .event)
  else do
    pure ((← (parseDogStatsDMetric parseFloat line).accepted).map .metric)

/-- The loop of `dispatchDatagram`, for at most `fuel` lines. -/
def dispatchLoop : (fuel : ℕ) → Bytes → Outcome (List DogStatsDMessage)
  | 0, _ => pure []
  | fuel + 1, data =>
    if data = [] then pure []
    else do
      let (line, data) := (data.cut [10]).getD (data, [])
      let first ← dispatchLine parseFloat line
      let rest ← dispatchLoop fuel data
      pure (first ++ rest)

/-- `dispatchDatagram`.  Every line takes a byte, so the length is enough. -/
def dispatchDatagram (data : Bytes) : Outcome (List DogStatsDMessage) :=
  dispatchLoop parseFloat data.length data

/-! ### The lines of a datagram -/

/-- The loop looks at each line. -/
theorem dispatchLoop_eq {fuel : ℕ} {data : Bytes} (h : data.length ≤ fuel) :
    dispatchLoop parseFloat fuel data = collect (dispatchLine parseFloat) (data.splitOn 10) := by
  induction fuel generalizing data with
  | zero =>
    rw [length_eq_zero_iff.mp (Nat.le_zero.mp h)]
    rfl
  | succ fuel ih =>
    rw [dispatchLoop]
    split_ifs with hdata
    · rw [hdata]
      rfl
    · by_cases hmem : 10 ∈ data
      · obtain ⟨a, b, rfl, ha⟩ := eq_append_cons_of_mem hmem
        have hcut : (a ++ 10 :: b).cut [10] = some (a, b) := cut_append [] b ha
        have hb : b.length ≤ fuel := by
          rw [length_append, length_cons] at h
          omega
        rw [hcut, splitOn_append_cons_self_of_not_mem ha, collect, ← ih hb]
        rfl
      · -- The last line; nothing is left for the next round.
        have hend : dispatchLoop parseFloat fuel [] = .ok [] := ih (Nat.zero_le _)
        rw [cut_eq_none [] hmem, splitOn_eq_singleton hmem, collect]
        dsimp only [Option.getD_none]
        rw [hend]
        rfl

/-- **What a datagram is read as.** -/
theorem dispatchDatagram_eq (data : Bytes) :
    dispatchDatagram parseFloat data = collect (dispatchLine parseFloat) (data.splitOn 10) :=
  dispatchLoop_eq parseFloat (Nat.le_refl _)

end Dispatch

end ConvoyStats.DogStatsD
