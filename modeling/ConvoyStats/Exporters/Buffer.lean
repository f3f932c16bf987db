import ConvoyStats.Library.Processes
import ConvoyStats.Models.Text

/-!
# The buffered exporter

`Handle`, `Export` and `Flush` of `exporters/buffer.go`, by any number of goroutines.  `Dst` and
the serializer are set, as the type asks for, and what `prepare` makes is there from the start:
nobody looks at the buffers before it has run.  The serializer and `GOMAXPROCS` are parameters;
how a write ends is a choice of the step.

A buffer belongs to the call that has its spin lock, so what that call does to it is a step; so
is a write to `Dst` under `writeMu`, with emptying the buffer that was written.  Taking a lock is a
step of its own, and so is failing to: `Handle` tries the next buffer, and `Flush` skips this one.
That `Flush` does not wait is what the results are about: an `Export` may return while its packets
are in a buffer that another call had locked, and then somebody else has to write them.

`mine` is not in the source.  It remembers which buffer the `Handle` of the call has appended to,
no step reads it, and the results need it to say that `Flush` came to this buffer while it was
locked.  `BufferMove` is the inversion of `callStep`, one constructor for each thing a step can do:
the invariants of the later modules are by cases on it and do not unfold the step.
-/

namespace ConvoyStats.Exporters

open Process

/-- What is written. -/
abbrev Bytes := Models.Bytes

/-! ### State -/

/-- The fields that are set before the first use. -/
structure BufferConfig (M E : Type) where
  bufferSize : ℤ
  bufferPoolSize : ℤ
  /-- `Serializer.Serialize`. -/
  serialize : List M → Except E (List Bytes)
  /-- `runtime.GOMAXPROCS(0)`. -/
  gomaxprocs : ℕ

/-- `DefaultBufferSize`. -/
def defaultBufferSize : ℤ := 1024

/-- `pooledBuffer`. -/
structure PooledBuffer where
  lock : Bool
  data : Bytes
  deriving DecidableEq

/-- What changes of a `Buffer`, and what `Dst` has got. -/
structure Buffer where
  offset : UInt64
  buffers : List PooledBuffer
  dst : Bytes

section

variable {M E : Type} (cfg : BufferConfig M E)

/-- `size`. -/
def BufferConfig.size : ℤ := if 0 < cfg.bufferSize then cfg.bufferSize else defaultBufferSize

/-- The number of buffers that `prepare` makes. -/
def BufferConfig.poolSize : ℕ :=
  if cfg.bufferPoolSize ≤ 0 then 2 * cfg.gomaxprocs else cfg.bufferPoolSize.toNat

/-- A buffer after `prepare`. -/
def BufferConfig.prepare : Buffer := ⟨0, List.replicate cfg.poolSize ⟨false, []⟩, []⟩

end

/-- What `Handle` appends of a packet. -/
def line (packet : Bytes) : Bytes :=
  if packet.getLast? = some 10 then packet else packet ++ [10]

/-! ### Calls -/

/-- The calls. -/
inductive BufferCall (M : Type)
  | handle (metrics : List M)
  | export (metrics : List M)
  | flush

/-- The errors of the calls. -/
inductive BufferError (E : Type)
  | serialize (err : E)
  | write
  deriving DecidableEq

/-- Where a call is: what it does next.  From when `Handle` has appended, `mine` is the buffer it
has appended to. -/
inductive BufferPc (E : Type)
  | serialize
  /-- `acquireBuffer` adds to `offset`. -/
  | probe (packets : List Bytes)
  /-- It tries the lock of the buffer `k`. -/
  | acquire (k : ℕ) (packets : List Bytes)
  | append (k : ℕ) (packets : List Bytes)
  /-- `Handle` calls `drain`. -/
  | drain (k : ℕ)
  | release (k : ℕ) (failed : Bool)
  /-- `Flush` tries the lock of the buffer `k`. -/
  | flushAcquire (k : ℕ) (mine : Option ℕ) (failed : Bool)
  | flushDrain (k : ℕ) (mine : Option ℕ) (failed : Bool)
  | flushRelease (k : ℕ) (mine : Option ℕ) (failed : Bool)
  | returned (mine : Option ℕ) (err : Option (BufferError E))
  deriving DecidableEq

/-- A call and where it is. -/
structure BufferProc (M E : Type) where
  call : BufferCall M
  pc : BufferPc E

/-- What a step is given from outside. -/
inductive BufferInput
  | none
  | wrote
  /-- The write has failed after `n` bytes. -/
  | writeFailed (n : ℕ)
  deriving DecidableEq

section

variable {M E : Type}

/-- What a call does after its `Handle`. -/
def BufferCall.afterHandle (call : BufferCall M) (mine : Option ℕ) (failed : Bool) : BufferPc E :=
  if failed then .returned mine (some .write)
  else
    match call with
    | .export _ => .flushAcquire 0 mine false
    | _ => .returned mine none

/-- `drain`: what is left, and whether the write has failed. -/
def Buffer.drain (b : Buffer) (k : ℕ) (buf : PooledBuffer) (input : BufferInput) :
    Option (Buffer × Bool) :=
  let emptied := b.buffers.set k { buf with data := [] }
  if buf.data = [] then
    match input with
    | .none => some (b, false)
    | _ => none
  else
    match input with
    | .none => none
    | .wrote => some ({ b with buffers := emptied, dst := b.dst ++ buf.data }, false)
    | .writeFailed n => some ({ b with buffers := emptied, dst := b.dst ++ buf.data.take n }, true)

/-- `buf.lock` is set to `lock`. -/
def Buffer.setLock (b : Buffer) (k : ℕ) (buf : PooledBuffer) (lock : Bool) : Buffer :=
  { b with buffers := b.buffers.set k { buf with lock := lock } }

variable (cfg : BufferConfig M E)

/-- `Handle` up to where it has the packets. -/
def serializeStep (call : BufferCall M) (metrics : List M) : BufferPc E :=
  if metrics.isEmpty then call.afterHandle none false
  else
    match cfg.serialize metrics with
    | .error err => .returned none (some (.serialize err))
    | .ok packets => .probe packets

/-- A step of a call. -/
def callStep (b : Buffer) (call : BufferCall M) :
    BufferPc E → BufferInput → Option (Buffer × BufferPc E)
  | .serialize, .none =>
    match call with
    | .handle metrics | .export metrics => some (b, serializeStep cfg call metrics)
    | .flush => none
  | .probe packets, .none =>
    let offset := b.offset + 1
    some ({ b with offset := offset }, .acquire (offset.toNat % b.buffers.length) packets)
  | .acquire k packets, .none =>
    b.buffers[k]?.map fun buf =>
      if buf.lock then (b, .probe packets) else (b.setLock k buf true, .append k packets)
  | .append k packets, .none =>
    b.buffers[k]?.map fun buf =>
      let data := buf.data ++ packets.flatMap line
      ({ b with buffers := b.buffers.set k { buf with data := data } },
        if cfg.size ≤ data.length then .drain k else .release k false)
  | .drain k, input =>
    b.buffers[k]?.bind fun buf => (b.drain k buf input).map fun r => (r.1, .release k r.2)
  | .release k failed, .none =>
    b.buffers[k]?.map fun buf => (b.setLock k buf false, call.afterHandle (some k) failed)
  | .flushAcquire k mine failed, .none =>
    match b.buffers[k]? with
    | none => some (b, .returned mine (if failed then some .write else none))
    | some buf =>
      if buf.lock then some (b, .flushAcquire (k + 1) mine failed)
      else some (b.setLock k buf true, .flushDrain k mine failed)
  | .flushDrain k mine failed, input =>
    b.buffers[k]?.bind fun buf =>
      (b.drain k buf input).map fun r => (r.1, .flushRelease k mine (failed || r.2))
  | .flushRelease k mine failed, .none =>
    b.buffers[k]?.map fun buf => (b.setLock k buf false, .flushAcquire (k + 1) mine failed)
  | _, _ => none

/-- The calls on a `Buffer`. -/
def bufferCall : Process Buffer (BufferCall M) (BufferProc M E) BufferInput where
  start
    | .flush => ⟨.flush, .flushAcquire 0 none false⟩
    | call => ⟨call, .serialize⟩
  step _ b proc input := (callStep cfg b proc.call proc.pc input).map fun r =>
    (r.1, ⟨proc.call, r.2⟩)

/-- A `Buffer` and the calls on it. -/
def buffered :
    TransitionSystem (Concurrent Buffer (BufferProc M E))
      (ConcurrentLabel (BufferCall M) BufferInput) :=
  (bufferCall cfg).concurrent cfg.prepare

/-! ### What a step does -/

variable {cfg}

/-- What a step of a call does. -/
inductive BufferMove (cfg : BufferConfig M E) (b : Buffer) (call : BufferCall M) :
    BufferPc E → BufferInput → Buffer → BufferPc E → Prop
  | serialize {metrics : List M} (hcall : call = .handle metrics ∨ call = .export metrics) :
      BufferMove cfg b call .serialize .none b (serializeStep cfg call metrics)
  | probe (packets : List Bytes) (k : ℕ) :
      BufferMove cfg b call (.probe packets) .none { b with offset := b.offset + 1 }
        (.acquire k packets)
  | busy (k : ℕ) (packets : List Bytes) :
      BufferMove cfg b call (.acquire k packets) .none b (.probe packets)
  | acquire {k : ℕ} (packets : List Bytes) {buf : PooledBuffer} (hbuf : b.buffers[k]? = some buf)
      (hfree : buf.lock = false) :
      BufferMove cfg b call (.acquire k packets) .none (b.setLock k buf true) (.append k packets)
  | append {k : ℕ} (packets : List Bytes) {buf : PooledBuffer} {pc : BufferPc E}
      (hbuf : b.buffers[k]? = some buf) (hpc : pc = .drain k ∨ pc = .release k false) :
      BufferMove cfg b call (.append k packets) .none
        { b with
          buffers := b.buffers.set k { buf with data := buf.data ++ packets.flatMap line } } pc
  | drain {k : ℕ} {buf : PooledBuffer} {input : BufferInput} {b' : Buffer} {failed : Bool}
      (hbuf : b.buffers[k]? = some buf) (hdrain : b.drain k buf input = some (b', failed)) :
      BufferMove cfg b call (.drain k) input b' (.release k failed)
  | release {k : ℕ} {buf : PooledBuffer} (failed : Bool) (hbuf : b.buffers[k]? = some buf) :
      BufferMove cfg b call (.release k failed) .none (b.setLock k buf false)
        (call.afterHandle (some k) failed)
  | flushed {k : ℕ} (mine : Option ℕ) (failed : Bool) (hk : b.buffers.length ≤ k) :
      BufferMove cfg b call (.flushAcquire k mine failed) .none b
        (.returned mine (if failed then some .write else none))
  | skip {k : ℕ} {buf : PooledBuffer} (mine : Option ℕ) (failed : Bool)
      (hbuf : b.buffers[k]? = some buf) (hheld : buf.lock = true) :
      BufferMove cfg b call (.flushAcquire k mine failed) .none b
        (.flushAcquire (k + 1) mine failed)
  | flushAcquire {k : ℕ} {buf : PooledBuffer} (mine : Option ℕ) (failed : Bool)
      (hbuf : b.buffers[k]? = some buf) (hfree : buf.lock = false) :
      BufferMove cfg b call (.flushAcquire k mine failed) .none (b.setLock k buf true)
        (.flushDrain k mine failed)
  | flushDrain {k : ℕ} {buf : PooledBuffer} {input : BufferInput} {b' : Buffer} {err : Bool}
      (mine : Option ℕ) (failed : Bool) (hbuf : b.buffers[k]? = some buf)
      (hdrain : b.drain k buf input = some (b', err)) :
      BufferMove cfg b call (.flushDrain k mine failed) input b'
        (.flushRelease k mine (failed || err))
  | flushRelease {k : ℕ} {buf : PooledBuffer} (mine : Option ℕ) (failed : Bool)
      (hbuf : b.buffers[k]? = some buf) :
      BufferMove cfg b call (.flushRelease k mine failed) .none (b.setLock k buf false)
        (.flushAcquire (k + 1) mine failed)

theorem BufferMove.of_callStep {b b' : Buffer} {call : BufferCall M} {pc pc' : BufferPc E}
    {input : BufferInput} (h : callStep cfg b call pc input = some (b', pc')) :
    BufferMove cfg b call pc input b' pc' := by
  cases pc with
  | serialize =>
    cases input <;> try cases h
    cases call with
    | handle metrics =>
      cases h
      exact .serialize (.inl rfl)
    | «export» metrics =>
      cases h
      exact .serialize (.inr rfl)
    | flush => cases h
  | probe packets =>
    cases input <;> cases h
    exact .probe packets _
  | acquire k packets =>
    cases input <;> try cases h
    obtain ⟨buf, hbuf, heq⟩ := Option.map_eq_some_iff.mp h
    split_ifs at heq with hlock <;> cases heq
    · exact .busy k packets
    · exact .acquire packets hbuf (Bool.eq_false_of_not_eq_true hlock)
  | append k packets =>
    cases input <;> try cases h
    obtain ⟨buf, hbuf, heq⟩ := Option.map_eq_some_iff.mp h
    cases heq
    refine .append packets hbuf ?_
    split_ifs
    · exact .inl rfl
    · exact .inr rfl
  | drain k =>
    obtain ⟨buf, hbuf, hdrain⟩ := Option.bind_eq_some_iff.mp h
    obtain ⟨r, hr, heq⟩ := Option.map_eq_some_iff.mp hdrain
    cases heq
    exact .drain hbuf hr
  | release k failed =>
    cases input <;> try cases h
    obtain ⟨buf, hbuf, heq⟩ := Option.map_eq_some_iff.mp h
    cases heq
    exact .release failed hbuf
  | flushAcquire k mine failed =>
    cases input <;> try cases h
    rw [callStep] at h
    cases hbuf : b.buffers[k]? with
    | none =>
      rw [hbuf] at h
      cases h
      exact .flushed mine failed (List.getElem?_eq_none_iff.mp hbuf)
    | some buf =>
      rw [hbuf] at h
      dsimp only at h
      split_ifs at h with hlock <;> cases h
      · exact .skip mine failed hbuf hlock
      · exact .flushAcquire mine failed hbuf (Bool.eq_false_of_not_eq_true hlock)
  | flushDrain k mine failed =>
    obtain ⟨buf, hbuf, hdrain⟩ := Option.bind_eq_some_iff.mp h
    obtain ⟨r, hr, heq⟩ := Option.map_eq_some_iff.mp hdrain
    cases heq
    exact .flushDrain mine failed hbuf hr
  | flushRelease k mine failed =>
    cases input <;> try cases h
    obtain ⟨buf, hbuf, heq⟩ := Option.map_eq_some_iff.mp h
    cases heq
    exact .flushRelease mine failed hbuf
  | returned mine err => cases h

/-- What `drain` does when writes do not fail. -/
theorem drain_cases {b b' : Buffer} {k : ℕ} {buf : PooledBuffer} {input : BufferInput}
    {failed : Bool}
    (hbuf : b.buffers[k]? = some buf) (h : b.drain k buf input = some (b', failed))
    (hinput : ∀ n, input ≠ .writeFailed n) :
    failed = false ∧
      b' = { b with
        buffers := b.buffers.set k { buf with data := [] }, dst := b.dst ++ buf.data } := by
  unfold Buffer.drain at h
  dsimp only at h
  split_ifs at h with hempty
  · cases input <;> cases h
    refine ⟨rfl, ?_⟩
    rw [hempty, List.append_nil, ← hempty, List.set_getElem?_self hbuf]
  · cases input with
    | none => cases h
    | wrote =>
      cases h
      exact ⟨rfl, rfl⟩
    | writeFailed n => exact absurd rfl (hinput n)

end

end ConvoyStats.Exporters
