import ConvoyStats.Library.Precedes
import ConvoyStats.Pipeline.WorkerSteps

/-!
# What a worker's step does

The worker has some thirty kinds of steps, but few of them matter to what it
holds.  `WorkerMove` sorts them by their effect on four things: the entries the
worker has taken and not yet exported (`Worker.undelivered`), its place in the
drain of a request (`WorkerPc.drain`), the ring, and the drop counts.  The
theorems at the end show that every step of a worker is one of these moves; every
invariant about workers is proved on the moves.
-/

namespace ConvoyStats.Pipeline

open Transport

/-- How far a worker is with a request: in the loop of `drain` with a number of
items popped, or past it with the drop counts of some reasons taken. -/
inductive Drain
  | none
  | looping (c : Caller) (popped : ℕ)
  | past (c : Caller) (swapped : List DropReason)

namespace WorkerPc

/-- The items popped and not yet appended to the batch. -/
def items : WorkerPc → List ℕ
  | .pop _ _ items | .append _ items => items
  | _ => []

/-- The place in the drain of a request. -/
def drain : WorkerPc → Drain
  | .pop (.drain request popped _) _ items => .looping request.caller (popped + items.length)
  | .append (.drain request popped _) _ => .looping request.caller popped
  | .exporting (.chunk request popped _) _ => .looping request.caller popped
  | .drainLoop request popped _ => .looping request.caller popped
  | .dropCounters (.drain request _) .labelLimit => .past request.caller []
  | .dropCounters (.drain request _) .seriesLimit => .past request.caller [.labelLimit]
  | .exporting (.last request _) _ => .past request.caller [.labelLimit, .seriesLimit]
  | .ack request _ => .past request.caller [.labelLimit, .seriesLimit]
  | _ => .none

/-- The worker is inside `PopBatch`. -/
def popping : WorkerPc → Bool
  | .pop .. => true
  | _ => false

/-- The worker has left its loop. -/
def gone : WorkerPc → Bool
  | .leaving | .exited => true
  | _ => false

/-- The worker has exported all it has, or has left its loop. -/
def emptied : WorkerPc → Bool
  | .ack .. | .leaving | .exited => true
  | _ => false

/-- Two points that differ in nothing the moves keep track of. -/
structure SamePlace (pc pc' : WorkerPc) : Prop where
  items : pc'.items = pc.items
  drain : pc'.drain = pc.drain
  gone : pc'.gone = pc.gone
  emptied : pc'.emptied = pc.emptied

end WorkerPc

/-- The request a place in a drain belongs to. -/
def Drain.caller : Drain → Option Caller
  | .none => Option.none
  | .looping c _ | .past c _ => some c

/-- One more item popped. -/
def Drain.popped : Drain → Drain
  | .looping c n => .looping c (n + 1)
  | d => d

/-- The drop count of one more reason taken. -/
def Drain.swap (reason : DropReason) : Drain → Drain
  | .past c swapped => .past c (swapped ++ [reason])
  | d => d

/-- What a worker has taken and not exported, in order: what it dropped on exit,
its batch, and the items it is about to append. -/
def Worker.undelivered (w : Worker) : List Entry :=
  w.lost ++ w.batch ++ w.pc.items.map .observation

/-- The fields that say what a worker has taken and what became of it. -/
structure Worker.SameHoldings (w w' : Worker) : Prop where
  batch : w'.batch = w.batch
  intake : w'.intake = w.intake
  exported : w'.exported = w.exported
  lost : w'.lost = w.lost

/-- The events of a worker that belong to no drain. -/
def Event.byWorker : Event → Bool
  | .exportStarted .. | .exportReturned .. | .exportIdleStarted .. | .workerExited _ => true
  | _ => false

/-- The events of a worker. -/
def Event.ofWorker : Event → Bool
  | .drainStopped .. => true
  | ev => ev.byWorker

/-- A log extended by at most one event, of a kind. -/
def LogGrows (kind : Event → Bool) (log log' : List Event) : Prop :=
  ∃ ev : Option Event, log' = log ++ ev.toList ∧ ∀ e, ev = some e → kind e

namespace LogGrows

variable {kind kind' : Event → Bool} {log log' : List Event} {a ev : Event}

theorem rfl : LogGrows kind log log := ⟨none, (List.append_nil _).symm, nofun⟩

theorem emit (h : kind ev) : LogGrows kind log (log ++ [ev]) :=
  ⟨some ev, .refl _, by rintro _ ⟨⟩; exact h⟩

theorem mono (h : LogGrows kind log log') (hkind : ∀ e, kind e → kind' e) :
    LogGrows kind' log log' := by
  obtain ⟨ev, hlog, hev⟩ := h
  exact ⟨ev, hlog, fun e he => hkind e (hev e he)⟩

theorem le (h : LogGrows kind log log') : log <+: log' := by
  obtain ⟨ev, rfl, -⟩ := h
  exact List.prefix_append _ _

/-- Order before an event of another kind is not new. -/
theorem precedes (h : LogGrows kind log log') (hev : kind ev = false)
    (hprec : log'.Precedes a ev) : log.Precedes a ev := by
  obtain ⟨new, rfl, hnew⟩ := h
  refine hprec.of_append fun hmem => ?_
  rw [hnew ev (by simpa using hmem)] at hev
  cases hev

/-- Events of other kinds are not new. -/
theorem mem (h : LogGrows kind log log') (hev : kind ev = false) (hmem : ev ∈ log') :
    ev ∈ log := by
  obtain ⟨new, rfl, hnew⟩ := h
  refine (List.mem_append.mp hmem).resolve_right fun hmem => ?_
  rw [hnew ev (by simpa using hmem)] at hev
  cases hev

end LogGrows

/-- **The moves of worker `k`.** -/
inductive WorkerMove (s : State) (k : ℕ) : State → Prop
  /-- Control passes on; nothing is taken, exported or promised. -/
  | keep (w' : Worker) (stats' : Stats) (log' : List Event)
      (hpop : (s.workers k).pc.popping = false) (hlive : (s.workers k).pc ≠ .exited)
      (hplace : (s.workers k).pc.SamePlace w'.pc) (hheld : (s.workers k).SameHoldings w')
      (hdropping : w'.pc = .dropping → s.cancelled = true)
      (hexited : w'.pc = .exited → log' = s.log ++ [.workerExited k])
      (hlog : LogGrows Event.byWorker s.log log') :
      WorkerMove s k { s with
        workers := Function.update s.workers k w', stats := stats', log := log' }
  /-- An access of a `Pop` that does not return yet. -/
  | access (ring' : World Goroutine ℕ) (hpop : (s.workers k).pc.popping)
      (hring : ringStep s.ring (.worker k) .pop = some (ring', none)) :
      WorkerMove s k { s with ring := ring' }
  /-- A `Pop` returns an item. -/
  | took (x : ℕ) (ring' : World Goroutine ℕ) (w' : Worker)
      (hpop : (s.workers k).pc.popping) (hemptied : w'.pc.emptied = false)
      (hring : ringStep s.ring (.worker k) .pop = some (ring', some (.pop (some x))))
      (hintake : w'.intake = (s.workers k).intake ++ [.observation x])
      (hbatch : w'.batch = (s.workers k).batch)
      (hexported : w'.exported = (s.workers k).exported)
      (hlost : w'.lost = (s.workers k).lost)
      (hitems : w'.pc.items = (s.workers k).pc.items ++ [x])
      (hdrain : w'.pc.drain = (s.workers k).pc.drain.popped) :
      WorkerMove s k { s with workers := Function.update s.workers k w', ring := ring' }
  /-- A `Pop` finds the ring empty; a drain that has popped nothing in this round is
  past its loop. -/
  | empty (result : Result ℕ) (ring' : World Goroutine ℕ) (w' : Worker)
      (hpop : (s.workers k).pc.popping) (hemptied : w'.pc.emptied = false)
      (hresult : ∀ x, result ≠ .pop (some x))
      (hring : ringStep s.ring (.worker k) .pop = some (ring', some result))
      (hheld : (s.workers k).SameHoldings w')
      (hitems : w'.pc.items = (s.workers k).pc.items) (hout : w'.pc.popping = false)
      (hdrain : w'.pc.drain = (s.workers k).pc.drain ∨
        ∃ c n, (s.workers k).pc.drain = .looping c n ∧ w'.pc.drain = .past c [])
      (hstay : w'.pc ≠ .dropping) :
      WorkerMove s k { s with workers := Function.update s.workers k w', ring := ring' }
  /-- An item goes from the popped ones to the batch. -/
  | append (x : ℕ) (w' : Worker) (stats' : Stats)
      (hpop : (s.workers k).pc.popping = false) (hemptied : w'.pc.emptied = false)
      (hitems : (s.workers k).pc.items = x :: w'.pc.items)
      (hbatch : w'.batch = (s.workers k).batch ++ [.observation x])
      (hintake : w'.intake = (s.workers k).intake)
      (hexported : w'.exported = (s.workers k).exported)
      (hlost : w'.lost = (s.workers k).lost)
      (hdrain : w'.pc.drain = (s.workers k).pc.drain) (hstay : w'.pc ≠ .dropping) :
      WorkerMove s k { s with workers := Function.update s.workers k w', stats := stats' }
  /-- The pending drop count of a reason goes into the batch. -/
  | count (reason : DropReason) (w' : Worker)
      (hpop : (s.workers k).pc.popping = false) (hlive : (s.workers k).pc.gone = false)
      (hgone : w'.pc.gone = false)
      (hemptied : w'.pc.emptied → w'.batch = [])
      (hitems : (s.workers k).pc.items = []) (hitems' : w'.pc.items = [])
      (hbatch : w'.batch = (s.workers k).batch ++
        dropEntries reason (s.taken reason) (s.pending reason))
      (hintake : w'.intake = (s.workers k).intake ++
        dropEntries reason (s.taken reason) (s.pending reason))
      (hexported : w'.exported = (s.workers k).exported)
      (hlost : w'.lost = (s.workers k).lost)
      (hdrain : w'.pc.drain = (s.workers k).pc.drain.swap reason) (hstay : w'.pc ≠ .dropping) :
      WorkerMove s k { s with
        workers := Function.update s.workers k w'
        pending := Function.update s.pending reason 0
        taken := Function.update s.taken reason (s.taken reason + s.pending reason) }
  /-- The export of the batch has ended. -/
  | export (w' : Worker) (stats' : Stats)
      (hpop : (s.workers k).pc.popping = false) (hlive : (s.workers k).pc.gone = false)
      (hgone : w'.pc.gone = false)
      (hitems : (s.workers k).pc.items = []) (hitems' : w'.pc.items = [])
      (hbatch : w'.batch = [])
      (hexported : w'.exported = (s.workers k).exported ++ [(s.workers k).batch])
      (hintake : w'.intake = (s.workers k).intake) (hlost : w'.lost = (s.workers k).lost)
      (hdrain : w'.pc.drain = (s.workers k).pc.drain) (hstay : w'.pc ≠ .dropping) :
      WorkerMove s k { s with workers := Function.update s.workers k w', stats := stats' }
  /-- A drain leaves its loop: it has popped a ring capacity, or its context is
  done. -/
  | loopEnds (request : Request) (n : ℕ) (err : Err) (w' : Worker) (log' : List Event)
      (hpc : (s.workers k).pc = .drainLoop request n err) (hemptied : w'.pc.emptied = false)
      (hheld : (s.workers k).SameHoldings w') (hitems : w'.pc.items = [])
      (hdrain : w'.pc.drain = .past request.caller [])
      (hwhy : log' = s.log ∧ (s.ring.ring.capacity ≤ n ∨
          (s.calls request.caller).mark ≤ s.ring.ring.readPos) ∨
        log' = s.log ++ [.drainStopped request.caller k] ∧ stopsShort s request n = true) :
      WorkerMove s k { s with workers := Function.update s.workers k w', log := log' }
  /-- A drained worker acknowledges. -/
  | ack (request : Request) (err : Err) (w' : Worker)
      (hpc : (s.workers k).pc = .ack request err)
      (hpc' : w'.pc = if request.caller.stop then .leaving else .select)
      (hheld : (s.workers k).SameHoldings w') :
      WorkerMove s k { s with
        workers := Function.update s.workers k w'
        calls := Function.update s.calls request.caller
          { s.calls request.caller with
            done := (s.calls request.caller).done ++ [(k, err)] } }
  /-- A worker whose pipeline context is done drops its batch. -/
  | drop (w' : Worker) (stats' : Stats)
      (hpc : (s.workers k).pc = .dropping) (hpc' : w'.pc = .leaving)
      (hbatch : w'.batch = []) (hlost : w'.lost = (s.workers k).batch)
      (hintake : w'.intake = (s.workers k).intake)
      (hexported : w'.exported = (s.workers k).exported) :
      WorkerMove s k { s with workers := Function.update s.workers k w', stats := stats' }

namespace WorkerPc

variable {cfg : Config} {s : State} {w : Worker} {pc pc' : WorkerPc}

theorem Passes.spec (h : pc.Passes cfg s w pc') :
    pc.popping = false ∧ pc ≠ .exited ∧ pc.SamePlace pc' ∧ (pc' = .dropping → s.cancelled = true) ∧
      pc' ≠ .exited := by
  cases h with
  | cancelled h => exact ⟨rfl, nofun, ⟨rfl, rfl, rfl, rfl⟩, fun _ => h, nofun⟩
  | _ => exact ⟨rfl, nofun, ⟨rfl, rfl, rfl, rfl⟩, nofun, nofun⟩

theorem Took.spec {x : ℕ} (h : pc.Took x pc') :
    pc.popping ∧ pc'.emptied = false ∧ pc'.items = pc.items ++ [x] ∧
      pc'.drain = pc.drain.popped := by
  cases h with
  | more job =>
    refine ⟨rfl, rfl, rfl, ?_⟩
    cases job
    · rfl
    · simp [WorkerPc.drain, Drain.popped, Nat.add_assoc]
  | _ => exact ⟨rfl, rfl, rfl, rfl⟩

theorem Stops.spec (h : pc.Stops pc') :
    pc.popping ∧ pc'.emptied = false ∧ pc'.items = pc.items ∧ pc'.popping = false ∧
      (pc'.drain = pc.drain ∨ ∃ c n, pc.drain = .looping c n ∧ pc'.drain = .past c []) ∧
      pc' ≠ .dropping := by
  cases h with
  | drained => exact ⟨rfl, rfl, rfl, rfl, .inr ⟨_, _, rfl, rfl⟩, nofun⟩
  | _ => exact ⟨rfl, rfl, rfl, rfl, .inl rfl, nofun⟩

theorem Counted.spec {batch : List Entry} {job : CountJob} {reason : DropReason}
    (h : Counted batch job reason pc') :
    pc'.gone = false ∧ (pc'.emptied → batch = []) ∧ pc'.items = [] ∧
      pc'.drain = (WorkerPc.dropCounters job reason).drain.swap reason ∧ pc' ≠ .dropping := by
  cases h with
  | next job => cases job <;> exact ⟨rfl, nofun, rfl, rfl, nofun⟩
  | ack request err h => exact ⟨rfl, fun _ => h, rfl, rfl, nofun⟩
  | _ => exact ⟨rfl, nofun, rfl, rfl, nofun⟩

end WorkerPc

namespace WorkerMove

variable {cfg : Config} {s s' : State} {k : ℕ} {ch : Choice}

/-- Control passes from a known point to one in the same place. -/
theorem of_keep {pc : WorkerPc} (hpc : (s.workers k).pc = pc) (hpop : pc.popping = false)
    (hlive : pc ≠ .exited) {w' : Worker} {stats' : Stats} {log' : List Event}
    (hplace : pc.SamePlace w'.pc) (hheld : (s.workers k).SameHoldings w')
    (hdropping : w'.pc = .dropping → s.cancelled = true)
    (hexited : w'.pc = .exited → log' = s.log ++ [.workerExited k])
    (hlog : LogGrows Event.byWorker s.log log') :
    WorkerMove s k { s with
      workers := Function.update s.workers k w', stats := stats', log := log' } :=
  .keep w' stats' log' (by rw [hpc]; exact hpop) (by rw [hpc]; exact hlive)
    (by rw [hpc]; exact hplace) hheld hdropping hexited hlog

/-- **Every step of a worker is a move.** -/
theorem of_step (h : WorkerStep cfg s k (s.workers k) s') : WorkerMove s k s' := by
  cases h with
  | pass hpc h =>
    obtain ⟨hpop, hlive, hplace, hdropping, hexited⟩ := h.spec
    exact of_keep hpc hpop hlive hplace ⟨rfl, rfl, rfl, rfl⟩ hdropping (fun h => absurd h hexited)
      .rfl
  | tick hpc | join hpc =>
    exact of_keep hpc rfl nofun ⟨rfl, rfl, rfl, rfl⟩ ⟨rfl, rfl, rfl, rfl⟩ nofun nofun .rfl
  | idleEnds hpc =>
    exact of_keep hpc rfl nofun ⟨rfl, rfl, rfl, rfl⟩ ⟨rfl, rfl, rfl, rfl⟩ nofun nofun .rfl
  | access hpc hring => exact .access _ (by rw [hpc]; rfl) hring
  | took hpc hring h =>
    subst hpc
    obtain ⟨hpop, hemptied, hitems, hdrain⟩ := h.spec
    exact .took _ _ _ hpop hemptied hring rfl rfl rfl rfl hitems hdrain
  | stops hpc hring hresult h =>
    subst hpc
    obtain ⟨hpop, hemptied, hitems, hout, hdrain, hstay⟩ := h.spec
    exact .empty _ _ _ hpop hemptied hresult hring ⟨rfl, rfl, rfl, rfl⟩ hitems hout hdrain hstay
  | append hpc =>
    exact .append _ _ _ (by rw [hpc]; rfl) rfl (by rw [hpc]; rfl) rfl rfl rfl rfl
      (by rw [hpc]; cases ‹PopJob› <;> rfl) nofun
  | count hpc hentries _ _ h =>
    subst hentries
    obtain ⟨hgone, hemptied, hitems, hdrain, hstay⟩ := h.spec
    exact .count _ _ (by rw [hpc]; rfl) (by rw [hpc]; rfl) hgone hemptied (by rw [hpc]; rfl) hitems
      rfl rfl rfl rfl (by rw [hpc]; exact hdrain) hstay
  | joinChunk hpc | joinLast hpc | recordFailure hpc =>
    exact .export _ _ (by rw [hpc]; rfl) (by rw [hpc]; rfl) rfl (by rw [hpc]; rfl) rfl rfl rfl rfl
      rfl (by rw [hpc]; rfl) nofun
  | idleStarts hpc =>
    exact of_keep hpc rfl nofun ⟨rfl, rfl, rfl, rfl⟩ ⟨rfl, rfl, rfl, rfl⟩ nofun nofun (.emit rfl)
  | loopEnds hpc hwhy =>
    exact .loopEnds _ _ _ _ _ hpc rfl ⟨rfl, rfl, rfl, rfl⟩ rfl rfl (.inl ⟨rfl, hwhy⟩)
  | loopStops hpc hshort =>
    exact .loopEnds _ _ _ _ _ hpc rfl ⟨rfl, rfl, rfl, rfl⟩ rfl rfl (.inr ⟨rfl, hshort⟩)
  | ack hpc => exact .ack _ _ _ hpc rfl ⟨rfl, rfl, rfl, rfl⟩
  | drop hpc => exact .drop _ _ hpc rfl rfl rfl rfl rfl
  | leave hpc =>
    exact of_keep hpc rfl nofun ⟨rfl, rfl, rfl, rfl⟩ ⟨rfl, rfl, rfl, rfl⟩ nofun (fun _ => rfl)
      (.emit rfl)

theorem of_workerStep (h : workerStep cfg s k ch = some s') : WorkerMove s k s' :=
  of_step (.of_workerStep h)

theorem of_startExport {e : ℕ} (h : startExport cfg s k e = some s') : WorkerMove s k s' := by
  obtain ⟨job, status, hpc, -, rfl⟩ := startExport_some h
  refine of_keep hpc rfl nofun ?_ ⟨rfl, rfl, rfl, rfl⟩ nofun nofun (.emit rfl)
  cases job <;> exact ⟨rfl, rfl, rfl, rfl⟩

theorem of_finishExport {e : ℕ} {failed : Bool} (h : finishExport s k e failed = some s') :
    WorkerMove s k s' := by
  obtain ⟨job, status, errors, exporterErrors, hpc, -, rfl⟩ := finishExport_some h
  refine of_keep hpc rfl nofun ?_ ⟨rfl, rfl, rfl, rfl⟩ nofun nofun (.emit rfl)
  cases job <;> exact ⟨rfl, rfl, rfl, rfl⟩

/-- What it writes to the log. -/
theorem log (h : WorkerMove s k s') : LogGrows Event.ofWorker s.log s'.log := by
  cases h with
  | keep _ _ _ _ _ _ _ _ _ hlog =>
    refine hlog.mono fun e he => ?_
    cases e <;> first | exact he | rfl
  | loopEnds _ n _ _ _ _ _ _ _ _ hwhy =>
    rcases hwhy with ⟨rfl, -⟩ | ⟨rfl, -⟩
    · exact .rfl
    · exact .emit rfl
  | _ => exact .rfl

/-- A drain is logged as stopped by the step in which it stops short. -/
theorem stopped (h : WorkerMove s k s') {c : Caller} {j : ℕ} (hmem : .drainStopped c j ∈ s'.log) :
    .drainStopped c j ∈ s.log ∨ ∃ request n err, (s.workers k).pc = .drainLoop request n err ∧
      request.caller = c ∧ stopsShort s request n = true := by
  cases h with
  | keep _ _ _ _ _ _ _ _ _ hlog => exact .inl (hlog.mem (.refl _) hmem)
  | loopEnds request n err _ _ hpc _ _ _ _ hwhy =>
    rcases hwhy with ⟨rfl, -⟩ | ⟨rfl, hshort⟩
    · exact .inl hmem
    · refine (List.mem_append.mp hmem).imp_right fun hnew => ?_
      cases List.mem_singleton.mp hnew
      exact ⟨request, n, err, hpc, rfl, hshort⟩
  | _ => exact .inl hmem

theorem recorders (h : WorkerMove s k s') : s'.recorders = s.recorders := by cases h <;> rfl

theorem workers_ne (h : WorkerMove s k s') {j : ℕ} (hj : j ≠ k) : s'.workers j = s.workers j := by
  cases h <;> first | rfl | exact Function.update_of_ne hj ..

end WorkerMove

end ConvoyStats.Pipeline
