import ConvoyStats.Pipeline.Handshake
import Mathlib.Data.List.Infix

/-!
# The barrier

A call of `Flush` or `Shutdown` notes the write position it starts at, its mark.
The claim behind `broadcast` is that once every worker has acknowledged, every
position below the mark has been claimed and everything the workers have claimed
below it has been exported, although each drain pops at most one ring capacity and
workers that have acknowledged go on popping.

`Grows` says what every step of the pipeline only adds to.  Three invariants are
then kept side by side:

* `Marks`: a mark is a past write position and a past drop count.
* `Draining`: a drain that has popped `n` items has moved `readPos` by `n`, so after
  one capacity, or on an empty ring, `readPos` is past the mark.
* `Acked`: what a worker had taken below the mark of a call it has acknowledged is
  exported, and nothing it takes later is below that mark.
-/

namespace ConvoyStats.Pipeline

open Function List Transport

/-! ### What every step only adds to -/

/-- What every step of the ring only adds to. -/
structure RingGrows (ring ring' : World Goroutine ℕ) : Prop where
  capacity : ring'.ring.capacity = ring.ring.capacity
  readPos : ring.ring.readPos ≤ ring'.ring.readPos
  writePos : ring.ring.writePos ≤ ring'.ring.writePos
  history : ring.history <+: ring'.history
  claimed : ∀ call p, .effect call (.claimed p) ∈ ring'.history →
    .effect call (.claimed p) ∈ ring.history ∨ p = ring.ring.readPos

theorem RingGrows.rfl {ring : World Goroutine ℕ} : RingGrows ring ring :=
  ⟨.refl _, le_rfl, le_rfl, prefix_rfl, fun _ _ => Or.inl⟩

theorem RingGrows.of_advances {ring ring' : World Goroutine ℕ} {g : Goroutine}
    (h : ring.Advances g ring') : RingGrows ring ring' :=
  ⟨h.capacity, h.readPos_le, h.writePos_le, h.history,
    fun call p hmem => (h.claimed call p hmem).imp id And.right⟩

/-- What every step of a worker only adds to. -/
structure WorkerGrows (taken : DropReason → ℕ) (w w' : Worker) : Prop where
  exported : w.exported <+: w'.exported
  intake : w.intake <+: w'.intake
  /-- A new drop count starts where the counts taken so far end. -/
  counted : ∀ reason first count, .dropCount reason first count ∈ w'.intake →
    .dropCount reason first count ∈ w.intake ∨ first = taken reason

theorem WorkerGrows.of_eq {taken : DropReason → ℕ} {w w' : Worker}
    (hexported : w'.exported = w.exported) (hintake : w'.intake = w.intake) :
    WorkerGrows taken w w' :=
  ⟨hexported ▸ prefix_rfl, hintake ▸ prefix_rfl, fun _ _ _ h => Or.inl (hintake ▸ h)⟩

/-- **What every step only adds to.** -/
structure Grows (s s' : State) : Prop where
  ring : RingGrows s.ring s'.ring
  taken : ∀ reason, s.taken reason ≤ s'.taken reason
  drops : ∀ reason, s.taken reason + s.pending reason ≤ s'.taken reason + s'.pending reason
  log : s.log <+: s'.log
  workers : ∀ k, WorkerGrows s.taken (s.workers k) (s'.workers k)
  marks : ∀ c,
    (s'.calls c).mark = (s.calls c).mark ∧ (s'.calls c).counted = (s.calls c).counted ∨
    (s.calls c).pc.early ∧ (s'.calls c).mark = s.ring.ring.writePos ∧
      (s'.calls c).counted = fun reason => s.taken reason + s.pending reason

namespace Grows

variable {cfg : Config} {s s' : State}

/-- A step of worker `k` that takes no drop counts. -/
theorem of_worker {k : ℕ} {w' : Worker} (hring : RingGrows s.ring s'.ring)
    (hworkers : s'.workers = update s.workers k w')
    (hw : WorkerGrows s.taken (s.workers k) w') (htaken : s'.taken = s.taken)
    (hpending : s'.pending = s.pending) (hlog : s.log <+: s'.log)
    (hmarks : ∀ c, (s'.calls c).mark = (s.calls c).mark ∧
      (s'.calls c).counted = (s.calls c).counted) : Grows s s' where
  ring := hring
  taken := fun reason => by rw [htaken]
  drops := fun reason => by rw [htaken, hpending]
  log := hlog
  workers := by
    intro j
    rcases update_cases hworkers j with ⟨rfl, hj⟩ | ⟨-, hj⟩ <;> rw [hj]
    · exact hw
    · exact .of_eq rfl rfl
  marks := fun c => Or.inl (hmarks c)

theorem recorder {r : ℕ} (hu : RingUse cfg s) (h : RecorderMove cfg s r s') : Grows s s' := by
  have hring := RingGrows.of_advances (h.advances hu.ring.sound)
  have hsame : ∀ k, WorkerGrows s.taken (s.workers k) (s.workers k) := fun _ => .of_eq rfl rfl
  have hlog := h.log.le
  cases h with
  | control _ _ _ _ _ _ _ _ hpending =>
    exact ⟨hring, fun _ => le_rfl, fun reason => Nat.add_le_add_left (hpending reason) _, hlog,
      hsame, fun _ => Or.inl ⟨rfl, rfl⟩⟩
  | access | pushed =>
    exact ⟨hring, fun _ => le_rfl, fun _ => le_rfl, hlog, hsame, fun _ => Or.inl ⟨rfl, rfl⟩⟩

theorem worker {k : ℕ} (hu : RingUse cfg s) (h : WorkerMove s k s') : Grows s s' := by
  have hring := RingGrows.of_advances (h.advances hu.ring.sound)
  have hmarks : ∀ c : Caller, (s'.calls c).mark = (s.calls c).mark ∧
      (s'.calls c).counted = (s.calls c).counted := by
    intro c
    obtain ⟨done, hcall⟩ := h.calls_same c
    rw [hcall]
    exact ⟨rfl, rfl⟩
  have hlog := h.log.le
  cases h with
  | access =>
    exact .of_worker hring (update_eq_self k s.workers).symm (.of_eq rfl rfl) rfl rfl hlog hmarks
  | took x _ _ _ _ _ hintake _ hexported =>
    refine .of_worker hring rfl ?_ rfl rfl hlog hmarks
    refine ⟨hexported ▸ prefix_rfl, hintake ▸ prefix_append _ _, ?_⟩
    intro reason first count hmem
    rw [hintake] at hmem
    simpa using Or.inl hmem
  | keep _ _ _ _ _ _ hheld | empty _ _ _ _ _ _ _ hheld | loopEnds _ _ _ _ _ _ _ hheld
  | ack _ _ _ _ _ hheld =>
    exact .of_worker hring rfl (.of_eq hheld.exported hheld.intake) rfl rfl hlog hmarks
  | append _ _ _ _ _ _ _ hintake hexported | drop _ _ _ _ _ _ hintake hexported =>
    exact .of_worker hring rfl (.of_eq hexported hintake) rfl rfl hlog hmarks
  | count reason w' hpop hlive hgone hemptied hitems hitems' hbatch hintake hexported hlost
      hdrain =>
    refine ⟨hring, RecorderMove.le_update_add s.taken reason (s.pending reason), fun q => ?_,
      hlog, fun j => ?_, fun c => Or.inl (hmarks c)⟩
    · by_cases hq : q = reason
      · subst hq
        simp
      · simp [hq]
    · by_cases hj : j = k
      · subst hj
        simp only [update_self]
        refine ⟨hexported ▸ prefix_rfl, hintake ▸ prefix_append _ _, ?_⟩
        intro q first count hmem
        rw [hintake, mem_append] at hmem
        refine hmem.imp id fun hnew => ?_
        unfold dropEntries at hnew
        split at hnew
        · cases hnew
        · cases mem_singleton.mp hnew
          rfl
      · simpa [hj] using WorkerGrows.of_eq rfl rfl
  | «export» _ _ _ _ _ _ _ _ hexported hintake =>
    refine .of_worker hring rfl ?_ rfl rfl hlog hmarks
    exact ⟨hexported ▸ prefix_append _ _, hintake ▸ prefix_rfl,
      fun _ _ _ h => Or.inl (hintake ▸ h)⟩

/-- **Every step grows.** -/
theorem of_step (hu : RingUse cfg s) (h : StepMove cfg s s') : Grows s s' := by
  cases h with
  | recorder h => exact recorder hu h
  | worker hk h => exact worker hu h
  | @caller c s' h =>
    have h := CallerFrame.of_move h
    refine ⟨h.ring ▸ .rfl, fun _ => by rw [h.taken], fun _ => by rw [h.taken, h.pending],
      h.log.le, fun k => by rw [h.workers]; exact .of_eq rfl rfl, fun c' => ?_⟩
    by_cases hc : c' = c
    · subst hc
      exact h.marks
    · rw [h.others c' hc]
      exact Or.inl ⟨rfl, rfl⟩
  | request c k _ hcall =>
    exact .of_worker (k := k) .rfl rfl (.of_eq rfl rfl) rfl rfl prefix_rfl fun c' =>
      ⟨congr_of_update Call.mark (by rfl) (by rfl) c',
        congr_of_update Call.counted (by rfl) (by rfl) c'⟩
  | tick k =>
    exact .of_worker (k := k) .rfl rfl (.of_eq rfl rfl) rfl rfl prefix_rfl fun _ => ⟨rfl, rfl⟩
  | contextEnds c =>
    exact ⟨.rfl, fun _ => le_rfl, fun _ => le_rfl, prefix_append _ _, fun _ => .of_eq rfl rfl,
      fun c' => Or.inl ⟨congr_of_update Call.mark (by rfl) (by rfl) c',
        congr_of_update Call.counted (by rfl) (by rfl) c'⟩⟩

/-- The marks of a call that has sent a request stay. -/
theorem marks_of_sent (hg : Grows s s') {c : Caller} {k : ℕ} (h : (s.calls c).pc.Sent k) :
    (s'.calls c).mark = (s.calls c).mark ∧ (s'.calls c).counted = (s.calls c).counted := by
  refine (hg.marks c).resolve_right ?_
  rintro ⟨hearly, -⟩
  cases hpc : (s.calls c).pc <;> rw [hpc] at h hearly <;> first | exact h | cases hearly

end Grows

/-! ### The drain of one worker -/

/-- **How far the drain of worker `k` has come.** -/
structure Draining (s : State) (k : ℕ) : Prop where
  /-- The items popped by the drain, with the one in hand, have moved `readPos`. -/
  looping : ∀ c n, (s.workers k).pc.drain = .looping c n →
    (s.calls c).mark ≤ s.ring.ring.readPos ∨
      (s.calls c).mark + n + s.ring.inHand (.worker k) ≤
        s.ring.ring.readPos + s.ring.ring.capacity
  /-- A `Pop` about to report an empty ring has seen `readPos` past the mark. -/
  empty : ∀ c n op, (s.workers k).pc.drain = .looping c n →
    (s.ring.threads (.worker k)).running = some (op, .ret (.pop none)) →
    (s.calls c).mark ≤ s.ring.ring.readPos
  past : ∀ c swapped, (s.workers k).pc.drain = .past c swapped →
    ((s.calls c).mark ≤ s.ring.ring.readPos ∨ .drainStopped c k ∈ s.log) ∧
      ∀ reason ∈ swapped, (s.calls c).counted reason ≤ s.taken reason

namespace Draining

variable {cfg : Config} {s s' : State} {k : ℕ}

/-- The marks of the request a worker serves stay. -/
theorem marks_eq (hh : Handshake cfg s) (hg : Grows s s') {c : Caller}
    (h : (s.workers k).pc.drain.caller = some c) :
    (s'.calls c).mark = (s.calls c).mark ∧ (s'.calls c).counted = (s.calls c).counted :=
  hg.marks_of_sent (hh.serving c k h).1

/-- A worker that is where it was in its drain and in the ring. -/
theorem of_grows (hd : Draining s k) (hh : Handshake cfg s) (hg : Grows s s')
    (hdrain : (s'.workers k).pc.drain = (s.workers k).pc.drain)
    (hthread : s'.ring.threads (.worker k) = s.ring.threads (.worker k))
    (hhand : s'.ring.inHand (.worker k) = s.ring.inHand (.worker k)) : Draining s' k := by
  have hread := hg.ring.readPos
  refine ⟨?_, ?_, ?_⟩
  · intro c n hpc
    rw [hdrain] at hpc
    rw [(marks_eq hh hg (by rw [hpc]; rfl)).1, hhand, hg.ring.capacity]
    rcases hd.looping c n hpc with hle | hle
    · exact Or.inl (hle.trans hread)
    · exact Or.inr (hle.trans (Nat.add_le_add_right hread _))
  · intro c n op hpc hrun
    rw [hdrain] at hpc
    rw [hthread] at hrun
    rw [(marks_eq hh hg (by rw [hpc]; rfl)).1]
    exact (hd.empty c n op hpc hrun).trans hread
  · intro c swapped hpc
    rw [hdrain] at hpc
    obtain ⟨hmark, hcounted⟩ := marks_eq hh hg (c := c) (by rw [hpc]; rfl)
    rw [hmark, hcounted]
    obtain ⟨hpast, hdrops⟩ := hd.past c swapped hpc
    exact ⟨hpast.imp (·.trans hread) fun hstop => hg.log.subset hstop,
      fun reason hmem => (hdrops reason hmem).trans (hg.taken reason)⟩

/-- A worker outside any drain. -/
theorem of_none (h : (s.workers k).pc.drain = .none) : Draining s k := by
  refine ⟨?_, ?_, ?_⟩ <;> intros <;> rw [h] at * <;> contradiction

/-- A worker past its loop. -/
theorem of_past {c : Caller} (swapped : List DropReason)
    (h : (s.workers k).pc.drain = .past c swapped)
    (hpast : (s.calls c).mark ≤ s.ring.ring.readPos ∨ .drainStopped c k ∈ s.log)
    (hdrops : ∀ reason ∈ swapped, (s.calls c).counted reason ≤ s.taken reason) :
    Draining s k := by
  refine ⟨?_, ?_, ?_⟩
  · intro c' n hpc
    rw [h] at hpc
    cases hpc
  · intro c' n op hpc
    rw [h] at hpc
    cases hpc
  · intro c' swapped' hpc
    rw [h] at hpc
    cases hpc
    exact ⟨hpast, hdrops⟩

/-- An access of `Pop` moves `readPos` and the item in hand together. -/
theorem access {ring' : World Goroutine ℕ} (hd : Draining s k) (hu : RingUse cfg s)
    (hmark : ∀ c, (s.calls c).mark ≤ s.ring.ring.writePos)
    (hring : ringStep s.ring (.worker k) .pop = some (ring', none)) :
    Draining { s with ring := ring' } k := by
  have hadv := ringStep_advances hu.ring.sound hring
  refine ⟨?_, ?_, ?_⟩
  · intro c n hpc
    rcases hd.looping c n hpc with hle | hle
    · exact Or.inl (hle.trans hadv.readPos_le)
    · right
      change (s.calls c).mark + n + ring'.inHand (.worker k) ≤
        ring'.ring.readPos + ring'.ring.capacity
      rw [hadv.capacity]
      rcases ringStep_none hring with ⟨hidle, hstart⟩ | ⟨op, pc, hrun, rfl⟩
      · rw [hu.ring.sound.inHand_start hstart]
        have := hadv.readPos_le
        omega
      · have := hu.ring.sound.inHand_perform hrun
        omega
  · intro c n op hpc hrun'
    rcases ringStep_none hring with ⟨-, hstart⟩ | ⟨op', pc, hrun, rfl⟩
    · obtain ⟨-, rfl⟩ := World.start_eq_some hstart
      simp [Pc.start] at hrun'
    · obtain rfl : op' = .pop := hu.ring.running _ _ _ hrun
      have hret : (s.ring.ring.exec pc).2.1 = .ret (.pop none) := by
        simp only [World.perform, update_self, Option.some.injEq, Prod.mk.injEq] at hrun'
        exact hrun'.2
      refine le_trans ?_ hadv.readPos_le
      rcases hu.ring.sound.empty_of_perform hrun hret with rfl | hempty
      · exact hd.empty c n .pop hpc hrun
      · exact (hmark c).trans hempty
  · intro c swapped hpc
    obtain ⟨hpast, hdrops⟩ := hd.past c swapped hpc
    exact ⟨hpast.imp (·.trans hadv.readPos_le) id, hdrops⟩

/-- The end of a `Pop`: the item in hand becomes one of those popped, and an empty
ring ends the loop. -/
theorem finish {ring' : World Goroutine ℕ} {w' : Worker} {result : Result ℕ}
    (hd : Draining s k) (hu : RingUse cfg s)
    (hring : ringStep s.ring (.worker k) .pop = some (ring', some result))
    (hpopped : ∀ x, result = .pop (some x) → w'.pc.drain = (s.workers k).pc.drain.popped)
    (hempty : (∀ x, result ≠ .pop (some x)) → w'.pc.drain = (s.workers k).pc.drain ∨
      ∃ c n, (s.workers k).pc.drain = .looping c n ∧ w'.pc.drain = .past c []) :
    Draining { s with workers := update s.workers k w', ring := ring' } k := by
  obtain ⟨op, hrun, rfl⟩ := ringStep_some hring
  obtain rfl : op = .pop := hu.ring.running _ _ _ hrun
  have hhand := hu.ring.sound.inHand_finish hrun
  obtain ⟨item, rfl⟩ := result_of_pop (hu.ring.sound.ledger.running _ _ _ hrun)
  -- nothing is running any more
  have hidle : ∀ op', ((s.ring.finish (.worker k) .pop (.pop item)).threads
      (.worker k)).running ≠ some (op', .ret (.pop none)) := by
    simp [World.finish]
  have hlooping : ∀ c n, w'.pc.drain = .looping c n →
      (s.calls c).mark ≤ s.ring.ring.readPos ∨
        (s.calls c).mark + n ≤ s.ring.ring.readPos + s.ring.ring.capacity := by
    intro c n hpc
    cases item with
    | some x =>
      rw [hpopped x rfl] at hpc
      cases hold : (s.workers k).pc.drain with
      | none | past c' swapped => rw [hold] at hpc; cases hpc
      | looping c' m =>
        rw [hold] at hpc
        cases hpc
        have := hu.ring.sound.inHand_popped hrun
        rcases hd.looping c m hold with hle | hle
        · exact Or.inl hle
        · exact Or.inr (by omega)
    | none =>
      rcases hempty (by simp) with hsame | ⟨c', m, -, hpast⟩
      · rw [hsame] at hpc
        exact Or.inl (hd.empty c n .pop hpc hrun)
      · rw [hpast] at hpc
        cases hpc
  refine ⟨?_, ?_, ?_⟩
  · intro c n hpc
    simp only [update_self] at hpc
    change _ ∨ (s.calls c).mark + n + (s.ring.finish (.worker k) .pop (.pop item)).inHand
      (.worker k) ≤ s.ring.ring.readPos + s.ring.ring.capacity
    rw [hhand]
    exact hlooping c n hpc
  · intro c n op' _ hrun'
    exact absurd hrun' (hidle op')
  · intro c swapped hpc
    simp only [update_self] at hpc
    cases item with
    | some x =>
      rw [hpopped x rfl] at hpc
      cases hold : (s.workers k).pc.drain with
      | none | looping c' m => rw [hold] at hpc; cases hpc
      | past c' swapped' =>
        rw [hold] at hpc
        cases hpc
        exact hd.past c swapped hold
    | none =>
      rcases hempty (by simp) with hsame | ⟨c', m, hold, hpast⟩
      · rw [hsame] at hpc
        exact hd.past c swapped hpc
      · rw [hpast] at hpc
        cases hpc
        exact ⟨Or.inl (hd.empty c m .pop hold hrun), by simp⟩

/-- A step of the worker itself. -/
theorem worker (hd : Draining s k) (hu : RingUse cfg s) (hh : Handshake cfg s)
    (hmark : ∀ c, (s.calls c).mark ≤ s.ring.ring.writePos)
    (hcounted : ∀ c reason, (s.calls c).counted reason ≤ s.taken reason + s.pending reason)
    (h : WorkerMove s k s') : Draining s' k := by
  have hg := Grows.worker hu h
  cases h with
  | keep _ _ _ _ _ hplace =>
    exact hd.of_grows hh hg (by simpa using hplace.drain) rfl rfl
  | access ring' hpop hring => exact hd.access hu hmark hring
  | took x _ _ _ _ hring _ _ _ _ _ hdrain =>
    exact hd.finish hu hring (fun _ _ => hdrain) fun hne => absurd rfl (hne x)
  | empty _ _ _ _ _ hresult hring _ _ _ hdrain =>
    exact hd.finish hu hring (fun x hx => absurd hx (hresult x)) fun _ => hdrain
  | append x _ _ _ _ _ _ _ _ _ hdrain =>
    exact hd.of_grows hh hg (by simpa using hdrain) rfl rfl
  | count reason w' hpop hlive hgone hemptied hitems hitems' hbatch hintake hexported hlost
      hdrain =>
      cases hold : (s.workers k).pc.drain with
      | none =>
        refine of_none ?_
        simp [hdrain, hold, Drain.swap]
      | looping c n =>
        exact hd.of_grows hh hg (by simp [hdrain, hold, Drain.swap]) rfl rfl
      | past c swapped =>
        obtain ⟨hpast, hdrops⟩ := hd.past c swapped hold
        refine of_past (c := c) (swapped ++ [reason]) ?_ hpast ?_
        · simp [hdrain, hold, Drain.swap]
        · intro reason' hmem
          rcases mem_append.mp hmem with hmem | hmem
          · exact (hdrops reason' hmem).trans (hg.taken reason')
          · cases mem_singleton.mp hmem
            simpa using hcounted c reason
  | «export» _ _ _ _ _ _ _ _ _ _ _ hdrain =>
    exact hd.of_grows hh hg (by simpa using hdrain) rfl rfl
  | loopEnds request n _ _ _ hpc _ _ _ hdrain hwhy =>
    refine of_past (c := request.caller) [] (by simpa using hdrain) ?_ nofun
    rcases hwhy with ⟨rfl, hwhy⟩ | ⟨rfl, -⟩
    · -- one capacity has been popped, or the ring has been read far enough
      rcases hwhy with hcap | hle
      · rcases hd.looping request.caller n (by rw [hpc]; rfl) with hle | hle
        · exact Or.inl hle
        · left
          change (s.calls request.caller).mark ≤ s.ring.ring.readPos
          omega
      · exact Or.inl hle
    · exact Or.inr (mem_append_right _ (mem_singleton_self _))
  | ack _ _ _ _ hpc' =>
    refine of_none ?_
    simp only [update_self, hpc']
    split <;> rfl
  | drop _ _ _ hpc' =>
    refine of_none ?_
    simp only [update_self, hpc']
    rfl

end Draining

/-! ### What an acknowledgement is worth -/

/-- Everything worker `k` has claimed below position `m` is exported. -/
def Delivered (s : State) (k m : ℕ) : Prop :=
  ∀ n p, .effect (.worker k, n) (.claimed p) ∈ s.ring.history → p < m →
    ∃ x, .effect (.worker k, n) (.obtained p (some x)) ∈ s.ring.history ∧
      .observation x ∈ (s.workers k).exported.flatten

/-- Every drop worker `k` has taken with a number below `counted` is exported. -/
def DropsDelivered (s : State) (k : ℕ) (counted : DropReason → ℕ) : Prop :=
  ∀ reason first count, .dropCount reason first count ∈ (s.workers k).intake →
    first < counted reason → .dropCount reason first count ∈ (s.workers k).exported.flatten

/-- **What the acknowledgement of worker `k` is worth to the call `c`.** -/
structure AckOk (s : State) (c : Caller) (k : ℕ) : Prop where
  observations : .drainStopped c k ∈ s.log ∨
    (s.calls c).mark ≤ s.ring.ring.readPos ∧ Delivered s k (s.calls c).mark
  counted : ∀ reason, (s.calls c).counted reason ≤ s.taken reason
  drops : DropsDelivered s k (s.calls c).counted

namespace AckOk

variable {cfg : Config} {s s' : State} {c : Caller} {k : ℕ}

/-- It keeps its worth: later claims and later drop counts lie beyond the marks. -/
theorem of_grows (ha : AckOk s c k) (hg : Grows s s') (hsent : (s.calls c).pc.Sent k) :
    AckOk s' c k := by
  obtain ⟨hmark, hcounted⟩ := hg.marks_of_sent hsent
  have hflat : (s.workers k).exported.flatten ⊆ (s'.workers k).exported.flatten :=
    (List.IsPrefix.flatten (hg.workers k).exported).subset
  refine ⟨?_, ?_, ?_⟩
  · rcases ha.observations with hstop | ⟨hread, hdel⟩
    · exact Or.inl (hg.log.subset hstop)
    · right
      rw [hmark]
      refine ⟨hread.trans hg.ring.readPos, ?_⟩
      intro n p hclaim hp
      rcases hg.ring.claimed _ _ hclaim with hold | hnew
      · obtain ⟨x, hobt, hmem⟩ := hdel n p hold hp
        exact ⟨x, hg.ring.history.subset hobt, hflat hmem⟩
      · omega
  · intro reason
    rw [hcounted]
    exact (ha.counted reason).trans (hg.taken reason)
  · intro reason first count hmem hlt
    rw [hcounted] at hlt
    rcases (hg.workers k).counted reason first count hmem with hold | hnew
    · exact hflat (ha.drops reason first count hold hlt)
    · have := ha.counted reason
      omega

/-- A worker about to acknowledge has exported all it has taken. -/
theorem of_ack {request : Request} {err : Err} (hu : RingUse cfg s) (hd : Draining s k)
    (hacc : (s.workers k).Accounts) (hpc : (s.workers k).pc = .ack request err) :
    AckOk s request.caller k := by
  have hpast := hd.past request.caller [.labelLimit, .seriesLimit] (by rw [hpc]; rfl)
  have hall : (s.workers k).intake = (s.workers k).exported.flatten := by
    rw [hacc.intake, Worker.undelivered, hacc.lost (by rw [hpc]; rfl),
      hacc.emptied (by rw [hpc]; rfl), hpc]
    simp [WorkerPc.items]
  refine ⟨?_, ?_, ?_⟩
  · rcases hpast.1 with hread | hstop
    · refine Or.inr ⟨hread, fun n p hclaim _ => ?_⟩
      obtain ⟨x, hobt, hmem⟩ := hu.intake_of_claimed (by rw [hpc]; rfl) hclaim
      exact ⟨x, hobt, hall ▸ hmem⟩
    · exact Or.inl hstop
  · intro reason
    cases reason
    · exact hpast.2 _ (by simp)
    · exact hpast.2 _ (by simp)
  · exact fun reason first count hmem _ => hall ▸ hmem

end AckOk

/-- A new acknowledgement comes from a worker at its end of the drain. -/
theorem acked_cases {cfg : Config} {s s' : State} {c : Caller} {k : ℕ} (h : StepMove cfg s s')
    (hk : k ∈ (s'.calls c).acked) :
    k ∈ (s.calls c).acked ∨
      ∃ request err, request.caller = c ∧ (s.workers k).pc = .ack request err := by
  rcases h.acked_cases with hsame | ⟨j, request, err, hpc, hacked⟩
  · rw [hsame] at hk
    exact .inl hk
  · rw [hacked, mem_append] at hk
    refine hk.imp_right fun hnew => ?_
    split at hnew
    · cases mem_singleton.mp hnew
      exact ⟨request, err, (‹c = _›).symm, hpc⟩
    · cases hnew

/-! ### The invariant -/

/-- **The barrier.** -/
structure Barrier (cfg : Config) (s : State) : Prop where
  mark_le : ∀ c, (s.calls c).mark ≤ s.ring.ring.writePos
  counted_le : ∀ c reason, (s.calls c).counted reason ≤ s.taken reason + s.pending reason
  draining : ∀ k, Draining s k
  acked : ∀ c k, k ∈ (s.calls c).acked → AckOk s c k
  /-- Every drop taken from the pending counts is with some worker. -/
  taken : ∀ reason u, u < s.taken reason → ∃ k < cfg.workers, ∃ first count,
    .dropCount reason first count ∈ (s.workers k).intake ∧ first ≤ u ∧ u < first + count

namespace Barrier

variable {cfg : Config} {s s' : State}

theorem init : Barrier cfg (State.init cfg) where
  mark_le := fun _ => le_rfl
  counted_le := fun _ _ => le_rfl
  draining := fun _ => .of_none rfl
  acked := nofun
  taken := nofun

/-- The drain of each worker after a step. -/
theorem draining_step (hb : Barrier cfg s) (hu : RingUse cfg s) (hh : Handshake cfg s)
    (h : StepMove cfg s s') (k : ℕ) : Draining s' k := by
  have hg := Grows.of_step hu h
  have hd := hb.draining k
  cases h with
  | recorder h =>
    have hadv := h.advances hu.ring.sound
    exact hd.of_grows hh hg (by cases h <;> rfl) (hadv.others (.worker k) nofun)
      (hadv.inHand_ne (.worker k) nofun)
  | @worker j s' _ h =>
    by_cases hk : k = j
    · subst hk
      exact hd.worker hu hh hb.mark_le hb.counted_le h
    · -- another worker moved
      have hadv := h.advances hu.ring.sound
      have hne : Goroutine.worker k ≠ .worker j := by simpa using hk
      exact hd.of_grows hh hg (by rw [h.workers_ne hk]) (hadv.others _ hne) (hadv.inHand_ne _ hne)
  | caller h =>
    have h := CallerFrame.of_move h
    exact hd.of_grows hh hg (by rw [h.workers]) (by rw [h.ring]) (by rw [h.ring])
  | request c j _ _ hworker =>
    by_cases hk : k = j
    · subst hk
      have hidle : (s.ring.threads (.worker k)).running = none := by
        by_contra hrun
        have := (hu.workers k).popping hrun
        rw [hworker] at this
        cases this
      refine ⟨?_, ?_, ?_⟩
      · intro c' n hpc
        simp only [update_self, WorkerPc.drain, Drain.looping.injEq] at hpc
        obtain ⟨rfl, rfl⟩ := hpc
        right
        simp only [update_self]
        rw [hu.ring.sound.inHand_idle hidle]
        exact (hb.mark_le _).trans hu.ring.sound.writePos_le
      · intro c' n op _ hrun
        exact absurd hrun (by simp [hidle])
      · intro c' swapped hpc
        simp [WorkerPc.drain] at hpc
    · exact hd.of_grows hh hg (by simp [hk]) rfl rfl
  | tick j =>
    exact hd.of_grows hh hg (congr_of_update (fun w : Worker => w.pc.drain) (by rfl) (by rfl) k) rfl
      rfl
  | contextEnds c => exact hd.of_grows hh hg rfl rfl rfl

/-- The drop counts after a step. -/
theorem taken_step (hb : Barrier cfg s) (hu : RingUse cfg s) (h : StepMove cfg s s')
    (reason : DropReason) (u : ℕ) (hu' : u < s'.taken reason) : ∃ k < cfg.workers, ∃ first count,
    .dropCount reason first count ∈ (s'.workers k).intake ∧ first ≤ u ∧ u < first + count := by
  have hg := Grows.of_step hu h
  -- a drop that was already taken
  have hold : u < s.taken reason → ∃ k < cfg.workers, ∃ first count,
      .dropCount reason first count ∈ (s'.workers k).intake ∧ first ≤ u ∧ u < first + count := by
    intro hlt
    obtain ⟨k, hk, first, count, hmem, hrange⟩ := hb.taken reason u hlt
    exact ⟨k, hk, first, count, (hg.workers k).intake.subset hmem, hrange⟩
  cases h with
  | recorder h => cases h <;> exact hold hu'
  | @worker k _ hk h =>
    cases h <;> try exact hold hu'
    case count q w' hpop hlive hgone hemptied hitems hitems' hbatch hintake hexported hlost
        hdrain hstay =>
      by_cases hlt : u < s.taken reason
      · exact hold hlt
      by_cases hq : reason = q
      · subst hq
        simp only [update_self] at hu'
        refine ⟨k, hk, s.taken reason, s.pending reason, ?_, Nat.not_lt.mp hlt, hu'⟩
        have hne : s.pending reason ≠ 0 := by omega
        simp only [update_self]
        rw [hintake, dropEntries, if_neg hne]
        exact mem_append_right _ (mem_singleton_self _)
      · simp only [update_of_ne hq] at hu'
        exact absurd hu' hlt
  | caller h =>
    rw [(CallerFrame.of_move h).taken] at hu'
    exact hold hu'
  | request => exact hold hu'
  | tick => exact hold hu'
  | contextEnds => exact hold hu'

/-- **Every step keeps the barrier.** -/
theorem step (hb : Barrier cfg s) (hu : RingUse cfg s) (hh : Handshake cfg s)
    (hacc : ∀ k, (s.workers k).Accounts) (h : StepMove cfg s s') : Barrier cfg s' := by
  have hg := Grows.of_step hu h
  refine ⟨?_, ?_, hb.draining_step hu hh h, ?_, hb.taken_step hu h⟩
  · intro c
    rcases hg.marks c with ⟨hmark, -⟩ | ⟨-, hmark, -⟩
    · rw [hmark]
      exact (hb.mark_le c).trans hg.ring.writePos
    · rw [hmark]
      exact hg.ring.writePos
  · intro c reason
    rcases hg.marks c with ⟨-, hcounted⟩ | ⟨-, -, hcounted⟩
    · rw [hcounted]
      exact (hb.counted_le c reason).trans (hg.drops reason)
    · rw [hcounted]
      exact hg.drops reason
  · intro c k hk
    rcases acked_cases h hk with hold | ⟨request, err, rfl, hpc⟩
    · exact (hb.acked c k hold).of_grows hg (hh.acked c k hold).1
    · refine (AckOk.of_ack hu (hb.draining k) (hacc k) hpc).of_grows hg
        (hh.serving _ k ?_).1
      rw [State.serving, hpc]
      rfl

end Barrier

theorem barrier_of_reach {cfg : Config} {s : State} (h : (pipelineSystem cfg).Reach s) :
    Barrier cfg s :=
  h.invariant .init fun _ _ _ hr hb _ hstep =>
    hb.step (ringUse_of_reach hr) (handshake_of_reach hr) (accounts_of_reach hr) (.of_step hstep)

end ConvoyStats.Pipeline
