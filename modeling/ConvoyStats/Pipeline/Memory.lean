import ConvoyStats.Library.Totals
import ConvoyStats.Models.Metric
import ConvoyStats.Pipeline.Evictions

/-!
# The memory account

`memUsage` is raised by the size of a metric before it is pushed, and lowered by it when the
push fails, when the metric is appended to a worker's batch, or when it has been evicted.
These happen on different goroutines, and between the push and the subtraction the metric
passes from one to another; `Outstanding` lists where it can be in the meantime.

The account is kept on the other side: a reservation is outstanding if the call has made it
and nobody has subtracted it (`Reserved`).  Steps change that set by one observation at most,
and `memUsage` with it, which is all that `Totals` asks for.
-/

namespace ConvoyStats.Pipeline

open Function List Models Transport

/-! ### Outstanding reservations -/

/-- **The reservation of observation `x` is outstanding.** -/
inductive Outstanding (s : State) (x : ℕ) : Prop
  /-- Its `Record` call has reserved and not pushed it: the push is in progress or has
  failed. -/
  | reserved (hpc : (s.recorders x).pc.pushing ∨ (s.recorders x).pc = .rollback)
      (hpub : ∀ p, ¬ Published s.ring.history p x)
  | ring (h : At s x .ring)
  /-- The `Pop` of a worker has claimed it and has not returned. -/
  | popping (k n p : ℕ) (hclaim : .effect (.worker k, n) (.claimed p) ∈ s.ring.history)
      (hpub : Published s.ring.history p x) (hn : n = (s.ring.threads (.worker k)).finished)
  /-- A worker has popped it and not yet appended it to its batch. -/
  | popped (k : ℕ) (hmem : x ∈ (s.workers k).pc.items)
  /-- A `Record` call has evicted it: the push is in progress, or the call is about to
  subtract it. -/
  | evicting (r : ℕ) (htaken : TakenBy s x (.recorder r))
      (hpc : (s.recorders r).pc.pushing ∨ (s.recorders r).pc.evicting = some x)

/-- A worker has taken the observation and subtracted its size. -/
def Worker.Subtracted (w : Worker) (x : ℕ) : Prop := .observation x ∈ w.intake ∧ x ∉ w.pc.items

/-- The observation whose size `appendPopped` subtracts next. -/
def Worker.subtracting (w : Worker) : List ℕ :=
  match w.pc with
  | .append _ (x :: _) => [x]
  | _ => []

/-- The size of the observation has been subtracted by whoever took it. -/
def Subtracted (s : State) (x : ℕ) : Prop := Settled Worker.Subtracted s x

/-- The observations whose sizes a step subtracts after their push. -/
def subtracts (s : State) (l : Label) : List ℕ := settles Worker.subtracting s l

/-- The reservation has been made and not subtracted. -/
def Reserved (s : State) (x : ℕ) : Prop := (s.recorders x).pc.reserved ∧ ¬ Subtracted s x

section

variable {cfg : Config} {s s' : State} {k x : ℕ} {ch : Choice} {l : Label}

/-- The items a worker is about to append end what it has taken. -/
theorem items_nodup (hu : RingUse cfg s) (hw : ∀ k, (s.workers k).Accounts) (k : ℕ) :
    (s.workers k).pc.items.Nodup := by
  have hitems :
      observations ((s.workers k).pc.items.map .observation) = (s.workers k).pc.items := by
    rw [observations, filterMap_map]
    exact filterMap_some
  have hnodup := hu.intake_nodup k
  rw [(hw k).intake, Worker.undelivered, observations_append, observations_append, hitems] at hnodup
  exact hnodup.of_append_right.of_append_right

theorem intake_of_items (hw : ∀ k, (s.workers k).Accounts) (h : x ∈ (s.workers k).pc.items) :
    .observation x ∈ (s.workers k).intake :=
  intake_of_holding hw (mem_append_right _ (mem_map_of_mem h))

theorem published_of_takenBy {g : Goroutine} (h : TakenBy s x g) :
    ∃ p, Published s.ring.history p x := by
  obtain ⟨n, p, -, hpub⟩ := h
  exact ⟨p, hpub⟩

section

variable (hu : RingUse cfg s)
include hu

/-- What is or was in the ring has been reserved by its call. -/
theorem reserved_of_published (hrep : Reports s) {p : ℕ}
    (hpub : Published s.ring.history p x) : (s.recorders x).pc.reserved := by
  rcases hrep.of_published hu hpub with hpc | hpc
  · exact RecordPc.reserved_of_pushing hpc
  · exact RecordPc.reserved_of_accepted hpc

theorem Subtracted.published (h : Subtracted s x) :
    ∃ p, Published s.ring.history p x := by
  obtain ⟨g, htaken⟩ := Settled.takenBy hu (fun k hk => hk.1) h
  exact published_of_takenBy htaken

/-- An observation somebody has taken has been subtracted by that one or not at all. -/
theorem subtracted_iff_of_intake (h : .observation x ∈ (s.workers k).intake) :
    Subtracted s x ↔ x ∉ (s.workers k).pc.items := by
  constructor
  · rintro (⟨j, hj⟩ | ⟨r, n, hmem, -⟩)
    · obtain rfl := hu.intake_disjoint h hj.1
      exact hj.2
    · cases hu.takenBy_unique (hu.takenBy_of_intake h) (hu.takenBy_of_evicted hmem)
  · exact fun hitems => .inl ⟨k, h, hitems⟩

/-- **What is outstanding is what has been reserved and not subtracted.** -/
theorem outstanding_iff (hrep : Reports s) (hw : ∀ k, (s.workers k).Accounts) :
    Outstanding s x ↔ Reserved s x := by
  constructor
  · intro h
    cases h with
    | reserved hpc hpub =>
      refine ⟨?_, fun hsub => ?_⟩
      · rcases hpc with hpc | hpc
        · exact RecordPc.reserved_of_pushing hpc
        · rw [hpc]
          rfl
      · obtain ⟨p, hp⟩ := hsub.published hu
        exact hpub p hp
    | ring h =>
      cases h with
      | ring p hpub hread =>
        refine ⟨reserved_of_published hu hrep hpub, fun hsub => ?_⟩
        obtain ⟨g, htaken⟩ := Settled.takenBy hu (fun k hk => hk.1) hsub
        exact hu.not_takenBy hpub hread g htaken
    | popping k n p hclaim hpub hn =>
      refine ⟨reserved_of_published hu hrep hpub, ?_⟩
      rintro (⟨j, hj⟩ | ⟨r, m, hmem, -⟩)
      · cases hu.takenBy_unique ⟨n, p, hclaim, hpub⟩ (hu.takenBy_of_intake hj.1)
        exact absurd hn (hu.not_popping_of_intake hclaim hpub hj.1).ne
      · cases hu.takenBy_unique ⟨n, p, hclaim, hpub⟩ (hu.takenBy_of_evicted hmem)
    | popped k hmem =>
      have hintake := intake_of_items hw hmem
      obtain ⟨p, hpub⟩ := published_of_takenBy (hu.takenBy_of_intake hintake)
      exact ⟨reserved_of_published hu hrep hpub,
        fun hsub => (subtracted_iff_of_intake hu hintake).mp hsub hmem⟩
    | evicting r htaken hpc =>
      obtain ⟨p, hpub⟩ := published_of_takenBy htaken
      refine ⟨reserved_of_published hu hrep hpub, ?_⟩
      rintro (⟨j, hj⟩ | ⟨r', m, hmem, hdone⟩)
      · cases hu.takenBy_unique htaken (hu.takenBy_of_intake hj.1)
      · cases hu.takenBy_unique htaken (hu.takenBy_of_evicted hmem)
        rcases hpc with hpc | hpc
        · have hbefore := (hu.evicted_call hmem).2
          rw [RecordPc.before_of_pushing hpc] at hbefore
          cases hbefore
        · rw [hpc] at hdone
          cases hdone
  · rintro ⟨hres, hsub⟩
    by_cases hpub : ∃ p, Published s.ring.history p x
    · obtain ⟨p, hpub⟩ := hpub
      obtain ⟨place, hat⟩ := At.of_published hu hw hpub
      -- of the places past the ring, those where nothing has been subtracted
      have hitems : ∀ {k}, .observation x ∈ (s.workers k).intake → Outstanding s x := by
        intro k hintake
        exact .popped k (not_not.mp (mt (subtracted_iff_of_intake hu hintake).mpr hsub))
      cases hat with
      | ring p hpub hread => exact .ring (.ring p hpub hread)
      | popping k n p hclaim hpub hn => exact .popping k n p hclaim hpub hn
      | holding k hmem => exact hitems (intake_of_holding hw hmem)
      | handed k i _ hbatch hmem => exact hitems (intake_of_handed hw hbatch hmem)
      | discarded k hmem => exact hitems (intake_of_lost hw hmem)
      | evicted r htaken =>
        refine .evicting r htaken ?_
        obtain ⟨n, q, hclaim, hpub'⟩ := htaken
        rcases hu.ring.sound.returned_or_running hclaim with ⟨-, op, result, hret⟩ |
          ⟨-, op, pc, hrun⟩
        · right
          have hmem : ((.recorder r, n), x) ∈ evicted s.ring.history :=
            hu.evicted_of_claimed hclaim hpub' hret
          by_contra hne
          refine hsub (.inr ⟨r, n, hmem, ?_⟩)
          cases hev : (s.recorders r).pc.evicting with
          | none => rfl
          | some old =>
            obtain ⟨rfl, -⟩ := hu.evicted_call hmem
            rw [hu.evicted_inj (hrep.evicting r old hev) hmem] at hev
            exact absurd hev hne
        · exact .inl ((hu.recorders r).pushing (by rw [hrun]; nofun))
    · have hpub : ∀ p, ¬ Published s.ring.history p x := fun p hp => hpub ⟨p, hp⟩
      refine .reserved ?_ hpub
      rcases RecordPc.reserved_cases hres with hacc | hpc
      · obtain ⟨p, hp⟩ := hu.ring.sound.published_of_accepted ((hu.recorders x).accepted hacc)
        exact absurd ⟨_, hp⟩ (hpub p)
      · exact hpc

end

/-! ### What the steps do -/

/-- **A step of a worker** subtracts the size of the item it appends. -/
theorem workerStep_memUsage (h : workerStep cfg s k ch = some s') :
    s'.stats.memUsage = s.stats.memUsage -
      ((s.workers k).subtracting.map fun x => (s.recorders x).size).sum := by
  replace h := WorkerStep.of_workerStep h
  cases h with
  | pass hpc h | took hpc _ h | stops hpc _ _ h =>
    cases h <;> simp [Worker.subtracting, hpc, State.setWorker]
  | append hpc => simp [Worker.subtracting, hpc]
  | tick hpc | access hpc | count hpc | join hpc | joinChunk hpc | joinLast hpc | recordFailure hpc
  | idleEnds hpc | idleStarts hpc | loopEnds hpc | loopStops hpc | ack hpc | drop hpc | leave hpc =>
    simp [Worker.subtracting, hpc, State.setWorker, State.setCall, State.emit]

/-- **The worker has then dealt with that item**, and with no other. -/
theorem workerStep_subtracted (hu : RingUse cfg s) (hu' : RingUse cfg s')
    (hw : ∀ k, (s.workers k).Accounts) (h : workerStep cfg s k ch = some s') :
    (s'.workers k).Subtracted x ↔
      (s.workers k).Subtracted x ∨ x ∈ (s.workers k).subtracting := by
  by_cases happend : ∃ job y items, (s.workers k).pc = .append job (y :: items)
  · obtain ⟨job, y, items, hpc⟩ := happend
    have hitems : (s.workers k).pc.items = y :: items := by rw [hpc]; rfl
    have hnodup := items_nodup hu hw k
    rw [hitems, nodup_cons] at hnodup
    have hy := intake_of_items hw (hitems ▸ mem_cons_self)
    have hout : (s.workers k).subtracting = [y] := by simp [Worker.subtracting, hpc]
    have hw' : (s'.workers k).intake = (s.workers k).intake ∧ (s'.workers k).pc.items = items := by
      simp only [workerStep, hpc] at h
      cases h
      cases job <;> simp [appendStep, State.setWorker, Worker.push, WorkerPc.items]
    rw [Worker.Subtracted, Worker.Subtracted, hw'.1, hw'.2, hitems, hout, mem_singleton,
      mem_cons, not_or]
    constructor
    · rintro ⟨hmem, hrest⟩
      by_cases hxy : x = y
      · exact .inr hxy
      · exact .inl ⟨hmem, hxy, hrest⟩
    · rintro (⟨hmem, -, hrest⟩ | rfl)
      · exact ⟨hmem, hrest⟩
      · exact ⟨hy, hnodup.1⟩
  · have hout : (s.workers k).subtracting = [] := by
      unfold Worker.subtracting
      split
      · exact absurd ⟨_, _, _, ‹_›⟩ happend
      · rfl
    rw [hout]
    simp only [not_mem_nil, or_false]
    -- the same items and the same observations taken
    have hsame : ∀ {w' : Worker}, w'.pc.items = (s.workers k).pc.items →
        observations w'.intake = observations (s.workers k).intake →
        (w'.Subtracted x ↔ (s.workers k).Subtracted x) := by
      intro w' hitems hintake
      rw [Worker.Subtracted, Worker.Subtracted, hitems, ← mem_observations, ← mem_observations,
        hintake]
    have hmove := WorkerMove.of_workerStep h
    cases hmove with
    | keep _ _ _ _ _ hplace hheld =>
      simpa using hsame hplace.items (by rw [hheld.intake])
    | access => exact Iff.rfl
    | took y _ _ _ _ _ hintake _ _ _ hitems =>
      simp only [update_self]
      -- the item is new to the worker
      have hnodup := hu'.intake_nodup k
      simp only [update_self] at hnodup
      rw [hintake, observations_append] at hnodup
      have hnew : .observation y ∉ (s.workers k).intake := fun hmem =>
        disjoint_of_nodup_append hnodup (mem_observations.mpr hmem)
          (mem_observations.mpr mem_cons_self)
      rw [Worker.Subtracted, Worker.Subtracted, hintake, hitems]
      simp only [mem_append, mem_singleton, Entry.observation.injEq, not_or]
      constructor
      · rintro ⟨hmem | hxy, hrest, hne⟩
        · exact ⟨hmem, hrest⟩
        · exact absurd hxy hne
      · rintro ⟨hmem, hrest⟩
        refine ⟨.inl hmem, hrest, ?_⟩
        rintro rfl
        exact hnew hmem
    | empty _ _ _ _ _ _ _ hheld hitems =>
      simpa using hsame hitems (by rw [hheld.intake])
    | append y w' _ hpop _ hitems =>
      exfalso
      cases hpc : (s.workers k).pc with
      | append job items =>
        rw [hpc] at hitems
        obtain rfl : items = y :: w'.pc.items := hitems
        exact happend ⟨_, _, _, hpc⟩
      | pop =>
        rw [hpc] at hpop
        cases hpop
      | _ =>
        rw [hpc] at hitems
        cases hitems
    | count _ _ _ _ _ _ hitems hitems' _ hintake =>
      simpa using hsame (hitems'.trans hitems.symm) (by simp [hintake])
    | «export» _ _ _ _ _ hitems hitems' _ _ hintake =>
      simpa using hsame (hitems'.trans hitems.symm) (by rw [hintake])
    | loopEnds _ n _ _ _ hpc _ hheld hitems =>
      simpa using hsame (by rw [hitems, hpc]; rfl) (by rw [hheld.intake])
    | ack _ _ w' hpc hpc' hheld =>
      have hitems : w'.pc.items = (s.workers k).pc.items := by
        rw [hpc, hpc']
        split <;> rfl
      simpa using hsame hitems (by rw [hheld.intake])
    | drop _ _ hpc hpc' _ _ hintake =>
      simpa using hsame (by rw [hpc, hpc']; rfl) (by rw [hintake])

/-- **A step adds what it subtracts.** -/
theorem subtracted_step (hu : RingUse cfg s) (hu' : RingUse cfg s') (hrep : Reports s)
    (hw : ∀ k, (s.workers k).Accounts) (h : step cfg s l = some s') :
    Subtracted s' x ↔ Subtracted s x ∨ x ∈ subtracts s l := by
  refine Settled.step hu hrep h (fun k ch hstep => workerStep_subtracted hu hu' hw hstep) ?_ ?_
    fun w => Iff.rfl
  · intro w job status status' hpc
    simp [Worker.Subtracted, hpc, WorkerPc.items]
  · intro w request err hpc
    simp [Worker.Subtracted, hpc, WorkerPc.items]

/-- **What a step subtracts was outstanding.** -/
theorem reserved_of_subtracts (hu : RingUse cfg s) (hrep : Reports s)
    (hw : ∀ k, (s.workers k).Accounts) (hx : x ∈ subtracts s l) : Reserved s x := by
  -- the worker is about to append it
  have hout : ∀ k, x ∈ (s.workers k).subtracting → x ∈ (s.workers k).pc.items := by
    intro k hk
    unfold Worker.subtracting at hk
    split at hk
    · rename_i job y items hpc
      rw [mem_singleton.mp hk, hpc]
      exact mem_cons_self
    · cases hk
  have hnot : ¬ Subtracted s x := by
    refine Settled.fresh hu hrep (fun k hk => hk.1) (fun k hk => ?_) hx
    exact ⟨intake_of_items hw (hout k hk), fun hsub => hsub.2 (hout k hk)⟩
  refine ⟨?_, hnot⟩
  obtain ⟨g, htaken⟩ : ∃ g, TakenBy s x g := by
    cases l with
    | recorder r ch =>
      rw [subtracts, settles, Option.mem_toList] at hx
      exact ⟨_, hu.takenBy_of_evicted (hrep.evicting r x hx)⟩
    | worker k ch => exact ⟨_, hu.takenBy_of_intake (intake_of_items hw (hout k hx))⟩
    | _ => cases hx
  obtain ⟨p, hpub⟩ := published_of_takenBy htaken
  exact reserved_of_published hu hrep hpub

end

/-- The `Record` call `r` moves to another point, and no other call moves. -/
def Moved (s : State) (r : ℕ) (pc' : RecordPc) (s' : State) : Prop :=
  s'.recorders = update s.recorders r { s.recorders r with pc := pc' }

namespace Moved

variable {s s' : State} {r : ℕ} {pc' : RecordPc}

variable (h : Moved s r pc' s')
include h

theorem size (x : ℕ) : (s'.recorders x).size = (s.recorders x).size :=
  congr_of_update Recorder.size h rfl x

theorem reserved (x : ℕ) :
    (s'.recorders x).pc.reserved = if x = r then pc'.reserved else (s.recorders x).pc.reserved := by
  rcases update_cases h x with ⟨rfl, hx⟩ | ⟨hne, hx⟩ <;> rw [hx]
  · rw [if_pos rfl]
  · rw [if_neg hne]

theorem cas (hpc' : ∀ labels current, pc' ≠ .casMemory labels current)
    {x labels : ℕ} {current : ℤ} (hx : (s'.recorders x).pc = .casMemory labels current) :
    (s.recorders x).pc = .casMemory labels current := by
  rcases update_cases h x with ⟨rfl, hrec⟩ | ⟨-, hrec⟩ <;> rw [hrec] at hx
  · exact absurd hx (hpc' labels current)
  · exact hx

end Moved

/-- Every step of a call moves it. -/
theorem MemoryMove.moved {cfg : Config} {s s' : State} {r : ℕ} (h : MemoryMove cfg s r s') :
    ∃ pc', Moved s r pc' s' := by
  cases h with
  | reserve _ _ hs' | rollback _ hs' | release _ _ _ hs' | pushed _ _ _ _ _ hs' =>
    exact ⟨_, by rw [hs']; rfl⟩
  | other pc' hrec => exact ⟨pc', hrec⟩
  | access _ _ _ hs' => exact ⟨_, by rw [hs']; exact (update_eq_self r s.recorders).symm⟩

/-! ### The account -/

/-- **The memory account.** -/
structure MemoryAccount (cfg : Config) (s : State) : Prop where
  totals : Totals (Reserved s) (fun x => (s.recorders x).size) s.stats.memUsage
  le : s.stats.memUsage ≤ cfg.maxMemoryBytes
  /-- A reservation in progress fits. -/
  cas : ∀ r labels current, (s.recorders r).pc = .casMemory labels current →
    current + (s.recorders r).size ≤ cfg.maxMemoryBytes
  size_nonneg : ∀ r, 0 ≤ (s.recorders r).size

namespace MemoryAccount

variable {cfg : Config} {s s' : State} {l : Label}

theorem init (hmax : 0 < cfg.maxMemoryBytes) : MemoryAccount cfg (State.init cfg) where
  totals := .of_empty fun _ h => absurd h.1 Bool.false_ne_true
  le := hmax.le
  cas := nofun
  size_nonneg := fun _ => le_rfl

section

variable (ha : MemoryAccount cfg s)
include ha

/-- Neither the reservations nor the account have changed. -/
theorem of_same (hrec : s'.recorders = s.recorders)
    (hmem : s'.stats.memUsage = s.stats.memUsage)
    (hsub : ∀ x, Subtracted s' x ↔ Subtracted s x) : MemoryAccount cfg s' where
  totals := by
    rw [hmem]
    refine ha.totals.congr (fun x => ?_) fun x _ => by rw [hrec]
    rw [Reserved, Reserved, hrec, hsub]
  le := hmem ▸ ha.le
  cas := by rw [hrec]; exact ha.cas
  size_nonneg := by rw [hrec]; exact ha.size_nonneg

/-- A `Record` call moves on with its reservation as it is. -/
theorem of_recorder {r : ℕ} {rec' : Recorder}
    (hrec : s'.recorders = update s.recorders r rec')
    (hsize : rec'.size = (s.recorders r).size ∨ (s.recorders r).pc.reserved = false)
    (hnonneg : 0 ≤ rec'.size) (hreserved : rec'.pc.reserved = (s.recorders r).pc.reserved)
    (hcas : ∀ labels current, rec'.pc = .casMemory labels current →
      current + rec'.size ≤ cfg.maxMemoryBytes)
    (hmem : s'.stats.memUsage = s.stats.memUsage)
    (hsub : ∀ x, Subtracted s' x ↔ Subtracted s x) : MemoryAccount cfg s' where
  totals := by
    rw [hmem]
    refine ha.totals.congr (fun x => ?_) fun x hx => ?_
    · rw [Reserved, Reserved, hsub,
        congr_of_update (fun rec : Recorder => rec.pc.reserved) hrec hreserved]
    · rcases update_cases hrec x with ⟨rfl, hxr⟩ | ⟨-, hxr⟩ <;> rw [hxr]
      refine hsize.resolve_right fun hfalse => ?_
      rw [hx.1] at hfalse
      cases hfalse
  le := hmem ▸ ha.le
  cas := by
    intro r' labels current hpc
    rcases update_cases hrec r' with ⟨rfl, hr⟩ | ⟨-, hr⟩ <;> rw [hr] at hpc ⊢
    · exact hcas labels current hpc
    · exact ha.cas r' labels current hpc
  size_nonneg := by
    intro r'
    rcases update_cases hrec r' with ⟨rfl, hr⟩ | ⟨-, hr⟩ <;> rw [hr]
    · exact hnonneg
    · exact ha.size_nonneg r'

/-- A reservation is subtracted. -/
theorem of_lose {x : ℕ} (hx : Reserved s x)
    (hsize : ∀ y, (s'.recorders y).size = (s.recorders y).size)
    (hcas : ∀ y labels current, (s'.recorders y).pc = .casMemory labels current →
      (s.recorders y).pc = .casMemory labels current)
    (hiff : ∀ y, Reserved s' y ↔ Reserved s y ∧ y ≠ x)
    (hmem : s'.stats.memUsage = s.stats.memUsage - (s.recorders x).size) :
    MemoryAccount cfg s' where
  totals := (ha.totals.lose hx hiff hmem).congr (fun _ => Iff.rfl) fun y _ => hsize y
  le := by
    have hle := ha.le
    have hnonneg := ha.size_nonneg x
    omega
  cas := by
    intro y labels current hpc
    rw [hsize]
    exact ha.cas y labels current (hcas y labels current hpc)
  size_nonneg := by
    intro y
    rw [hsize]
    exact ha.size_nonneg y

/-- A step of a `Record` call. -/
theorem recorder {r : ℕ} {ch : Choice} (hu : RingUse cfg s)
    (hu' : RingUse cfg s') (hrep : Reports s) (hw : ∀ k, (s.workers k).Accounts)
    (h : recorderStep cfg s r ch = some s') : MemoryAccount cfg s' := by
  have hsub := fun x => subtracted_step (x := x) (l := .recorder r ch) hu hu' hrep hw h
  have hsame : (s.recorders r).pc.evicting = none → ∀ x, Subtracted s' x ↔ Subtracted s x := by
    intro hnone x
    rw [hsub, subtracts, settles, hnone]
    simp
  -- a call that is not past its push has nothing in the ring
  have hunpushed : (s.recorders r).pc.pushing = false → (s.recorders r).pc.accepted = false →
      ¬ Subtracted s r := by
    intro hpush hacc hsub
    obtain ⟨p, hpub⟩ := hsub.published hu
    rcases hrep.of_published hu hpub with hpc | hpc
    · rw [hpush] at hpc
      cases hpc
    · rw [hacc] at hpc
      cases hpc
  have hmove := MemoryMove.of_recorderStep h
  cases hmove with
  | reserve labels hpc hs' =>
    have hnone : (s.recorders r).pc.evicting = none := by rw [hpc]; rfl
    have hnot := hunpushed (by rw [hpc]; rfl) (by rw [hpc]; rfl)
    have hmoved : Moved s r (.push labels) s' := by rw [hs']; rfl
    have hfits := ha.cas r labels _ hpc
    refine ⟨?_, ?_, ?_, fun x => (hmoved.size x).symm ▸ ha.size_nonneg x⟩
    · refine (ha.totals.gain (b := r) ?_ (fun x => ?_) (by rw [hs'])).congr (fun _ => Iff.rfl)
        fun x _ => hmoved.size x
      · rintro ⟨hres, -⟩
        rw [hpc] at hres
        cases hres
      · rw [Reserved, Reserved, hsame hnone, hmoved.reserved]
        by_cases hx : x = r
        · subst hx
          simp [RecordPc.reserved, hnot]
        · simp [hx]
    · rw [hs']
      exact hfits
    · intro x labels' current hx
      rw [hmoved.size]
      exact ha.cas x labels' current (hmoved.cas (by simp) hx)
  | rollback hpc hs' =>
    have hnone : (s.recorders r).pc.evicting = none := by rw [hpc]; rfl
    have hnot := hunpushed (by rw [hpc]; rfl) (by rw [hpc]; rfl)
    have hmoved : Moved s r .countFull s' := by rw [hs']; rfl
    refine ha.of_lose (x := r) ⟨by rw [hpc]; rfl, hnot⟩ hmoved.size
      (fun _ _ _ => hmoved.cas (by simp)) (fun x => ?_) (by rw [hs'])
    rw [Reserved, Reserved, hsame hnone, hmoved.reserved]
    by_cases hx : x = r
    · subst hx
      simp [RecordPc.reserved]
    · simp [hx]
  | release labels old hpc hs' =>
    have hhand : (s.recorders r).pc.evicting = some old := by rw [hpc]; rfl
    have hold : Reserved s old :=
      reserved_of_subtracts (l := .recorder r ch) hu hrep hw (by simp [subtracts, settles, hhand])
    have hcommit : (commitPc labels).reserved :=
      RecordPc.reserved_of_accepted (commitPc_accepted labels)
    have hmoved : Moved s r (commitPc labels) s' := by rw [hs']; rfl
    refine ha.of_lose hold hmoved.size (fun _ _ _ => hmoved.cas fun labels' current hcas => ?_)
      (fun x => ?_) (by rw [hs'])
    · rw [hcas] at hcommit
      cases hcommit
    · rw [Reserved, Reserved, hsub, subtracts, settles, hhand, hmoved.reserved, hcommit]
      by_cases hx : x = r
      · subst hx
        rw [hpc]
        simp [RecordPc.reserved, not_or]
      · simp [hx, not_or, and_assoc]
  | other _ hrec hmem hreserved _ hevicting _ _ hcas =>
    exact ha.of_recorder hrec (.inl rfl) (ha.size_nonneg r) hreserved hcas hmem
      (hsame hevicting)
  | access _ hpush _ hs' =>
    have hnone := hsame (RecordPc.evicting_of_pushing hpush)
    subst hs'
    exact ha.of_same rfl rfl hnone
  | pushed labels result _ hpc _ hs' =>
    have hnone := hsame (by rw [hpc]; rfl)
    subst hs'
    have hres := pushedPc_reserved labels result
    refine ha.of_recorder rfl (.inl rfl) (ha.size_nonneg r) ?_ ?_ rfl hnone
    · rw [hpc]
      exact hres
    · intro labels' current hpc'
      rw [show pushedPc labels result = .casMemory labels' current from hpc'] at hres
      cases hres

end

/-- A step of a worker. -/
theorem worker {k : ℕ} {ch : Choice} (hk : k < cfg.workers) (ha : MemoryAccount cfg s)
    (hu : RingUse cfg s) (hu' : RingUse cfg s') (hrep : Reports s)
    (hw : ∀ k, (s.workers k).Accounts) (h : workerStep cfg s k ch = some s') :
    MemoryAccount cfg s' := by
  have hstep : Pipeline.step cfg s (.worker k ch) = some s' := by rw [Pipeline.step, if_pos hk, h]
  have hsub := fun x => subtracted_step (x := x) hu hu' hrep hw hstep
  have hrec := (WorkerMove.of_workerStep h).recorders
  have hmem := workerStep_memUsage h
  have hres := fun x => reserved_of_subtracts (x := x) (l := .worker k ch) hu hrep hw
  cases hout : (s.workers k).subtracting with
  | nil =>
    rw [hout] at hmem
    refine ha.of_same hrec (by simpa using hmem) fun x => ?_
    rw [hsub, subtracts, settles, hout]
    simp
  | cons x rest =>
    -- one item at a time
    obtain rfl : rest = [] := by
      unfold Worker.subtracting at hout
      split at hout <;> cases hout
      rfl
    rw [hout] at hmem
    refine ha.of_lose (hres x (by simp [subtracts, settles, hout])) (fun y => by rw [hrec])
      (fun y labels current hpc => by rwa [hrec] at hpc) (fun y => ?_) (by simpa using hmem)
    rw [Reserved, Reserved, hrec, hsub, subtracts, settles, hout]
    simp [not_or, and_assoc]

/-- **Every step keeps it**, if what is recorded has a size. -/
theorem step (ha : MemoryAccount cfg s) (hu : RingUse cfg s) (hu' : RingUse cfg s')
    (hrep : Reports s) (hw : ∀ k, (s.workers k).Accounts)
    (hsize : ∀ r size, l = .record r size → 0 ≤ size) (h : step cfg s l = some s') :
    MemoryAccount cfg s' := by
  have hsub := fun x => subtracted_step (x := x) hu hu' hrep hw h
  have hsame : subtracts s l = [] → ∀ x, Subtracted s' x ↔ Subtracted s x := by
    intro hnone x
    rw [hsub, hnone]
    simp
  cases LabelMove.of_step h with
  | @record r size _ _ hstep =>
    have hnone := hsame rfl
    unfold startRecord at hstep
    split at hstep
    · rename_i hpc
      cases hstep
      refine ha.of_recorder rfl (.inr (by rw [hpc]; rfl)) (hsize r size rfl) ?_ (by simp) rfl hnone
      rw [hpc]
      rfl
    · cases hstep
  | recorder _ hstep => exact ha.recorder hu hu' hrep hw hstep
  | worker hk _ hstep => exact ha.worker hk hu hu' hrep hw hstep
  | startExport _ _ hstep =>
    have hnone := hsame rfl
    obtain ⟨job, status, -, -, rfl⟩ := startExport_some hstep
    exact ha.of_same rfl rfl hnone
  | finishExport _ _ hstep =>
    have hnone := hsame rfl
    obtain ⟨job, status, errors, exporterErrors, -, -, rfl⟩ := finishExport_some hstep
    exact ha.of_same rfl rfl hnone
  | call h | caller h =>
    exact ha.of_same (CallerFrame.of_move h).recorders (by rw [h.stats]) (hsame rfl)
  | request | tick | contextEnds => exact ha.of_same rfl rfl (hsame rfl)

end MemoryAccount

/-! ### The theorem -/

/-- Call `r` records the metric `metric r`, as `enqueue` gets it. -/
def RecordsMetric {KeyValue : Type} (attributeSize : KeyValue → ℕ)
    (metric : ℕ → Metric KeyValue) (_ : State) : Label → Prop
  | .record r size => size = (metric r).estimateSize attributeSize
  | _ => True

/-- No `Record` call is in progress, and no worker pops or appends. -/
def Idle (s : State) : Prop :=
  (∀ r, (s.recorders r).pc = .notCalled ∨ ∃ result, (s.recorders r).pc = .returned result) ∧
    ∀ k, (s.workers k).pc.popping = false ∧ (s.workers k).pc.items = []

section

variable {KeyValue : Type} {attributeSize : KeyValue → ℕ} {metric : ℕ → Metric KeyValue}
  {cfg : Config} {s : State}

theorem memoryAccount_of_reachable (hmax : 0 < cfg.maxMemoryBytes)
    (h : (pipelineSystem cfg).Reachable (RecordsMetric attributeSize metric) s) :
    MemoryAccount cfg s := by
  refine h.invariant (.init hmax) ?_
  intro s l s' hreach ha hl hstep
  refine ha.step (ringUse_of_reach hreach.reach)
    (ringUse_of_reach (.step hreach.reach trivial hstep)) (reports_of_reach hreach.reach)
    (accounts_of_reach hreach.reach) ?_ hstep
  rintro r size rfl
  rw [show size = _ from hl]
  exact Metric.estimateSize_nonneg attributeSize (metric r)

/-- The size of a call that has been made is that of its metric. -/
theorem size_of_reachable
    (h : (pipelineSystem cfg).Reachable (RecordsMetric attributeSize metric) s) {r : ℕ}
    (hpc : (s.recorders r).pc ≠ .notCalled) :
    (s.recorders r).size = (metric r).estimateSize attributeSize := by
  revert r
  refine h.invariant (I := fun s => ∀ {r}, (s.recorders r).pc ≠ .notCalled →
    (s.recorders r).size = (metric r).estimateSize attributeSize) (fun hpc => absurd rfl hpc) ?_
  intro s l s' hreach hI hl hstep r hpc
  have hkept : s'.recorders = s.recorders →
      (s'.recorders r).size = (metric r).estimateSize attributeSize := by
    intro hrec
    rw [hrec] at hpc ⊢
    exact hI hpc
  cases LabelMove.of_step hstep with
  | @record r' size _ _ hstart =>
    unfold startRecord at hstart
    split at hstart
    · cases hstart
      by_cases hr : r = r'
      · subst hr
        simpa [State.setRecorder, State.emit, RecordsMetric] using hl
      · simp only [State.setRecorder, State.emit, update_of_ne hr] at hpc ⊢
        exact hI hpc
    · cases hstart
  | @recorder r' _ _ _ hrecorder =>
    have hcalled : (s.recorders r').pc ≠ .notCalled := by
      intro hnot
      simp [recorderStep, hnot] at hrecorder
    obtain ⟨pc', hmoved⟩ := (MemoryMove.of_recorderStep hrecorder).moved
    rw [hmoved.size]
    by_cases hr : r = r'
    · subst hr
      exact hI hcalled
    · rw [hmoved, update_of_ne hr] at hpc
      exact hI hpc
  | worker _ h | startExport _ h | finishExport _ h => exact hkept h.recorders
  | call h | caller h => exact hkept (CallerFrame.of_move h).recorders
  | request | tick | contextEnds => exact hkept rfl

/-- **The memory account.**  In every state of every run, `memUsage` is the sum of the sizes
of the metrics whose reservation is outstanding, and so between zero and `MaxMemoryBytes`; a
`Record` that has failed has no reservation; and with no call in progress the sum is over the
metrics in the ring. -/
theorem memory_accounted (hmax : 0 < cfg.maxMemoryBytes)
    (h : (pipelineSystem cfg).Reachable (RecordsMetric attributeSize metric) s) :
    Totals (Outstanding s) (fun x => (metric x).estimateSize attributeSize) s.stats.memUsage ∧
    0 ≤ s.stats.memUsage ∧ s.stats.memUsage ≤ cfg.maxMemoryBytes ∧
    (∀ x error, .recordReturned x (some error) ∈ s.log → ¬ Outstanding s x) ∧
    (Idle s → Totals (fun x => At s x .ring) (fun x => (metric x).estimateSize attributeSize)
      s.stats.memUsage) := by
  have hu := ringUse_of_reach h.reach
  have hrep := reports_of_reach h.reach
  have hw := accounts_of_reach h.reach
  have ha := memoryAccount_of_reachable hmax h
  have htotals : Totals (Outstanding s) (fun x => (metric x).estimateSize attributeSize)
      s.stats.memUsage := by
    refine ha.totals.congr (fun x => outstanding_iff hu hrep hw) fun x hx => ?_
    refine (size_of_reachable h fun hpc => ?_).symm
    have hres := hx.1
    rw [hpc] at hres
    cases hres
  refine ⟨htotals, ha.totals.nonneg ha.size_nonneg, ha.le, fun x error hx hout => ?_, ?_⟩
  · have hres := ((outstanding_iff hu hrep hw).mp hout).1
    rw [hu.returned x _ hx] at hres
    cases hres
  · rintro ⟨hrecorders, hworkers⟩
    refine htotals.congr (fun x => ⟨.ring, fun hout => ?_⟩) fun _ _ => rfl
    have hidle : ∀ r, (s.recorders r).pc.pushing = false ∧ (s.recorders r).pc.evicting = none ∧
        (s.recorders r).pc ≠ .rollback := by
      intro r
      rcases hrecorders r with hpc | ⟨result, hpc⟩ <;> rw [hpc] <;> exact ⟨rfl, rfl, nofun⟩
    cases hout with
    | ring hat => exact hat
    | reserved hpc hpub =>
      rcases hpc with hpc | hpc
      · rw [(hidle x).1] at hpc
        cases hpc
      · exact absurd hpc (hidle x).2.2
    | popping k n p hclaim =>
      rcases hu.ring.sound.returned_or_running hclaim with ⟨hlt, -⟩ | ⟨-, op, pc, hrun⟩
      · omega
      · have hpop := (hu.workers k).popping (by rw [hrun]; nofun)
        rw [(hworkers k).1] at hpop
        cases hpop
    | popped k hmem =>
      rw [(hworkers k).2] at hmem
      cases hmem
    | evicting r htaken hpc =>
      rcases hpc with hpc | hpc
      · rw [(hidle r).1] at hpc
        cases hpc
      · rw [(hidle r).2.1] at hpc
        cases hpc

end

/-- A counter of 25 bytes. -/
def smallMetric : Metric Empty where
  name := "a"
  type := .counter
  value := .finite 1
  attributes := []
  timestamp := 0
  traceID := 0
  spanID := 0
  description := ""
  unit := ""

/-- Two metrics are recorded; one is popped and the other still in the ring. -/
def recordTwice : List Label :=
  .record 0 25 :: replicate 16 (.recorder 0 {}) ++
    .record 1 25 :: replicate 16 (.recorder 1 {}) ++ replicate 11 (.worker 0 {})

theorem memory_accounted_recordTwice :
    ∃ s, (pipelineSystem smallConfig).run (State.init smallConfig) recordTwice = some s ∧
      s.stats.memUsage = 50 ∧
      Totals (Outstanding s) (fun _ => smallMetric.estimateSize Empty.elim) 50 := by
  have hrun : ((pipelineSystem smallConfig).runWithin
      (fun _ l => match l with
        | .record _ size => decide (size = smallMetric.estimateSize Empty.elim)
        | _ => true) (State.init smallConfig) recordTwice).map (fun s => s.stats.memUsage) =
      some 50 := by decide +kernel
  obtain ⟨s, hs, hmem⟩ := Option.map_eq_some_iff.mp hrun
  have hreach : (pipelineSystem smallConfig).Reachable
      (RecordsMetric Empty.elim fun _ => smallMetric) s := by
    refine (TransitionSystem.Reachable.of_runWithin .init hs).mono fun _ l hl => ?_
    cases l with
    | record r size =>
      change size = smallMetric.estimateSize Empty.elim
      exact of_decide_eq_true hl
    | _ => trivial
  have htotals := (memory_accounted (by decide) hreach).1
  rw [hmem] at htotals
  exact ⟨s, TransitionSystem.run_of_runWithin hs, hmem, htotals⟩

end ConvoyStats.Pipeline
