import ConvoyStats.Pipeline.Shutdown

/-!
# Where an observation is

An observation that has been published is in the ring, or with the goroutine that has
claimed its position.  A `Record` call that claims evicts.  A worker that claims holds the
observation until it hands it to `processBatch` with a batch or discards it on exit; what a
worker has taken is, up to order, what it has handed over, discarded and still holds
(`Worker.Accounts.perm`), and the ring gives it nothing twice.

`At.unique` is the result: an observation is at no two places at once.
-/

namespace ConvoyStats.Pipeline

open List Transport

/-! ### What a worker has -/

/-- The batches a worker has given to `processBatch`, the one in progress included. -/
def Worker.handed (w : Worker) : List (List Entry) :=
  w.exported ++ if w.pc.shipping then [w.batch] else []

/-- What a worker has popped, in its batch or on the way there, and not handed over. -/
def Worker.holding (w : Worker) : List Entry :=
  (if w.pc.shipping then [] else w.batch) ++ w.pc.items.map .observation

/-- **What a worker has taken**, sorted by what became of it. -/
theorem Worker.Accounts.perm {w : Worker} (h : w.Accounts) :
    (w.handed.flatten ++ (w.lost ++ w.holding)).Perm w.intake := by
  rw [h.intake, Worker.handed, Worker.holding, Worker.undelivered]
  cases hship : w.pc.shipping with
  | false => simp
  | true =>
    have hitems : w.pc.items = [] := by
      cases hpc : w.pc <;> rw [hpc] at hship <;> first | rfl | cases hship
    have hlost : w.lost = [] := by
      refine h.lost ?_
      cases hpc : w.pc <;> rw [hpc] at hship <;> first | rfl | cases hship
    simp [hitems, hlost]

theorem observations_perm {l l' : List Entry} (h : l.Perm l') :
    (observations l).Perm (observations l') := h.filterMap _

/-! ### Who has claimed an observation -/

/-- The goroutine has claimed the position of the observation. -/
def TakenBy (s : State) (x : ℕ) (g : Goroutine) : Prop :=
  ∃ n p, .effect (g, n) (.claimed p) ∈ s.ring.history ∧ Published s.ring.history p x

namespace RingUse

variable {cfg : Config} {s : State} {x : ℕ}

variable {p k : ℕ}

variable (hu : RingUse cfg s)
include hu

/-- One goroutine takes an observation, in one call. -/
theorem claimed_once {call call' : Transport.Call Goroutine} {q : ℕ}
    (hclaim : .effect call (.claimed p) ∈ s.ring.history) (hpub : Published s.ring.history p x)
    (hclaim' : .effect call' (.claimed q) ∈ s.ring.history) (hpub' : Published s.ring.history q x) :
    call = call' := by
  obtain rfl := hu.position_unique hpub hpub'
  exact hu.ring.sound.claimed_inj hclaim hclaim'

theorem takenBy_unique {g g' : Goroutine} (h : TakenBy s x g)
    (h' : TakenBy s x g') : g = g' := by
  obtain ⟨n, p, hclaim, hpub⟩ := h
  obtain ⟨m, q, hclaim', hpub'⟩ := h'
  exact congrArg Prod.fst (hu.claimed_once hclaim hpub hclaim' hpub')

/-- What is in the ring nobody has claimed. -/
theorem not_takenBy (hpub : Published s.ring.history p x)
    (hread : s.ring.ring.readPos ≤ p) (g : Goroutine) : ¬ TakenBy s x g := by
  rintro ⟨n, q, hclaim, hpub'⟩
  obtain rfl := hu.position_unique hpub hpub'
  have hlt := hu.ring.sound.exists_claimed_iff.mp ⟨_, hclaim⟩
  omega

theorem takenBy_of_intake (h : .observation x ∈ (s.workers k).intake) :
    TakenBy s x (.worker k) :=
  hu.claimed_of_intake h

/-- What a worker has claimed it has taken, or its `Pop` has not returned. -/
theorem intake_or_popping {n : ℕ}
    (hclaim : .effect (.worker k, n) (.claimed p) ∈ s.ring.history)
    (hpub : Published s.ring.history p x) :
    .observation x ∈ (s.workers k).intake ∨ n = (s.ring.threads (.worker k)).finished := by
  rcases hu.ring.sound.returned_or_running hclaim with ⟨-, op, result, hret⟩ | ⟨hn, -⟩
  · obtain ⟨y, hobt, hmem⟩ := hu.intake_of_returned hret hclaim
    -- the item obtained at a position is the one published there
    obtain rfl := hu.ring.sound.item_unique hpub (hu.ring.sound.published_of_obtained hobt)
    exact .inl hmem
  · exact .inr hn

/-- What a worker has taken its `Pop` in progress has not claimed. -/
theorem not_popping_of_intake {n : ℕ}
    (hclaim : .effect (.worker k, n) (.claimed p) ∈ s.ring.history)
    (hpub : Published s.ring.history p x) (hmem : .observation x ∈ (s.workers k).intake) :
    n < (s.ring.threads (.worker k)).finished := by
  rw [← mem_observations, (hu.workers k).intake, mem_poppedBy] at hmem
  obtain ⟨m, hpop⟩ := hmem
  obtain ⟨q, hobt⟩ := hu.ring.sound.obtained_of_returned (.inl hpop)
  cases hu.claimed_once hclaim hpub (hu.ring.sound.obtained_claimed hobt)
    (hu.ring.sound.published_of_obtained hobt)
  obtain ⟨op, hret⟩ := mem_popped.mp hpop
  exact (hu.ring.sound.ledger.returned _ _ _ _ hret).1

end RingUse

/-! ### Places -/

/-- Where an observation can be. -/
inductive Place
  | ring
  /-- Held by a worker: just popped, or in its batch. -/
  | held (k : ℕ)
  /-- Handed to the exporters with the batch number `i` of worker `k`. -/
  | handed (k i : ℕ)
  /-- Evicted by a `Record` call. -/
  | evicted (r : ℕ)
  /-- Discarded by a worker on exit. -/
  | discarded (k : ℕ)

/-- The observation `x` is at the place. -/
inductive At (s : State) (x : ℕ) : Place → Prop
  | ring (p : ℕ) (hpub : Published s.ring.history p x) (hread : s.ring.ring.readPos ≤ p) :
      At s x .ring
  /-- The worker's `Pop` has claimed it and has not returned. -/
  | popping (k n p : ℕ) (hclaim : .effect (.worker k, n) (.claimed p) ∈ s.ring.history)
      (hpub : Published s.ring.history p x) (hn : n = (s.ring.threads (.worker k)).finished) :
      At s x (.held k)
  | holding (k : ℕ) (hmem : .observation x ∈ (s.workers k).holding) : At s x (.held k)
  | handed (k i : ℕ) (batch : List Entry) (hbatch : (s.workers k).handed[i]? = some batch)
      (hmem : .observation x ∈ batch) : At s x (.handed k i)
  | evicted (r : ℕ) (h : TakenBy s x (.recorder r)) : At s x (.evicted r)
  | discarded (k : ℕ) (hmem : .observation x ∈ (s.workers k).lost) : At s x (.discarded k)

section

variable {cfg : Config} {s : State} {x : ℕ}

variable {k i : ℕ}

/-- What a worker has taken is at one of its places. -/
theorem At.of_intake (hw : ∀ k, (s.workers k).Accounts)
    (h : .observation x ∈ (s.workers k).intake) :
    ∃ place, At s x place := by
  rw [← (hw k).perm.mem_iff, mem_append, mem_append] at h
  rcases h with hhanded | hlost | hheld
  · obtain ⟨batch, hbatch, hmem⟩ := mem_flatten.mp hhanded
    obtain ⟨i, hi⟩ := mem_iff_getElem?.mp hbatch
    exact ⟨_, .handed k i batch hi hmem⟩
  · exact ⟨_, .discarded k hlost⟩
  · exact ⟨_, .holding k hheld⟩

/-- A published observation is somewhere. -/
theorem At.of_published (hu : RingUse cfg s) (hw : ∀ k, (s.workers k).Accounts) {p : ℕ}
    (hpub : Published s.ring.history p x) : ∃ place, At s x place := by
  rcases Nat.lt_or_ge p s.ring.ring.readPos with hlt | hge
  · obtain ⟨⟨g, n⟩, hclaim⟩ := hu.ring.sound.exists_claimed_iff.mpr hlt
    cases g with
    | recorder r => exact ⟨_, .evicted r ⟨n, p, hclaim, hpub⟩⟩
    | worker k =>
      rcases hu.intake_or_popping hclaim hpub with hmem | hn
      · exact At.of_intake hw hmem
      · exact ⟨_, .popping k n p hclaim hpub hn⟩
  · exact ⟨_, .ring p hpub hge⟩

/-- What a worker has taken has one place with it. -/
theorem at_worker_unique (hu : RingUse cfg s) (hw : ∀ k, (s.workers k).Accounts) (k : ℕ) :
    (observations (s.workers k).handed.flatten ++ (observations (s.workers k).lost ++
      observations (s.workers k).holding)).Nodup := by
  have hperm := observations_perm (hw k).perm
  rw [observations_append, observations_append] at hperm
  exact hperm.nodup_iff.mpr (hu.intake_nodup k)

/-- An entry of lists that repeat nothing is in one of them. -/
theorem index_unique {l : List (List Entry)} (h : (observations l.flatten).Nodup) {j : ℕ}
    {a b : List Entry} (ha : l[i]? = some a) (hb : l[j]? = some b) (hxa : .observation x ∈ a)
    (hxb : .observation x ∈ b) : i = j := by
  have hflat : observations l.flatten = (l.map observations).flatten := by
    rw [flatten_eq_flatMap, observations_flatMap, flatten_eq_flatMap, flatMap_map]
    rfl
  rw [hflat, nodup_flatten] at h
  by_contra hne
  obtain ⟨hi, rfl⟩ := List.getElem?_eq_some_iff.mp ha
  obtain ⟨hj, rfl⟩ := List.getElem?_eq_some_iff.mp hb
  have hdisjoint : ∀ i j (hi : i < l.length) (hj : j < l.length), i < j →
      .observation x ∈ l[i] → .observation x ∈ l[j] → False := by
    intro i j hi hj hij hxi hxj
    have hpair := pairwise_iff_getElem.mp h.2 i j (by simpa using hi) (by simpa using hj) hij
    rw [getElem_map, getElem_map] at hpair
    exact hpair (mem_observations.mpr hxi) (mem_observations.mpr hxj)
  rcases Nat.lt_or_gt_of_ne hne with hlt | hgt
  · exact hdisjoint i j hi hj hlt hxa hxb
  · exact hdisjoint j i hj hi hgt hxb hxa

/-- Who has the observation at a place. -/
def Place.taker : Place → Option Goroutine
  | .ring => none
  | .held k | .handed k _ | .discarded k => some (.worker k)
  | .evicted r => some (.recorder r)

variable {entry : Entry} {place : Place}

section

variable (hw : ∀ k, (s.workers k).Accounts)
include hw

theorem intake_of_holding (h : entry ∈ (s.workers k).holding) :
    entry ∈ (s.workers k).intake :=
  (hw k).perm.subset (mem_append_right _ (mem_append_right _ h))

theorem intake_of_lost (h : entry ∈ (s.workers k).lost) :
    entry ∈ (s.workers k).intake :=
  (hw k).perm.subset (mem_append_right _ (mem_append_left _ h))

theorem intake_of_handed {batch : List Entry}
    (hbatch : (s.workers k).handed[i]? = some batch) (h : entry ∈ batch) :
    entry ∈ (s.workers k).intake :=
  (hw k).perm.subset (mem_append_left _
    (mem_flatten.mpr ⟨batch, mem_of_getElem? hbatch, h⟩))

end

variable (hu : RingUse cfg s)
include hu

variable (hw : ∀ k, (s.workers k).Accounts)
include hw

/-- The goroutine at a place has claimed the observation, and nobody has in the ring. -/
theorem At.taken (h : At s x place)
    (g : Goroutine) : TakenBy s x g ↔ place.taker = some g := by
  -- it is enough to know who has it
  have htaker : ∀ {g'}, TakenBy s x g' → (TakenBy s x g ↔ some g' = some g) := by
    intro g' htaken
    rw [Option.some.injEq]
    constructor
    · exact hu.takenBy_unique htaken
    · rintro rfl
      exact htaken
  cases h with
  | ring p hpub hread => exact iff_of_false (hu.not_takenBy hpub hread g) nofun
  | popping k n p hclaim hpub => exact htaker ⟨n, p, hclaim, hpub⟩
  | holding k hmem => exact htaker (hu.takenBy_of_intake (intake_of_holding hw hmem))
  | handed k i _ hbatch hmem =>
    exact htaker (hu.takenBy_of_intake (intake_of_handed hw hbatch hmem))
  | evicted r htaken => exact htaker htaken
  | discarded k hmem => exact htaker (hu.takenBy_of_intake (intake_of_lost hw hmem))

/-- What has been handed over is nowhere else. -/
theorem At.eq_handed {batch : List Entry}
    (hbatch : (s.workers k).handed[i]? = some batch) (hmem : .observation x ∈ batch)
    (h : At s x place) : place = .handed k i := by
  have hintake := intake_of_handed hw hbatch hmem
  have htaker := (h.taken hu hw (.worker k)).mp (hu.takenBy_of_intake hintake)
  have hnodup := at_worker_unique hu hw k
  have hflat : x ∈ observations (s.workers k).handed.flatten :=
    mem_observations.mpr (mem_flatten.mpr ⟨batch, mem_of_getElem? hbatch, hmem⟩)
  cases h with
  | ring | evicted => cases htaker
  | popping _ n p hclaim hpub hn =>
    cases htaker
    exact absurd hn (hu.not_popping_of_intake hclaim hpub hintake).ne
  | holding k' hheld =>
    cases htaker
    exact absurd (mem_append_right _ (mem_observations.mpr hheld))
      (disjoint_of_nodup_append hnodup hflat)
  | handed _ j _ hbatch' hmem' =>
    cases htaker
    rw [index_unique hnodup.of_append_left hbatch hbatch' hmem hmem']
  | discarded k' hlost =>
    cases htaker
    exact absurd (mem_append_left _ (mem_observations.mpr hlost))
      (disjoint_of_nodup_append hnodup hflat)

/-- What has been discarded is nowhere else. -/
theorem At.eq_discarded
    (hmem : .observation x ∈ (s.workers k).lost) (h : At s x place) : place = .discarded k := by
  have hintake := intake_of_lost hw hmem
  have htaker := (h.taken hu hw (.worker k)).mp (hu.takenBy_of_intake hintake)
  have hnodup := at_worker_unique hu hw k
  cases h with
  | ring | evicted => cases htaker
  | popping _ n p hclaim hpub hn =>
    cases htaker
    exact absurd hn (hu.not_popping_of_intake hclaim hpub hintake).ne
  | holding k' hheld =>
    cases htaker
    exact absurd (mem_observations.mpr hheld)
      (disjoint_of_nodup_append hnodup.of_append_right (mem_observations.mpr hmem))
  | handed _ j _ hbatch hmem' =>
    cases htaker
    exact ((At.discarded k hmem).eq_handed hu hw hbatch hmem').symm
  | discarded k' hlost =>
    cases htaker
    rfl

/-- **An observation is at one place.** -/
theorem At.unique {place' : Place}
    (h : At s x place) (h' : At s x place') : place = place' := by
  cases h' with
  | handed k i _ hbatch hmem => exact h.eq_handed hu hw hbatch hmem
  | discarded k hmem => exact h.eq_discarded hu hw hmem
  | ring p hpub hread =>
    have hnone := fun g => mt (h.taken hu hw g).mpr (hu.not_takenBy hpub hread g)
    cases place with
    | ring => rfl
    | held | handed | evicted | discarded => exact absurd rfl (hnone _)
  | evicted r htaken =>
    have htaker := (h.taken hu hw _).mp htaken
    cases place with
    | evicted r' =>
      cases htaker
      rfl
    | ring | held | handed | discarded => cases htaker
  | popping k n p hclaim hpub hn =>
    have htaker := (h.taken hu hw _).mp ⟨n, p, hclaim, hpub⟩
    cases h with
    | ring | evicted => cases htaker
    | popping | holding =>
      cases htaker
      rfl
    | handed _ i _ hbatch hmem =>
      exact ((At.popping k n p hclaim hpub hn).eq_handed hu hw hbatch hmem).symm
    | discarded k' hmem =>
      exact ((At.popping k n p hclaim hpub hn).eq_discarded hu hw hmem).symm
  | holding k hheld =>
    have htaker := (h.taken hu hw _).mp (hu.takenBy_of_intake (intake_of_holding hw hheld))
    cases h with
    | ring | evicted => cases htaker
    | popping | holding =>
      cases htaker
      rfl
    | handed _ i _ hbatch hmem =>
      exact ((At.holding k hheld).eq_handed hu hw hbatch hmem).symm
    | discarded k' hmem => exact ((At.holding k hheld).eq_discarded hu hw hmem).symm

end

end ConvoyStats.Pipeline
