import Mathlib.Data.Finset.Card
import Mathlib.Tactic.Ring
import ConvoyStats.Library.IndexedList
import ConvoyStats.Cardinality.Limiter

/-!
# The slots of the cardinality limiter

`Balanced` is what the critical sections keep of one metric, for a given number of calls
that hold a reservation of each key: `reserved` counts them, and `count` is the number of
keys that are admitted or reserved.  Each operation is checked against it alone; that the
calls in progress are the ones that hold the reservations (`Slots`) is then one fact about
each step of a call.
-/

namespace ConvoyStats.Cardinality

open List Function

variable {Other Distinct : Type} [DecidableEq Distinct]

/-! ### One metric -/

/-- The keys that take a slot. -/
def MetricSeries.slots (series : MetricSeries Distinct) : Finset Distinct :=
  series.admitted ∪ series.reserved.keys.toFinset

/-- `reserved` counts `n key` reservations of each key. -/
def Reserves (series : MetricSeries Distinct) (n : Distinct → ℕ) : Prop :=
  ∀ key, series.reserved.lookup key = if n key = 0 then none else some (n key : ℤ)

namespace Reserves

variable {series : MetricSeries Distinct} {n : Distinct → ℕ}

section

variable (h : Reserves series n)
include h

theorem reservations (key : Distinct) :
    series.reservations key = n key := by
  rw [MetricSeries.reservations, h key]
  split
  · rename_i hzero
    rw [hzero]
    rfl
  · rfl

theorem mem_keys (key : Distinct) :
    key ∈ series.reserved.keys ↔ n key ≠ 0 := by
  rw [← AList.mem_keys, ← AList.lookup_isSome, h key]
  split <;> simp [*]

theorem mem_slots (key : Distinct) :
    key ∈ series.slots ↔ key ∈ series.admitted ∨ n key ≠ 0 := by
  rw [MetricSeries.slots, Finset.mem_union, mem_toFinset, h.mem_keys]

/-- One more reservation. -/
theorem raise {series' : MetricSeries Distinct} (key : Distinct)
    (hreserved : series'.reserved = series.reserved.insert key (series.reservations key + 1)) :
    Reserves series' (update n key (n key + 1)) := by
  intro key'
  rw [hreserved]
  by_cases hkey : key' = key
  · subst hkey
    simp [h.reservations]
  · rw [AList.lookup_insert_ne hkey, h key', update_of_ne hkey]

/-- One reservation given back. -/
theorem unreserve {key : Distinct} (hheld : n key ≠ 0) :
    Reserves (series.unreserve key) (update n key (n key - 1)) := by
  intro key'
  have hpred : (n key : ℤ) - 1 = (n key - 1 : ℕ) := by omega
  rw [MetricSeries.unreserve, h.reservations, hpred]
  dsimp only
  by_cases hkey : key' = key
  · subst hkey
    rw [update_self]
    by_cases hlast : n key' - 1 = 0
    · rw [if_pos (by exact_mod_cast hlast), if_pos hlast, AList.lookup_erase]
    · rw [if_neg (by exact_mod_cast hlast), if_neg hlast, AList.lookup_insert]
  · rw [update_of_ne hkey, ← h key']
    split
    · exact AList.lookup_erase_ne hkey
    · exact AList.lookup_insert_ne hkey

end

variable {series' : MetricSeries Distinct} {n' : Distinct → ℕ} {key : Distinct}

/-- The slot of one key is all that changes. -/
theorem slots_other (h : Reserves series n) (h' : Reserves series' n')
    (hadmitted : series'.admitted = series.admitted) (hn : ∀ key' ≠ key, n' key' = n key')
    (hslot : key ∈ series.slots) (hnone : key ∉ series'.slots) :
    series.slots = insert key series'.slots := by
  ext key'
  by_cases hkey : key' = key
  · subst hkey
    simp [hslot]
  · rw [Finset.mem_insert, h.mem_slots, h'.mem_slots, hadmitted, hn key' hkey]
    simp [hkey]

end Reserves

/-- `count` counts the slots, within the limit. -/
structure Balanced (limit : ℤ) (series : MetricSeries Distinct) (n : Distinct → ℕ) : Prop where
  reserves : Reserves series n
  count : series.count = series.slots.card
  bound : series.count ≤ limit

namespace Balanced

variable {limit : ℤ} {series : MetricSeries Distinct} {n : Distinct → ℕ} {key : Distinct}

theorem zero (h : 0 ≤ limit) : Balanced limit (.zero : MetricSeries Distinct) fun _ => 0 :=
  ⟨fun _ => rfl, rfl, h⟩

variable (h : Balanced limit series n)
include h

/-- The slot of `key` stays, or is not there, and nothing changes of the others. -/
theorem same_slots (key : Distinct) {series' : MetricSeries Distinct} {n' : Distinct → ℕ}
    (hreserves : Reserves series' n') (hcount : series'.count = series.count)
    (hkey : key ∈ series'.admitted ∨ n' key ≠ 0 ↔ key ∈ series.admitted ∨ n key ≠ 0)
    (hother : ∀ key' ≠ key, (key' ∈ series'.admitted ↔ key' ∈ series.admitted) ∧
      n' key' = n key') : Balanced limit series' n' := by
  have hslots : series.slots = series'.slots := by
    ext key'
    rw [h.reserves.mem_slots, hreserves.mem_slots]
    by_cases heq : key' = key
    · rw [heq, hkey]
    · rw [(hother key' heq).1, (hother key' heq).2]
  exact ⟨hreserves, by rw [hcount, h.count, hslots], hcount.trans_le h.bound⟩

/-- **The critical section of `admit`** refuses a key exactly when it has no slot and none is
left. -/
theorem reserve_eq_none :
    series.reserve key limit = none ↔
      key ∉ series.admitted ∧ key ∉ series.reserved.keys ∧ limit ≤ series.count := by
  rw [h.reserves.mem_keys, not_not, MetricSeries.reserve, h.reserves.reservations]
  split
  · rename_i hadmitted
    simp [hadmitted]
  · rename_i hadmitted
    split
    · rename_i hzero
      split
      · rename_i hfull
        exact iff_of_true rfl ⟨hadmitted, by exact_mod_cast hzero, hfull⟩
      · rename_i hfull
        exact iff_of_false nofun fun hall => hfull hall.2.2
    · rename_i hheld
      exact iff_of_false nofun fun hall => hheld (by exact_mod_cast hall.2.1)

/-- A reservation is taken, or the key is admitted. -/
theorem reserve {series' : MetricSeries Distinct} {held : Bool}
    (hreserve : series.reserve key limit = some (series', held)) :
    series'.admitted = series.admitted ∧
      (held = false ∧ series' = series ∧ key ∈ series.admitted ∨
        held = true ∧ Balanced limit series' (update n key (n key + 1))) := by
  unfold MetricSeries.reserve at hreserve
  split at hreserve
  · rename_i hadmitted
    cases hreserve
    exact ⟨rfl, .inl ⟨rfl, rfl, hadmitted⟩⟩
  · rename_i hadmitted
    split at hreserve
    · rename_i hzero
      split at hreserve
      · cases hreserve
      · rename_i hroom
        obtain ⟨rfl, rfl⟩ := Prod.mk.inj (Option.some.inj hreserve)
        rw [h.reserves.reservations, Nat.cast_eq_zero] at hzero
        have hreserves : Reserves { series with
            count := series.count + 1
            reserved := series.reserved.insert key (series.reservations key + 1) }
            (update n key (n key + 1)) := h.reserves.raise key rfl
        -- the key takes a new slot
        have hnone : key ∉ series.slots := by
          rw [h.reserves.mem_slots, hzero]
          simp [hadmitted]
        have hslots := hreserves.slots_other h.reserves rfl
          (fun key' hkey => (update_of_ne hkey _ _).symm)
          ((hreserves.mem_slots key).mpr (.inr (by simp))) hnone
        refine ⟨rfl, .inr ⟨rfl, hreserves, ?_, not_le.mp hroom⟩⟩
        rw [hslots, Finset.card_insert_of_notMem hnone, Nat.cast_succ, ← h.count]
    · rename_i hheld
      obtain ⟨rfl, rfl⟩ := Prod.mk.inj (Option.some.inj hreserve)
      rw [h.reserves.reservations, Nat.cast_eq_zero] at hheld
      have hreserves : Reserves { series with
          reserved := series.reserved.insert key (series.reservations key + 1) }
          (update n key (n key + 1)) := h.reserves.raise key rfl
      exact ⟨rfl, .inr ⟨rfl, h.same_slots key hreserves rfl (by simp [hheld]) fun _ hne =>
        ⟨.rfl, update_of_ne hne ..⟩⟩⟩

theorem store (hheld : n key ≠ 0) (c : ℕ) :
    Balanced limit (series.store key c) n :=
  h.same_slots key h.reserves rfl (by simp [hheld]) fun _ hne =>
    ⟨by simp [MetricSeries.store, hne], rfl⟩

theorem finishCommit (hheld : n key ≠ 0)
    (hadmitted : key ∈ series.admitted) :
    Balanced limit (series.finishCommit key) (update n key (n key - 1)) :=
  h.same_slots key (h.reserves.unreserve hheld) rfl
    (iff_of_true (.inl hadmitted) (.inl hadmitted)) fun _ hne => ⟨.rfl, update_of_ne hne ..⟩

/-- The slot is free again if nobody else holds it. -/
theorem release (hheld : n key ≠ 0) :
    Balanced limit (series.release key) (update n key (n key - 1)) := by
  have hreserves := h.reserves.unreserve hheld
  have hslot : key ∈ series.slots := (h.reserves.mem_slots key).mpr (.inr hheld)
  simp only [MetricSeries.release, hreserves.reservations, update_self, Nat.cast_eq_zero]
  split
  · rename_i hlast
    refine ⟨hreserves, ?_, (Int.sub_le_self _ zero_le_one).trans h.bound⟩
    have hnone : key ∉ (series.unreserve key).slots := by
      rw [hreserves.mem_slots, update_self]
      simp [hlast]
    have hslots := h.reserves.slots_other hreserves rfl
      (fun key' hkey => update_of_ne hkey _ _) hslot hnone
    have hcard : series.slots.card = (series.unreserve key).slots.card + 1 := by
      rw [hslots, Finset.card_insert_of_notMem hnone]
    have hcount := h.count
    rw [hcard, Nat.cast_succ] at hcount
    exact sub_eq_of_eq_add hcount
  · rename_i hlast
    refine h.same_slots key hreserves rfl (iff_of_true ?_ (.inr hheld)) fun _ hne =>
      ⟨.rfl, update_of_ne hne ..⟩
    rw [update_self]
    by_cases hadmitted : key ∈ (series.unreserve key).admitted
    · exact .inl hadmitted
    · exact .inr fun hzero => hlast ⟨hadmitted, hzero⟩

end Balanced

/-! ### One step of a call -/

/-- The call holds a reservation. -/
def Pc.holds : Pc → Bool
  | .enqueue reserved | .commit reserved | .release reserved => reserved
  | .store | .unreserve => true
  | .load | .reserve | .returned _ => false

/-- `enqueue` took the observation. -/
def Pc.enqueued : Pc → Bool
  | .commit _ | .store | .unreserve | .returned none => true
  | .load | .reserve | .enqueue _ | .release _ | .returned (some _) => false

/-- The call has seen its key among the admitted ones. -/
def Pc.known : Pc → Bool
  | .enqueue reserved | .commit reserved | .release reserved => !reserved
  | .unreserve | .returned none => true
  | .load | .reserve | .store | .returned (some _) => false

/-- `admit` is not over. -/
def Pc.admitting : Pc → Bool
  | .load | .reserve => true
  | .enqueue _ | .commit _ | .store | .unreserve | .release _ | .returned _ => false

/-- What a step of the call `c` does to the series of its metric and to its own place. -/
inductive CallMove (limit : ℤ) (c : ℕ) (key : Distinct) (series : MetricSeries Distinct) :
    Pc → MetricSeries Distinct → Pc → Prop
  | hit (h : key ∈ series.admitted) : CallMove limit c key series .load series (.enqueue false)
  | miss (h : key ∉ series.admitted) : CallMove limit c key series .load series .reserve
  | reject (h : series.reserve key limit = none) :
      CallMove limit c key series .reserve series (.returned (some .cardinalityLimit))
  | reserve {series'} {held} (h : series.reserve key limit = some (series', held)) :
      CallMove limit c key series .reserve series' (.enqueue held)
  | accept (held) : CallMove limit c key series (.enqueue held) series (.commit held)
  | refuse (held) : CallMove limit c key series (.enqueue held) series (.release held)
  | labels (held) : CallMove limit c key series (.commit held) series
      (if held then .store else .returned none)
  | store : CallMove limit c key series .store (series.store key c) .unreserve
  | finish : CallMove limit c key series .unreserve (series.finishCommit key) (.returned none)
  | forget : CallMove limit c key series (.release false) series (.returned (some .notEnqueued))
  | release : CallMove limit c key series (.release true) (series.release key)
      (.returned (some .notEnqueued))

variable {s : State Distinct} {call : Call Distinct}

/-- **Every step of a call is a move.** -/
theorem CallMove.of_callStep {limit : ℤ} {s' : State Distinct} {c : ℕ} {accepts : Bool}
    (h : callStep limit s c call accepts = some s') :
    ∃ series pc, CallMove (limitOf limit) c call.key (s.metrics call.name) call.pc series pc ∧
      s'.metrics = update s.metrics call.name series ∧
      s'.calls = s.calls.set c { call with pc := pc } := by
  have hself : s.metrics = update s.metrics call.name (s.metrics call.name) :=
    (update_eq_self _ _).symm
  unfold callStep at h
  dsimp only at h
  split at h
  · rename_i hpc
    cases h
    rw [hpc]
    split
    · exact ⟨_, _, .hit ‹_›, hself, rfl⟩
    · exact ⟨_, _, .miss ‹_›, hself, rfl⟩
  · rename_i hpc
    rw [hpc]
    split at h
    · split at h
      · cases h
        exact ⟨_, _, .reject ‹_›, hself, rfl⟩
      · cases h
        exact ⟨_, _, .reserve ‹_›, rfl, rfl⟩
    · cases h
  · rename_i hpc
    cases h
    rw [hpc]
    cases accepts with
    | false => exact ⟨_, _, .refuse _, hself, rfl⟩
    | true => exact ⟨_, _, .accept _, hself, rfl⟩
  · rename_i held hpc
    cases h
    rw [hpc]
    refine ⟨_, _, .labels held, ?_, ?_⟩
    · split
      · exact hself
      · exact hself
    · split <;> rfl
  · rename_i hpc
    rw [hpc]
    split at h
    · cases h
      exact ⟨_, _, .store, rfl, rfl⟩
    · cases h
  · rename_i hpc
    cases h
    rw [hpc]
    exact ⟨_, _, .finish, rfl, rfl⟩
  · rename_i hpc
    cases h
    rw [hpc]
    exact ⟨_, _, .forget, hself, rfl⟩
  · rename_i hpc
    rw [hpc]
    split at h
    · cases h
      exact ⟨_, _, .release, rfl, rfl⟩
    · cases h
  · cases h

namespace CallMove

variable {limit : ℤ} {c : ℕ} {key : Distinct} {series series' : MetricSeries Distinct}
variable {pc pc' : Pc} {n : Distinct → ℕ}

section

variable (h : CallMove limit c key series pc series' pc')
include h

variable (hb : Balanced limit series n)
include hb

/-- **Every move keeps the balance** of a metric whose reservations the calls hold. -/
theorem balanced
    (hholds : pc.holds = true → n key ≠ 0) (hknown : pc.known = true → key ∈ series.admitted) :
    Balanced limit series'
      (update n key (n key - pc.holds.toNat + pc'.holds.toNat)) := by
  -- a call that neither takes nor gives back a reservation
  have hquiet : ∀ held : Bool, (held = true → n key ≠ 0) →
      Balanced limit series (update n key (n key - held.toNat + held.toNat)) := by
    intro held hheld
    have hsame : n key - held.toNat + held.toNat = n key := by
      cases held with
      | false => rfl
      | true => exact Nat.sub_add_cancel (Nat.one_le_iff_ne_zero.mpr (hheld rfl))
    rwa [hsame, update_eq_self]
  cases h with
  | hit | miss | reject | forget => exact hquiet false nofun
  | accept held | refuse held => exact hquiet held hholds
  | labels held =>
    cases held with
    | false => exact hquiet false nofun
    | true => exact hquiet true hholds
  | reserve hsome =>
    rcases (hb.reserve hsome).2 with ⟨rfl, rfl, -⟩ | ⟨rfl, hb'⟩
    · exact hquiet false nofun
    · exact hb'
  | store =>
    have hb' := hb.store (hholds rfl) c
    rw [← update_eq_self key n, ← Nat.sub_add_cancel
      (Nat.one_le_iff_ne_zero.mpr (hholds rfl))] at hb'
    exact hb'
  | finish => exact hb.finishCommit (hholds rfl) (hknown rfl)
  | release => exact hb.release (hholds rfl)

/-- What a move does to the admitted keys. -/
theorem admitted
    (hknown : pc.known = true → key ∈ series.admitted) :
    series.admitted ⊆ series'.admitted ∧ (pc'.known = true → key ∈ series'.admitted) ∧
      (pc.enqueued = true → pc'.enqueued = true) ∧
      ∀ key' ∈ series'.admitted, key' ∈ series.admitted ∨ key' = key ∧ pc'.enqueued = true := by
  cases h with
  | hit hadmitted => exact ⟨subset_rfl, fun _ => hadmitted, nofun, fun _ => .inl⟩
  | miss hadmitted | reject hnone | forget => exact ⟨subset_rfl, nofun, nofun, fun _ => .inl⟩
  | reserve hsome =>
    obtain ⟨hsame, hcases⟩ := hb.reserve hsome
    rw [hsame]
    refine ⟨subset_rfl, fun hheld => ?_, nofun, fun _ => .inl⟩
    rcases hcases with ⟨rfl, -, hadmitted⟩ | ⟨rfl, -⟩
    · exact hadmitted
    · cases hheld
  | accept held | refuse held => exact ⟨subset_rfl, hknown, nofun, fun _ => .inl⟩
  | labels held =>
    cases held with
    | false => exact ⟨subset_rfl, hknown, fun _ => rfl, fun _ => .inl⟩
    | true => exact ⟨subset_rfl, nofun, fun _ => rfl, fun _ => .inl⟩
  | store =>
    refine ⟨Finset.subset_insert _ _, fun _ => Finset.mem_insert_self _ _, fun _ => rfl,
      fun key' hkey' => ?_⟩
    rcases Finset.mem_insert.mp hkey' with rfl | hadmitted
    · exact .inr ⟨rfl, rfl⟩
    · exact .inl hadmitted
  | finish => exact ⟨subset_rfl, hknown, fun _ => rfl, fun _ => .inl⟩
  | release =>
    have hsame : (series.release key).admitted = series.admitted := by
      unfold MetricSeries.release
      dsimp only
      split <;> rfl
    rw [hsame]
    exact ⟨subset_rfl, nofun, nofun, fun _ => .inl⟩

/-- **`admit` rejects an observation exactly when its key has no slot and none is left.** -/
theorem rejected_iff
    (hpc : pc.admitting = true) (hpc' : pc'.admitting = false) :
    pc' = .returned (some .cardinalityLimit) ↔
      key ∉ series.admitted ∧ key ∉ series.reserved.keys ∧ limit ≤ series.count := by
  rw [← hb.reserve_eq_none]
  cases h with
  | hit hadmitted => exact iff_of_false nofun (by simp [MetricSeries.reserve, hadmitted])
  | miss => cases hpc'
  | reject hnone => exact iff_of_true rfl hnone
  | reserve hsome => exact iff_of_false nofun (by simp [hsome])
  | accept | refuse | labels | store | finish | forget | release => cases hpc

end

/-- Only the critical section of `admit` rejects. -/
theorem reserve_of_rejected
    (h : CallMove limit c key series pc series' (.returned (some .cardinalityLimit))) :
    series.reserve key limit = none := by
  generalize hpc' : Pc.returned (some .cardinalityLimit) = pc' at h
  cases h with
  | reject hnone => exact hnone
  | labels held => cases held <;> cases hpc'
  | hit | miss | reserve | accept | refuse | store | finish | forget | release => cases hpc'

end CallMove

/-! ### The limiter -/

/-- How many calls hold a reservation of the key. -/
def State.holders (s : State Distinct) (name : String) (key : Distinct) : ℕ :=
  s.calls.countP fun call => call.name = name && call.key = key && call.pc.holds

/-- **The invariant of the limiter.** -/
structure Slots (limit : ℤ) (s : State Distinct) : Prop where
  balanced : ∀ name, Balanced (limitOf limit) (s.metrics name) (s.holders name)
  known : ∀ call ∈ s.calls, call.pc.known = true → call.key ∈ (s.metrics call.name).admitted
  recorded : ∀ name, ∀ key ∈ (s.metrics name).admitted,
    ∃ call ∈ s.calls, call.name = name ∧ call.key = key ∧ call.pc.enqueued = true

theorem limitOf_nonneg (limit : ℤ) : 0 ≤ limitOf limit := by
  unfold limitOf defaultMaxCardinality
  split <;> omega

/-- The reservations after a call has moved. -/
theorem holders_set {s' : State Distinct} {c : ℕ} {pc : Pc} (hc : s.calls[c]? = some call)
    (hcalls : s'.calls = s.calls.set c { call with pc := pc }) (name : String) :
    s'.holders name =
      if name = call.name then update (s.holders name) call.key
        (s.holders name call.key - call.pc.holds.toNat + pc.holds.toNat)
      else s.holders name := by
  obtain ⟨hlt, hget⟩ := List.getElem?_eq_some_iff.mp hc
  funext key
  simp only [State.holders, hcalls, countP_set hlt, hget]
  by_cases hname : name = call.name
  · subst hname
    rw [if_pos rfl]
    by_cases hkey : key = call.key
    · subst hkey
      cases hheld : call.pc.holds <;> cases hheld' : pc.holds <;> simp
    · simp [State.holders, hkey, Ne.symm hkey]
  · simp [State.holders, hname, Ne.symm hname]

theorem holders_ne_zero (hmem : call ∈ s.calls) (hholds : call.pc.holds = true) :
    s.holders call.name call.key ≠ 0 := by
  refine Nat.pos_iff_ne_zero.mp (countP_pos_iff.mpr ⟨call, hmem, ?_⟩)
  simp [hholds]

namespace Slots

variable {limit : ℤ} {s s' : State Distinct}

/-- A call is made. -/
theorem push (h : Slots limit s) (hholds : call.pc.holds = false) (hknown : call.pc.known = false) :
    Slots limit { s with calls := s.calls ++ [call] } where
  balanced := by
    intro name
    have hsame : State.holders { s with calls := s.calls ++ [call] } name = s.holders name := by
      funext key
      simp [State.holders, countP_append, hholds]
    rw [hsame]
    exact h.balanced name
  known := by
    intro call' hmem hcall'
    rcases mem_append.mp hmem with hmem | hmem
    · exact h.known call' hmem hcall'
    · rw [mem_singleton.mp hmem, hknown] at hcall'
      cases hcall'
  recorded := by
    intro name key hkey
    obtain ⟨call', hmem, hcall'⟩ := h.recorded name key hkey
    exact ⟨call', mem_append_left _ hmem, hcall'⟩

/-- A call moves. -/
theorem move (h : Slots limit s) {c : ℕ} {call : Call Distinct} (hc : s.calls[c]? = some call)
    {series : MetricSeries Distinct} {pc : Pc}
    (hmove : CallMove (limitOf limit) c call.key (s.metrics call.name) call.pc series pc)
    (hmetrics : s'.metrics = update s.metrics call.name series)
    (hcalls : s'.calls = s.calls.set c { call with pc := pc }) : Slots limit s' := by
  have hmem := mem_of_getElem? hc
  have hknown := h.known call hmem
  obtain ⟨hmono, hself, hkeep, hnew⟩ := hmove.admitted (h.balanced call.name) hknown
  have hadmitted : ∀ name, (s.metrics name).admitted ⊆ (s'.metrics name).admitted := by
    intro name
    rw [hmetrics]
    by_cases hname : name = call.name
    · rw [hname, update_self]
      exact hmono
    · rw [update_of_ne hname]
  refine ⟨fun name => ?_, fun call' hmem' hcall' => ?_, fun name key hkey => ?_⟩
  · rw [holders_set hc hcalls, hmetrics]
    by_cases hname : name = call.name
    · subst hname
      rw [if_pos rfl, update_self]
      exact hmove.balanced (h.balanced call.name) (holders_ne_zero hmem) hknown
    · rw [if_neg hname, update_of_ne hname]
      exact h.balanced name
  · rw [hcalls] at hmem'
    rcases mem_or_eq_of_mem_set hmem' with hold | rfl
    · exact hadmitted _ (h.known call' hold hcall')
    · rw [hmetrics, update_self]
      exact hself hcall'
  · -- the call of an old key is still there, if only further on
    have hstay : ∀ call' ∈ s.calls, call'.pc.enqueued = true → ∃ call'' ∈ s'.calls,
        call''.name = call'.name ∧ call''.key = call'.key ∧ call''.pc.enqueued = true := by
      intro call' hmem' henqueued
      obtain ⟨c', hc'⟩ := mem_iff_getElem?.mp hmem'
      rw [hcalls]
      by_cases heq : c' = c
      · subst heq
        cases hc.symm.trans hc'
        exact ⟨_, mem_set (List.getElem?_eq_some_iff.mp hc).1 _, rfl, rfl, hkeep henqueued⟩
      · refine ⟨call', mem_of_getElem? (i := c') ?_, rfl, rfl, henqueued⟩
        rw [getElem?_set_ne (Ne.symm heq)]
        exact hc'
    rw [hmetrics] at hkey
    by_cases hname : name = call.name
    · rw [hname, update_self] at hkey
      rcases hnew key hkey with hold | ⟨rfl, henqueued⟩
      · obtain ⟨call', hmem', hname', hkey', henqueued⟩ := h.recorded call.name key hold
        obtain ⟨call'', hmem'', hname'', hkey'', henqueued⟩ := hstay call' hmem' henqueued
        exact ⟨call'', hmem'', by rw [hname'', hname', hname], hkey''.trans hkey', henqueued⟩
      · refine ⟨{ call with pc := pc }, ?_, hname.symm, rfl, henqueued⟩
        rw [hcalls]
        exact mem_set (List.getElem?_eq_some_iff.mp hc).1 _
    · rw [update_of_ne hname] at hkey
      obtain ⟨call', hmem', hname', hkey', henqueued⟩ := h.recorded name key hkey
      obtain ⟨call'', hmem'', hname'', hkey'', henqueued⟩ := hstay call' hmem' henqueued
      exact ⟨call'', hmem'', hname''.trans hname', hkey''.trans hkey', henqueued⟩

end Slots

section

variable [Inhabited Distinct] {limit : ℤ} {ops : SetOps Other Distinct} {s s' : State Distinct}

omit [DecidableEq Distinct] in
/-- A call that is made has taken nothing yet. -/
theorem newCall_pc (ops : SetOps Other Distinct) (observation : Observation Other) :
    (newCall ops observation).pc.holds = false ∧ (newCall ops observation).pc.known = false := by
  unfold newCall
  split <;> exact ⟨rfl, rfl⟩

/-- **What a step does**: a call is made, or a call moves and the others stay. -/
theorem limiterStep_cases {l : Label Other} (h : limiterStep limit ops s l = some s') :
    (∃ observation, s' = { s with calls := s.calls ++ [newCall ops observation] }) ∨
    ∃ (c : ℕ) (call : Call Distinct) (series : MetricSeries Distinct) (pc : Pc),
      s.calls[c]? = some call ∧
      CallMove (limitOf limit) c call.key (s.metrics call.name) call.pc series pc ∧
      s'.metrics = update s.metrics call.name series ∧
      s'.calls = s.calls.set c { call with pc := pc } := by
  cases l with
  | call observation =>
    cases h
    exact .inl ⟨observation, rfl⟩
  | step c accepts =>
    obtain ⟨call, hc, hcall⟩ := Option.bind_eq_some_iff.mp h
    obtain ⟨series, pc, hmove⟩ := CallMove.of_callStep hcall
    exact .inr ⟨c, call, series, pc, hc, hmove⟩

theorem slots_of_reach (h : (limiter limit ops).Reach s) : Slots limit s := by
  refine TransitionSystem.Reachable.invariant ?_ ?_ h
  · exact ⟨fun _ => .zero (limitOf_nonneg limit), nofun, nofun⟩
  · intro s l s' _ hslots _ hstep
    rcases limiterStep_cases hstep with
      ⟨observation, rfl⟩ | ⟨c, call, series, pc, hc, hmove, hmetrics, hcalls⟩
    · obtain ⟨hholds, hknown⟩ := newCall_pc ops observation
      exact hslots.push hholds hknown
    · exact hslots.move hc hmove hmetrics hcalls

/-- A key that is admitted stays so, and its observations are not rejected. -/
theorem Slots.step_admitted (h : Slots limit s) {l : Label Other}
    (hstep : limiterStep limit ops s l = some s') {name : String} {key : Distinct}
    (hkey : key ∈ (s.metrics name).admitted) :
    key ∈ (s'.metrics name).admitted ∧
      ∀ (c : ℕ) (call : Call Distinct), s'.calls[c]? = some call → call.name = name →
        call.key = key →
        call.pc = .returned (some .cardinalityLimit) → s.calls[c]? = some call := by
  rcases limiterStep_cases hstep with
    ⟨observation, rfl⟩ | ⟨c, call, series, pc, hc, hmove, hmetrics, hcalls⟩
  · refine ⟨hkey, fun c call hcall _ _ hpc => ?_⟩
    rcases getElem?_concat_eq_some.mp hcall with hold | ⟨-, rfl⟩
    · exact hold
    · unfold newCall at hpc
      split at hpc <;> cases hpc
  · have hadmitted := hmove.admitted (h.balanced call.name)
      (h.known call (mem_of_getElem? hc))
    refine ⟨?_, fun c' call' hcall' hname hkey' hpc => ?_⟩
    · rw [hmetrics]
      by_cases hname : name = call.name
      · subst hname
        rw [update_self]
        exact hadmitted.1 hkey
      · rwa [update_of_ne hname]
    · rw [hcalls] at hcall'
      by_cases hc' : c' = c
      · subst hc'
        rw [getElem?_set_self (List.getElem?_eq_some_iff.mp hc).1] at hcall'
        cases hcall'
        -- a rejection would mean that the key is not admitted
        subst hname hkey' hpc
        have hnone := hmove.reserve_of_rejected
        exact absurd hkey ((h.balanced call.name).reserve_eq_none.mp hnone).1
      · rwa [getElem?_set_ne (Ne.symm hc')] at hcall'

/-! ### The contract -/

/-- **The limiter keeps its slots.**  In every state, `count` is the number of keys that are
admitted or reserved and does not pass the limit, and every admitted key has an observation
that was enqueued.  A key that is admitted stays admitted, whatever happens, and none of its
observations is rejected any more.  `admit` rejects an observation exactly when its key is
neither admitted nor reserved and `count` has reached the limit.  When no call is in
progress, nothing is reserved and the admitted keys are those that were recorded. -/
theorem limiter_keeps_slots (hs : (limiter limit ops).Reach s) :
    (∀ name, (s.metrics name).count =
        ((s.metrics name).admitted ∪ (s.metrics name).reserved.keys.toFinset).card ∧
      (s.metrics name).count ≤ limitOf limit) ∧
    (∀ name, ∀ key ∈ (s.metrics name).admitted,
      ∃ call ∈ s.calls, call.name = name ∧ call.key = key ∧ call.pc.enqueued = true) ∧
    (∀ labels s', (limiter limit ops).run s labels = some s' →
      ∀ name, ∀ key ∈ (s.metrics name).admitted, key ∈ (s'.metrics name).admitted ∧
        ∀ (c : ℕ) (call : Call Distinct), s'.calls[c]? = some call → call.name = name →
          call.key = key →
          call.pc = .returned (some .cardinalityLimit) → s.calls[c]? = some call) ∧
    (∀ l s', (limiter limit ops).step s l = some s' →
      ∀ (c : ℕ) (call call' : Call Distinct), s.calls[c]? = some call → s'.calls[c]? = some call' →
        call.pc.admitting = true → call'.pc.admitting = false →
        (call'.pc = .returned (some .cardinalityLimit) ↔
          call.key ∉ (s.metrics call.name).admitted ∧
            call.key ∉ (s.metrics call.name).reserved.keys ∧
            limitOf limit ≤ (s.metrics call.name).count)) ∧
    ((∀ call ∈ s.calls, ∃ result, call.pc = .returned result) →
      ∀ name, (s.metrics name).reserved.keys = [] ∧
        (s.metrics name).count = (s.metrics name).admitted.card ∧
        ∀ key, key ∈ (s.metrics name).admitted ↔
          ∃ call ∈ s.calls, call.name = name ∧ call.key = key ∧ call.pc = .returned none) := by
  have hslots := slots_of_reach hs
  refine ⟨fun name => ⟨(hslots.balanced name).count, (hslots.balanced name).bound⟩,
    hslots.recorded, ?_, ?_, ?_⟩
  · intro labels
    induction labels generalizing s with
    | nil =>
      intro s' hrun name key hkey
      cases hrun
      exact ⟨hkey, fun _ _ hcall _ _ _ => hcall⟩
    | cons l labels ih =>
      intro s' hrun name key hkey
      rw [TransitionSystem.run_cons, Option.bind_eq_some_iff] at hrun
      obtain ⟨t, hstep, hrest⟩ := hrun
      obtain ⟨hadmitted, hrejected⟩ := hslots.step_admitted hstep hkey
      have ht : (limiter limit ops).Reach t := .step hs trivial hstep
      obtain ⟨hadmitted', hrejected'⟩ := ih ht (slots_of_reach ht) s' hrest name key hadmitted
      exact ⟨hadmitted', fun c call hcall hname hkey' hpc =>
        hrejected c call (hrejected' c call hcall hname hkey' hpc) hname hkey' hpc⟩
  · intro l s' hstep c call call' hc hc' hadmitting hdecided
    rcases limiterStep_cases hstep with
      ⟨observation, rfl⟩ | ⟨c₀, call₀, series, pc, hc₀, hmove, -, hcalls⟩
    · rw [getElem?_append_left (List.getElem?_eq_some_iff.mp hc).1, hc] at hc'
      cases hc'
      cases hadmitting.symm.trans hdecided
    · rw [hcalls] at hc'
      by_cases heq : c = c₀
      · subst heq
        cases hc.symm.trans hc₀
        rw [getElem?_set_self (List.getElem?_eq_some_iff.mp hc).1] at hc'
        cases hc'
        exact hmove.rejected_iff (hslots.balanced call.name) hadmitting hdecided
      · rw [getElem?_set_ne (Ne.symm heq), hc] at hc'
        cases hc'
        cases hadmitting.symm.trans hdecided
  · intro hquiet name
    have hb := hslots.balanced name
    have hnone : ∀ key, s.holders name key = 0 := by
      intro key
      refine countP_eq_zero.mpr fun call hcall => ?_
      obtain ⟨result, hresult⟩ := hquiet call hcall
      simp [hresult, Pc.holds]
    have hkeys : (s.metrics name).reserved.keys = [] :=
      eq_nil_iff_forall_not_mem.mpr fun key hkey =>
        (hb.reserves.mem_keys key).mp hkey (hnone key)
    have hcount := hb.count
    rw [MetricSeries.slots, hkeys, toFinset_nil, Finset.union_empty] at hcount
    refine ⟨hkeys, hcount, fun key => ⟨fun hkey => ?_, ?_⟩⟩
    · obtain ⟨call, hcall, hname, hkey', henqueued⟩ := hslots.recorded name key hkey
      refine ⟨call, hcall, hname, hkey', ?_⟩
      obtain ⟨result, hresult⟩ := hquiet call hcall
      rw [hresult] at henqueued ⊢
      cases result with
      | none => rfl
      | some error => cases henqueued
    · rintro ⟨call, hcall, rfl, rfl, hresult⟩
      exact hslots.known call hcall (by rw [hresult]; rfl)

/-- Two calls race for the only slot of a metric with the same series: the first is not
enqueued, the second is.  A third call comes with another series. -/
def raceForSlot : List (Label ℕ) :=
  let observation (id : ℕ) : Observation ℕ := ⟨"race_total", [⟨[105, 100], .other id⟩]⟩
  [.call (observation 1), .call (observation 1), .call (observation 2),
    .step 0 false, .step 0 false, .step 1 false, .step 1 false, .step 0 false, .step 0 false,
    .step 2 false, .step 2 false, .step 1 true, .step 1 false, .step 1 false, .step 1 false]

theorem limiter_keeps_slots_race :
    ∃ s, (limiter 1 (⟨id, id⟩ : SetOps ℕ (List (KeyValue ℕ)))).run (limiter 1 ⟨id, id⟩).init
        raceForSlot = some s ∧
      s.calls.map (·.pc) = [.returned (some .notEnqueued), .returned none,
        .returned (some .cardinalityLimit)] ∧
      (s.metrics "race_total").count = (s.metrics "race_total").admitted.card := by
  have hpcs : ((limiter 1 (⟨id, id⟩ : SetOps ℕ (List (KeyValue ℕ)))).run (limiter 1 ⟨id, id⟩).init
      raceForSlot).map (fun s => s.calls.map (·.pc)) = some [.returned (some .notEnqueued),
        .returned none, .returned (some .cardinalityLimit)] := by
    decide +kernel
  obtain ⟨s, hrun, hpcs⟩ := Option.map_eq_some_iff.mp hpcs
  refine ⟨s, hrun, hpcs, ?_⟩
  refine ((limiter_keeps_slots (.of_run .init hrun)).2.2.2.2 ?_ "race_total").2.1
  intro call hcall
  have hpc : call.pc ∈ s.calls.map (·.pc) := mem_map_of_mem hcall
  rw [hpcs] at hpc
  simp only [mem_cons, not_mem_nil, or_false] at hpc
  rcases hpc with hpc | hpc | hpc
  · exact ⟨_, hpc⟩
  · exact ⟨_, hpc⟩
  · exact ⟨_, hpc⟩

end

end ConvoyStats.Cardinality
