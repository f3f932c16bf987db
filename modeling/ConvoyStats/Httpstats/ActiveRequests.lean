import ConvoyStats.Library.Processes

/-!
# The gauge of active requests

`handler.ServeHTTP` of `httpstats/handler.go`, by any number of requests on one handler.  A request
counts itself in `active`, records the count, is served, counts itself out (also when the wrapped
handler panics) and records the count again.  The recorder takes every record in the order of the
calls.

To count and to record are two steps.  If a request counts itself out, and another one counts
itself out and records before the first records, the older count is the last record.  As long as
nobody changes `active` while another request has a count to record, the last record is `active`.
-/

namespace ConvoyStats.Httpstats

open List Process

/-! ### Requests -/

/-- What the requests share: `active`, and the values of the gauge in the order of the records. -/
structure Handler where
  active : ℤ
  gauges : List ℤ
  deriving DecidableEq

/-- Where a request is: what it does next. -/
inductive RequestPc
  | countIn
  /-- It records the count `n`. -/
  | recordIn (n : ℤ)
  | serve
  /-- The deferred function; the wrapped handler may have panicked. -/
  | countOut (panicked : Bool)
  /-- `record`, with the count `left`. -/
  | recordOut (left : ℤ) (panicked : Bool)
  | finished (panicked : Bool)
  deriving DecidableEq

/-- How the wrapped handler ends, where it does. -/
inductive RequestInput
  | none
  | returns
  | panics
  deriving DecidableEq

/-- A step of a request. -/
def serveStep (h : Handler) : RequestPc → RequestInput → Option (Handler × RequestPc)
  | .countIn, .none => some ({ h with active := h.active + 1 }, .recordIn (h.active + 1))
  | .recordIn n, .none => some ({ h with gauges := h.gauges ++ [n] }, .serve)
  | .serve, .returns => some (h, .countOut false)
  | .serve, .panics => some (h, .countOut true)
  | .countOut panicked, .none =>
    some ({ h with active := h.active - 1 }, .recordOut (h.active - 1) panicked)
  | .recordOut left panicked, .none =>
    some ({ h with gauges := h.gauges ++ [left] }, .finished panicked)
  | _, _ => none

/-- `ServeHTTP`. -/
def serveHTTP : Process Handler Unit RequestPc RequestInput where
  start _ := .countIn
  step _ := serveStep

/-- A new handler and the requests it serves. -/
def requests :
    TransitionSystem (Concurrent Handler RequestPc) (ConcurrentLabel Unit RequestInput) :=
  serveHTTP.concurrent ⟨0, []⟩

/-! ### What a step does -/

namespace RequestPc

/-- The request is counted in `active`. -/
def counted : RequestPc → Bool
  | .recordIn _ | .serve | .countOut _ => true
  | _ => false

/-- The count that the request has yet to record. -/
def unrecorded : RequestPc → Option ℤ
  | .recordIn n | .recordOut n _ => some n
  | _ => none

/-- The request is about to change `active`. -/
def changes : RequestPc → Bool
  | .countIn | .countOut _ => true
  | _ => false

def isFinished : RequestPc → Bool
  | .finished _ => true
  | _ => false

end RequestPc

/-- What a step does to `active` and to the records. -/
inductive RequestMove (h : Handler) : RequestPc → Handler → RequestPc → Prop
  | count {pc pc' : RequestPc} (active : ℤ) (hpc : pc.changes = true)
      (hactive : active + (if pc.counted then 1 else 0) = h.active + if pc'.counted then 1 else 0)
      (hpc' : pc'.unrecorded = some active) (hnot : pc'.isFinished = false) :
      RequestMove h pc { h with active := active } pc'
  | record {pc pc' : RequestPc} (n : ℤ) (hpc : pc.unrecorded = some n)
      (hcounted : pc'.counted = pc.counted) (hpc' : pc'.unrecorded = none) :
      RequestMove h pc { h with gauges := h.gauges ++ [n] } pc'
  | serve (panicked : Bool) : RequestMove h .serve h (.countOut panicked)

theorem RequestMove.of_serveStep {h h' : Handler} {pc pc' : RequestPc} {input : RequestInput}
    (hstep : serveStep h pc input = some (h', pc')) : RequestMove h pc h' pc' := by
  cases pc with
  | countIn =>
    cases input <;> cases hstep
    exact .count _ rfl (Int.add_zero _) rfl rfl
  | recordIn n =>
    cases input <;> cases hstep
    exact .record n rfl rfl rfl
  | serve => cases input <;> cases hstep <;> exact .serve _
  | countOut panicked =>
    cases input <;> cases hstep
    exact .count _ rfl (by show _ - 1 + 1 = _ + 0; omega) rfl rfl
  | recordOut left panicked =>
    cases input <;> cases hstep
    exact .record left rfl rfl rfl
  | finished panicked => cases input <;> cases hstep

/-! ### Runs -/

/-- Nobody changes `active` while another request has a count to record. -/
def RecordsInTurn (c : Concurrent Handler RequestPc) : ConcurrentLabel Unit RequestInput → Prop
  | .call _ => True
  | .move i _ => ∀ pc ∈ c.procs[i]?, pc.changes = true → ∀ qc ∈ c.procs, qc.unrecorded = none

instance (c : Concurrent Handler RequestPc) (l : ConcurrentLabel Unit RequestInput) :
    Decidable (RecordsInTurn c l) :=
  match l with
  | .call _ => .isTrue trivial
  | .move i _ => inferInstanceAs (Decidable (∀ pc ∈ c.procs[i]?, _))

/-- **The invariant.**  What is to be recorded is `active`, and if nothing is, it was recorded
last. -/
structure Tracks (c : Concurrent Handler RequestPc) : Prop where
  active : c.shared.active = c.procs.countP RequestPc.counted
  unrecorded : ∀ pc ∈ c.procs, ∀ n ∈ pc.unrecorded, n = c.shared.active
  last : (∀ pc ∈ c.procs, pc.unrecorded = none) →
    ∀ n ∈ c.shared.gauges.getLast?, n = c.shared.active
  finished : (∃ pc ∈ c.procs, pc.isFinished = true) → c.shared.gauges ≠ []

namespace Tracks

variable {c : Concurrent Handler RequestPc} {i : ℕ} {pc pc' : RequestPc} {h' : Handler}

theorem init : Tracks ⟨⟨0, []⟩, []⟩ where
  active := rfl
  unrecorded pc h := by cases h
  last _ n h := by cases h
  finished h := by
    obtain ⟨pc, hpc, -⟩ := h
    cases hpc

theorem start (h : Tracks c) : Tracks ⟨c.shared, c.procs ++ [.countIn]⟩ where
  active := by
    show c.shared.active = ((c.procs ++ [RequestPc.countIn]).countP _ : ℕ)
    rw [countP_append, h.active]
    rfl
  unrecorded := forall_mem_append.mpr ⟨h.unrecorded, forall_mem_singleton.mpr nofun⟩
  last hnone := h.last (forall_mem_append.mp hnone).1
  finished hfin := by
    obtain ⟨pc, hpc, hpcf⟩ := hfin
    rcases mem_append.mp hpc with hpc | hpc
    · exact h.finished ⟨pc, hpc, hpcf⟩
    · rw [mem_singleton.mp hpc] at hpcf
      cases hpcf

/-- What changes `active` by one changes the number of counted requests by one. -/
theorem active_move (h : Tracks c) (hi : c.procs[i]? = some pc)
    (hmove : RequestMove c.shared pc h' pc') :
    h'.active = (c.procs.set i pc').countP RequestPc.counted := by
  have hcount := countP_set_add RequestPc.counted pc' hi
  have hactive := h.active
  cases hmove with
  | count active hpc hchange =>
    show active = _
    split_ifs at hcount hchange <;> omega
  | record n hpc hcounted =>
    rw [hcounted, Nat.add_right_cancel_iff] at hcount
    rw [hcount]
    exact hactive
  | serve panicked =>
    rw [show RequestPc.counted (.countOut panicked) = RequestPc.counted .serve from rfl,
      Nat.add_right_cancel_iff] at hcount
    rw [hcount]
    exact hactive

theorem move (h : Tracks c) (hi : c.procs[i]? = some pc) (hmove : RequestMove c.shared pc h' pc')
    (hturn : pc.changes = true → ∀ qc ∈ c.procs, qc.unrecorded = none) :
    Tracks ⟨h', c.procs.set i pc'⟩ := by
  have hmem : pc ∈ c.procs := mem_of_getElem? hi
  refine ⟨h.active_move hi hmove, ?_, ?_, ?_⟩
  · cases hmove with
    | count _ hpc _ hpc' =>
      -- Nobody else has a count to record, so none is out of date.
      refine forall_mem_set (fun qc hqc n hn => ?_) fun n hn => ?_
      · rw [hturn hpc qc hqc] at hn
        cases hn
      · rw [hpc'] at hn
        exact (Option.some.inj hn).symm
    | record n _ _ hpc' =>
      refine forall_mem_set h.unrecorded ?_
      rw [hpc']
      exact nofun
    | serve panicked => exact forall_mem_set h.unrecorded nofun
  · intro hnone
    cases hmove with
    | count _ _ _ hpc' =>
      have hcontra := hnone pc' (mem_set_self_of hi)
      rw [hpc'] at hcontra
      cases hcontra
    | record n hpc =>
      show ∀ m ∈ (c.shared.gauges ++ [n]).getLast?, m = c.shared.active
      rw [getLast?_concat]
      rintro m ⟨⟩
      exact h.unrecorded pc hmem _ hpc
    | serve panicked =>
      refine h.last fun qc hqc => ?_
      by_contra hne
      have hstay := exists_mem_of_set (Q := fun qc => ¬ qc.unrecorded = none)
        (.countOut panicked) hi ⟨qc, hqc, hne⟩
      rcases hstay with ⟨qc, hqc, hne⟩ | hne
      · exact hne (hnone qc hqc)
      · exact hne rfl
  · rintro ⟨qc, hqc, hfin⟩
    rcases mem_or_eq_of_mem_set hqc with hqc | rfl
    · have hold := h.finished ⟨qc, hqc, hfin⟩
      cases hmove with
      | record n => exact append_ne_nil_of_left_ne_nil hold _
      | _ => exact hold
    · cases hmove with
      | count _ _ _ _ hnot => exact absurd (hnot.symm.trans hfin) Bool.false_ne_true
      | record n => exact append_ne_nil_of_right_ne_nil _ (cons_ne_nil _ _)
      | serve panicked => cases hfin

theorem of_reachable (h : requests.Reachable RecordsInTurn c) : Tracks c := by
  refine h.invariant .init ?_
  intro c l c' _ hinv hcond hstep
  cases ConcurrentMove.of_step hstep with
  | call a => exact hinv.start
  | move hi hpc => exact hinv.move hi (.of_serveStep hpc) (hcond _ hi)

end Tracks

/-! ### When no request is in progress -/

/-- **The gauge returns to zero**, if nobody changes `active` while another request has a count to
record. -/
theorem gauge_returns_to_zero {c : Concurrent Handler RequestPc}
    (hreach : requests.Reachable RecordsInTurn c) (hserved : c.procs ≠ [])
    (hidle : ∀ pc ∈ c.procs, pc.isFinished = true) : c.shared.gauges.getLast? = some 0 := by
  have hinv := Tracks.of_reachable hreach
  have hnone : ∀ pc ∈ c.procs, pc.counted = false ∧ pc.unrecorded = none := by
    intro pc hpc
    have hfin := hidle pc hpc
    cases pc <;> first | exact ⟨rfl, rfl⟩ | cases hfin
  have hzero : c.shared.active = 0 := by
    rw [hinv.active, countP_eq_zero.mpr fun pc hpc => Bool.eq_false_iff.mp (hnone pc hpc).1]
    rfl
  obtain ⟨pc, hpc⟩ := exists_mem_of_ne_nil _ hserved
  have hrecords := hinv.finished ⟨pc, hpc, hidle pc hpc⟩
  obtain ⟨n, hn⟩ := Option.isSome_iff_exists.mp (getLast?_isSome.mpr hrecords)
  rw [hn, hinv.last (fun pc hpc => (hnone pc hpc).2) n hn, hzero]

/-- A request comes and is served, as the request `i`. -/
def serves (i : ℕ) : List (ConcurrentLabel Unit RequestInput) :=
  [.call (), .move i .none, .move i .none, .move i .returns]

/-- It leaves. -/
def leaves (i : ℕ) : List (ConcurrentLabel Unit RequestInput) := [.move i .none, .move i .none]

/-- Two requests that overlap, and leave one after the other. -/
theorem gauge_returns_to_zero_two :
    ∃ c, requests.Reachable RecordsInTurn c ∧ c.procs.length = 2 ∧
      c.shared.gauges.getLast? = some 0 := by
  have hreach :
      requests.Reachable RecordsInTurn ⟨⟨0, [1, 2, 1, 0]⟩, [.finished false, .finished false]⟩ :=
    .of_labels_within _ (serves 0 ++ serves 1 ++ leaves 0 ++ leaves 1) rfl
  refine ⟨_, hreach, rfl, gauge_returns_to_zero hreach (cons_ne_nil _ _) ?_⟩
  exact forall_mem_cons.mpr ⟨rfl, forall_mem_singleton.mpr rfl⟩

/-- **The gauge stays at one.**  The first request counts itself out, the second leaves, and then
the first records. -/
theorem gauge_stays_at_one :
    ∃ c, requests.Reach c ∧ (∀ pc ∈ c.procs, pc.isFinished = true) ∧
      c.shared.gauges.getLast? = some 1 := by
  have hreach : requests.Reach ⟨⟨0, [1, 2, 0, 1]⟩, [.finished false, .finished false]⟩ :=
    .of_labels (serves 0 ++ serves 1 ++ [.move 0 .none] ++ leaves 1 ++ [.move 0 .none]) rfl
  exact ⟨_, hreach, forall_mem_cons.mpr ⟨rfl, forall_mem_singleton.mpr rfl⟩, rfl⟩

end ConvoyStats.Httpstats
