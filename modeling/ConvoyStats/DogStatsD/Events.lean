import ConvoyStats.DogStatsD.Metrics

/-!
# Events over the wire

An event is serialized into one datagram and read back.

The title and the text may contain bars and line feeds.  Their lengths, which count the escaped
bytes, are in front of them, so nothing in them is taken for a delimiter, and what is escaped is
read back unless the text itself contains an escaped line feed (`unescapeEvent_escapeEvent`).  The
other fields are sections between bars.

The lengths and their sum are 64-bit integers: a datagram is shorter than that.
-/

namespace ConvoyStats.DogStatsD

open List Models Outcome

variable {Other : Type}

/-! ### Escaping -/

variable {c : UInt8}

theorem unescapeEvent_cons {rest : Bytes} (h : ¬ (c = 92 ∧ rest.head? = some 110)) :
    unescapeEvent (c :: rest) = c :: unescapeEvent rest := by
  cases rest with
  | nil => rfl
  | cons d rest =>
    rw [unescapeEvent, if_neg]
    rintro ⟨hc, rfl⟩
    exact h ⟨hc, rfl⟩

theorem head?_escapeEvent {s : Bytes} (h : (escapeEvent s).head? = some 110) :
    s.head? = some 110 := by
  cases s with
  | nil => cases h
  | cons c s =>
    rw [escapeEvent, flatMap_cons, escapeNewline] at h
    split_ifs at h
    · revert h
      exact fun h => absurd (Option.some.inj h) (by decide)
    · exact h

/-- **What is escaped is read back.** -/
theorem unescapeEvent_escapeEvent {s : Bytes} (h : ¬ [92, 110] <:+: s) :
    unescapeEvent (escapeEvent s) = s := by
  induction s with
  | nil => rfl
  | cons c s ih =>
    have hs := ih fun hmem => h (infix_cons hmem)
    rw [escapeEvent, flatMap_cons, escapeNewline]
    split_ifs with hc
    · rw [hc]
      show 10 :: unescapeEvent (escapeEvent s) = _
      rw [hs]
    · show unescapeEvent (c :: escapeEvent s) = _
      rw [unescapeEvent_cons, hs]
      rintro ⟨rfl, hhead⟩
      -- A backslash before an `n` is what the text must not contain.
      obtain ⟨rest, rfl⟩ := head?_eq_some_iff.mp (head?_escapeEvent hhead)
      exact h ⟨[], rest, rfl⟩

theorem mem_escapeEvent {s : Bytes} (h : c ∈ escapeEvent s) :
    c ≠ 10 ∧ (c ∈ s ∨ c = 92 ∨ c = 110) := by
  obtain ⟨d, hd, hc⟩ := mem_flatMap.mp h
  rw [escapeNewline] at hc
  split_ifs at hc with hnewline
  · simp only [mem_cons, not_mem_nil, or_false] at hc
    rcases hc with rfl | rfl
    · exact ⟨by decide, .inr (.inl rfl)⟩
    · exact ⟨by decide, .inr (.inr rfl)⟩
  · obtain rfl := mem_singleton.mp hc
    exact ⟨hnewline, .inl hd⟩

theorem length_escapeEvent {s : Bytes} (h : s ≠ []) : 0 < (escapeEvent s).length := by
  obtain ⟨c, s, rfl⟩ := exists_cons_of_ne_nil h
  rw [escapeEvent, flatMap_cons, escapeNewline, length_append]
  split_ifs <;> exact Nat.lt_of_lt_of_le (Nat.succ_pos _) (Nat.le_add_right _ _)

/-! ### The datagram -/

/-- The section of a field, and none where the field is empty. -/
def fieldSection (pre value : Bytes) : List Bytes := if value = [] then [] else [pre ++ value]

/-- The section of the timestamp, and none where it is zero. -/
def timestampSection (t : Instant) : List Bytes :=
  if t.isZero then [] else [text "d:" ++ itoa t.unix.toInt]

/-- The sections after the text. -/
def eventSections (s : DogStatsDSerializer Other) (e : DatadogEvent Other) : List Bytes :=
  timestampSection e.timestamp ++ (fieldSection (text "h:") e.host ++
    (fieldSection (text "p:") e.priority ++ (fieldSection (text "t:") e.alertType ++
      (fieldSection (text "k:") e.aggregationKey ++ (fieldSection (text "s:") e.sourceTypeName ++
        tagSection (e.tags.map s.tagText))))))

theorem barred_append (as bs : List Bytes) : barred (as ++ bs) = barred as ++ barred bs :=
  flatMap_append

theorem writeEventField_eq (buf pre value : Bytes) :
    writeEventField buf (124 :: pre) value = buf ++ barred (fieldSection pre value) := by
  rw [writeEventField, fieldSection]
  split_ifs
  · exact (append_nil buf).symm
  · simp [barred]

theorem timestampSection_eq (buf : Bytes) (t : Instant) :
    (if t.isZero then buf else buf ++ text "|d:" ++ itoa t.unix.toInt) =
      buf ++ barred (timestampSection t) := by
  rw [timestampSection]
  split_ifs
  · exact (append_nil buf).symm
  · show buf ++ 124 :: text "d:" ++ _ = _
    simp [barred]

/-- The lengths, which follow the opening brace. -/
def eventHeader (e : DatadogEvent Other) : Bytes :=
  itoa (escapeEvent e.title).length ++ 44 :: itoa (escapeEvent e.text).length

/-- What follows the lengths. -/
def eventBody (s : DogStatsDSerializer Other) (e : DatadogEvent Other) : Bytes :=
  escapeEvent e.title ++ 124 :: (escapeEvent e.text ++ barred (eventSections s e))

variable {s : DogStatsDSerializer Other} {d : DogStatsDEvent}

theorem serializeEvent_eq (hs : s.Plain) (e : DatadogEvent Other) :
    s.serializeEvent e = text "_e\x7b" ++ (eventHeader e ++ 125 :: ([58] ++ eventBody s e)) := by
  have hbuf := writeEventField_eq
  rw [DogStatsDSerializer.serializeEvent, s.writeTags_eq, hs.tagTexts]
  rw [show text "|s:" = 124 :: text "s:" from rfl, hbuf,
    show text "|k:" = 124 :: text "k:" from rfl, hbuf,
    show text "|t:" = 124 :: text "t:" from rfl, hbuf,
    show text "|p:" = 124 :: text "p:" from rfl, hbuf, show text "|h:" = 124 :: text "h:" from rfl,
    hbuf, timestampSection_eq, eventBody, eventSections, eventHeader]
  simp only [barred_append, append_assoc, cons_append]
  rfl

/-! ### Reading -/

theorem not_mem_itoa {n : ℤ} (hminus : c ≠ 45) (hdigit : Cardinality.isTagDigit c = false) :
    c ∉ itoa n := by
  intro hmem
  rcases mem_itoa hmem with h | h
  · exact hminus h
  · exact absurd (hdigit.symm.trans h) Bool.false_ne_true

theorem addInt_eq {a b : ℤ} (hlow : 0 ≤ a + b) (hhigh : a + b < 2 ^ 63) : addInt a b = a + b :=
  Int.bmod_eq_of_le (by omega) (by omega)

theorem sliceFrom_two (c d : UInt8) (v : Bytes) : (c :: d :: v).sliceFrom 2 = .ok v :=
  sliceFrom_append [c, d] v

/-- A field that is written is set, and one that is empty is as it was. -/
theorem foldlM_fieldSection {pre v : Bytes} {d' : DogStatsDEvent}
    (hset : setField d (pre ++ v) = .ok d') (hempty : v = [] → d' = d) :
    (fieldSection pre v).foldlM setField d = .ok d' := by
  rw [fieldSection]
  split_ifs with hv
  · rw [hempty hv]
    rfl
  · rw [foldlM_cons, hset]
    rfl

section Fields

variable (d : DogStatsDEvent) (v : Bytes)

theorem setField_host : setField d (text "h:" ++ v) = .ok { d with host := v } := by
  show ((104 :: 58 :: v).sliceFrom 2 >>= fun v => pure { d with host := v }) = _
  rw [sliceFrom_two, ok_bind, pure_eq_ok]

theorem setField_priority : setField d (text "p:" ++ v) = .ok { d with priority := v } := by
  show ((112 :: 58 :: v).sliceFrom 2 >>= fun v => pure { d with priority := v }) = _
  rw [sliceFrom_two, ok_bind, pure_eq_ok]

theorem setField_alertType : setField d (text "t:" ++ v) = .ok { d with alertType := v } := by
  show ((116 :: 58 :: v).sliceFrom 2 >>= fun v => pure { d with alertType := v }) = _
  rw [sliceFrom_two, ok_bind, pure_eq_ok]

theorem setField_aggregationKey :
    setField d (text "k:" ++ v) = .ok { d with aggregationKey := v } := by
  show ((107 :: 58 :: v).sliceFrom 2 >>= fun v => pure { d with aggregationKey := v }) = _
  rw [sliceFrom_two, ok_bind, pure_eq_ok]

theorem setField_sourceTypeName :
    setField d (text "s:" ++ v) = .ok { d with sourceTypeName := v } := by
  show ((115 :: 58 :: v).sliceFrom 2 >>= fun v => pure { d with sourceTypeName := v }) = _
  rw [sliceFrom_two, ok_bind, pure_eq_ok]

theorem setField_tags : setField d (35 :: v) = .ok { d with tags := splitTags v } := by
  have hslice : (35 :: v).sliceFrom 1 = .ok v := sliceFrom_append [35] v
  show ((35 :: v).sliceFrom 1 >>= fun v => pure { d with tags := splitTags v }) = _
  rw [hslice, ok_bind, pure_eq_ok]

theorem setField_timestamp (t : Int64) :
    setField d (text "d:" ++ itoa t.toInt) = .ok { d with timestamp := unixTime t } := by
  show ((100 :: 58 :: itoa t.toInt).sliceFrom 2 >>= fun v => orReject (parseInt v) >>= fun ts =>
    pure { d with timestamp := unixTime (.ofInt ts) }) = _
  rw [sliceFrom_two, ok_bind, parseInt_itoa t.le_toInt t.toInt_lt, orReject_some, ok_bind,
    Int64.ofInt_toInt, pure_eq_ok]

end Fields

/-! ### Events -/

/-- The string fields that are sections. -/
def sectionFields (e : DatadogEvent Other) : List Bytes :=
  [e.host, e.priority, e.alertType, e.aggregationKey, e.sourceTypeName]

/-- An event that can be sent. -/
structure SendableEvent (s : DogStatsDSerializer Other) (e : DatadogEvent Other) : Prop where
  title_ne : e.title ≠ []
  title : ¬ [92, 110] <:+: e.title
  text : ¬ [92, 110] <:+: e.text
  fields : ∀ v ∈ sectionFields e, 124 ∉ v ∧ 10 ∉ v
  tags : ∀ attr ∈ e.tags, CleanTag s attr
  carriageReturn : ∀ v ∈ e.title :: e.text :: sectionFields e, 13 ∉ v
  timestamp : e.timestamp.isZero = true ∨ e.timestamp.nsec = 0

/-- The event is received as it was sent. -/
structure CarriesEvent (s : DogStatsDSerializer Other) (e : DatadogEvent Other)
    (d : DogStatsDEvent) : Prop where
  title : d.title = e.title
  text : d.text = e.text
  timestamp : d.timestamp = e.timestamp
  host : d.host = e.host
  priority : d.priority = e.priority
  alertType : d.alertType = e.alertType
  aggregationKey : d.aggregationKey = e.aggregationKey
  sourceTypeName : d.sourceTypeName = e.sourceTypeName
  tags : d.tags = e.tags.map fun attr => attr.key ++ 58 :: s.emit attr.value

/-- What the event is received as. -/
def receivedEvent (s : DogStatsDSerializer Other) (e : DatadogEvent Other) : DogStatsDEvent :=
  ⟨e.title, e.text, e.timestamp, e.host, e.priority, e.alertType, e.aggregationKey,
    e.sourceTypeName, e.tags.map s.tagText⟩

variable {t : Instant}

theorem Instant.eq_of_isZero (h : t.isZero = true) : t = ⟨0, 0⟩ := by
  obtain ⟨hsec, hnsec⟩ := Bool.and_eq_true_iff.mp h
  obtain ⟨sec, nsec⟩ := t
  obtain rfl : sec = 0 := of_decide_eq_true hsec
  obtain rfl : nsec = 0 := of_decide_eq_true hnsec
  rfl

/-- A whole second is determined by its Unix time, whatever wraps. -/
theorem unixTime_unix (h : t.nsec = 0) : unixTime t.unix = t := by
  obtain ⟨sec, nsec⟩ := t
  obtain rfl : nsec = 0 := h
  exact congrArg (Instant.mk · 0) (Int64.sub_add_cancel sec unixToInternal)

theorem foldlM_timestampSection (h : t.isZero = true ∨ t.nsec = 0) (hd : d.timestamp = ⟨0, 0⟩) :
    (timestampSection t).foldlM setField d = .ok { d with timestamp := t } := by
  rw [timestampSection]
  split_ifs with hzero
  · rw [Instant.eq_of_isZero hzero, ← hd]
    rfl
  · rw [foldlM_cons, setField_timestamp, unixTime_unix (h.resolve_left hzero)]
    rfl

theorem foldlM_eventTags {tags : List Bytes}
    (h : tags ≠ [] → splitTags ([44].intercalate tags) = tags) (hd : d.tags = []) :
    (tagSection tags).foldlM setField d = .ok { d with tags := tags } := by
  rw [tagSection]
  split_ifs with hnil
  · rw [hnil, foldlM_nil, ← hd]
    rfl
  · rw [foldlM_cons, setField_tags, h hnil]
    rfl

/-- The sections of an event that is received. -/
def receivedSections (d : DogStatsDEvent) : List Bytes :=
  timestampSection d.timestamp ++ (fieldSection (text "h:") d.host ++
    (fieldSection (text "p:") d.priority ++ (fieldSection (text "t:") d.alertType ++
      (fieldSection (text "k:") d.aggregationKey ++ (fieldSection (text "s:") d.sourceTypeName ++
        tagSection d.tags)))))

/-- **The sections set the fields they were written for.** -/
theorem foldlM_receivedSections (htime : d.timestamp.isZero = true ∨ d.timestamp.nsec = 0)
    (htags : d.tags ≠ [] → splitTags ([44].intercalate d.tags) = d.tags) :
    (receivedSections d).foldlM setField ⟨d.title, d.text, ⟨0, 0⟩, [], [], [], [], [], []⟩ =
      .ok d := by
  rw [receivedSections, foldlM_append, foldlM_timestampSection htime rfl, ok_bind,
    foldlM_append, foldlM_fieldSection (setField_host _ _) fun hv => by rw [hv], ok_bind,
    foldlM_append, foldlM_fieldSection (setField_priority _ _) fun hv => by rw [hv], ok_bind,
    foldlM_append, foldlM_fieldSection (setField_alertType _ _) fun hv => by rw [hv], ok_bind,
    foldlM_append, foldlM_fieldSection (setField_aggregationKey _ _) fun hv => by rw [hv],
    ok_bind,
    foldlM_append, foldlM_fieldSection (setField_sourceTypeName _ _) fun hv => by rw [hv],
    ok_bind, foldlM_eventTags htags rfl]

variable {e : DatadogEvent Other}

theorem foldlM_eventSections (h : SendableEvent s e) :
    (eventSections s e).foldlM setField ⟨e.title, e.text, ⟨0, 0⟩, [], [], [], [], [], []⟩ =
      .ok (receivedEvent s e) :=
  foldlM_receivedSections (d := receivedEvent s e) h.timestamp (splitTags_tagTexts h.tags)

theorem SendableEvent.not_mem_field (h : SendableEvent s e) (hc : c ∈ [124, 10, 13]) :
    ∀ v ∈ sectionFields e, c ∉ v := by
  intro v hv
  simp only [mem_cons, not_mem_nil, or_false] at hc
  rcases hc with rfl | rfl | rfl
  · exact (h.fields v hv).1
  · exact (h.fields v hv).2
  · exact h.carriageReturn v (mem_cons_of_mem _ (mem_cons_of_mem _ hv))

theorem not_mem_fieldSection {pre v : Bytes} (hpre : c ∉ pre) (hv : c ∉ v) :
    ∀ sec ∈ fieldSection pre v, c ∉ sec := by
  intro sec hsec hmem
  rw [fieldSection] at hsec
  split_ifs at hsec
  · cases hsec
  · rw [mem_singleton.mp hsec] at hmem
    exact (mem_append.mp hmem).elim hpre hv

theorem not_mem_timestampSection (hminus : c ≠ 45) (hdigit : Cardinality.isTagDigit c = false)
    (hd : c ∉ text "d:") (t : Instant) : ∀ sec ∈ timestampSection t, c ∉ sec := by
  intro sec hsec hmem
  rw [timestampSection] at hsec
  split_ifs at hsec
  · cases hsec
  · rw [mem_singleton.mp hsec] at hmem
    exact (mem_append.mp hmem).elim hd (not_mem_itoa hminus hdigit)

/-- The string fields of an event that is received. -/
def receivedFields (d : DogStatsDEvent) : List Bytes :=
  [d.host, d.priority, d.alertType, d.aggregationKey, d.sourceTypeName]

/-- The sections contain no bar, line feed or carriage return that is in no field and in no tag. -/
theorem not_mem_receivedSections (hc : c ∈ [124, 10, 13]) (hfields : ∀ v ∈ receivedFields d, c ∉ v)
    (htags : ∀ tag ∈ d.tags, c ∉ tag) : ∀ sec ∈ receivedSections d, c ∉ sec := by
  obtain ⟨hminus, hdigit, hd, hh, hp, ht, hk, hs⟩ : c ≠ 45 ∧ Cardinality.isTagDigit c = false ∧
      c ∉ text "d:" ∧ c ∉ text "h:" ∧ c ∉ text "p:" ∧ c ∉ text "t:" ∧ c ∉ text "k:" ∧
      c ∉ text "s:" := by
    simp only [mem_cons, not_mem_nil, or_false] at hc
    rcases hc with rfl | rfl | rfl <;> decide
  simp only [receivedFields, forall_mem_cons] at hfields
  obtain ⟨hhost, hpriority, halert, hkey, hsource, -⟩ := hfields
  simp only [receivedSections, forall_mem_append]
  exact ⟨not_mem_timestampSection hminus hdigit hd _, not_mem_fieldSection hh hhost,
    not_mem_fieldSection hp hpriority, not_mem_fieldSection ht halert, not_mem_fieldSection hk hkey,
    not_mem_fieldSection hs hsource, not_mem_tagSection hc htags⟩

/-- The sections contain no bar, no line feed and no carriage return. -/
theorem not_mem_eventSections (h : SendableEvent s e) (hc : c ∈ [124, 10, 13]) :
    ∀ sec ∈ eventSections s e, c ∉ sec :=
  not_mem_receivedSections (d := receivedEvent s e) hc (h.not_mem_field hc)
    (CleanTag.not_mem_of h.tags hc)

/-- The lengths and their sum are in range. -/
theorem eventBody_length (hs : s.Plain) (hlen : (s.serializeEvent e).length < 2 ^ 63) :
    (escapeEvent e.title).length + 1 + (escapeEvent e.text).length < 2 ^ 63 := by
  rw [serializeEvent_eq hs, eventBody] at hlen
  simp only [length_append, length_cons] at hlen
  omega

/-- Sections begin with a bar, if there are any. -/
theorem barred_begins {α : Type} (sections : List Bytes) (next : Outcome α) :
    (if barred sections = [] then next
      else (barred sections).index 0 >>= fun c => require (c = 124) >>= fun _ => next) = next := by
  cases sections with
  | nil => rfl
  | cons sec sections => rfl

/-- **What an event line is read as**: the title and the text, by their lengths, and then one
section after the other. -/
theorem parse_eventLine {title body : Bytes} {secs : List Bytes} (htitle : title ≠ [])
    (hsecs : ∀ sec ∈ secs, 124 ∉ sec) (hlen : title.length + 1 + body.length < 2 ^ 63) :
    parseDogStatsDEvent (text "_e\x7b" ++ ((itoa title.length ++ 44 :: itoa body.length) ++
        125 :: ([58] ++ (title ++ 124 :: (body ++ barred secs))))) =
      secs.foldlM setField
        ⟨unescapeEvent title, unescapeEvent body, ⟨0, 0⟩, [], [], [], [], [], []⟩ := by
  have hpos := length_pos_iff.mpr htitle
  have hopen := sliceFrom_append (text "_e\x7b")
    ((itoa title.length ++ 44 :: itoa body.length) ++
      125 :: ([58] ++ (title ++ 124 :: (body ++ barred secs))))
  have hbrace : 125 ∉ itoa title.length ++ 44 :: itoa body.length := by
    have hnumeral : ∀ n : ℤ, 125 ∉ itoa n := fun n => not_mem_itoa (by decide) (by decide)
    simp only [mem_append, mem_cons, not_or]
    exact ⟨hnumeral _, by decide, hnumeral _⟩
  have hheader : ((itoa title.length ++ 44 :: itoa body.length) ++
      125 :: ([58] ++ (title ++ 124 :: (body ++ barred secs)))).cut (text "\x7d:") =
      some (itoa title.length ++ 44 :: itoa body.length, title ++ 124 :: (body ++ barred secs)) :=
    cut_append [58] _ hbrace
  have hlengths : (itoa title.length ++ 44 :: itoa body.length).cut [44] =
      some (itoa title.length, itoa body.length) :=
    cut_append [] _ (not_mem_itoa (by decide) (by decide))
  have hone : addInt title.length 1 = (title.length + 1 : ℕ) := addInt_eq (by omega) (by omega)
  have hfits : addInt (addInt title.length 1) body.length ≤
      (title ++ 124 :: (body ++ barred secs)).length := by
    rw [hone, addInt_eq (by omega) (by omega)]
    simp only [length_append, length_cons]
    omega
  have hrest : (title ++ 124 :: (body ++ barred secs)).sliceFrom (addInt title.length 1) =
      .ok (body ++ barred secs) := by
    have hlength : title.length + 1 = (title ++ [124]).length := by
      rw [length_append, length_singleton]
    rw [hone, append_cons, hlength]
    exact sliceFrom_append _ _
  have hsplit : (barred secs).splitOn 124 = [] :: secs :=
    splitOn_append_flatMap not_mem_nil hsecs
  have hsigns : (0 : ℤ) < title.length ∧ (0 : ℤ) ≤ body.length := by omega
  change List.sliceFrom _ 3 = _ at hopen
  simp only [parseDogStatsDEvent, hopen, ok_bind, hheader, orReject_some, hlengths,
    parseInt_itoa (n := title.length) (by omega) (by omega),
    parseInt_itoa (n := body.length) (by omega) (by omega), require_of hsigns, require_of hfits,
    index_append_cons, sliceTo_append, hrest, sliceFrom_append, hsplit]
  rw [require_of trivial, ok_bind, barred_begins, foldlM_cons]
  rfl

/-- **A datagram is read as the event it was written for.** -/
theorem parse_serializeEvent (hs : s.Plain) (h : SendableEvent s e)
    (hlen : (s.serializeEvent e).length < 2 ^ 63) :
    parseDogStatsDEvent (s.serializeEvent e) = .ok (receivedEvent s e) := by
  have htitle := length_pos_iff.mp (length_escapeEvent h.title_ne)
  rw [serializeEvent_eq hs, eventHeader, eventBody,
    parse_eventLine htitle (not_mem_eventSections h (mem_cons_self ..)) (eventBody_length hs hlen),
    unescapeEvent_escapeEvent h.title, unescapeEvent_escapeEvent h.text]
  exact foldlM_eventSections h

/-- The datagram contains no line feed and no carriage return. -/
theorem not_mem_serializeEvent (hs : s.Plain) (h : SendableEvent s e) (hc : c ∈ [10, 13]) :
    c ∉ s.serializeEvent e := by
  have hsections : c ∉ barred (eventSections s e) :=
    not_mem_barred (by rintro rfl; revert hc; decide)
      (not_mem_eventSections h (mem_cons_of_mem _ hc))
  have hescape : ∀ v ∈ e.title :: e.text :: sectionFields e, c ∉ escapeEvent v := by
    intro v hv hmem
    obtain ⟨hnewline, hmem⟩ := mem_escapeEvent hmem
    simp only [mem_cons, not_mem_nil, or_false] at hc
    obtain rfl := hc.resolve_left hnewline
    exact hmem.elim (h.carriageReturn v hv) (by decide)
  have htitle := hescape e.title (mem_cons_self ..)
  have htext := hescape e.text (mem_cons_of_mem _ (mem_cons_self ..))
  obtain ⟨hminus, hdigit, hopen, hcomma, hbrace, hcolon, hbar⟩ : c ≠ 45 ∧
      Cardinality.isTagDigit c = false ∧ c ∉ text "_e\x7b" ∧ c ≠ 44 ∧ c ≠ 125 ∧ c ≠ 58 ∧
        c ≠ 124 := by
    simp only [mem_cons, not_mem_nil, or_false] at hc
    rcases hc with rfl | rfl <;> decide
  have hlength := fun n : ℤ => not_mem_itoa (n := n) hminus hdigit
  simp only [serializeEvent_eq hs, eventHeader, eventBody, mem_append, mem_cons,
    not_mem_nil, or_false, not_or]
  exact ⟨hopen, ⟨hlength _, hcomma, hlength _⟩, hbrace, hcolon, htitle, hbar, htext, hsections⟩

/-- **Events survive the wire.** -/
theorem events_survive_the_wire (s : DogStatsDSerializer Other) (hs : s.Plain)
    (parseFloat : Bytes → Option Float64) (e : DatadogEvent Other) (h : SendableEvent s e)
    (hlen : (s.serializeEvent e).length < 2 ^ 63) :
    ∃ d, dispatchDatagram parseFloat (s.serializeEvent e) = .ok [.event d] ∧
      CarriesEvent s e d := by
  have hopen : text "_e\x7b" <+: s.serializeEvent e := ⟨_, (serializeEvent_eq hs e).symm⟩
  have hne : s.serializeEvent e ≠ [] := hopen.ne_nil (by decide)
  have htrim : (s.serializeEvent e).trimSuffix [13] = s.serializeEvent e :=
    trimSuffix_append (a := []) hne (not_mem_serializeEvent hs h (by decide))
  have hline : dispatchLine parseFloat (s.serializeEvent e) = .ok [.event (receivedEvent s e)] := by
    have hevent : (text "_e\x7b").isPrefixOf (s.serializeEvent e) = true :=
      isPrefixOf_iff_prefix.mpr hopen
    rw [dispatchLine, htrim, if_neg hne, if_pos hevent, parse_serializeEvent hs h hlen]
    rfl
  refine ⟨receivedEvent s e, ?_, ⟨rfl, rfl, rfl, rfl, rfl, rfl, rfl, rfl, rfl⟩⟩
  rw [dispatchDatagram_eq, splitOn_eq_singleton (not_mem_serializeEvent hs h (by decide)),
    collect, hline]
  rfl

/-- An event with a bar in its title, and a line feed after a backslash in its text. -/
def deployed : DatadogEvent Empty where
  title := text "a|b"
  text := text "x\\\ny"
  timestamp := unixTime 5
  host := text "h1"
  priority := text "low"
  alertType := []
  aggregationKey := []
  sourceTypeName := []
  tags := [⟨text "env", .string (text "p:q")⟩]

theorem deployed_sendable : SendableEvent plainSerializer deployed := by
  have hclean : CleanTag plainSerializer ⟨text "env", .string (text "p:q")⟩ := by
    refine ⟨rfl, ?_⟩
    simp only [tagDelimiters, forall_mem_cons]
    exact ⟨by decide, by decide, by decide, by decide, by simp⟩
  refine ⟨by decide, by decide, by decide, ?_, forall_mem_singleton.mpr hclean, ?_,
    .inr rfl⟩
  · simp only [sectionFields, deployed, forall_mem_cons]
    exact ⟨by decide, by decide, by decide, by decide, by decide, by simp⟩
  · simp only [sectionFields, deployed, forall_mem_cons]
    exact ⟨by decide, by decide, by decide, by decide, by decide, by decide, by decide, by simp⟩

/-- The lengths count the escaped bytes. -/
theorem events_survive_the_wire_deployed :
    plainSerializer.serializeEvent deployed =
        text "_e\x7b3,5\x7d:a|b|x\\\\ny|d:5|h:h1|p:low|#env:p:q" ∧
      ∃ d, dispatchDatagram parseWhole (plainSerializer.serializeEvent deployed) =
          .ok [.event d] ∧
        CarriesEvent plainSerializer deployed d := by
  refine ⟨by decide +kernel, ?_⟩
  exact events_survive_the_wire plainSerializer ⟨rfl, rfl⟩ parseWhole deployed deployed_sendable
    (by decide +kernel)

end ConvoyStats.DogStatsD
