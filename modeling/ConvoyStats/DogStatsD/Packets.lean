import ConvoyStats.Models.Text
import ConvoyStats.Library.Splitting

/-!
# Packing lines into datagrams

`packetize` of `exporters/datadog/exporter.go`.  The lines of the packet that is being filled are
joined in `cur`.

`Packs` says which lines a state has taken in: the closed packets are groups of lines joined by
line feeds, `cur` is a last group, and the groups one after the other are the lines that were not
skipped.  `PacksTightly` adds that the packets fit, and that each is followed by a line it had no
room for.
-/

namespace ConvoyStats.DogStatsD

open List Models

/-- The packets so far, the bytes of the next one, and `oversized`. -/
structure Packing where
  packets : List Bytes
  cur : Bytes
  oversized : ℕ

/-- `flush`. -/
def Packing.flush (p : Packing) : Packing :=
  if p.cur = [] then p else { p with packets := p.packets ++ [p.cur], cur := [] }

/-- A line feed, unless the line is the first of the packet, and the line. -/
def Packing.write (p : Packing) (line : Bytes) : Packing :=
  { p with cur := (if p.cur = [] then p.cur else p.cur ++ [10]) ++ line }

/-- The body of the loop over the lines. -/
def Packing.add (size : ℤ) (p : Packing) (line : Bytes) : Packing :=
  if line = [] then p
  else if size < line.length then { p with oversized := p.oversized + 1 }
  else if p.cur ≠ [] ∧ size < p.cur.length + 1 + line.length then p.flush.write line
  else p.write line

/-- `packetize`. -/
def packetize (lines : List Bytes) (size : ℤ) : List Bytes × ℕ :=
  let p := (lines.foldl (Packing.add size) ⟨[], [], 0⟩).flush
  (p.packets, p.oversized)

/-- The lines that are packed. -/
def packed (lines : List Bytes) (size : ℤ) : List Bytes :=
  lines.filter fun line => line ≠ [] ∧ (line.length : ℤ) ≤ size

theorem packed_skip {line : Bytes} {size : ℤ} (h : ¬ (line ≠ [] ∧ (line.length : ℤ) ≤ size)) :
    packed [line] size = [] :=
  filter_cons_of_neg (mt of_decide_eq_true h)

theorem packed_keep {line : Bytes} {size : ℤ} (hline : line ≠ [])
    (hsize : (line.length : ℤ) ≤ size) : packed [line] size = [line] :=
  filter_cons_of_pos (decide_eq_true (p := line ≠ [] ∧ (line.length : ℤ) ≤ size) ⟨hline, hsize⟩)

/-- Lines joined by line feeds. -/
def joinLines (lines : List Bytes) : Bytes := [10].intercalate lines

theorem joinLines_cons (line : Bytes) (lines : List Bytes) :
    joinLines (line :: lines) = line ++ lines.flatMap (10 :: ·) :=
  intercalate_singleton_cons 10 line lines

theorem joinLines_concat {lines : List Bytes} (h : lines ≠ []) (line : Bytes) :
    joinLines (lines ++ [line]) = joinLines lines ++ 10 :: line := by
  obtain ⟨a, lines, rfl⟩ := exists_cons_of_ne_nil h
  rw [cons_append, joinLines_cons, joinLines_cons, flatMap_append, append_assoc,
    flatMap_singleton]

theorem joinLines_eq_nil {lines : List Bytes} (h : ∀ line ∈ lines, line ≠ []) :
    joinLines lines = [] ↔ lines = [] := by
  cases lines with
  | nil => exact ⟨fun _ => rfl, fun _ => rfl⟩
  | cons a lines =>
    rw [joinLines_cons, append_eq_nil_iff]
    exact ⟨fun hnil => absurd hnil.1 (h a (mem_cons_self ..)), nofun⟩

/-- The state after `taken` has been packed: `groups` are packets and `group` is in `cur`. -/
structure Packs (taken : List Bytes) (p : Packing) (groups : List (List Bytes))
    (group : List Bytes) : Prop where
  packets : p.packets = groups.map joinLines
  cur : p.cur = joinLines group
  taken : groups.flatten ++ group = taken
  filled : ∀ g ∈ groups, g ≠ []
  nonempty : ∀ line ∈ group, line ≠ []

namespace Packs

variable {taken : List Bytes} {p : Packing} {groups : List (List Bytes)} {group : List Bytes}

variable (h : Packs taken p groups group)
include h

theorem cur_eq_nil : p.cur = [] ↔ group = [] := by
  rw [h.cur, joinLines_eq_nil h.nonempty]

theorem flush_of_ne (hgroup : group ≠ []) :
    Packs taken p.flush (groups ++ [group]) [] := by
  rw [Packing.flush, if_neg (mt h.cur_eq_nil.mp hgroup)]
  refine ⟨?_, rfl, ?_, ?_, nofun⟩
  · show p.packets ++ [p.cur] = _
    rw [h.packets, h.cur, map_append, map_singleton]
  · rw [append_nil, flatten_append, flatten_singleton, h.taken]
  · rw [forall_mem_append]
    exact ⟨h.filled, forall_mem_singleton.mpr hgroup⟩

/-- A line goes to the end of the group that is being filled. -/
theorem write {line : Bytes} (hline : line ≠ []) :
    Packs (taken ++ [line]) (p.write line) groups (group ++ [line]) where
  packets := h.packets
  cur := by
    show (if p.cur = [] then p.cur else p.cur ++ [10]) ++ line = _
    split_ifs with hcur
    · obtain rfl := h.cur_eq_nil.mp hcur
      rw [hcur, nil_append, nil_append, joinLines_cons, flatMap_nil, append_nil]
    · rw [joinLines_concat (mt h.cur_eq_nil.mpr hcur), h.cur, append_assoc,
        singleton_append]
  taken := by rw [← append_assoc, h.taken]
  filled := h.filled
  nonempty := by
    rw [forall_mem_append]
    exact ⟨h.nonempty, forall_mem_singleton.mpr hline⟩

end Packs

/-! ### Full packets -/

/-- The first line of `g'` has no room in the packet of `g`. -/
def Overfull (size : ℤ) (g g' : List Bytes) : Prop :=
  ∃ line rest, g' = line :: rest ∧ size < (joinLines g).length + 1 + line.length

/-- A line is longer than a packet. -/
def Oversized (size : ℤ) (line : Bytes) : Prop := line ≠ [] ∧ size < line.length

instance (size : ℤ) (line : Bytes) : Decidable (Oversized size line) :=
  inferInstanceAs (Decidable (_ ∧ _))

/-- **The invariant of the loop**, after `lines`.  The groups fit, each but the last is followed by
a line it had no room for, and the lines that are too long have been counted. -/
structure PacksTightly (size : ℤ) (lines : List Bytes) (p : Packing) (groups : List (List Bytes))
    (group : List Bytes) : Prop extends Packs (packed lines size) p groups group where
  fits : ∀ g ∈ groups ++ [group], g ≠ [] → ((joinLines g).length : ℤ) ≤ size
  tight : (groups ++ [group]).IsChain (Overfull size)
  oversized : p.oversized = lines.countP (Oversized size)

theorem countP_oversized (size : ℤ) (line : Bytes) :
    [line].countP (Oversized size) = if Oversized size line then 1 else 0 := by
  simp [countP_singleton]

theorem packed_concat (lines : List Bytes) (line : Bytes) (size : ℤ) :
    packed (lines ++ [line]) size = packed lines size ++ packed [line] size := filter_append ..

theorem length_joinLines_concat (group : List Bytes) (line : Bytes) :
    (joinLines (group ++ [line])).length =
      (if group = [] then 0 else (joinLines group).length + 1) + line.length := by
  split_ifs with hgroup
  · rw [hgroup, nil_append, joinLines_cons, flatMap_nil, append_nil, Nat.zero_add]
  · rw [joinLines_concat hgroup, length_append, length_cons]
    omega

namespace PacksTightly

variable {size : ℤ} {lines : List Bytes} {p : Packing} {groups : List (List Bytes)}
  {group : List Bytes} {line : Bytes}

variable (h : PacksTightly size lines p groups group)
include h

/-- A line that is left out. -/
theorem skip {q : Packing}
    (hline : ¬ (line ≠ [] ∧ (line.length : ℤ) ≤ size)) (hpackets : q.packets = p.packets)
    (hcur : q.cur = p.cur) (hcount : q.oversized = p.oversized + [line].countP (Oversized size)) :
    PacksTightly size (lines ++ [line]) q groups group where
  packets := hpackets.trans h.packets
  cur := hcur.trans h.cur
  taken := by rw [h.taken, packed_concat, packed_skip hline, append_nil]
  filled := h.filled
  nonempty := h.nonempty
  fits := h.fits
  tight := h.tight
  oversized := by rw [hcount, h.oversized, countP_append]

/-- A line that fits into the packet. -/
theorem write (hline : line ≠ [])
    (hsize : (line.length : ℤ) ≤ size)
    (hroom : group ≠ [] → ((joinLines group).length + 1 + line.length : ℤ) ≤ size) :
    PacksTightly size (lines ++ [line]) (p.write line) groups (group ++ [line]) where
  toPacks := by
    rw [packed_concat, packed_keep hline hsize]
    exact h.toPacks.write hline
  fits := by
    rw [forall_mem_append, forall_mem_singleton]
    refine ⟨fun g hg => h.fits g (mem_append_left _ hg), fun _ => ?_⟩
    rw [length_joinLines_concat]
    split_ifs with hgroup
    · omega
    · have := hroom hgroup
      omega
  tight := by
    -- The packet still begins with the line that the one before had no room for.
    refine isChain_append.mpr ⟨(isChain_append.mp h.tight).1, .singleton _, ?_⟩
    intro g hg g' hg'
    obtain ⟨first, rest, rfl, hfull⟩ :=
      (isChain_append.mp h.tight).2.2 g hg group (by simp)
    obtain rfl : first :: rest ++ [line] = g' := by simpa using hg'
    exact ⟨first, rest ++ [line], rfl, hfull⟩
  oversized := by
    have hnone : ¬ Oversized size line := fun hover => Int.not_le.mpr hover.2 hsize
    rw [countP_append, countP_oversized, if_neg hnone]
    exact h.oversized

/-- A line that begins a packet, after one that has no room for it. -/
theorem begin (hline : line ≠ [])
    (hsize : (line.length : ℤ) ≤ size) (hgroup : group ≠ [])
    (hfull : size < (joinLines group).length + 1 + line.length) :
    PacksTightly size (lines ++ [line]) (p.flush.write line) (groups ++ [group]) [line] where
  toPacks := by
    rw [packed_concat, packed_keep hline hsize]
    exact (h.toPacks.flush_of_ne hgroup).write hline
  fits := by
    rw [forall_mem_append, forall_mem_singleton]
    refine ⟨h.fits, fun _ => ?_⟩
    rw [joinLines_cons, flatMap_nil, append_nil]
    exact hsize
  tight := by
    refine isChain_append.mpr ⟨h.tight, .singleton _, ?_⟩
    intro g hg g' hg'
    obtain rfl : group = g := by simpa using hg
    obtain rfl : [line] = g' := by simpa using hg'
    exact ⟨line, [], rfl, hfull⟩
  oversized := by
    have hnone : ¬ Oversized size line := fun hover => Int.not_le.mpr hover.2 hsize
    have hflush : p.flush.oversized = p.oversized := by
      rw [Packing.flush]
      split_ifs <;> rfl
    rw [countP_append, countP_oversized, if_neg hnone]
    exact hflush.trans h.oversized

/-- **A step of the loop.** -/
theorem add (line : Bytes) :
    ∃ groups group, PacksTightly size (lines ++ [line]) (p.add size line) groups group := by
  rw [Packing.add]
  by_cases hline : line = []
  · rw [if_pos hline]
    refine ⟨groups, group, h.skip (fun hkeep => hkeep.1 hline) rfl rfl ?_⟩
    rw [countP_oversized, if_neg fun hover => hover.1 hline]
    rfl
  by_cases hsize : size < line.length
  · rw [if_neg hline, if_pos hsize]
    refine ⟨groups, group, h.skip (fun hkeep => Int.not_le.mpr hsize hkeep.2) rfl rfl ?_⟩
    rw [countP_oversized, if_pos ⟨hline, hsize⟩]
  · have hle := Int.not_lt.mp hsize
    rw [if_neg hline, if_neg hsize]
    split_ifs with hfull
    · rw [h.cur] at hfull
      have hgroup := mt h.toPacks.cur_eq_nil.mpr (h.cur ▸ hfull.1)
      exact ⟨_, _, h.begin hline hle hgroup hfull.2⟩
    · refine ⟨groups, _, h.write hline hle fun hgroup => ?_⟩
      rw [← h.cur]
      exact Int.not_lt.mp fun hlt => hfull ⟨mt h.toPacks.cur_eq_nil.mp hgroup, hlt⟩

/-- **The loop.** -/
theorem foldl (more : List Bytes) :
    ∃ groups group,
      PacksTightly size (lines ++ more) (more.foldl (Packing.add size) p) groups group := by
  induction more generalizing lines p groups group with
  | nil => exact ⟨groups, group, by rwa [append_nil]⟩
  | cons line more ih =>
    obtain ⟨groups, group, hline⟩ := h.add line
    rw [append_cons]
    exact ih hline

end PacksTightly

theorem packsTightly_foldl (lines : List Bytes) (size : ℤ) :
    ∃ groups group,
      PacksTightly size lines (lines.foldl (Packing.add size) ⟨[], [], 0⟩) groups group := by
  have hstart : PacksTightly size [] ⟨[], [], 0⟩ [] [] :=
    ⟨⟨rfl, rfl, rfl, nofun, nofun⟩, by simp, .singleton _, rfl⟩
  simpa using hstart.foldl lines

/-- What `packetize` returns. -/
theorem packetize_groups (lines : List Bytes) (size : ℤ) :
    ∃ groups : List (List Bytes), (packetize lines size).1 = groups.map joinLines ∧
      groups.flatten = packed lines size ∧ (∀ g ∈ groups, g ≠ []) ∧
      (∀ g ∈ groups, ((joinLines g).length : ℤ) ≤ size) ∧ groups.IsChain (Overfull size) ∧
      (packetize lines size).2 = lines.countP (Oversized size) := by
  obtain ⟨groups, group, h⟩ := packsTightly_foldl lines size
  by_cases hgroup : group = []
  · subst hgroup
    have hflush : (lines.foldl (Packing.add size) ⟨[], [], 0⟩).flush =
        lines.foldl (Packing.add size) ⟨[], [], 0⟩ := if_pos (h.toPacks.cur_eq_nil.mpr rfl)
    refine ⟨groups, ?_, ?_, h.filled, fun g hg => ?_, (isChain_append.mp h.tight).1, ?_⟩
    · rw [packetize, hflush]
      exact h.packets
    · rw [← append_nil groups.flatten, h.taken]
    · exact h.fits g (mem_append_left _ hg) (h.filled g hg)
    · rw [packetize, hflush]
      exact h.oversized
  · have hflush := h.toPacks.flush_of_ne hgroup
    refine ⟨groups ++ [group], hflush.packets, ?_, hflush.filled, fun g hg => ?_, h.tight, ?_⟩
    · rw [← append_nil (groups ++ [group]).flatten, hflush.taken]
    · exact h.fits g hg (hflush.filled g hg)
    · rw [packetize, Packing.flush, if_neg (mt h.toPacks.cur_eq_nil.mp hgroup)]
      exact h.oversized

/-- **The packets are groups of lines**, and the groups are the lines that fit. -/
theorem packetize_eq (lines : List Bytes) (size : ℤ) :
    ∃ groups : List (List Bytes), (packetize lines size).1 = groups.map joinLines ∧
      groups.flatten = packed lines size ∧ ∀ g ∈ groups, g ≠ [] := by
  obtain ⟨groups, hpackets, hpacked, hfilled, -⟩ := packetize_groups lines size
  exact ⟨groups, hpackets, hpacked, hfilled⟩

/-! ### Packets and lines -/

theorem cons_joinLines {lines : List Bytes} (h : lines ≠ []) :
    10 :: joinLines lines = lines.flatMap (10 :: ·) := by
  obtain ⟨a, lines, rfl⟩ := exists_cons_of_ne_nil h
  rw [joinLines_cons, flatMap_cons, cons_append]

/-- To join groups that were joined is to join their lines. -/
theorem joinLines_map_joinLines {groups : List (List Bytes)} (h : ∀ g ∈ groups, g ≠ []) :
    joinLines (groups.map joinLines) = joinLines groups.flatten := by
  cases groups with
  | nil => rfl
  | cons g groups =>
    rw [forall_mem_cons] at h
    have hrest : (groups.map joinLines).flatMap (10 :: ·) = groups.flatten.flatMap (10 :: ·) := by
      rw [flatMap_map, flatten_eq_flatMap, flatMap_assoc]
      exact flatMap_congr fun g hg => cons_joinLines (h.2 g hg)
    obtain ⟨a, lines, rfl⟩ := exists_cons_of_ne_nil h.1
    rw [map_cons, joinLines_cons, hrest, flatten_cons, cons_append,
      joinLines_cons, joinLines_cons, flatMap_append, append_assoc]

/-- **Datagram packing.**  The packets are whole lines, `packed lines size` one after the other;
none is empty or longer than `size`; each is followed by a line that it had no room for; and
`oversized` counts the lines, other than the empty ones, that are longer than `size`. -/
theorem packetize_packs_greedily (lines : List Bytes) (size : ℤ) :
    ∃ groups : List (List Bytes), (packetize lines size).1 = groups.map joinLines ∧
      groups.flatten = packed lines size ∧ (∀ g ∈ groups, g ≠ []) ∧
      joinLines (packetize lines size).1 = joinLines (packed lines size) ∧
      (∀ packet ∈ (packetize lines size).1, packet ≠ [] ∧ (packet.length : ℤ) ≤ size) ∧
      (packetize lines size).2 = lines.countP (fun line => line ≠ [] ∧ size < line.length) ∧
      (0 ≤ size → (packetize lines size).2 = lines.countP fun line => size < line.length) ∧
      groups.IsChain fun g g' =>
        ∃ line rest, g' = line :: rest ∧ size < (joinLines g).length + 1 + line.length := by
  obtain ⟨groups, hpackets, hpacked, hfilled, hfits, htight, hover⟩ := packetize_groups lines size
  refine ⟨groups, hpackets, hpacked, hfilled, ?_, ?_, hover, fun hsize => ?_, htight⟩
  · rw [hpackets, joinLines_map_joinLines hfilled, hpacked]
  · rw [hpackets, forall_mem_map]
    refine fun g hg => ⟨fun hnil => hfilled g hg ?_, hfits g hg⟩
    refine (joinLines_eq_nil fun line hline => ?_).mp hnil
    have hmem : line ∈ packed lines size := hpacked ▸ mem_flatten.mpr ⟨g, hg, hline⟩
    exact (of_decide_eq_true (mem_filter.mp hmem).2 : line ≠ [] ∧ _).1
  · rw [hover]
    refine countP_congr fun line _ => ?_
    -- The empty line is not longer than a size that is not negative.
    have hline : size < line.length → line ≠ [] := by
      rintro hlt rfl
      exact Int.not_le.mpr hlt hsize
    rw [decide_eq_true_iff, decide_eq_true_iff]
    exact ⟨And.right, fun hlt => ⟨hline hlt, hlt⟩⟩

/-- Two lines fill the first packet, and a line of seven bytes is left out. -/
theorem packetize_packs_greedily_three :
    packetize [text "ab", [], text "cd", text "toolong", text "e"] 5 =
        ([text "ab\ncd", text "e"], 1) ∧
      ∃ groups : List (List Bytes), groups.map joinLines = [text "ab\ncd", text "e"] ∧
        groups.IsChain fun g g' =>
          ∃ line rest, g' = line :: rest ∧ (5 : ℤ) < (joinLines g).length + 1 + line.length := by
  have hpackets : packetize [text "ab", [], text "cd", text "toolong", text "e"] 5 =
      ([text "ab\ncd", text "e"], 1) := by decide +kernel
  obtain ⟨groups, hgroups, -, -, -, -, -, -, hchain⟩ :=
    packetize_packs_greedily [text "ab", [], text "cd", text "toolong", text "e"] 5
  exact ⟨hpackets, groups, by rw [← hgroups, hpackets], hchain⟩

/-- **An empty line is not counted**, although it is longer than a negative size. -/
theorem packetize_empty_line_not_counted :
    (packetize [[]] (-1)).2 = 0 ∧
      [([] : Bytes)].countP (fun line => decide ((-1 : ℤ) < line.length)) = 1 := by
  decide +kernel

end ConvoyStats.DogStatsD
