import SciArchive.Proofs.Replays

/-! Reading any file whatever as blocks: what it costs, where the records lie, and how it ends. The counts in
headers are not trusted, so all is paid for by bytes that the file has. Where the count lies is trusted once it has
been compared with the size of the header, and the sum that is compared wraps. -/
namespace SciArchive

theorem BinaryRecord.slice_slice {bytes : List UInt8} {start size offset width : Nat}
    (h : offset + width ≤ size) :
    slice (slice bytes start size) offset width = slice bytes (start + offset) width := by
  have hwidth : min width (size - offset) = width := by omega
  rw [slice, slice, slice, List.drop_take, List.take_take, hwidth, List.drop_drop]

/-- The records of a whole part of a file are slices of the file. -/
theorem RecordTable.mem_records {records : RecordLayout} {content : List UInt8} {start count : Nat}
    (hfits : start + count * records.recordSize ≤ content.length) {r : BinaryRecord}
    (hr : r ∈ RecordTable.records
      ⟨records, BinaryRecord.slice content start (count * records.recordSize)⟩) :
    ∃ i < count, r =
      ⟨records, BinaryRecord.slice content (start + i * records.recordSize) records.recordSize⟩ := by
  have hlength : (BinaryRecord.slice content start (count * records.recordSize)).length =
      count * records.recordSize := by
    rw [BinaryRecord.slice, List.length_take, List.length_drop]
    omega
  obtain ⟨i, hi, rfl⟩ := List.mem_map.mp hr
  rw [List.mem_range, length, hlength] at hi
  have hcount : i < count := by
    by_cases hsize : records.recordSize = 0
    · simp [hsize] at hi
    · rwa [Nat.mul_div_cancel _ (Nat.pos_of_ne_zero hsize)] at hi
  have hinside : i * records.recordSize + records.recordSize ≤ count * records.recordSize := by
    rw [← Nat.succ_mul]
    exact Nat.mul_le_mul_right _ hcount
  exact ⟨i, hcount, congrArg (BinaryRecord.mk records) (BinaryRecord.slice_slice hinside)⟩

/-- Records take no more bytes than there are. -/
theorem RecordTable.mul_length_records_le (layout : RecordLayout) (buffer : List UInt8) :
    layout.recordSize * (RecordTable.records ⟨layout, buffer⟩).length ≤ buffer.length := by
  simpa [records, length] using Nat.mul_div_le buffer.length layout.recordSize

namespace BlockLayout

/-! ### Headers -/

/-- The headers that were asked for and that a file of `length` bytes has to their end. -/
def wholeHeaders (l : BlockLayout) (length : Nat) (requests : List BlockRequest) : List Nat :=
  requests.filterMap fun
    | .header offset => if offset + l.headerSize ≤ length then some offset else none
    | .data _ _ => none

section
variable (l : BlockLayout) {length offset : Nat}

theorem wholeHeaders_behind (h : offset + l.headerSize ≤ length) (c : Prop) [Decidable c] (start size : Nat)
    (later : List BlockRequest) :
    l.wholeHeaders length ((.header offset :: if c then [] else [.data start size]) ++ later) =
      offset :: l.wholeHeaders length later := by
  by_cases hc : c <;> simp [wholeHeaders, h, hc]

theorem length_wholeHeaders_header :
    (l.wholeHeaders length [.header offset]).length = if offset + l.headerSize ≤ length then 1 else 0 := by
  by_cases h : offset + l.headerSize ≤ length <;> simp [wholeHeaders, h]

end

theorem foreign?_eq_some {l : BlockLayout} {header : List UInt8} {found : String}
    (h : l.foreign? header = some found) : ∃ mark, l.mark = some mark ∧ ¬ mark <+: header ∧
      found = String.ofList (Utf8.decodeLossy (header.take mark.length)) := by
  cases hmark : l.mark with
  | none => simp [foreign?, hmark] at h
  | some mark =>
    simp only [foreign?, hmark] at h
    split at h
    · cases h
    · rename_i hforeign
      rw [List.isPrefixOf_iff_prefix] at hforeign
      exact ⟨mark, rfl, hforeign, (Option.some.inj h).symm⟩

/-- The bytes at an offset, where a header stands or should stand. -/
def headerAt (l : BlockLayout) (content : List UInt8) (offset : Nat) : List UInt8 :=
  BinaryRecord.slice content offset l.headerSize

/-- The check keeps the count within the header, unless the sum that it compares has wrapped. -/
theorem inside_of_check {l : BlockLayout} (h : l.check = .ok ()) (hword : l.InWord) :
    l.countOffset + 4 ≤ l.headerSize := by
  rw [check, wrap_of_lt hword] at h
  split at h
  · cases h
  · omega

/-! ### Accounts -/

/-- What a reading of the bytes from `offset` on has asked for and come to, against the bytes there are. -/
structure Accounted (l : BlockLayout) (records : RecordLayout) (content : List UInt8) (offset : Nat)
    (reading : BlockReading) : Prop where
  finite : reading.requests.length ≤ 2 * (l.wholeHeaders content.length reading.requests).length + 1
  paid : offset + (l.headerSize * (l.wholeHeaders content.length reading.requests).length +
    records.recordSize * reading.records.length) ≤ content.length
  bounded : ∀ start size, .data start size ∈ reading.requests → start + size ≤ content.length
  placed : ∀ r ∈ reading.records, ∃ header ∈ l.wholeHeaders content.length reading.requests, ∃ i,
    (∀ mark, l.mark = some mark → mark <+: l.headerAt content header) ∧
      i < l.count (l.headerAt content header) ∧
      header + l.headerSize + (i + 1) * records.recordSize ≤ content.length ∧
      r = ⟨records, BinaryRecord.slice content (header + l.headerSize + i * records.recordSize)
        records.recordSize⟩
  fault : ∀ e, reading.fault = some e →
    ∃ header ∈ l.wholeHeaders content.length reading.requests, ∃ mark, l.mark = some mark ∧
      ¬ mark <+: l.headerAt content header ∧
      e = .unreadable "block header"
        (String.ofList (Utf8.decodeLossy ((l.headerAt content header).take mark.length)))

variable {l : BlockLayout} {records : RecordLayout} {content : List UInt8} {offset : Nat}

/-- A reading that ends with its first header. -/
theorem accounted_end (hoffset : offset ≤ content.length) {reading : BlockReading}
    (hrequests : reading.requests = [.header offset]) (hrecords : reading.records = [])
    (hfault : ∀ e, reading.fault = some e → offset + l.headerSize ≤ content.length ∧
      ∃ found, l.foreign? (l.headerAt content offset) = some found ∧
        e = .unreadable "block header" found) : Accounted l records content offset reading where
  finite := by
    rw [hrequests, List.length_singleton]
    omega
  paid := by
    rw [hrequests, hrecords, length_wholeHeaders_header]
    by_cases hwhole : offset + l.headerSize ≤ content.length <;> simp [hwhole, hoffset]
  bounded := by
    intro start size hdata
    simp [hrequests] at hdata
  placed := by
    intro r hr
    simp [hrecords] at hr
  fault := by
    intro e he
    obtain ⟨hwhole, found, hforeign, rfl⟩ := hfault e he
    obtain ⟨mark, hmark, hnot, rfl⟩ := foreign?_eq_some hforeign
    exact ⟨offset, by simp [hrequests, wholeHeaders, hwhole], mark, hmark, hnot, rfl⟩

/-- A reading that goes on behind a whole block. -/
theorem Accounted.behind {size : Nat} {later : BlockReading}
    (h : Accounted l records content (offset + (l.headerSize + size)) later)
    (hmarked : l.foreign? (l.headerAt content offset) = none)
    (hsize : size = l.count (l.headerAt content offset) * records.recordSize) :
    Accounted l records content offset
      (.behind (.header offset :: if l.count (l.headerAt content offset) = 0 then []
          else [.data (offset + l.headerSize) size])
        (RecordTable.records
          ⟨records, BinaryRecord.slice content (offset + l.headerSize) size⟩) later) := by
  have hpaid := h.paid
  have hwhole : offset + l.headerSize ≤ content.length := by omega
  have hheaders := l.wholeHeaders_behind hwhole (l.count (l.headerAt content offset) = 0)
    (offset + l.headerSize) size later.requests
  constructor
  · have hfinite := h.finite
    rw [BlockReading.behind, hheaders, List.length_cons, List.length_append, List.length_cons]
    split <;> simp <;> omega
  · have hblock := RecordTable.mul_length_records_le records
      (BinaryRecord.slice content (offset + l.headerSize) size)
    have hslice : (BinaryRecord.slice content (offset + l.headerSize) size).length ≤ size :=
      List.length_take_le _ _
    simp only [BlockReading.behind, hheaders, List.length_cons, List.length_append, Nat.mul_add]
    omega
  · intro start width hdata
    rcases List.mem_append.mp hdata with hblock | hlater
    · have hsame : start = offset + l.headerSize ∧ width = size := by
        by_cases hnone : l.count (l.headerAt content offset) = 0
        · simp [hnone] at hblock
        · simpa [hnone] using hblock
      omega
    · exact h.bounded start width hlater
  · intro r hr
    rw [BlockReading.behind, hheaders]
    rcases List.mem_append.mp hr with hblock | hlater
    · subst hsize
      obtain ⟨i, hi, hslice⟩ := RecordTable.mem_records (by omega) hblock
      have hinside : (i + 1) * records.recordSize ≤
          l.count (l.headerAt content offset) * records.recordSize := Nat.mul_le_mul_right _ hi
      exact ⟨offset, List.mem_cons_self, i, foreign?_eq_none.mp hmarked, hi, by omega, hslice⟩
    · obtain ⟨header, hheader, hplace⟩ := h.placed r hlater
      exact ⟨header, List.mem_cons_of_mem _ hheader, hplace⟩
  · intro e he
    rw [BlockReading.behind, hheaders]
    obtain ⟨header, hheader, hwhy⟩ := h.fault e he
    exact ⟨header, List.mem_cons_of_mem _ hheader, hwhy⟩

/-- Whatever the bytes are, reading them is accounted for. -/
theorem accounted_walk (hinside : l.countOffset + 4 ≤ l.headerSize) {rest : List UInt8}
    (hoffset : offset ≤ content.length) (hrest : content.drop offset = rest) :
    Accounted l records content offset (l.walk records offset rest) := by
  have hlength : rest.length = content.length - offset := by rw [← hrest, List.length_drop]
  fun_induction walk l records offset rest with
  | case1 offset rest hshort => exact accounted_end hoffset rfl rfl (by rintro e ⟨⟩)
  | case2 offset rest hlong header found hforeign =>
    refine accounted_end hoffset rfl rfl ?_
    rintro e ⟨⟩
    refine ⟨by omega, found, ?_, rfl⟩
    rw [headerAt, BinaryRecord.slice, hrest]
    exact hforeign
  | case3 offset rest hlong header hmarked houtside =>
    have hwhole : header.length = l.headerSize := List.length_take_of_le (by omega)
    omega
  | case4 offset rest hlong header hmarked _ size hcut => exact accounted_end hoffset rfl rfl (by rintro e ⟨⟩)
  | case5 offset rest hlong header hmarked _ size hwhole ih =>
    have hheader : header = l.headerAt content offset := by
      rw [headerAt, BinaryRecord.slice, hrest]
    have hblock : (rest.drop l.headerSize).take size =
        BinaryRecord.slice content (offset + l.headerSize) size := by
      rw [BinaryRecord.slice, ← List.drop_drop, hrest]
    have hlater : content.drop (offset + (l.headerSize + size)) = rest.drop (l.headerSize + size) := by
      rw [← List.drop_drop, hrest]
    have hbehind := (ih (by omega) hlater (by rw [List.length_drop]; omega)).behind
    rw [← hheader, ← hblock] at hbehind
    exact hbehind hmarked rfl

end BlockLayout

/-! ### Streams -/

namespace Stream

variable {content : List UInt8} {all : List Record} {first later : Option Fault} {start s : Stream}
  {past : List Reply} {upcoming : List Record} {d : Disk} {l : Ledger} {r : Resource}

/-- Where a stream has ended, it stays as it closes later. -/
theorem Plays.hasNext_ended (h : Plays content all first later start past upcoming s)
    (hopen : l.isClosed s.resource = false) (hended : endedIn past = true) :
    (s.hasNext l).1 = later.elim (.ok false) .error := by
  obtain ⟨hpending, hnone⟩ := h.ended hended
  have hall : ¬ takenIn past < all.length := by
    have hlength := congrArg List.length h.order
    simp only [hpending, hnone, List.length_drop, Option.toList_none, List.append_nil,
      List.length_nil] at hlength
    rw [← h.taken]
    omega
  rw [h.hasNext_eq hopen, if_neg hall, if_pos hended]

/-- What fails when looking is what the stream closes with. -/
theorem Plays.hasNext_error (h : Plays content all first none start past upcoming s)
    (hopen : l.isClosed s.resource = false) {e : Fault} (he : (s.hasNext l).1 = .error e) :
    first = some e := by
  rw [h.hasNext_eq hopen] at he
  cases first <;> grind

/-- Whatever a file holds, a stream of blocks whose count ends at a place that a word can tell is read to the end with
requests that the bytes of the file bound: each header is paid for, but for the last one asked for, and so is each
record; no more bytes of records are asked for at once than there are. Each record lies at its place behind a whole
header with the mark, and the only failure is that a whole header begins otherwise. In every run of calls while the
file is the same, `hasNext` answers `false` when it has answered so or has failed, until the stream begins again as
it was. -/
theorem blocks_accounted {framing : BlockLayout} {layout : RecordLayout} {order : ByteOrder}
    {fields : List Field} {size : Option Nat} (hmake : RecordLayout.make order fields size = .ok layout)
    (hcheck : framing.check = .ok ()) (hword : framing.InWord) (hopen : l.isClosed r = false)
    (hcontent : d.bytes? r.path = some content) :
    ∃ s b, blocks d l r layout framing = .ok s ∧ s.feed = .blocks b ∧
      let headers := framing.wholeHeaders content.length b.toEnd.requests
      s.readUpTo l none = (b.toEnd.records.map .binary, b.toEnd.fault) ∧
      b.toEnd.requests.length ≤ 2 * headers.length + 1 ∧
      framing.headerSize * headers.length + layout.recordSize * b.toEnd.records.length ≤ content.length ∧
      (∀ start width, .data start width ∈ b.toEnd.requests → start + width ≤ content.length) ∧
      (∀ record ∈ b.toEnd.records, ∃ header ∈ headers, ∃ i,
        (∀ mark, framing.mark = some mark → mark <+: framing.headerAt content header) ∧
          i < framing.count (framing.headerAt content header) ∧
          header + framing.headerSize + (i + 1) * layout.recordSize ≤ content.length ∧
          record = ⟨layout, BinaryRecord.slice content
            (header + framing.headerSize + i * layout.recordSize) layout.recordSize⟩) ∧
      (∀ e, b.toEnd.fault = some e → ∃ header ∈ headers, ∃ mark, framing.mark = some mark ∧
        ¬ mark <+: framing.headerAt content header ∧ e = .unreadable "block header"
          (String.ofList (Utf8.decodeLossy ((framing.headerAt content header).take mark.length)))) ∧
      ∀ calls : List (Moment × Call), (∀ c ∈ calls, s.Steady content c.1) → ∀ m, s.Steady content m →
        let now := (s.after calls).2.refresh m.disk
        (endedIn (s.after calls).1 = true → (now.hasNext m.ledger).1 = .ok false) ∧
          (∀ e, (now.hasNext m.ledger).1 = .error e → b.toEnd.fault = some e) ∧
          now.reset m.ledger = (.ok (), s) := by
  have hsize := RecordLayout.recordSize_pos hmake
  obtain ⟨file, hblocks⟩ := blocks_file layout hcheck hopen hcontent
  obtain ⟨-, hfresh⟩ := fresh_blocks hcontent hblocks
  have hgives := Feed.gives_blocks (.new content framing layout) 0
  have haccounted : framing.Accounted layout content 0
      (BlockFeed.new content framing layout).toEnd := by
    rw [BlockFeed.toEnd_eq_walk rfl rfl hsize rfl]
    exact BlockLayout.accounted_walk (BlockLayout.inside_of_check hcheck hword) (Nat.zero_le _) rfl
  have hpaid := haccounted.paid
  rw [Nat.zero_add] at hpaid
  refine ⟨_, _, hblocks, rfl, readUpTo_of_gives hopen rfl hgives, haccounted.finite, hpaid,
    haccounted.bounded, haccounted.placed, haccounted.fault, fun calls hcalls m hm => ?_⟩
  obtain ⟨_, hplays⟩ := (hfresh.plays hgives).after hfresh hgives calls hcalls
  rw [List.append_nil] at hplays
  obtain ⟨hnow, hnowOpen⟩ := hplays.refresh hm
  exact ⟨hnow.hasNext_ended hnowOpen, fun e => hnow.hasNext_error hnowOpen,
    (hnow.reset hnowOpen hfresh hgives).1⟩

/-- A block of two records, and a header that announces more records than any file has. -/
def overstated : List UInt8 := twoWords.bytes ++ [0x42, 0xFF, 0xFF, 0xFF, 0xFF, 0, 3]

theorem blocks_accounted_overstated :
    ∃ s b, blocks (diskWith overstated) {} ⟨"a", 0⟩ shortWords lettered = .ok s ∧ s.feed = .blocks b ∧
      s.readUpTo {} none = (b.toEnd.records.map .binary, b.toEnd.fault) ∧
      5 * (lettered.wholeHeaders 16 b.toEnd.requests).length + 2 * b.toEnd.records.length ≤ 16 ∧
      (∀ start width, .data start width ∈ b.toEnd.requests → start + width ≤ 16) ∧
      let same : Moment := ⟨diskWith overstated, {}⟩
      ((s.after [(same, .reset), (same, .next), (same, .hasNext)]).2.refresh same.disk).reset {} =
        (.ok (), s) := by
  obtain ⟨s, b, hblocks, hfeed, hread, -, hpaid, hbounded, -, -, hruns⟩ :=
    blocks_accounted (d := diskWith overstated) (l := {}) (r := ⟨"a", 0⟩) make_shortWords
      (rfl : lettered.check = .ok ()) (by decide) rfl rfl
  have hsame : s.Steady overstated ⟨diskWith overstated, {}⟩ := by
    cases hblocks
    exact ⟨rfl, rfl, rfl⟩
  have hagain := hruns [(⟨diskWith overstated, {}⟩, .reset), (⟨diskWith overstated, {}⟩, .next),
    (⟨diskWith overstated, {}⟩, .hasNext)] (by simpa using hsame) _ hsame
  exact ⟨s, b, hblocks, hfeed, hread, hpaid, hbounded, hagain.2.2⟩

/-- A stream of blocks that is accepted although its count lies outside the header stops the program at the first
whole header with the mark. -/
theorem readUpTo_outside {framing : BlockLayout} {layout : RecordLayout} {order : ByteOrder}
    {fields : List Field} {size : Option Nat} (hmake : RecordLayout.make order fields size = .ok layout)
    (hcheck : framing.check = .ok ()) (houtside : framing.headerSize < framing.countOffset + 4)
    (hopen : l.isClosed r = false) (hcontent : d.bytes? r.path = some content)
    (hwhole : ¬ (framing.headerSize = 0 ∨ content.length < framing.headerSize))
    (hmarked : framing.foreign? (content.take framing.headerSize) = none) :
    ∃ s, blocks d l r layout framing = .ok s ∧ s.readUpTo l none = ([], some .crashed) := by
  obtain ⟨file, hblocks⟩ := blocks_file layout hcheck hopen hcontent
  have hread := readUpTo_blocks (RecordLayout.recordSize_pos hmake) (s := {
    resource := r, file, feed := .blocks (.new content framing layout) }) hopen rfl rfl
  have hheader : (content.take framing.headerSize).length < framing.countOffset + 4 :=
    Nat.lt_of_le_of_lt (List.length_take_le _ _) houtside
  rw [BlockLayout.walk_outside hwhole hmarked hheader] at hread
  exact ⟨_, hblocks, hread⟩

/-- A header of eight bytes and a count four bytes below the end of memory, where the sum of the two wraps to
nothing. -/
def farCount : BlockLayout := ⟨8, UInt64.size - 4, none⟩

theorem blocks_not_accounted :
    ¬ farCount.InWord ∧ farCount.check = .ok () ∧
    ∃ s, blocks (diskWith (List.replicate 8 0)) {} ⟨"a", 0⟩ shortWords farCount = .ok s ∧
      s.readUpTo {} none = ([], some .crashed) := by
  have hcheck : farCount.check = .ok () := rfl
  exact ⟨by decide, hcheck, readUpTo_outside make_shortWords hcheck (by decide) rfl rfl (by decide) rfl⟩

end Stream
end SciArchive
