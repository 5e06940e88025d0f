import SciArchive.Proofs.FieldValues
import SciArchive.Proofs.StationYears
import SciArchive.Proofs.TextLines

/-! The first line of data in a file. What a format is told by and what a reader of lines gives first cut lines
and strip their ends each in its own way, but they come to the same line in every file, and in a data file that
is accepted this line begins with a station and a year. -/
namespace SciArchive

/-! ### Digits -/

theorem Utf8.length_encode_digits {cs : List Char} (h : ∀ c ∈ cs, c.isDigit = true) :
    (encode cs).length = cs.length := by
  induction cs with
  | nil => rfl
  | cons c cs ih =>
    obtain ⟨hc, hcs⟩ := List.forall_mem_cons.mp h
    have hsize : c.utf8Size = 1 := by
      rw [Char.utf8Size_eq_one_iff]
      simp only [Char.isDigit, Bool.and_eq_true, decide_eq_true_eq, UInt32.le_iff_toNat_le] at hc ⊢
      exact Nat.le_trans hc.2 (by decide)
    have hrest := ih hcs
    simp only [encode, List.flatMap_cons, List.length_append, String.length_utf8EncodeChar, hsize,
      List.length_cons] at hrest ⊢
    omega

/-- Digits spell a number that has no more of them. -/
theorem Text.ofDigitChars_lt {cs : List Char} (h : ∀ c ∈ cs, c.isDigit = true) :
    Nat.ofDigitChars 10 cs 0 < 10 ^ cs.length := by
  induction cs with
  | nil => decide
  | cons c cs ih =>
    obtain ⟨hc, hcs⟩ := List.forall_mem_cons.mp h
    have hrange : c.toNat ≤ 57 := by
      simp only [Char.isDigit, Bool.and_eq_true, decide_eq_true_eq, UInt32.le_iff_toNat_le] at hc
      exact hc.2
    have hdigit : 10 * 0 + (c.toNat - '0'.toNat) ≤ 9 := by
      have hzero : '0'.toNat = 48 := rfl
      omega
    have hfirst := Nat.mul_le_mul_left (10 ^ cs.length) hdigit
    have hrest := ih hcs
    rw [Nat.ofDigitChars_cons, Nat.ofDigitChars_eq_ofDigitChars_zero, List.length_cons, Nat.pow_succ]
    omega

/-! ### The ends of lines -/

namespace LineSource

/-- Made of line feeds and carriage returns. -/
def IsLineEnd (ending : List Char) : Prop := ∀ c ∈ ending, c = '\n' ∨ c = '\r'

/-- Whether a line is skipped does not hang on its end. -/
theorem isSkipped_append {line ending : List Char} (h : IsLineEnd ending) :
    isSkipped (line ++ ending) = isSkipped line := by
  have hblank : Text.isAllBlank ending = true := by
    refine List.all_eq_true.mpr fun c hc => ?_
    rcases h c hc with rfl | rfl <;> decide
  cases line with
  | nil =>
    rw [List.nil_append, isSkipped, hblank, Bool.or_true]
    rfl
  | cons c line =>
    have hall : Text.isAllBlank (c :: line ++ ending) = Text.isAllBlank (c :: line) := by
      rw [Text.isAllBlank, List.all_append, ← Text.isAllBlank, ← Text.isAllBlank, hblank, Bool.and_true]
    rw [isSkipped, hall, isSkipped]
    rfl

theorem isSkipped_lineFeed (line : List Char) : isSkipped (line ++ ['\n']) = isSkipped line :=
  isSkipped_append fun _ hc => .inl (List.mem_singleton.mp hc)

theorem withoutLineEnd_append {line ending : List Char} (h : IsLineEnd ending) :
    withoutLineEnd (line ++ ending) = withoutLineEnd line := by
  have hends : ∀ c ∈ ending.reverse, (c == '\n' || c == '\r') = true := by
    intro c hc
    simpa using h c (List.mem_reverse.mp hc)
  rw [withoutLineEnd, Text.dropEnd, List.reverse_append, List.dropWhile_append_of_pos hends]
  rfl

theorem withoutLineEnd_spec (line : List Char) :
    ∃ ending, line = withoutLineEnd line ++ ending ∧ IsLineEnd ending := by
  obtain ⟨ending, hsplit, hends, -⟩ := Text.dropEnd_spec (fun c => c == '\n' || c == '\r') line
  exact ⟨ending, hsplit, fun c hc => by simpa using hends c hc⟩

theorem isSkipped_withoutLineEnd (line : List Char) : isSkipped (withoutLineEnd line) = isSkipped line := by
  obtain ⟨ending, hsplit, hends⟩ := withoutLineEnd_spec line
  conv_rhs => rw [hsplit, isSkipped_append hends]

/-! ### The first line -/

theorem firstLine_append_drop (bytes : List UInt8) :
    firstLine bytes ++ bytes.drop (firstLine bytes).length = bytes := by
  fun_induction firstLine bytes with
  | case1 => rfl
  | case2 bs => rfl
  | case3 b bs _ ih => rw [List.length_cons, List.drop_succ_cons, List.cons_append, ih]

theorem firstLine_idem (bytes : List UInt8) : firstLine (firstLine bytes) = firstLine bytes := by
  fun_induction firstLine bytes with
  | case1 => rfl
  | case2 => rfl
  | case3 b bs hb ih => rw [firstLine, if_neg hb, ih]

theorem firstLine_eq_self {bytes : List UInt8} (h : 0x0A ∉ firstLine bytes) : firstLine bytes = bytes := by
  fun_induction firstLine bytes with
  | case1 => rfl
  | case2 => simp at h
  | case3 b bs _ ih => rw [ih fun hmem => h (List.mem_cons_of_mem b hmem)]

/-- Lines that are passed stand in front of the others. -/
theorem firstLine_ended {first : List Char} {passed : List (List Char)} (h : '\n' ∉ first)
    (behind : List UInt8) :
    firstLine (Utf8.encode (TextLine.ended (first :: passed)) ++ behind) = Utf8.encode (first ++ ['\n']) := by
  rw [TextLine.ended_cons, Utf8.encode_append, Utf8.encode_lineFeed, List.append_assoc, List.cons_append,
    firstLine_append (Utf8.lineFeed_not_mem_encode h), Utf8.encode_append]
  rfl

/-- The first line as characters has its only line feed at the end, and none only where the file ends. -/
theorem row_cases {bytes : List UInt8} {row : List Char} (h : Utf8.decode? (firstLine bytes) = some row) :
    ∃ line, '\n' ∉ line ∧ (row = line ++ ['\n'] ∨ row = line ∧ firstLine bytes = bytes) := by
  have hbytes : Utf8.encode row = firstLine bytes := Utf8.encode_decode? h
  by_cases hfeed : '\n' ∈ row
  · obtain ⟨line, rest, rfl, hline⟩ := List.eq_append_cons_of_mem hfeed
    have hplain := Utf8.lineFeed_not_mem_encode hline
    have hidem := firstLine_idem bytes
    rw [← hbytes, Utf8.encode_append, Utf8.encode_lineFeed, firstLine_append hplain] at hidem
    have hrest : Utf8.encode rest = [] := by simpa using hidem.symm
    have hnil : rest = [] := by
      have hdecode := Utf8.decode?_encode rest
      rw [hrest, ← Utf8.encode_nil, Utf8.decode?_encode] at hdecode
      exact (Option.some.inj hdecode).symm
    exact ⟨line, hline, .inl (by rw [hnil])⟩
  · exact ⟨row, hfeed, .inr ⟨rfl, firstLine_eq_self (hbytes ▸ Utf8.lineFeed_not_mem_encode hfeed)⟩⟩

end LineSource

/-! ### The first line of data -/

/-- The first line of data with its end, and where it begins. The lines in front of it are text, and comments or
blank. Nothing is said of what comes behind it. -/
def FirstData (bytes : List UInt8) (offset : Nat) (row : List Char) : Prop :=
  ∃ (passed : List (List Char)) (behind : List UInt8),
    bytes = Utf8.encode (TextLine.ended passed) ++ behind ∧ offset = TextLine.size (TextLine.ended passed) ∧
    (∀ line ∈ passed, '\n' ∉ line ∧ LineSource.isSkipped line = true) ∧
    Utf8.decode? (LineSource.firstLine behind) = some row ∧ LineSource.isSkipped row = false

section
variable {bytes : List UInt8} {offset : Nat} {row line : List Char}

open LineSource

theorem firstData_nil : ¬ FirstData [] offset row := by
  rintro ⟨passed, behind, hbytes, -, -, hrow, hdata⟩
  obtain ⟨-, rfl⟩ := List.append_eq_nil_iff.mp hbytes.symm
  have hempty : row = [] := by simpa [firstLine, Utf8.decode?] using hrow.symm
  rw [hempty] at hdata
  exact absurd hdata (by decide)

/-- The first line is the first line of data, unless it is skipped. -/
theorem firstData_iff : FirstData bytes offset row ↔
    ∃ line, Utf8.decode? (firstLine bytes) = some line ∧
      if isSkipped line = true then
        ∃ later, offset = (firstLine bytes).length + later ∧
          FirstData (bytes.drop (firstLine bytes).length) later row
      else offset = 0 ∧ row = line := by
  constructor
  · rintro ⟨passed, behind, rfl, hoffset, hpassed, hrow, hdata⟩
    cases passed with
    | nil =>
      refine ⟨row, hrow, ?_⟩
      rw [hdata]
      exact ⟨hoffset, rfl⟩
    | cons first passed =>
      obtain ⟨⟨hfirst, hskip⟩, hrest⟩ := List.forall_mem_cons.mp hpassed
      have hcut : Utf8.encode (TextLine.ended (first :: passed)) ++ behind =
          Utf8.encode (first ++ ['\n']) ++ (Utf8.encode (TextLine.ended passed) ++ behind) := by simp
      have hlength : (Utf8.encode (first ++ ['\n'])).length = TextLine.size first + 1 := by
        simp [TextLine.size]
      refine ⟨first ++ ['\n'], by rw [firstLine_ended hfirst, Utf8.decode?_encode], ?_⟩
      rw [if_pos (by rw [isSkipped_lineFeed, hskip]), firstLine_ended hfirst, hcut, List.drop_left]
      refine ⟨TextLine.size (TextLine.ended passed), ?_, passed, behind, rfl, rfl, hrest, hrow, hdata⟩
      rw [hoffset, hlength, TextLine.ended_cons, TextLine.size_append, TextLine.size_lineFeed]
      omega
  · rintro ⟨line, hline, hnext⟩
    by_cases hskip : isSkipped line = true
    · rw [if_pos hskip] at hnext
      obtain ⟨later, rfl, passed, behind, hbehind, rfl, hpassed, hrow, hdata⟩ := hnext
      have hbytes := Utf8.encode_decode? hline
      obtain ⟨first, hfeed, rfl | ⟨rfl, hwhole⟩⟩ := row_cases hline
      · rw [isSkipped_lineFeed] at hskip
        have hall := List.forall_mem_cons.mpr ⟨⟨hfeed, hskip⟩, hpassed⟩
        refine ⟨first :: passed, behind, ?_, ?_, hall, hrow, hdata⟩
        · rw [← firstLine_append_drop bytes, hbehind, ← hbytes]
          simp
        · rw [← hbytes, TextLine.ended_cons, TextLine.size_append, TextLine.size_lineFeed]
          simp only [Utf8.encode_append, Utf8.encode_lineFeed, Utf8.encode_nil, List.length_append,
            List.length_singleton, TextLine.size]
          omega
      · -- a line without a line feed is the last one
        rw [hwhole, List.drop_length] at hbehind
        exact absurd ⟨passed, behind, hbehind, rfl, hpassed, hrow, hdata⟩ firstData_nil
    · rw [if_neg hskip] at hnext
      obtain ⟨rfl, rfl⟩ := hnext
      exact ⟨[], bytes, rfl, rfl, by simp, hline, Bool.not_eq_true _ ▸ hskip⟩

theorem firstData_notText (h : Utf8.decode? (firstLine bytes) = none) : ¬ FirstData bytes offset row := by
  rw [firstData_iff, h]
  simp

theorem firstData_data (h : Utf8.decode? (firstLine bytes) = some line) (hdata : ¬ isSkipped line = true) :
    FirstData bytes offset row ↔ offset = 0 ∧ row = line := by
  rw [firstData_iff, h]
  simp [hdata]

theorem firstData_skipped (h : Utf8.decode? (firstLine bytes) = some line) (hskip : isSkipped line = true) :
    FirstData bytes offset row ↔ ∃ later, offset = (firstLine bytes).length + later ∧
      FirstData (bytes.drop (firstLine bytes).length) later row := by
  rw [firstData_iff, h]
  simp [hskip]

end

namespace LineSource

theorem firstOutcome_linesOf {position offset : Nat} {bytes : List UInt8} {text : String} :
    firstOutcome (linesOf position bytes) = .ok (some (offset, text)) ↔
      ∃ start row, FirstData bytes start row ∧ position + start = offset ∧
        String.ofList (withoutLineEnd row) = text := by
  fun_induction linesOf position bytes with
  | case1 => simp [firstOutcome, firstData_nil]
  | case2 position b bs line after hnone => simp [firstOutcome, Except.map, firstData_notText hnone]
  | case3 position b bs line after row hrow text' hskip ih =>
    rw [isSkipped_withoutLineEnd] at hskip
    simp only [ih, firstData_skipped hrow hskip]
    constructor
    · rintro ⟨later, found, hfound, rfl, rfl⟩
      exact ⟨line.length + later, found, ⟨later, rfl, hfound⟩, (Nat.add_assoc ..).symm, rfl⟩
    · rintro ⟨_, found, ⟨later, rfl, hfound⟩, rfl, rfl⟩
      exact ⟨later, found, hfound, Nat.add_assoc .., rfl⟩
  | case4 position b bs line after row hrow text' hdata =>
    have hdata' : ¬ isSkipped row = true := by rwa [← isSkipped_withoutLineEnd]
    simp only [firstData_data hrow hdata']
    constructor
    · intro h
      cases h
      exact ⟨0, row, ⟨rfl, rfl⟩, rfl, rfl⟩
    · rintro ⟨_, _, ⟨rfl, rfl⟩, rfl, rfl⟩
      rfl

/-- A new reader gives the first line of data without the line feeds and carriage returns at its end. -/
theorem readLine_new_eq_ok {content : List UInt8} {layout : TextLayout} {offset : Nat} {text : String} :
    (new content layout).readLine.1 = .ok (some (offset, text)) ↔
      ∃ row, FirstData content offset row ∧ String.ofList (withoutLineEnd row) = text := by
  obtain ⟨hfirst, -⟩ := (new content layout).readLine_spec
  have hlines : (new content layout).lines = linesOf 0 content := rfl
  rw [hfirst, hlines, firstOutcome_linesOf]
  constructor
  · rintro ⟨_, row, hrow, rfl, htext⟩
    exact ⟨row, (Nat.zero_add _).symm ▸ hrow, htext⟩
  · rintro ⟨row, hrow, htext⟩
    exact ⟨offset, row, hrow, Nat.zero_add offset, htext⟩

end LineSource

namespace Station

open LineSource (isSkipped withoutLineEnd firstLine IsLineEnd)

/-! ### What a file is told by -/

theorem chomp_cases (row : List Char) :
    row = chomp row ++ ['\r'] ++ ['\n'] ∨ row = chomp row ++ ['\n'] ∨
      row.getLast? ≠ some '\n' ∧ chomp row = row := by
  have hback := List.reverse_reverse row
  rw [chomp]
  split
  · rename_i rest hrow
    rw [hrow] at hback
    exact .inl (by simpa using hback.symm)
  · rename_i rest hrow
    rw [hrow] at hback
    exact .inr (.inl (by simpa using hback.symm))
  · rename_i hplain
    refine .inr (.inr ⟨fun hlast => ?_, rfl⟩)
    rw [← List.head?_reverse, List.head?_eq_some_iff] at hlast
    obtain ⟨rest, hrest⟩ := hlast
    exact hplain rest hrest

theorem chomp_spec (row : List Char) : ∃ ending, row = chomp row ++ ending ∧ IsLineEnd ending := by
  rcases chomp_cases row with h | h | ⟨-, h⟩
  · exact ⟨['\r', '\n'], by simpa using h, by simp [IsLineEnd]⟩
  · exact ⟨['\n'], h, by simp [IsLineEnd]⟩
  · exact ⟨[], by rw [h, List.append_nil], by simp [IsLineEnd]⟩

theorem isSkipped_chomp (row : List Char) : isSkipped (chomp row) = isSkipped row := by
  obtain ⟨ending, hsplit, hends⟩ := chomp_spec row
  conv_rhs => rw [hsplit, LineSource.isSkipped_append hends]

theorem withoutLineEnd_chomp (row : List Char) : withoutLineEnd (chomp row) = withoutLineEnd row := by
  obtain ⟨ending, hsplit, hends⟩ := chomp_spec row
  conv_rhs => rw [hsplit, LineSource.withoutLineEnd_append hends]

/-- No line feed is left in a line. -/
theorem lineFeed_not_mem_chomp {bytes : List UInt8} {row : List Char}
    (h : Utf8.decode? (firstLine bytes) = some row) : '\n' ∉ chomp row := by
  obtain ⟨line, hline, hrow⟩ := LineSource.row_cases h
  intro hmem
  rcases hrow with hrow | ⟨rfl, -⟩
  · rcases chomp_cases row with hcut | hcut | ⟨hlast, -⟩
    · have hreturn : line = chomp row ++ ['\r'] := List.append_cancel_right (hrow.symm.trans hcut)
      exact hline (hreturn ▸ List.mem_append_left _ hmem)
    · have hplain : line = chomp row := List.append_cancel_right (hrow.symm.trans hcut)
      exact hline (hplain ▸ hmem)
    · simp [hrow] at hlast
  · obtain ⟨ending, hcut, -⟩ := chomp_spec row
    exact hline (hcut ▸ List.mem_append_left ending hmem)

/-- At most carriage returns tell what is looked at from what is read. -/
theorem chomp_eq {bytes : List UInt8} {row : List Char} (h : Utf8.decode? (firstLine bytes) = some row) :
    ∃ returns, chomp row = withoutLineEnd row ++ List.replicate returns '\r' := by
  obtain ⟨ending, hsplit, hends⟩ := LineSource.withoutLineEnd_spec (chomp row)
  have hfeed := lineFeed_not_mem_chomp h
  have hreturns : ∀ c ∈ ending, c = '\r' := by
    intro c hc
    refine (hends c hc).resolve_left ?_
    rintro rfl
    exact hfeed (hsplit ▸ List.mem_append_right _ hc)
  rw [withoutLineEnd_chomp, List.eq_replicate_of_mem hreturns] at hsplit
  exact ⟨ending.length, hsplit⟩

/-- A file is told by its first line of data, less its line feed and one carriage return. -/
theorem firstDataLine?_eq_some {bytes : List UInt8} {line : List Char} :
    firstDataLine? bytes = some line ↔ ∃ offset row, FirstData bytes offset row ∧ chomp row = line := by
  fun_induction firstDataLine? bytes with
  | case1 => simp [firstData_nil]
  | case2 b bs first hnone => simp [firstData_notText hnone]
  | case3 b bs first row hrow hskip ih =>
    rw [isSkipped_chomp] at hskip
    simp only [ih, firstData_skipped hrow hskip]
    constructor
    · rintro ⟨later, found, hfound, rfl⟩
      exact ⟨first.length + later, found, ⟨later, rfl, hfound⟩, rfl⟩
    · rintro ⟨_, found, ⟨later, rfl, hfound⟩, rfl⟩
      exact ⟨later, found, hfound, rfl⟩
  | case4 b bs first row hrow hdata =>
    rw [isSkipped_chomp] at hdata
    simp only [firstData_data hrow hdata, Option.some.injEq]
    constructor
    · rintro rfl
      exact ⟨0, row, ⟨rfl, rfl⟩, rfl⟩
    · rintro ⟨_, _, ⟨rfl, rfl⟩, rfl⟩
      rfl

theorem accepts_iff {d : Disk} {path : String} :
    accepts d path = true ↔
      (Path.extension? path = some dataExtension ∨ Path.extension? path = some catalogExtension) ∧
      d.has (companions path).2 = true ∧
      ∃ content offset row, d.bytes? (companions path).1 = some content ∧ FirstData content offset row ∧
        looksLikeData (chomp row) = true := by
  have hlook : ∀ content, (firstDataLine? content).any looksLikeData = true ↔
      ∃ offset row, FirstData content offset row ∧ looksLikeData (chomp row) = true := by
    intro content
    rw [Option.any_eq_true]
    constructor
    · rintro ⟨line, hline, hlooks⟩
      obtain ⟨offset, row, hfirst, rfl⟩ := firstDataLine?_eq_some.mp hline
      exact ⟨offset, row, hfirst, hlooks⟩
    · rintro ⟨offset, row, hfirst, hlooks⟩
      exact ⟨chomp row, firstDataLine?_eq_some.mpr ⟨offset, row, hfirst, rfl⟩, hlooks⟩
  simp only [accepts, Bool.and_eq_true, Bool.or_eq_true, beq_iff_eq, and_assoc]
  cases d.bytes? (companions path).1 <;> simp [hlook]

/-! ### Stations and years in digits -/

/-- The fifteen characters of a station and a year are there, and digits. -/
structure BeginsInDigits (line : List Char) : Prop where
  long : 15 ≤ line.length
  digits : ∀ c ∈ line.take 15, c.isDigit = true

/-- Nineteen bytes are no fewer than fifteen characters if these are digits. -/
theorem beginsInDigits_of_looksLikeData {line : List Char} (h : looksLikeData line = true) :
    BeginsInDigits line := by
  simp only [looksLikeData, Bool.and_eq_true, decide_eq_true_eq, List.all_eq_true] at h
  obtain ⟨hsize, hdigits⟩ := h
  refine ⟨?_, hdigits⟩
  by_contra hshort
  rw [List.take_of_length_le (by omega)] at hdigits
  rw [Utf8.length_encode_digits hdigits] at hsize
  omega

/-- Carriage returns at the end are behind the digits. -/
theorem BeginsInDigits.of_returns {text : List Char} {returns : Nat}
    (h : BeginsInDigits (text ++ List.replicate returns '\r')) : BeginsInDigits text := by
  obtain ⟨hlength, hdigits⟩ := h
  have hlong : 15 ≤ text.length := by
    by_contra hshort
    have hreturn : '\r' ∈ (text ++ List.replicate returns '\r').take 15 := by
      rw [List.length_append, List.length_replicate] at hlength
      rw [List.take_append, List.take_replicate]
      refine List.mem_append_right _ (List.mem_replicate.mpr ⟨?_, rfl⟩)
      omega
    exact absurd (hdigits _ hreturn) (by decide)
  rw [List.take_append_of_le_length hlong] at hdigits
  exact ⟨hlong, hdigits⟩

variable {text : List Char}

/-- A column among the digits is a number, which fits where all numbers of its width do. -/
theorem BeginsInDigits.number (h : BeginsInDigits text) (bits start stop : Nat) (hstart : start < stop)
    (hstop : stop ≤ 15) (hwidth : 10 ^ (stop - start) ≤ 2 ^ (bits - 1)) :
    Text.integer? bits (Text.trim (Column.slice text start stop)) =
        some (Nat.ofDigitChars 10 (Column.slice text start stop) 0 : Int) ∧
      Nat.ofDigitChars 10 (Column.slice text start stop) 0 < 10 ^ (stop - start) := by
  have hlong := h.long
  have hlength : (Column.slice text start stop).length = stop - start := by
    rw [Column.slice, List.length_take, List.length_drop]
    omega
  have hdigits : ∀ c ∈ Column.slice text start stop, c.isDigit = true := by
    intro c hc
    have hmem : c ∈ (text.take stop).drop start := by rwa [List.drop_take]
    refine h.digits c (List.mem_of_mem_take (i := stop) ?_)
    rw [List.take_take, Nat.min_eq_left hstop]
    exact List.mem_of_mem_drop hmem
  have hne : Column.slice text start stop ≠ [] := List.ne_nil_of_length_pos (by omega)
  have hlt := Text.ofDigitChars_lt hdigits
  rw [hlength] at hlt
  rw [Text.trim_of_plain fun c hc => Text.isBlank_of_isDigit (hdigits c hc)]
  exact ⟨Text.integer?_of_digits hne hdigits (Nat.lt_of_lt_of_le hlt hwidth), hlt⟩

theorem readField_station (text : List Char) :
    dataLayout.readField (String.ofList text) "stnid" = Column.read ⟨"stnid", .long, 0, 11, none⟩ text := by
  simp [TextLayout.readField, TextLayout.column?, dataLayout]

theorem readField_year (text : List Char) :
    dataLayout.readField (String.ofList text) "year" = Column.read ⟨"year", .int, 11, 15, none⟩ text := by
  simp [TextLayout.readField, TextLayout.column?, dataLayout]

theorem BeginsInDigits.station (h : BeginsInDigits text) :
    ∃ id : Int64, dataLayout.readField (String.ofList text) "stnid" = .ok (.long id) ∧
      id.toInt = Nat.ofDigitChars 10 (Column.slice text 0 11) 0 := by
  obtain ⟨hid, hlt⟩ := h.number 64 0 11 (by decide) (by decide) (by decide)
  refine ⟨Int64.ofInt (Nat.ofDigitChars 10 (Column.slice text 0 11) 0), ?_,
    Int64.toInt_ofInt_of_le (by omega) (by omega)⟩
  rw [readField_station, Column.read]
  refine Column.cell_eq_ok ?_
  rw [ColumnKind.read?, hid]
  rfl

theorem BeginsInDigits.year (h : BeginsInDigits text) :
    ∃ year : Int32, dataLayout.readField (String.ofList text) "year" = .ok (.int year) ∧
      year.toInt = Nat.ofDigitChars 10 (Column.slice text 11 15) 0 := by
  obtain ⟨hyear, hlt⟩ := h.number 32 11 15 (by decide) (by decide) (by decide)
  refine ⟨Int32.ofInt (Nat.ofDigitChars 10 (Column.slice text 11 15) 0), ?_,
    Int32.toInt_ofInt_of_le (by omega) (by omega)⟩
  rw [readField_year, Column.read]
  refine Column.cell_eq_ok ?_
  rw [ColumnKind.read?, hyear]
  rfl

/-! ### Telling and reading -/

/-- What a file is told by is its first line of data less a line feed and one carriage return; what a reader
gives first is the same line less all of them. In a file that is accepted there is such a line, so the two
differ by carriage returns at most, and the station and the year of the line are read. -/
theorem first_line_read (d : Disk) (path : String) (layout : TextLayout) :
    (∀ content line, firstDataLine? content = some line ↔
      ∃ offset row, FirstData content offset row ∧ chomp row = line) ∧
    (∀ content offset text, (LineSource.new content layout).readLine.1 = .ok (some (offset, text)) ↔
      ∃ row, FirstData content offset row ∧ String.ofList (withoutLineEnd row) = text) ∧
    (accepts d path = true → ∃ content offset row,
      d.bytes? (companions path).1 = some content ∧ FirstData content offset row ∧
      let text := withoutLineEnd row
      firstDataLine? content = some (chomp row) ∧ (∃ returns, chomp row = text ++ List.replicate returns '\r') ∧
      (LineSource.new content layout).readLine.1 = .ok (some (offset, String.ofList text)) ∧
      (∃ id : Int64, dataLayout.readField (String.ofList text) "stnid" = .ok (.long id) ∧
        id.toInt = Nat.ofDigitChars 10 (Column.slice text 0 11) 0) ∧
      ∃ year : Int32, dataLayout.readField (String.ofList text) "year" = .ok (.int year) ∧
        year.toInt = Nat.ofDigitChars 10 (Column.slice text 11 15) 0) := by
  refine ⟨fun _ _ => firstDataLine?_eq_some, fun _ _ _ => LineSource.readLine_new_eq_ok, fun haccepts => ?_⟩
  obtain ⟨-, -, content, offset, row, hcontent, hrow, hlooks⟩ := accepts_iff.mp haccepts
  have hreturns : ∃ returns, chomp row = withoutLineEnd row ++ List.replicate returns '\r' := by
    obtain ⟨passed, behind, -, -, -, hdecode, -⟩ := hrow
    exact chomp_eq hdecode
  have hdigits : BeginsInDigits (withoutLineEnd row) := by
    obtain ⟨returns, hreturns⟩ := hreturns
    exact .of_returns (hreturns ▸ beginsInDigits_of_looksLikeData hlooks)
  exact ⟨content, offset, row, hcontent, hrow, firstDataLine?_eq_some.mpr ⟨offset, row, hrow, rfl⟩, hreturns,
    LineSource.readLine_new_eq_ok.mpr ⟨row, hrow, rfl⟩, hdigits.station, hdigits.year⟩

/-- A comment, a blank line, a station and a year with nothing but carriage returns behind them, and bytes that
are no text. -/
def returnsFile : List UInt8 :=
  Utf8.encode "# id\r\n\t\n101603550001996\r\r\r\r\r\n".toList ++ [0xFF, 0x0A]

/-- The file next to a catalog without lines. -/
def returnsDisk : Disk :=
  { files := [(["a.dat"], ⟨0, returnsFile, .tick 0⟩), (["a.inv"], ⟨1, [], .tick 0⟩)], issued := 2 }

theorem first_line_read_returns :
    accepts returnsDisk "a.inv" = true ∧
      (LineSource.new returnsFile dataLayout).readLine.1 = .ok (some (8, "101603550001996")) ∧
      (∃ id : Int64, dataLayout.readField "101603550001996" "stnid" = .ok (.long id) ∧ id.toInt = 10160355000) ∧
      ∃ year : Int32, dataLayout.readField "101603550001996" "year" = .ok (.int year) ∧ year.toInt = 1996 := by
  have haccepts : accepts returnsDisk "a.inv" = true := by decide +kernel
  have hbytes : returnsDisk.bytes? (companions "a.inv").1 = some returnsFile := by decide +kernel
  have hanswer : (LineSource.new returnsFile dataLayout).readLine.1.toOption =
      some (some (8, "101603550001996")) := by
    decide +kernel
  obtain ⟨content, offset, row, hcontent, -, -, -, hread, hid, hyear⟩ :=
    (first_line_read returnsDisk "a.inv" dataLayout).2.2 haccepts
  obtain rfl : returnsFile = content := Option.some.inj (hbytes.symm.trans hcontent)
  rw [hread, Except.toOption, Option.some.injEq, Option.some.injEq, Prod.mk.injEq] at hanswer
  obtain ⟨rfl, htext⟩ := hanswer
  have hchars : withoutLineEnd row = "101603550001996".toList := by rw [← htext, String.toList_ofList]
  rw [htext] at hread
  rw [htext, hchars] at hid hyear
  exact ⟨haccepts, hread, hid, hyear⟩

end Station
end SciArchive
