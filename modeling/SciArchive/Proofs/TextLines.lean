import Mathlib.Data.List.Flatten
import SciArchive.Proofs.LineOffsets
import SciArchive.Proofs.Lines
import SciArchive.Proofs.Pieces
import SciArchive.Proofs.Utf8

/-! The lines of a text. A reader of a file that is well-formed text gives the stretches between line feeds
that hold data, all of them and in order, each with the byte that it begins at. -/
namespace SciArchive

namespace LineSource

theorem firstLine_of_not_mem {bytes : List UInt8} (h : 0x0A ∉ bytes) : firstLine bytes = bytes := by
  induction bytes with
  | nil => rfl
  | cons b bs ih =>
    simp only [List.mem_cons, not_or] at h
    simp [firstLine, Ne.symm h.1, ih h.2]

theorem firstLine_append {bytes : List UInt8} (h : 0x0A ∉ bytes) (behind : List UInt8) :
    firstLine (bytes ++ 0x0A :: behind) = bytes ++ [0x0A] := by
  induction bytes with
  | nil => rfl
  | cons b bs ih =>
    simp only [List.mem_cons, not_or] at h
    simp [firstLine, Ne.symm h.1, ih h.2]

theorem length_firstLine_le (bytes : List UInt8) : (firstLine bytes).length ≤ bytes.length := by
  fun_induction firstLine bytes with
  | case1 => simp
  | case2 bs => simp
  | case3 b bs _ ih => simpa using ih

/-- Only what stands in front of the line feed counts. -/
theorem withoutLineEnd_lineFeed (cs : List Char) : withoutLineEnd (cs ++ ['\n']) = withoutLineEnd cs := by
  simp [withoutLineEnd, Text.dropEnd]

end LineSource

/-! ### Lines in a text -/

/-- A stretch between line feeds, from the byte that it begins at to the one behind its line feed. -/
structure TextLine where
  start : Nat
  stop : Nat
  text : List Char
  deriving DecidableEq, Repr

namespace TextLine

/-- The number of bytes of a text. -/
def size (cs : List Char) : Nat := (Utf8.encode cs).length

@[simp] theorem size_append (front back : List Char) : size (front ++ back) = size front + size back := by
  simp [size]

@[simp] theorem size_lineFeed (behind : List Char) : size ('\n' :: behind) = size behind + 1 := rfl

@[simp] theorem size_nil : size [] = 0 := rfl

/-- What is told of the line: its offset, and its characters without line feeds and carriage returns at their
end. -/
def told (l : TextLine) : Nat × String := (l.start, String.ofList (LineSource.withoutLineEnd l.text))

/-- The line is not a comment, and something stands in it that is not white space. -/
def isData (l : TextLine) : Bool :=
  let cs := LineSource.withoutLineEnd l.text
  cs.head? != some '#' && cs.any fun c => !Text.isBlank c

theorem isData_eq (l : TextLine) : l.isData = !LineSource.isSkipped (LineSource.withoutLineEnd l.text) := by
  simp [isData, LineSource.isSkipped, Text.isAllBlank, List.not_all_eq_any_not, bne]

/-- Stretches as lines one behind the other; all but the last have a line feed. -/
def ofStretches (start : Nat) : List (List Char) → List TextLine
  | [] => []
  | [last] => [⟨start, start + size last, last⟩]
  | cs :: rest => ⟨start, start + size cs + 1, cs⟩ :: ofStretches (start + size cs + 1) rest

/-- The line has its place in the text: nothing, or a line feed, on either side of it and none inside. -/
structure StandsIn (text : List Char) (l : TextLine) : Prop where
  place : ∃ before behind, text = before ++ l.text ++ behind ∧ l.start = size before ∧
    (before = [] ∨ ∃ front, before = front ++ ['\n']) ∧
    (behind = [] ∧ l.stop = l.start + size l.text ∨
      ∃ back, behind = '\n' :: back ∧ l.stop = l.start + size l.text + 1)
  inside : '\n' ∉ l.text

end TextLine

/-- All lines of a text. -/
def textLines (text : List Char) : List TextLine := TextLine.ofStretches 0 (text.splitOn '\n')

/-- The lines of a text that are neither comments nor blank. -/
def dataLines (text : List Char) : List TextLine := (textLines text).filter TextLine.isData

section
variable {text cs : List Char} {stretches : List (List Char)}

theorem separated_of_mem_splitOn (h : cs ∈ text.splitOn '\n') : '\n' ∉ cs := by
  rw [List.splitOn_eq_splitOnP] at h
  intro hmem
  simpa using Text.separated_of_mem_splitOnP h '\n' hmem

namespace LineSource

/-- A line in front is told, unless it is skipped, and reading goes on behind it. -/
theorem linesOf_line {line : List Char} {behind : List UInt8} (hne : line ≠ [])
    (hfirst : firstLine (Utf8.encode line ++ behind) = Utf8.encode line) {l : TextLine}
    (hl : withoutLineEnd line = withoutLineEnd l.text) :
    linesOf l.start (Utf8.encode line ++ behind) =
      ([l].filter TextLine.isData).map (fun l => .ok l.told) ++ linesOf (l.start + TextLine.size line) behind := by
  obtain ⟨b, bs, hcons⟩ : ∃ b bs, Utf8.encode line ++ behind = b :: bs := by
    obtain ⟨c, rest, rfl⟩ := List.exists_cons_of_ne_nil hne
    exact List.exists_cons_of_ne_nil (by simp [Utf8.encode])
  have hdecode : Utf8.decode? (firstLine (b :: bs)) = some line := by
    rw [← hcons, hfirst, Utf8.decode?_encode]
  have hbehind : (b :: bs).drop (firstLine (b :: bs)).length = behind := by
    rw [← hcons, hfirst, List.drop_left]
  have hsize : (firstLine (b :: bs)).length = TextLine.size line := by rw [← hcons, hfirst, TextLine.size]
  rw [hcons]
  by_cases hskip : isSkipped (withoutLineEnd line) = true
  · have hdata : l.isData = false := by simp [TextLine.isData_eq, ← hl, hskip]
    rw [linesOf_skipped hdecode hskip, hbehind, hsize]
    simp [hdata]
  · have hdata : l.isData = true := by simpa [TextLine.isData_eq, ← hl] using hskip
    rw [linesOf_data hdecode hskip, hbehind, hsize]
    simp [hdata, TextLine.told, hl]

theorem linesOf_stretches (h : ∀ cs ∈ stretches, '\n' ∉ cs) (start : Nat) :
    linesOf start (Utf8.encode (['\n'].intercalate stretches)) =
      ((TextLine.ofStretches start stretches).filter TextLine.isData).map fun l => .ok l.told := by
  induction stretches generalizing start with
  | nil => simp [TextLine.ofStretches, Utf8.encode]
  | cons cs rest ih =>
    rw [List.forall_mem_cons] at h
    have hplain := Utf8.lineFeed_not_mem_encode h.1
    cases rest with
    | nil =>
      by_cases hempty : cs = []
      · rw [hempty]
        exact linesOf_nil start
      · have hfirst : firstLine (Utf8.encode cs ++ []) = Utf8.encode cs := by simp [firstLine_of_not_mem hplain]
        have hline := linesOf_line hempty hfirst (l := ⟨start, start + TextLine.size cs, cs⟩) rfl
        simpa [TextLine.ofStretches] using hline
    | cons next rest =>
      have hfirst : firstLine (Utf8.encode (cs ++ ['\n']) ++ Utf8.encode (['\n'].intercalate (next :: rest))) =
          Utf8.encode (cs ++ ['\n']) := by
        simpa using firstLine_append hplain _
      have hline := linesOf_line (by simp) hfirst (l := ⟨start, start + TextLine.size cs + 1, cs⟩)
        (withoutLineEnd_lineFeed cs)
      have hsize : start + TextLine.size (cs ++ ['\n']) = start + TextLine.size cs + 1 := by simp [Nat.add_assoc]
      rw [List.intercalate_cons_cons, Utf8.encode_append, hline, hsize, ih h.2, ← List.map_append,
        ← List.filter_append]
      rfl

theorem linesOf_text (text : List Char) :
    linesOf 0 (Utf8.encode text) = (dataLines text).map fun l => .ok l.told := by
  have hstretches := linesOf_stretches (fun cs (hcs : cs ∈ text.splitOn '\n') => separated_of_mem_splitOn hcs) 0
  rwa [List.intercalate_splitOn] at hstretches

end LineSource

namespace TextLine

variable {start : Nat} {l : TextLine} {front back : List (List Char)}

/-- The stretches with a line feed behind each. -/
def ended (stretches : List (List Char)) : List Char := stretches.flatMap (· ++ ['\n'])

@[simp] theorem ended_nil : ended [] = [] := rfl

@[simp] theorem ended_cons (cs : List Char) (rest : List (List Char)) :
    ended (cs :: rest) = cs ++ '\n' :: ended rest := by
  simp [ended]

theorem ended_eq (h : stretches ≠ []) : ended stretches = ['\n'].intercalate stretches ++ ['\n'] := by
  induction stretches with
  | nil => exact absurd rfl h
  | cons cs rest ih => cases rest <;> simp_all [List.intercalate_cons_cons]

theorem intercalate_append_cons (front : List (List Char)) (cs : List Char) (back : List (List Char)) :
    ['\n'].intercalate (front ++ cs :: back) =
      ended front ++ cs ++ if back = [] then [] else '\n' :: ['\n'].intercalate back := by
  induction front with
  | nil => cases back <;> simp [List.intercalate_cons_cons]
  | cons first front ih =>
    obtain ⟨next, rest, hrest⟩ : ∃ next rest, front ++ cs :: back = next :: rest :=
      List.exists_cons_of_ne_nil (by simp)
    rw [List.cons_append, hrest, List.intercalate_cons_cons, ← hrest, ih]
    simp

/-- The lines of stretches, by what stands before and behind each. -/
theorem mem_ofStretches : l ∈ ofStretches start stretches ↔
    ∃ front back, stretches = front ++ l.text :: back ∧ l.start = start + size (ended front) ∧
      l.stop = l.start + size l.text + if back = [] then 0 else 1 := by
  obtain ⟨first, stop, text⟩ := l
  fun_induction ofStretches start stretches with
  | case1 => simp
  | case2 start last =>
    constructor
    · rintro h
      cases List.mem_singleton.mp h
      exact ⟨[], [], rfl, rfl, rfl⟩
    · rintro ⟨front, back, hsplit, hstart, hstop⟩
      obtain ⟨rfl, rfl, rfl⟩ : front = [] ∧ text = last ∧ back = [] := by
        cases front <;> simp_all
      simp_all
  | case3 start cs rest hrest ih =>
    have hne : rest ≠ [] := hrest
    rw [List.mem_cons, ih]
    constructor
    · rintro (h | ⟨front, back, rfl, hstart, hstop⟩)
      · cases h
        exact ⟨[], rest, rfl, rfl, by simp [hne]⟩
      · refine ⟨cs :: front, back, rfl, ?_, hstop⟩
        simp only [ended_cons, size_append, size_lineFeed] at hstart ⊢
        omega
    · rintro ⟨front, back, hsplit, hstart, hstop⟩
      cases front with
      | nil =>
        cases hsplit
        left
        simp_all
      | cons first front =>
        cases hsplit
        right
        refine ⟨front, back, rfl, ?_, hstop⟩
        simp only [ended_cons, size_append, size_lineFeed] at hstart ⊢
        omega

theorem start_le_of_mem (h : l ∈ ofStretches start stretches) : start ≤ l.start := by
  obtain ⟨front, back, -, hstart, -⟩ := mem_ofStretches.mp h
  omega

theorem pairwise_ofStretches (start : Nat) (stretches : List (List Char)) :
    (ofStretches start stretches).Pairwise fun a b => a.start < b.start := by
  fun_induction ofStretches start stretches with
  | case1 => simp
  | case2 => simp
  | case3 start cs rest _ ih =>
    refine List.pairwise_cons.mpr ⟨fun l hl => ?_, ih⟩
    have hle := start_le_of_mem hl
    simp only
    omega

/-- Cutting in front of a place cuts what stands before it apart. -/
theorem splitOn_before {before : List Char} (h : before = [] ∨ ∃ front, before = front ++ ['\n']) :
    ∃ front, ended front = before ∧ ∀ behind, (before ++ behind).splitOn '\n' = front ++ behind.splitOn '\n' := by
  rcases h with rfl | ⟨text, rfl⟩
  · exact ⟨[], rfl, fun _ => rfl⟩
  · refine ⟨text.splitOn '\n', ?_, fun behind => ?_⟩
    · rw [ended_eq (List.splitOn_ne_nil _ _), List.intercalate_splitOn]
    · simp [List.splitOn_eq_splitOnP, List.splitOnP_append_cons]

theorem mem_textLines : l ∈ textLines text ↔ l.StandsIn text := by
  rw [textLines, mem_ofStretches]
  constructor
  · rintro ⟨front, back, hsplit, hstart, hstop⟩
    have htext := intercalate_append_cons front l.text back
    rw [← hsplit, List.intercalate_splitOn] at htext
    refine ⟨⟨_, _, htext, by rw [hstart, Nat.zero_add], ?_, ?_⟩, ?_⟩
    · by_cases hfront : front = []
      · exact .inl (by rw [hfront, ended_nil])
      · exact .inr ⟨_, ended_eq hfront⟩
    · by_cases hback : back = []
      · exact .inl ⟨by simp [hback], by simpa [hback] using hstop⟩
      · exact .inr ⟨['\n'].intercalate back, by simp [hback], by simpa [hback] using hstop⟩
    · exact separated_of_mem_splitOn (show l.text ∈ text.splitOn '\n' by simp [hsplit])
  · rintro ⟨⟨before, behind, rfl, hstart, hbefore, hbehind⟩, hinside⟩
    obtain ⟨front, rfl, hfront⟩ := splitOn_before hbefore
    rw [List.append_assoc, hfront]
    rcases hbehind with ⟨rfl, hstop⟩ | ⟨text, rfl, hstop⟩
    · refine ⟨front, [], ?_, by rw [hstart, Nat.zero_add], hstop⟩
      simp [List.splitOn_eq_singleton hinside]
    · refine ⟨front, text.splitOn '\n', ?_, by rw [hstart, Nat.zero_add], by simpa [List.splitOn_ne_nil] using hstop⟩
      have hcut := List.splitOnP_append_cons (p := (· == '\n')) l.text text (by simp : ('\n' == '\n') = true)
      rw [← List.splitOn_eq_splitOnP, ← List.splitOn_eq_splitOnP, ← List.splitOn_eq_splitOnP,
        List.splitOn_eq_singleton hinside] at hcut
      rw [hcut, List.singleton_append]

/-- A line ends where the bytes up to the next line feed do. -/
theorem StandsIn.stop_eq (h : l.StandsIn text) :
    l.stop = l.start + (LineSource.firstLine ((Utf8.encode text).drop l.start)).length := by
  obtain ⟨⟨before, behind, rfl, hstart, -, hbehind⟩, hinside⟩ := h
  have hplain := Utf8.lineFeed_not_mem_encode hinside
  have hdrop : (Utf8.encode (before ++ l.text ++ behind)).drop l.start = Utf8.encode l.text ++ Utf8.encode behind := by
    rw [hstart, size, List.append_assoc, Utf8.encode_append, List.drop_left, Utf8.encode_append]
  rw [hdrop]
  rcases hbehind with ⟨rfl, hstop⟩ | ⟨back, rfl, hstop⟩
  · simp [hstop, LineSource.firstLine_of_not_mem hplain, size]
  · simp [hstop, LineSource.firstLine_append hplain, size, Nat.add_assoc]

theorem StandsIn.stop_le (h : l.StandsIn text) : l.stop ≤ size text := by
  obtain ⟨⟨before, behind, rfl, hstart, -, hbehind⟩, -⟩ := h
  rcases hbehind with ⟨rfl, hstop⟩ | ⟨back, rfl, hstop⟩ <;>
    simp only [hstop, hstart, size_append, size_nil, size_lineFeed] <;> omega

end TextLine
end

/-! ### Reading them -/

namespace LineSource

section
variable {position offset : Nat} {c : Cursor} {text : String}

theorem nextLine_stop (hfound : (nextLine position c).1 = .ok (some (offset, text))) :
    position ≤ offset ∧
      (nextLine position c).2.1 = offset + (firstLine (c.rest.drop (offset - position))).length := by
  fun_induction nextLine position c with
  | case1 => simp at hfound
  | case2 => simp at hfound
  | case3 position c b bs hrest line after cs hdecode text' hskip ih =>
    obtain ⟨hle, hstop⟩ := ih hfound
    refine ⟨by omega, ?_⟩
    rw [hstop, Cursor.passLine_rest, List.drop_drop]
    congr 4
    omega
  | case4 position c b bs hrest line after cs hdecode text' hdata =>
    simp only [Except.ok.injEq, Option.some.injEq, Prod.mk.injEq] at hfound
    obtain ⟨rfl, -⟩ := hfound
    simp [hrest, line]

theorem nextLine_end (hnone : (nextLine position c).1 = .ok none) :
    (nextLine position c).2.1 = position + c.rest.length := by
  fun_induction nextLine position c with
  | case1 position c hrest => simp [hrest]
  | case2 => simp at hnone
  | case3 position c b bs hrest line after cs hdecode text' hskip ih =>
    have hle : line.length ≤ c.rest.length := hrest ▸ length_firstLine_le (b :: bs)
    rw [ih hnone, Cursor.passLine_rest, List.length_drop]
    omega
  | case4 => simp at hnone

end

/-- Reading line by line gives these lines and then none. The position is behind each line when it is told, and
in the end at `stop`. -/
def ReadsOut (s : LineSource) (lines : List TextLine) (stop : Nat) : Prop :=
  ∀ k, (s.after (List.replicate k .line)).readLine.1 = .ok (lines[k]?.map TextLine.told) ∧
    (s.after (List.replicate (k + 1) .line)).position = (lines[k]?.map TextLine.stop).getD stop

/-- A reader of the text, in place, with these lines to come. -/
structure Awaits (text : List Char) (layout : TextLayout) (s : LineSource) (lines : List TextLine) : Prop where
  placed : s.Placed (Utf8.encode text) layout
  counted : s.lag = 0
  within : s.position ≤ TextLine.size text
  standing : ∀ l ∈ lines, l.StandsIn text
  lines : s.lines = lines.map fun l => .ok l.told

variable {text : List Char} {layout : TextLayout} {s : LineSource} {lines : List TextLine}

theorem Awaits.rest_eq (h : s.Awaits text layout lines) : s.cursor.rest = (Utf8.encode text).drop s.position := by
  have hoffset := h.placed.offset_eq
  rw [h.counted, Nat.add_zero] at hoffset
  rw [h.placed.steady.rest.1, hoffset]

theorem Awaits.readLine (h : s.Awaits text layout lines) :
    s.readLine.1 = .ok (lines.head?.map TextLine.told) ∧ s.readLine.2.Awaits text layout lines.tail ∧
      s.readLine.2.position = (lines.head?.map TextLine.stop).getD (TextLine.size text) := by
  obtain ⟨hanswer, hlater, -⟩ := s.readLine_spec
  obtain ⟨hplaced, hkept, -⟩ := h.placed.readLine
  have hfirst : s.readLine.1 = .ok (lines.head?.map TextLine.told) := by
    rw [hanswer, h.lines]
    cases lines <;> rfl
  have hposition : s.readLine.2.position = (lines.head?.map TextLine.stop).getD (TextLine.size text) := by
    cases lines with
    | nil =>
      have hlength : s.cursor.rest.length = TextLine.size text - s.position := by
        rw [h.rest_eq, List.length_drop, TextLine.size]
      have hend : s.readLine.2.position = s.position + s.cursor.rest.length := nextLine_end hfirst
      have hwithin := h.within
      simp only [List.head?_nil, Option.map_none, Option.getD_none]
      omega
    | cons l later =>
      obtain ⟨hle, hstop⟩ := nextLine_stop hfirst
      have hdrop : s.cursor.rest.drop (l.start - s.position) = (Utf8.encode text).drop l.start := by
        rw [h.rest_eq, List.drop_drop]
        congr 1
        omega
      have hline := (h.standing l List.mem_cons_self).stop_eq
      rw [hdrop, ← hline] at hstop
      exact hstop
  have hwithin : s.readLine.2.position ≤ TextLine.size text := by
    rw [hposition]
    cases lines with
    | nil => exact Nat.le_refl _
    | cons l later => exact (h.standing l List.mem_cons_self).stop_le
  refine ⟨hfirst, ⟨hplaced, ?_, hwithin, fun l hl => h.standing l (List.mem_of_mem_tail hl), ?_⟩, hposition⟩
  · rw [hkept (by simp [hfirst]), h.counted]
  · rw [hlater, h.lines, List.map_tail]

theorem after_line (s : LineSource) (k : Nat) :
    s.after (List.replicate (k + 1) .line) = s.readLine.2.after (List.replicate k .line) := by
  induction k with
  | zero => rfl
  | succ k ih =>
    rw [List.replicate_succ, LineSource.after, ih, List.replicate_succ, LineSource.after]

theorem Awaits.readsOut (h : s.Awaits text layout lines) : s.ReadsOut lines (TextLine.size text) := by
  intro k
  induction k generalizing s lines with
  | zero =>
    obtain ⟨hfirst, -, hposition⟩ := h.readLine
    rw [← List.head?_eq_getElem?]
    exact ⟨hfirst, hposition⟩
  | succ k ih =>
    obtain ⟨-, hnext, -⟩ := h.readLine
    have hlater := ih hnext
    rw [List.getElem?_tail] at hlater
    simpa only [after_line s k, after_line s (k + 1)] using hlater

theorem awaits_new (text : List Char) (layout : TextLayout) :
    (new (Utf8.encode text) layout).Awaits text layout (dataLines text) where
  placed := placed_new _ _
  counted := rfl
  within := Nat.zero_le _
  standing _ hl := TextLine.mem_textLines.mp ((List.mem_filter.mp hl).1)
  lines := linesOf_text text

/-- Behind a leap to a line the lines from it on are to come. -/
theorem awaits_seek (hs : s.Placed (Utf8.encode text) layout) {front back : List TextLine} {l : TextLine}
    (hlines : dataLines text = front ++ l :: back) :
    (s.seek l.start).Awaits text layout (l :: back) := by
  have hplaced := hs.seek l.start
  have hstanding : ∀ m ∈ l :: back, m.StandsIn text := by
    intro m hm
    have hdata : m ∈ dataLines text := hlines ▸ List.mem_append_right front hm
    exact TextLine.mem_textLines.mp (List.mem_filter.mp hdata).1
  have hfrom : (s.seek l.start).lines = (l :: back).map fun l => .ok l.told := by
    have hall := linesOf_text text
    have htold : front.map (fun l => (.ok l.told : Except Fault _)) = (front.map TextLine.told).map .ok :=
      (List.map_map ..).symm
    rw [hlines, List.map_append, htold] at hall
    obtain ⟨-, -, hdrop⟩ := linesOf_drop hall
    rw [LineSource.lines, hplaced.steady.rest.1]
    exact hdrop
  refine ⟨hplaced, lag_seek s l.start, ?_, hstanding, hfrom⟩
  obtain ⟨before, behind, rfl, hstart, -⟩ := (hstanding l List.mem_cons_self).place
  simp only [seek, hstart, TextLine.size_append]
  omega

/-- A reader of a text gives the lines of data, which are those stretches of the text between line feeds that
are neither comments nor blank, all of them in the order of the file and each once. Back at the offset of one
of them, after any calls, it gives that one and all behind it. -/
theorem reads_dataLines {content : List UInt8} {text : List Char} (h : Utf8.decode? content = some text)
    (layout : TextLayout) :
    (new content layout).ReadsOut (dataLines text) content.length ∧
      (∀ l, l ∈ dataLines text ↔ l.StandsIn text ∧ l.isData) ∧
      (dataLines text).Pairwise (fun a b => a.start < b.start) ∧
      ∀ calls front l back, dataLines text = front ++ l :: back →
        (((new content layout).after calls).seek l.start).ReadsOut (l :: back) content.length := by
  obtain rfl := Utf8.encode_decode? h
  refine ⟨(awaits_new text layout).readsOut, fun l => ?_, ?_, fun calls front l back hlines => ?_⟩
  · rw [dataLines, List.mem_filter, TextLine.mem_textLines]
  · exact (TextLine.pairwise_ofStretches 0 _).filter _
  · exact (awaits_seek ((placed_new _ layout).after calls) hlines).readsOut

/-- A comment, a line without characters and a blank line, some with a carriage return, and data without a line
feed behind it. -/
def mixedText : List Char := "#a\r\n\r\ngrün 1\r\n \n°C".toList

theorem reads_dataLines_mixedText :
    let content := Utf8.encode mixedText
    let lines : List TextLine := [⟨6, 15, "grün 1\r".toList⟩, ⟨17, 20, "°C".toList⟩]
    Utf8.decode? content = some mixedText ∧ lines.map TextLine.told = [(6, "grün 1"), (17, "°C")] ∧
      (new content {}).ReadsOut lines 20 ∧
      (((new content {}).after [.line, .line]).seek 17).ReadsOut [⟨17, 20, "°C".toList⟩] 20 := by
  have hdecode : Utf8.decode? (Utf8.encode mixedText) = some mixedText := by decide +kernel
  have hlines : dataLines mixedText = [⟨6, 15, "grün 1\r".toList⟩, ⟨17, 20, "°C".toList⟩] := by decide +kernel
  have hlength : (Utf8.encode mixedText).length = 20 := by decide +kernel
  obtain ⟨hread, -, -, hleap⟩ := reads_dataLines hdecode {}
  have hlast := hleap [.line, .line] [_] _ [] hlines
  rw [hlines, hlength] at hread
  rw [hlength] at hlast
  exact ⟨hdecode, by decide +kernel, hread, hlast⟩

end LineSource
end SciArchive
