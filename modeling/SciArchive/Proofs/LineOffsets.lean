import SciArchive.Proofs.SteadyFiles

/-! Whether a line is found again at the offset it was told with. A line that is no text is passed over but
not counted, so until the next leap a reader tells offsets that lie before their lines. -/
namespace SciArchive.LineSource

/-! ### Calls -/

inductive Call where
  | line
  | record
  | seek (offset : Nat)
  deriving DecidableEq, Repr

/-- The answer to a call. -/
inductive Reply where
  | line (answer : Except Fault (Option (Nat × String)))
  | record (answer : Except Fault (Option (Nat × Record)))
  | moved

/-- A line or a record, with the offset it was told with. -/
inductive Found where
  | line (offset : Nat) (text : String)
  | record (offset : Nat) (r : Record)

namespace Found

def offset : Found → Nat
  | line offset _ => offset
  | record offset _ => offset

/-- The call that finds it. -/
def call : Found → Call
  | line _ _ => .line
  | record _ _ => .record

/-- The same line or record, `n` bytes on. -/
def shift (n : Nat) : Found → Found
  | line offset text => line (offset + n) text
  | record offset r => record (offset + n) r

@[simp] theorem shift_zero (f : Found) : f.shift 0 = f := by cases f <;> rfl

@[simp] theorem call_shift (n : Nat) (f : Found) : (f.shift n).call = f.call := by cases f <;> rfl

@[simp] theorem offset_shift (n : Nat) (f : Found) : (f.shift n).offset = f.offset + n := by cases f <;> rfl

end Found

def Reply.found? : Reply → Option Found
  | line (.ok (some (offset, text))) => some (.line offset text)
  | record (.ok (some (offset, r))) => some (.record offset r)
  | _ => none

/-- What a call answers, and the reader behind it. -/
def respond (s : LineSource) : Call → Reply × LineSource
  | .line => (.line s.readLine.1, s.readLine.2)
  | .record => (.record s.read.1, s.read.2)
  | .seek offset => (.moved, s.seek offset)

/-- A reader after a run of calls, the latest of which is the first. -/
def after (s : LineSource) : List Call → LineSource
  | [] => s
  | c :: earlier => ((s.after earlier).respond c).2

/-- Since the last leap the calls came upon a line that is no text. -/
def Strayed (s : LineSource) : List Call → Prop
  | [] => False
  | .seek _ :: _ => False
  | .line :: earlier => (s.after earlier).readLine.1 = .error .notText ∨ s.Strayed earlier
  | .record :: earlier => (s.after earlier).readLine.1 = .error .notText ∨ s.Strayed earlier

/-- By how many bytes the position stays behind the place that is read next. -/
def lag (s : LineSource) : Nat := s.cursor.offset - s.position

/-- What a new reader finds if its first call is made at an offset. -/
def findsAt (content : List UInt8) (layout : TextLayout) (offset : Nat) (c : Call) : Option Found :=
  (((new content layout).seek offset).respond c).1.found?

/-! ### Lines in place -/

/-- The line of data that stands at an offset of a file. -/
def lineAt? (content : List UInt8) (offset : Nat) : Option String :=
  match Utf8.decode? (firstLine (content.drop offset)) with
  | none => none
  | some cs =>
    let text := withoutLineEnd cs
    if isSkipped text then none else some (String.ofList text)

/-- The line, or the record that is read in it, stands in the file where it was told to. -/
def Found.StandsIn (content : List UInt8) (layout : TextLayout) : Found → Prop
  | line offset text => lineAt? content offset = some text
  | record offset r =>
    ∃ text t, lineAt? content offset = some text ∧ layout.readLine text = .ok t ∧ r = .text t

section
variable {content : List UInt8} {c : Cursor} {position lag offset : Nat} {text : String}

/-- What a search answers stands `lag` bytes behind the offset it is told with. -/
theorem lineAt?_of_nextLine (h : c.Together content c) (hlag : c.offset = position + lag)
    (hfound : (nextLine position c).1 = .ok (some (offset, text))) :
    lineAt? content (offset + lag) = some text := by
  -- lines that are skipped move the place and the position alike
  fun_induction nextLine position c with
  | case1 => simp at hfound
  | case2 => simp at hfound
  | case3 position c b bs hrest line after cs hdecode text' hskip ih =>
    have hnext : after.offset = c.offset + line.length := rfl
    exact ih (h.passLine _) (by omega) hfound
  | case4 position c b bs hrest line after cs hdecode text' hdata =>
    simp only [Except.ok.injEq, Option.some.injEq, Prod.mk.injEq] at hfound
    obtain ⟨rfl, rfl⟩ := hfound
    have hfirst : firstLine (content.drop (position + lag)) = line := by
      rw [← hlag, ← h.rest.1, hrest]
    simp only [lineAt?, hfirst, hdecode]
    exact if_neg hdata

/-- A search finds the line it begins at. -/
theorem nextLine_of_lineAt? (hrest : c.rest = content.drop offset)
    (h : lineAt? content offset = some text) : (nextLine offset c).1 = .ok (some (offset, text)) := by
  rw [lineAt?, ← hrest] at h
  cases hbytes : c.rest with
  | nil =>
    rw [hbytes] at h
    simp [firstLine, Utf8.decode?, withoutLineEnd, isSkipped, Text.dropEnd, Text.isAllBlank] at h
  | cons b bs =>
    rw [hbytes] at h
    rw [nextLine_cons hbytes]
    split at h
    · simp at h
    · rename_i cs hdecode
      by_cases hskip : isSkipped (withoutLineEnd cs) = true
      · simp [hskip] at h
      · simp only [if_neg hskip, Option.some.injEq] at h
        simp [hdecode, if_neg hskip, h]

/-- A search that does not come upon a line that is no text counts all that it passes. -/
theorem nextLine_counts (htext : (nextLine position c).1 ≠ .error .notText) :
    (nextLine position c).2.2.offset + position = c.offset + (nextLine position c).2.1 := by
  fun_induction nextLine position c with
  | case1 => rfl
  | case2 => exact absurd rfl htext
  | case3 position c b bs hrest line after cs hdecode text' hskip ih =>
    have hnext : after.offset = c.offset + line.length := rfl
    have hlater := ih htext
    omega
  | case4 position c b bs hrest line after cs hdecode text' hdata =>
    have hnext : after.offset = c.offset + line.length := rfl
    simp only
    omega

/-- A search that does leaves that line uncounted. -/
theorem nextLine_strays (hlost : (nextLine position c).1 = .error .notText) :
    c.offset + (nextLine position c).2.1 < (nextLine position c).2.2.offset + position := by
  fun_induction nextLine position c with
  | case1 => simp at hlost
  | case2 position c b bs hrest line after hdecode =>
    have hpos : 0 < line.length := firstLine_length_pos b bs
    have hnext : after.offset = c.offset + line.length := rfl
    simp only
    omega
  | case3 position c b bs hrest line after cs hdecode text' hskip ih =>
    have hnext : after.offset = c.offset + line.length := rfl
    have hlater := ih hlost
    omega
  | case4 => simp at hlost

end

/-! ### Readers in place -/

/-- A reader of a file with these bytes. Its position is not past the place that is read next. -/
structure Placed (content : List UInt8) (layout : TextLayout) (s : LineSource) : Prop where
  steady : s.cursor.Together content s.cursor
  layout : s.layout = layout
  behind : s.position ≤ s.cursor.offset

variable {content : List UInt8} {layout : TextLayout} {s : LineSource}

theorem Placed.offset_eq (h : s.Placed content layout) : s.cursor.offset = s.position + s.lag := by
  have := h.behind
  rw [lag]
  omega

theorem placed_new (content : List UInt8) (layout : TextLayout) : (new content layout).Placed content layout :=
  ⟨⟨⟨rfl, rfl⟩, rfl, rfl, rfl⟩, rfl, Nat.le_refl 0⟩

theorem Placed.seek (h : s.Placed content layout) (offset : Nat) : (s.seek offset).Placed content layout :=
  ⟨Cursor.together_seek h.steady.contents.1 offset, h.layout, Nat.le_refl offset⟩

@[simp] theorem lag_seek (s : LineSource) (offset : Nat) : (s.seek offset).lag = 0 := Nat.sub_self offset

theorem Placed.readLine (h : s.Placed content layout) :
    s.readLine.2.Placed content layout ∧
      (s.readLine.1 ≠ .error .notText → s.readLine.2.lag = s.lag) ∧
      (s.readLine.1 = .error .notText → s.lag < s.readLine.2.lag) := by
  have hsteady := (nextLine_together s.position h.steady).2.2
  have hbehind := h.behind
  by_cases hlost : (nextLine s.position s.cursor).1 = .error .notText
  · have hlater := nextLine_strays hlost
    refine ⟨⟨hsteady, h.layout, ?_⟩, absurd hlost, fun _ => ?_⟩
    · simp only [LineSource.readLine]
      omega
    · simp only [LineSource.readLine, lag]
      omega
  · have hlater := nextLine_counts hlost
    refine ⟨⟨hsteady, h.layout, ?_⟩, fun _ => ?_, fun hl => absurd hl hlost⟩
    · simp only [LineSource.readLine]
      omega
    · simp only [LineSource.readLine, lag]
      omega

theorem Placed.respond (h : s.Placed content layout) (c : Call) : (s.respond c).2.Placed content layout := by
  cases c with
  | line => exact h.readLine.1
  | record => simpa [LineSource.respond, read_snd] using h.readLine.1
  | seek offset => exact h.seek offset

theorem Placed.after (h : s.Placed content layout) (calls : List Call) :
    (s.after calls).Placed content layout := by
  induction calls with
  | nil => exact h
  | cons c earlier ih => exact ih.respond c

/-- The position lags behind exactly from a line that is no text to the next leap. -/
theorem Placed.lag_after (h : s.Placed content layout) (hnew : s.lag = 0) (calls : List Call) :
    0 < (s.after calls).lag ↔ s.Strayed calls := by
  -- a reading keeps the lag or adds to it, and only a leap takes it back
  induction calls with
  | nil => simp [LineSource.after, hnew, Strayed]
  | cons c earlier ih =>
    have hread : 0 < (s.after earlier).readLine.2.lag ↔
        (s.after earlier).readLine.1 = .error .notText ∨ s.Strayed earlier := by
      have hstep := (h.after earlier).readLine.2
      by_cases hlost : (s.after earlier).readLine.1 = .error .notText
      · have := hstep.2 hlost
        simp only [hlost, true_or, iff_true]
        omega
      · simp only [hlost, false_or, hstep.1 hlost, ih]
    cases c with
    | line => exact hread
    | record => simpa [LineSource.after, LineSource.respond, read_snd, Strayed] using hread
    | seek offset => simp [LineSource.after, LineSource.respond, Strayed]

/-! ### Finding again -/

theorem read_ok_iff {offset : Nat} {r : Record} :
    s.read.1 = .ok (some (offset, r)) ↔ ∃ text t, s.readLine.1 = .ok (some (offset, text)) ∧
      s.layout.readLine text = .ok t ∧ r = .text t := by
  rw [read]
  split
  · rename_i e he
    simp [he]
  · rename_i hnone
    simp [hnone]
  · rename_i at' line hline
    simp only [hline, Except.ok.injEq, Option.some.injEq, Prod.mk.injEq]
    cases ht : s.layout.readLine line with
    | error e =>
      simp only [Except.map, reduceCtorEq, false_iff]
      rintro ⟨text, t, ⟨rfl, rfl⟩, hread, rfl⟩
      simp [ht] at hread
    | ok t =>
      simp only [Except.map, Except.ok.injEq, Option.some.injEq, Prod.mk.injEq]
      constructor
      · rintro ⟨rfl, rfl⟩
        exact ⟨line, t, ⟨rfl, rfl⟩, ht, rfl⟩
      · rintro ⟨text, t', ⟨rfl, rfl⟩, hread, rfl⟩
        rw [ht] at hread
        cases hread
        exact ⟨rfl, rfl⟩

theorem finds_line_iff {c : Call} {offset : Nat} {text : String} :
    (s.respond c).1.found? = some (.line offset text) ↔
      c = .line ∧ s.readLine.1 = .ok (some (offset, text)) := by
  cases c with
  | line =>
    simp only [LineSource.respond, Reply.found?, true_and]
    split <;> simp_all
  | record =>
    simp only [LineSource.respond, Reply.found?]
    split <;> simp_all
  | seek => simp [LineSource.respond, Reply.found?]

theorem finds_record_iff {c : Call} {offset : Nat} {r : Record} :
    (s.respond c).1.found? = some (.record offset r) ↔
      c = .record ∧ s.read.1 = .ok (some (offset, r)) := by
  cases c with
  | line =>
    simp only [LineSource.respond, Reply.found?]
    split <;> simp_all
  | record =>
    simp only [LineSource.respond, Reply.found?, true_and]
    split <;> simp_all
  | seek => simp [LineSource.respond, Reply.found?]

/-- What a call finds stands in the file, as far behind its offset as the reader lags. -/
theorem Placed.stands (h : s.Placed content layout) {c : Call} {found : Found}
    (hfound : (s.respond c).1.found? = some found) :
    c = found.call ∧ (found.shift s.lag).StandsIn content layout := by
  cases found with
  | line offset text =>
    rcases finds_line_iff.mp hfound with ⟨rfl, hline⟩
    exact ⟨rfl, lineAt?_of_nextLine h.steady h.offset_eq hline⟩
  | record offset r =>
    rcases finds_record_iff.mp hfound with ⟨rfl, hread⟩
    rcases read_ok_iff.mp hread with ⟨text, t, hline, ht, rfl⟩
    rw [h.layout] at ht
    exact ⟨rfl, text, t, lineAt?_of_nextLine h.steady h.offset_eq hline, ht, rfl⟩

/-- A new reader finds a line or record exactly where it stands. -/
theorem findsAt_iff (found : Found) :
    findsAt content layout found.offset found.call = some found ↔ found.StandsIn content layout := by
  have hplaced := (placed_new content layout).seek found.offset
  constructor
  · intro hfinds
    simpa using (hplaced.stands hfinds).2
  · intro hstands
    cases found with
    | line offset text =>
      have hline := nextLine_of_lineAt? hplaced.steady.rest.1 hstands
      exact finds_line_iff.mpr ⟨rfl, hline⟩
    | record offset r =>
      rcases hstands with ⟨text, t, hline, ht, rfl⟩
      have hline := nextLine_of_lineAt? hplaced.steady.rest.1 hline
      exact finds_record_iff.mpr ⟨rfl, read_ok_iff.mpr ⟨text, t, hline, ht, rfl⟩⟩

/-- What a call finds after any run of calls is found again by a new reader as far behind the offset it is told
with as the position lags. It is found at that offset itself exactly if the run has not come upon a line that is
no text since its last leap, or the same line or record happens to stand there too. -/
theorem found_again (content : List UInt8) (layout : TextLayout) (calls : List Call) (c : Call) (found : Found)
    (h : (((new content layout).after calls).respond c).1.found? = some found) :
    let lag := ((new content layout).after calls).lag
    findsAt content layout (found.offset + lag) c = some (found.shift lag) ∧
      (0 < lag ↔ (new content layout).Strayed calls) ∧
      (findsAt content layout found.offset c = some found ↔
        ¬ (new content layout).Strayed calls ∨ found.StandsIn content layout) := by
  intro lag
  have hnew := placed_new content layout
  have hlag : 0 < lag ↔ (new content layout).Strayed calls := hnew.lag_after rfl calls
  rcases (hnew.after calls).stands h with ⟨rfl, hstands⟩
  refine ⟨?_, hlag, ?_⟩
  · simpa using (findsAt_iff (found.shift lag)).mpr hstands
  · rw [findsAt_iff, or_iff_right_of_imp]
    intro hcounted
    have hzero : lag = 0 := by
      have := mt hlag.mp hcounted
      omega
    simpa [lag, hzero] using hstands

/-- A line that is no text, and the line `A` behind it at the offset 2. -/
def oddLine : List UInt8 := [0xFF, 0x0A, 0x41, 0x0A]

/-- The second call tells `A` with the offset 0. -/
theorem respond_oddLine :
    (((new oddLine {}).after [.line]).respond .line).1.found? = some (.line 0 "A") := by
  have hread : ((new oddLine {}).after [.line]).readLine.1.toOption = some (some (0, "A")) := by
    decide +kernel
  refine finds_line_iff.mpr ⟨rfl, ?_⟩
  cases hanswer : ((new oddLine {}).after [.line]).readLine.1 with
  | error e => simp [hanswer, Except.toOption] at hread
  | ok found => simpa [hanswer, Except.toOption] using hread

theorem lineAt?_oddLine : lineAt? oddLine 0 = none := by decide +kernel

theorem found_again_oddLine :
    findsAt oddLine {} 2 .line = some (.line 2 "A") ∧ findsAt oddLine {} 0 .line ≠ some (.line 0 "A") := by
  obtain ⟨hlater, hstrayed, hhere⟩ := found_again oddLine {} [.line] .line (.line 0 "A") respond_oddLine
  have hlag : ((new oddLine {}).after [.line]).lag = 2 := by decide +kernel
  rw [hlag] at hlater hstrayed
  refine ⟨hlater, fun hfinds => ?_⟩
  rcases hhere.mp hfinds with hcounted | hstands
  · exact hcounted (hstrayed.mp Nat.two_pos)
  · have hline : lineAt? oddLine 0 = some "A" := hstands
    simp [lineAt?_oddLine] at hline

/-- A line is told with an offset at which a new reader does not find it. -/
theorem not_always_found_again :
    ¬ ∀ (content : List UInt8) (layout : TextLayout) (calls : List Call) (c : Call) (found : Found),
      (((new content layout).after calls).respond c).1.found? = some found →
      findsAt content layout found.offset c = some found := by
  intro h
  have hfinds := h oddLine {} [.line] .line (.line 0 "A") respond_oddLine
  have hline : lineAt? oddLine 0 = some "A" := (findsAt_iff (.line 0 "A")).mp hfinds
  simp [lineAt?_oddLine] at hline

end SciArchive.LineSource
