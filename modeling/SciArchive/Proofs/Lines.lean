import SciArchive.Record.Source

/-! What a reader of lines gives from where it stands to the end, and that a leap to the offset of a
line takes it back to that line. -/
namespace SciArchive

/-- The outcome of a reading of which these outcomes are to come. -/
def firstOutcome {α : Type} : List (Except Fault α) → Except Fault (Option α)
  | [] => .ok none
  | o :: _ => o.map some

theorem firstOutcome_none {α : Type} {outcomes : List (Except Fault α)}
    (h : firstOutcome outcomes = .ok none) : outcomes = [] := by
  cases outcomes with
  | nil => rfl
  | cons o later => cases o <;> cases h

theorem firstOutcome_some {α : Type} {outcomes : List (Except Fault α)} {found : α}
    (h : firstOutcome outcomes = .ok (some found)) : outcomes = .ok found :: outcomes.tail := by
  cases outcomes with
  | nil => cases h
  | cons o later =>
    cases o with
    | error e => cases h
    | ok first => cases h; rfl

namespace LineSource

/-! ### Lines -/

/-- The lines of data in bytes, each with its offset. A line that is no text fails, and the position
stays. -/
def linesOf (position : Nat) (bytes : List UInt8) : List (Except Fault (Nat × String)) :=
  match bytes with
  | [] => []
  | b :: bs =>
    let line := firstLine (b :: bs)
    let after := (b :: bs).drop line.length
    match Utf8.decode? line with
    | none => .error .notText :: linesOf position after
    | some cs =>
      let text := withoutLineEnd cs
      if isSkipped text then linesOf (position + line.length) after
      else .ok (position, String.ofList text) :: linesOf (position + line.length) after
termination_by bytes.length
decreasing_by
  all_goals
    have := firstLine_length_pos b bs
    simp only [List.length_drop, List.length_cons] at *
    omega

@[simp] theorem linesOf_nil (position : Nat) : linesOf position [] = [] := by rw [linesOf]

section
variable {position : Nat} {b : UInt8} {bs : List UInt8}

theorem linesOf_notText (h : Utf8.decode? (firstLine (b :: bs)) = none) :
    linesOf position (b :: bs) =
      .error .notText :: linesOf position ((b :: bs).drop (firstLine (b :: bs)).length) := by
  rw [linesOf]
  simp only [h]

theorem linesOf_skipped {cs : List Char} (h : Utf8.decode? (firstLine (b :: bs)) = some cs)
    (hskip : isSkipped (withoutLineEnd cs) = true) :
    linesOf position (b :: bs) = linesOf (position + (firstLine (b :: bs)).length)
      ((b :: bs).drop (firstLine (b :: bs)).length) := by
  rw [linesOf]
  simp only [h, hskip, if_true]

theorem linesOf_data {cs : List Char} (h : Utf8.decode? (firstLine (b :: bs)) = some cs)
    (hskip : ¬ isSkipped (withoutLineEnd cs) = true) :
    linesOf position (b :: bs) = .ok (position, String.ofList (withoutLineEnd cs)) ::
      linesOf (position + (firstLine (b :: bs)).length)
        ((b :: bs).drop (firstLine (b :: bs)).length) := by
  rw [linesOf]
  simp only [h, hskip]
  rfl

end

/-- A reading gives the first of the lines and leaves the others. -/
theorem nextLine_spec (position : Nat) (c : Cursor) :
    (nextLine position c).1 = firstOutcome (linesOf position c.rest) ∧
      linesOf (nextLine position c).2.1 (nextLine position c).2.2.rest =
        (linesOf position c.rest).tail ∧
      (nextLine position c).2.2.content = c.content := by
  fun_induction nextLine position c with
  | case1 position c hc => simp [hc, firstOutcome]
  | case2 position c b bs hc line after hnone =>
    have hafter : after.rest = (b :: bs).drop line.length := by rw [Cursor.passLine_rest, hc]
    rw [hc, linesOf_notText hnone]
    exact ⟨rfl, by rw [hafter]; rfl, rfl⟩
  | case3 position c b bs hc line after cs hcs text hskip ih =>
    have hafter : after.rest = (b :: bs).drop line.length := by rw [Cursor.passLine_rest, hc]
    rw [hafter] at ih
    rw [hc, linesOf_skipped hcs hskip]
    exact ih
  | case4 position c b bs hc line after cs hcs text hskip =>
    have hafter : after.rest = (b :: bs).drop line.length := by rw [Cursor.passLine_rest, hc]
    rw [hc, linesOf_data hcs hskip]
    exact ⟨rfl, by rw [hafter]; rfl, rfl⟩

theorem length_linesOf_le (position : Nat) (bytes : List UInt8) :
    (linesOf position bytes).length ≤ bytes.length := by
  fun_induction linesOf position bytes with
  | case1 => exact Nat.le_refl 0
  | case2 position b bs line after hnone ih =>
    have hpos := firstLine_length_pos b bs
    simp only [after, line, List.length_drop, List.length_cons] at ih ⊢
    omega
  | case3 position b bs line after cs hcs text hskip ih =>
    have hpos := firstLine_length_pos b bs
    simp only [after, line, List.length_drop, List.length_cons] at ih ⊢
    omega
  | case4 position b bs line after cs hcs text hskip ih =>
    have hpos := firstLine_length_pos b bs
    simp only [after, line, List.length_drop, List.length_cons] at ih ⊢
    omega

/-- From the offset of a line that readings without failure come to, reading begins with that line. -/
theorem linesOf_drop {position offset : Nat} {bytes : List UInt8} {text : String}
    {before : List (Nat × String)} {later : List (Except Fault (Nat × String))}
    (h : linesOf position bytes = before.map .ok ++ .ok (offset, text) :: later) :
    position ≤ offset ∧ offset < position + bytes.length ∧
      linesOf offset (bytes.drop (offset - position)) = .ok (offset, text) :: later := by
  fun_induction linesOf position bytes generalizing before with
  | case1 => simp at h
  | case2 position b bs line after hnone =>
    cases before with
    | nil => cases h
    | cons x before => cases h
  | case3 position b bs line after cs hcs text' hskip =>
    rename_i ih
    have hpos := firstLine_length_pos b bs
    obtain ⟨hge, hlt, htail⟩ := ih h
    have hdrop : after.drop (offset - (position + line.length)) =
        (b :: bs).drop (offset - position) := by
      rw [List.drop_drop]
      congr 1
      omega
    simp only [after, line, List.length_drop] at hge hlt
    exact ⟨by omega, by omega, by rw [← hdrop]; exact htail⟩
  | case4 position b bs line after cs hcs text' hskip =>
    rename_i ih
    have hpos := firstLine_length_pos b bs
    cases before with
    | nil =>
      simp only [List.map_nil, List.nil_append, List.cons.injEq, Except.ok.injEq, Prod.mk.injEq] at h
      obtain ⟨⟨rfl, rfl⟩, rfl⟩ := h
      refine ⟨Nat.le_refl _, by simp, ?_⟩
      rw [Nat.sub_self, List.drop_zero, linesOf_data hcs hskip]
    | cons x before =>
      obtain ⟨hge, hlt, htail⟩ := ih (List.cons.inj h).2
      have hdrop : after.drop (offset - (position + line.length)) =
          (b :: bs).drop (offset - position) := by
        rw [List.drop_drop]
        congr 1
        omega
      simp only [after, line, List.length_drop] at hge hlt
      exact ⟨by omega, by omega, by rw [← hdrop]; exact htail⟩

/-! ### Sources -/

/-- The lines that a source still gives. -/
def lines (s : LineSource) : List (Except Fault (Nat × String)) := linesOf s.position s.cursor.rest

/-- What a record is read as. -/
def parse (layout : TextLayout) (line : Nat × String) : Except Fault (Nat × Record) :=
  (layout.readLine line.2).map fun t => (line.1, .text t)

/-- The records that a source still gives, and its failures. -/
def toCome (s : LineSource) : List (Except Fault (Nat × Record)) :=
  s.lines.map fun line => line.bind (parse s.layout)

@[simp] theorem readLine_layout (s : LineSource) : s.readLine.2.layout = s.layout := rfl

theorem readLine_spec (s : LineSource) :
    s.readLine.1 = firstOutcome s.lines ∧ s.readLine.2.lines = s.lines.tail ∧
      s.readLine.2.cursor.content = s.cursor.content :=
  nextLine_spec s.position s.cursor

/-- Taking a record gives the first of those to come and leaves the others. -/
theorem read_spec (s : LineSource) :
    s.read.1 = firstOutcome s.toCome ∧ s.read.2.toCome = s.toCome.tail ∧
      s.read.2.layout = s.layout ∧ s.read.2.cursor.content = s.cursor.content := by
  obtain ⟨hline, hlines, hcontent⟩ := s.readLine_spec
  have htail : s.readLine.2.toCome = s.toCome.tail := by
    rw [toCome, hlines, readLine_layout, toCome, List.map_tail]
  have hafter : s.read.2 = s.readLine.2 := by
    rw [read]
    split <;> rfl
  refine ⟨?_, by rw [hafter, htail], by rw [hafter, readLine_layout], by rw [hafter, hcontent]⟩
  rw [read, hline, toCome]
  cases s.lines with
  | nil => rfl
  | cons line later =>
    cases line with
    | error e => rfl
    | ok found =>
      simp only [firstOutcome, List.map_cons, Except.map, Except.bind, parse]
      cases s.layout.readLine found.2 <;> rfl

/-- The records of a file from an offset on, and its failures. -/
def recordsFrom (layout : TextLayout) (content : List UInt8) (offset : Nat) :
    List (Except Fault (Nat × Record)) :=
  (linesOf offset (content.drop offset)).map fun line => line.bind (parse layout)

@[simp] theorem toCome_new (content : List UInt8) (layout : TextLayout) :
    (new content layout).toCome = recordsFrom layout content 0 := rfl

@[simp] theorem toCome_seek (s : LineSource) (offset : Nat) :
    (s.seek offset).toCome = recordsFrom s.layout s.cursor.content offset := rfl

theorem length_recordsFrom_le (layout : TextLayout) (content : List UInt8) :
    (recordsFrom layout content 0).length ≤ content.length := by
  rw [recordsFrom, List.length_map]
  exact length_linesOf_le 0 content

/-- From the offset of a line that readings without failure come to, reading begins with that
record. -/
theorem recordsFrom_leap (layout : TextLayout) {content : List UInt8} {before : List (Nat × String)}
    {line : Nat × String} {later : List (Except Fault (Nat × String))}
    (h : linesOf 0 content = before.map .ok ++ .ok line :: later) :
    line.1 < content.length ∧
      recordsFrom layout content line.1 =
        parse layout line :: later.map fun line => line.bind (parse layout) := by
  obtain ⟨-, hlt, hleap⟩ := linesOf_drop h
  rw [Nat.sub_zero] at hleap
  refine ⟨by rwa [Nat.zero_add] at hlt, ?_⟩
  rw [recordsFrom, hleap]
  rfl

theorem offset_of_parse {layout : TextLayout} {line : Nat × String} {r : Nat × Record}
    (h : parse layout line = .ok r) : line.1 = r.1 := by
  rw [parse] at h
  cases ht : layout.readLine line.2 with
  | error e => simp [ht, Except.map] at h
  | ok t =>
    rw [ht] at h
    cases h
    rfl

/-- Records that come without failure are read in lines that come without failure. -/
theorem exists_lines {layout : TextLayout} {outcomes : List (Except Fault (Nat × String))}
    {records : List (Nat × Record)}
    (h : (outcomes.map fun line => line.bind (parse layout)) = records.map .ok) :
    ∃ lines : List (Nat × String), outcomes = lines.map .ok ∧
    lines.map (parse layout) = records.map .ok := by
  induction outcomes generalizing records with
  | nil => exact ⟨[], rfl, h⟩
  | cons o outcomes ih =>
    cases records with
    | nil => cases h
    | cons r records =>
      obtain ⟨hfirst, hrest⟩ := List.cons.inj h
      obtain ⟨lines, rfl, hlines⟩ := ih hrest
      cases o with
      | error e => cases hfirst
      | ok line => exact ⟨line :: lines, rfl,
        by rw [List.map_cons, hlines]; exact congrArg (· :: _) hfirst⟩

/-- From the offset of a record of a file without failures, reading begins with that record. -/
theorem recordsFrom_record {layout : TextLayout} {content : List UInt8}
    {before after : List (Nat × Record)}
    {r : Nat × Record} (h : recordsFrom layout content 0 = (before ++ r :: after).map .ok) :
    r.1 < content.length ∧ recordsFrom layout content r.1 = (r :: after).map .ok := by
  obtain ⟨lines, houtcomes, hlines⟩ := exists_lines h
  rw [List.drop_zero] at houtcomes
  rw [List.map_append] at hlines
  obtain ⟨earlier, others, rfl, -, hothers⟩ := List.map_eq_append_iff.mp hlines
  obtain ⟨line, later, rfl, hline, hlater⟩ := List.map_eq_cons_iff.mp hothers
  rw [List.map_append, List.map_cons] at houtcomes
  obtain ⟨hlt, hleap⟩ := recordsFrom_leap layout houtcomes
  rw [offset_of_parse hline] at hlt hleap
  refine ⟨hlt, ?_⟩
  rw [hleap, hline, List.map_map, List.map_cons, ← hlater]
  rfl

end LineSource
end SciArchive
