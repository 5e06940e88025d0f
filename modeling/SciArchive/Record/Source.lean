import SciArchive.Files.Cursor
import SciArchive.Record.Basic

/-! Readers that take one record after another out of a file's bytes and tell where each began. -/
namespace SciArchive

/-- A reader of lines. It reports `position` as its offset. -/
structure LineSource where
  cursor : Cursor
  layout : TextLayout
  position : Nat

namespace LineSource

def new (content : List UInt8) (layout : TextLayout) : LineSource := ⟨.new content, layout, 0⟩

def seek (s : LineSource) (offset : Nat) : LineSource :=
  { s with cursor := s.cursor.seek offset, position := offset }

def refresh (s : LineSource) (content : List UInt8) : LineSource :=
  { s with cursor := s.cursor.refresh content }

/-- The bytes of the first line with its line feed. -/
def firstLine : List UInt8 → List UInt8
  | [] => []
  | b :: bs => if b = 0x0A then [b] else b :: firstLine bs

def withoutLineEnd (line : List Char) : List Char := Text.dropEnd (fun c => c == '\n' || c == '\r') line

/-- Comments begin with a number sign. -/
def isSkipped (line : List Char) : Bool := line.head? == some '#' || Text.isAllBlank line

theorem firstLine_length_pos (b : UInt8) (bs : List UInt8) : 0 < (firstLine (b :: bs)).length := by
  unfold firstLine
  split <;> simp

/-- The next line of data with its offset; then the new position and where the cursor stands. A line
that is no text is passed over, but the position stays. -/
def nextLine (position : Nat) (c : Cursor) :
    Except Fault (Option (Nat × String)) × Nat × Cursor :=
  match _rest : c.rest with
  | [] => (.ok none, position, c)
  | b :: bs =>
    let line := firstLine (b :: bs)
    let after := c.passLine line.length
    match Utf8.decode? line with
    | none => (.error .notText, position, after)
    | some cs =>
      let text := withoutLineEnd cs
      if isSkipped text then nextLine (position + line.length) after
      else (.ok (some (position, String.ofList text)), position + line.length, after)
termination_by c.rest.length
decreasing_by
  have := firstLine_length_pos b bs
  simp only [Cursor.passLine_rest, _rest, List.length_drop, List.length_cons] at *
  omega

theorem nextLine_length (position : Nat) (c : Cursor) {found : Nat × String}
    (h : (nextLine position c).1 = .ok (some found)) :
    (nextLine position c).2.2.rest.length < c.rest.length := by
  fun_induction nextLine position c with
  | case1 => simp at h
  | case2 => simp at h
  | case3 position c b bs hc line after cs _ text _ ih =>
    have shorter := ih h
    have := firstLine_length_pos b bs
    simp only [after, line, Cursor.passLine_rest, hc, List.length_drop, List.length_cons] at *
    omega
  | case4 position c b bs hc line after cs _ text _ =>
    have := firstLine_length_pos b bs
    simp only [after, line, Cursor.passLine_rest, hc, List.length_drop, List.length_cons] at *
    omega

def readLine (s : LineSource) : Except Fault (Option (Nat × String)) × LineSource :=
  let r := nextLine s.position s.cursor
  (r.1, { s with position := r.2.1, cursor := r.2.2 })

def read (s : LineSource) : Except Fault (Option (Nat × Record)) × LineSource :=
  let r := s.readLine
  match r.1 with
  | .error e => (.error e, r.2)
  | .ok none => (.ok none, r.2)
  | .ok (some (offset, line)) =>
    ((s.layout.readLine line).map fun t => some (offset, .text t), r.2)

end LineSource

/-- A reader of binary records side by side. -/
structure FixedSource where
  cursor : Cursor
  layout : RecordLayout
  position : Nat

namespace FixedSource

def new (content : List UInt8) (layout : RecordLayout) : FixedSource := ⟨.new content, layout, 0⟩

def seek (s : FixedSource) (offset : Nat) : FixedSource :=
  { s with cursor := s.cursor.seek offset, position := offset }

def refresh (s : FixedSource) (content : List UInt8) : FixedSource :=
  { s with cursor := s.cursor.refresh content }

/-- The next whole record. Bytes that do not fill one are passed over at the end. -/
def read (s : FixedSource) : Option (Nat × Record) × FixedSource :=
  let r := s.cursor.take s.layout.recordSize
  let after := { s with cursor := r.2, position := s.position + r.1.length }
  if r.1 = [] ∨ r.1.length < s.layout.recordSize then (none, after)
  else (some (s.position, .binary ⟨s.layout, r.1⟩), after)

end FixedSource

/-- How the records of a file are laid out. -/
inductive Layout where
  | text (l : TextLayout)
  | binary (l : RecordLayout)

/-- A folder can be opened, but every reading of it fails. -/
inductive Source where
  | lines (s : LineSource)
  | fixed (s : FixedSource)
  | folder

namespace Source

def ofBytes (content : List UInt8) : Layout → Source
  | .text l => lines (.new content l)
  | .binary l => fixed (.new content l)

def read : Source → Except Fault (Option (Nat × Record)) × Source
  | lines s => (s.read.1, lines s.read.2)
  | fixed s => (.ok s.read.1, fixed s.read.2)
  | folder => (.error (.cannotRead .isDirectory), folder)

def seek (offset : Nat) : Source → Source
  | lines s => lines (s.seek offset)
  | fixed s => fixed (s.seek offset)
  | folder => folder

def refresh (content : List UInt8) : Source → Source
  | lines s => lines (s.refresh content)
  | fixed s => fixed (s.refresh content)
  | folder => folder

def position : Source → Nat
  | lines s => s.position
  | fixed s => s.position
  | folder => 0

/-- The number of bytes not yet read. -/
def left : Source → Nat
  | lines s => s.cursor.rest.length
  | fixed s => s.cursor.rest.length
  | folder => 0

theorem read_left {s : Source} {found : Nat × Record} (h : s.read.1 = .ok (some found)) :
    s.read.2.left < s.left := by
  cases s with
  | lines s =>
    simp only [read, LineSource.read] at h ⊢
    split at h
    · cases h
    · cases h
    · rename_i offset line hline
      simp only [LineSource.readLine] at hline ⊢
      simpa [left, hline] using LineSource.nextLine_length s.position s.cursor hline
  | fixed s =>
    simp only [read, FixedSource.read] at h ⊢
    split at h
    · simp at h
    · rename_i hfull
      rw [if_neg hfull]
      simp only [left, Cursor.take_bytes, Cursor.take_rest, List.length_drop, List.length_take,
        not_or] at hfull ⊢
      have : s.cursor.rest ≠ [] := fun e => hfull.1 (by simp [e])
      have := List.length_pos_iff.mpr this
      have : s.layout.recordSize ≠ 0 := fun e => hfull.1 (by simp [e])
      omega
  | folder => cases h

/-- The next record that `keep` accepts. -/
def readKept (keep : Record → Bool) (s : Source) : Except Fault (Option (Nat × Record)) × Source :=
  match _h : s.read.1 with
  | .error e => (.error e, s.read.2)
  | .ok none => (.ok none, s.read.2)
  | .ok (some (offset, r)) =>
    if keep r then (.ok (some (offset, r)), s.read.2) else readKept keep s.read.2
termination_by s.left
decreasing_by exact read_left _h

theorem readKept_left {keep : Record → Bool} {s : Source} {found : Nat × Record}
    (h : (s.readKept keep).1 = .ok (some found)) : (s.readKept keep).2.left < s.left := by
  fun_induction readKept keep s with
  | case1 => simp at h
  | case2 => simp at h
  | case3 s offset r hr _ => exact read_left hr
  | case4 s offset r hr _ ih => exact Nat.lt_trans (ih h) (read_left hr)

end Source
end SciArchive
