import SciArchive.Fault
import SciArchive.Value
import SciArchive.Number.Decimal
import SciArchive.Text.Blank

/-! Lines of text whose fields stand in fixed columns. Columns are counted in characters; a field may
repeat at a stride, and further fields may be computed from those read. -/
namespace SciArchive

inductive ColumnKind where
  | long | int | float | double | char | text
  deriving DecidableEq, Repr, Inhabited

namespace ColumnKind

def dataType : ColumnKind → DataType
  | long => .long | int => .int
  | float => .float | double => .double
  | char => .char | text => .string

/-- The letter behind the end of a column in a compact layout; text has none. -/
def ofLetters? : List Char → Option ColumnKind
  | [] => some text
  | ['L'] => some long
  | ['i'] => some int
  | ['f'] => some float
  | ['d'] => some double
  | ['c'] => some char
  | _ => none

/-- The value of the characters of a column. Numbers and texts lose the blanks around them; a
character is the first of the column, a blank if there is none. -/
def read? (raw : List Char) : ColumnKind → Option Value
  | long => (Text.integer? 64 (Text.trim raw)).map fun n => .long (Int64.ofInt n)
  | int => (Text.integer? 32 (Text.trim raw)).map fun n => .int (Int32.ofInt n)
  | float => (FloatFormat.single.ofText? (Text.trim raw)).map fun w => .float (UInt32.ofNat w)
  | double => (FloatFormat.double.ofText? (Text.trim raw)).map fun w => .double (UInt64.ofNat w)
  | char => some (.char (raw.headD ' '))
  | text => some (.text (String.ofList (Text.trim raw)))

end ColumnKind

/-- A field at the characters from `start` up to `stop`, repeated as often as `copies` says. -/
structure Column where
  name : String
  kind : ColumnKind
  start : Nat
  stop : Nat
  copies : Option (Nat × Nat) := none
  deriving DecidableEq, Repr, Inhabited

namespace Column

/-- The characters of a line from `start` up to `stop`; a short line has fewer. -/
def slice (line : List Char) (start stop : Nat) : List Char := (line.drop start).take (stop - start)

def cell (c : Column) (line : List Char) (start stop : Nat) : Except Fault Value :=
  let raw := slice line start stop
  match c.kind.read? raw with
  | some v => .ok v
  | none => .error (.unreadable c.name (String.ofList raw))

/-- `n` cells, each `stride` characters behind the one before. Columns are described so that the ends of all their cells
stay within a machine word: how a sum beyond it wraps is not modelled here. -/
def cells (c : Column) (line : List Char) (stride : Nat) :
    Nat → Nat → Nat → Except Fault (List Value)
  | 0, _, _ => .ok []
  | n + 1, start, stop =>
    match c.cell line start stop with
    | .error e => .error e
    | .ok v => (c.cells line stride n (start + stride) (stop + stride)).map (v :: ·)

def read (c : Column) (line : List Char) : Except Fault Value :=
  match c.copies with
  | none => c.cell line c.start c.stop
  | some (count, stride) => (c.cells line stride count c.start c.stop).map .array

end Column

/-- A field computed from the value of the column numbered `source`. -/
structure DerivedField where
  name : String
  source : Nat
  compute : Value → Except Fault Value

structure TextLayout where
  columns : List Column := []
  derived : List DerivedField := []

/-- The named values of one line. -/
structure TextRecord where
  fields : List (String × Value)
  deriving Inhabited

namespace TextLayout

def names (l : TextLayout) : List String := l.columns.map Column.name ++ l.derived.map DerivedField.name

def column? (l : TextLayout) (name : String) : Option Column := l.columns.find? fun c => c.name = name

/-- A column that is not empty, under a new name. -/
def addColumn (l : TextLayout) (name : String) (kind : ColumnKind) (start stop : Nat) :
    Except Fault TextLayout :=
  if stop ≤ start then .error (.invalidLayout (.emptyRange name start stop))
  else if name ∈ l.names then .error (.invalidLayout (.duplicateField name))
  else .ok { l with columns := l.columns ++ [⟨name, kind, start, stop, none⟩] }

/-- Let a column be read `count` times, each `stride` characters on. -/
def repeatColumn (l : TextLayout) (name : String) (count stride : Nat) : Except Fault TextLayout :=
  if count = 0 ∨ stride = 0 then .error (.invalidLayout (.repetition name))
  else if (l.column? name).isNone then .error (.fieldNotFound name)
  else
    .ok { l with columns := l.columns.map fun c =>
      if c.name = name then { c with copies := some (count, stride) } else c }

def derive (l : TextLayout) (name source : String) (compute : Value → Except Fault Value) :
    Except Fault TextLayout :=
  if name ∈ l.names then .error (.invalidLayout (.duplicateField name))
  else
    match l.columns.findIdx? fun c => c.name = source with
    | none => .error (.fieldNotFound source)
    | some i => .ok { l with derived := l.derived ++ [⟨name, i, compute⟩] }

/-! ### Compact layouts -/

/-- The end of a column and its kind: digits, then at most a letter. -/
def token (word : List Char) : Except Fault (Nat × ColumnKind) :=
  match Text.natural? (word.takeWhile Char.isDigit) with
  | none => .error (.invalidLayout (.columnEnd (String.ofList word)))
  | some stop =>
    match ColumnKind.ofLetters? (word.dropWhile Char.isDigit) with
    | none => .error (.invalidLayout (.columnKind (String.ofList word)))
    | some kind => .ok (stop, kind)

/-- Add columns that follow each other from `start` on. -/
def addTokens (l : TextLayout) (start : Nat) : List (List Char × String) → Except Fault TextLayout
  | [] => .ok l
  | (word, name) :: rest =>
    match token word with
    | .error e => .error e
    | .ok (stop, kind) =>
      match l.addColumn name kind start stop with
      | .error e => .error e
      | .ok l => l.addTokens stop rest

/-- Read a compact layout such as `11L,15i,19`: ends of columns that follow each other, each with the
letter of its kind, for fields named in order. -/
def ofCompact (layout : String) (names : List String) : Except Fault TextLayout :=
  let words := (layout.toList.splitOn ',').map Text.trim
  if words.length ≠ names.length then
    .error (.invalidLayout (.columnCount layout words.length names.length))
  else addTokens {} 0 (words.zip names)

/-! ### Reading lines -/

/-- One column of a line, without the rest of it. -/
def readField (l : TextLayout) (line name : String) : Except Fault Value :=
  match l.column? name with
  | none => .error (.fieldNotFound name)
  | some c => c.read line.toList

def computeField (values : List Value) (d : DerivedField) : Except Fault Value :=
  match values[d.source]? with
  | some v => d.compute v
  | none => .error (.fieldNotFound d.name)

/-- All columns in order, then the computed fields in order. -/
def readLine (l : TextLayout) (line : String) : Except Fault TextRecord :=
  match l.columns.mapM fun c => c.read line.toList with
  | .error e => .error e
  | .ok values =>
    match l.derived.mapM (computeField values) with
    | .error e => .error e
    | .ok computed => .ok ⟨l.names.zip (values ++ computed)⟩

end TextLayout

namespace TextRecord

def get (r : TextRecord) (name : String) : Except Fault Value :=
  match r.fields.lookup name with
  | some v => .ok v
  | none => .error (.fieldNotFound name)

def names (r : TextRecord) : List String := r.fields.map Prod.fst

def sameFields : List (String × Value) → List (String × Value) → Bool
  | [], [] => true
  | (n, v) :: fs, (m, w) :: gs => n == m && v.same w && sameFields fs gs
  | _, _ => false

def same (r s : TextRecord) : Bool := sameFields r.fields s.fields

end TextRecord
end SciArchive
