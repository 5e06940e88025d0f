import SciArchive.Record.Columns
import SciArchive.Record.Layout

/-! Records of either kind. -/
namespace SciArchive

inductive Record where
  | binary (r : BinaryRecord)
  | text (r : TextRecord)
  deriving Inhabited

namespace Record

def value : Record → String → Except Fault Value
  | binary r, name => r.value name
  | text r, name => r.get name

def fieldNames : Record → List String
  | binary r => r.layout.fields.map Field.name
  | text r => r.names

/-- The text of a field's value. -/
def key (field : String) (r : Record) : Except Fault String := (r.value field).map Value.render

/-- Whether the field is there and has the text `key`. -/
def hasKey (field key : String) (r : Record) : Bool :=
  match r.key field with
  | .ok found => found == key
  | .error _ => false

def same : Record → Record → Bool
  | binary r, binary s => r == s
  | text r, text s => r.same s
  | _, _ => false

def sameAll : List Record → List Record → Bool
  | [], [] => true
  | r :: rs, s :: ss => r.same s && sameAll rs ss
  | _, _ => false

/-- Names with values on one line; a value that cannot be had is a question mark. -/
def render (r : Record) : String :=
  String.intercalate " " (r.fieldNames.map fun name =>
    match r.value name with
    | .ok v => s!"{name}={v.render}"
    | .error _ => s!"{name}=?")

end Record
end SciArchive
