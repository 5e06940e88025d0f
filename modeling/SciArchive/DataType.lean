/-! Element types of stored data: their width in bytes, their class and their printed names. -/
namespace SciArchive

inductive DataType where
  | byte | ubyte | short | ushort | int | uint | long | ulong
  | float | double
  | char | string
  | struct | sequence
  deriving DecidableEq, Repr, Inhabited

namespace DataType

/-- Bytes of one element; text and compound types have no fixed size. -/
def size : DataType → Option Nat
  | byte | ubyte | char => some 1
  | short | ushort => some 2
  | int | uint | float => some 4
  | long | ulong | double => some 8
  | string | struct | sequence => none

def isNumeric : DataType → Bool
  | char | string | struct | sequence => false
  | _ => true

/-- Structures and sequences hold member variables. -/
def isCompound : DataType → Bool
  | struct | sequence => true
  | _ => false

def name : DataType → String
  | byte => "byte" | ubyte => "ubyte"
  | short => "short" | ushort => "ushort"
  | int => "int" | uint => "uint"
  | long => "long" | ulong => "ulong"
  | float => "float" | double => "double"
  | char => "char" | string => "string"
  | struct => "structure" | sequence => "sequence"

def all : List DataType :=
  [byte, ubyte, short, ushort, int, uint, long, ulong, float, double, char, string, struct, sequence]

def ofName? (text : String) : Option DataType :=
  all.find? (fun t => t.name = text)

@[simp] theorem ofName?_name (t : DataType) : ofName? t.name = some t := by cases t <;> rfl

end DataType
end SciArchive
