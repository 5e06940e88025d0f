import SciArchive.DataType
import SciArchive.Number.Shortest

/-! Typed values of attributes and record fields. Floating-point values are kept as their words, so that
a value is compared as a number by `same` and as stored data by `=`. -/
namespace SciArchive

inductive Value where
  | byte (v : Int8) | ubyte (v : UInt8)
  | short (v : Int16) | ushort (v : UInt16)
  | int (v : Int32) | uint (v : UInt32)
  | long (v : Int64) | ulong (v : UInt64)
  | float (bits : UInt32) | double (bits : UInt64)
  | char (c : Char)
  | text (s : String)
  | array (items : List Value)
  deriving Repr, Inhabited

namespace Value

/-- An array has the type of its first element, an empty one that of doubles. -/
def dataType : Value → DataType
  | byte _ => .byte | ubyte _ => .ubyte
  | short _ => .short | ushort _ => .ushort
  | int _ => .int | uint _ => .uint
  | long _ => .long | ulong _ => .ulong
  | float _ => .float | double _ => .double
  | char _ => .char
  | text _ => .string
  | array [] => .double
  | array (v :: _) => v.dataType

/-- The number of an integer value. -/
def whole? : Value → Option Int
  | byte v => some v.toInt | ubyte v => some v.toNat
  | short v => some v.toInt | ushort v => some v.toNat
  | int v => some v.toInt | uint v => some v.toNat
  | long v => some v.toInt | ulong v => some v.toNat
  | _ => none

/-- The number of an integer value if a signed 64-bit word holds it. -/
def toInteger? (v : Value) : Option Int := v.whole?.filter (· ≤ Int64.maxValue.toInt)

/-- The word of the double nearest to a numeric value. -/
def toDouble? : Value → Option UInt64
  | float bits =>
    some (UInt64.ofNat (FloatFormat.single.convert .double bits.toNat))
  | double bits => some bits
  | v => v.whole?.map fun n => UInt64.ofNat (FloatFormat.double.ofInt n)

def toText? : Value → Option String
  | text s => some s
  | _ => none

def isText : Value → Bool
  | text _ => true
  | _ => false

/-- The items of an array; any other value is its own single element. -/
def elements : Value → List Value
  | array items => items
  | v => [v]

mutual

/-- The text of a value; items of an array are set apart by a comma and a space. -/
def render : Value → String
  | byte v => toString v.toInt
  | ubyte v => toString v.toNat
  | short v => toString v.toInt
  | ushort v => toString v.toNat
  | int v => toString v.toInt
  | uint v => toString v.toNat
  | long v => toString v.toInt
  | ulong v => toString v.toNat
  | float bits => FloatFormat.single.text bits.toNat
  | double bits => FloatFormat.double.text bits.toNat
  | char c => String.singleton c
  | text s => s
  | array items => String.intercalate ", " (renderAll items)

def renderAll : List Value → List String
  | [] => []
  | v :: vs => v.render :: renderAll vs

end

mutual

/-- Equal types and equal numbers, characters, texts or items. No NaN is the same as any value. -/
def same : Value → Value → Bool
  | byte a, byte b => a == b
  | ubyte a, ubyte b => a == b
  | short a, short b => a == b
  | ushort a, ushort b => a == b
  | int a, int b => a == b
  | uint a, uint b => a == b
  | long a, long b => a == b
  | ulong a, ulong b => a == b
  | float a, float b => FloatFormat.single.same a.toNat b.toNat
  | double a, double b => FloatFormat.double.same a.toNat b.toNat
  | char a, char b => a == b
  | text a, text b => a == b
  | array as, array bs => sameAll as bs
  | _, _ => false

def sameAll : List Value → List Value → Bool
  | [], [] => true
  | a :: as, b :: bs => a.same b && sameAll as bs
  | _, _ => false

end

@[simp] theorem elements_array (items : List Value) : (array items).elements = items := rfl

end Value
end SciArchive
