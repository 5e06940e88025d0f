import SciArchive.Attribute

/-! From stored numbers to physical ones: scale, offset and the stored numbers that mean no data. All
numbers are words of doubles. -/
namespace SciArchive

structure Enhancement where
  scale : UInt64
  offset : UInt64
  missing : List UInt64
  deriving Repr

namespace Enhancement

def one : UInt64 := 0x3FF0000000000000
def zero : UInt64 := 0

def equal (a b : UInt64) : Bool := FloatFormat.double.same a.toNat b.toNat

/-- Changes nothing. -/
def identity : Enhancement := ⟨one, zero, []⟩

/-- Read the attributes `scale_factor`, `add_offset`, `missing_value` and `_FillValue`. -/
def ofAttributes (find? : String → Option Attribute) : Enhancement :=
  let number (name : String) := (find? name).bind Attribute.toDouble?
  let numbers (name : String) :=
    match find? name with
    | none => []
    | some a => a.value.elements.filterMap Value.toDouble?
  { scale := (number "scale_factor").getD one
    offset := (number "add_offset").getD zero
    missing := numbers "missing_value" ++ numbers "_FillValue" }

def isIdentity (e : Enhancement) : Bool := equal e.scale one && equal e.offset zero && e.missing.isEmpty

def isMissing (e : Enhancement) (raw : UInt64) : Bool :=
  FloatFormat.double.isNaN raw.toNat || e.missing.any (equal raw)

/-- The physical number, not a number where data is missing. -/
def apply (e : Enhancement) (raw : UInt64) : UInt64 :=
  if e.isMissing raw then UInt64.ofNat FloatFormat.double.quiet
  else (Float.ofBits raw * Float.ofBits e.scale + Float.ofBits e.offset).toBits

def applyAll (e : Enhancement) (column : List UInt64) : List UInt64 := column.map e.apply

end Enhancement
end SciArchive
