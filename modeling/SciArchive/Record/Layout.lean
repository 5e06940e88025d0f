import SciArchive.Fault
import SciArchive.Number.Word
import SciArchive.Value
import SciArchive.Text.Utf8
import SciArchive.Text.Blank

/-! Binary records of one size: where each field lies, and the value that its bytes hold. -/
namespace SciArchive

inductive ByteOrder where
  | big | little
  deriving DecidableEq, Repr, Inhabited

/-- The number written in bytes. -/
def ByteOrder.number (order : ByteOrder) (bytes : List UInt8) : Nat :=
  let fromTop (bytes : List UInt8) : Nat := bytes.foldl (fun n b => 256 * n + b.toNat) 0
  match order with
  | big => fromTop bytes
  | little => fromTop bytes.reverse

/-- `count` elements side by side. -/
structure Field where
  name : String
  dataType : DataType
  offset : Nat
  count : Nat := 1
  deriving DecidableEq, Repr, Inhabited

namespace Field

/-- Size in bytes of one element. -/
def width (f : Field) : Nat := f.dataType.size.getD 0

/-- Size in bytes of the whole field, as a word has it. -/
def size (f : Field) : Nat := wrap (f.width * f.count)

/-- Where the field ends, as a word has it. -/
def stop (f : Field) : Nat := wrap (f.offset + f.size)

/-- The field ends at a place that a word can tell. For any other, a build with overflow checks stops. -/
def InWord (f : Field) : Prop := f.offset + f.width * f.count < UInt64.size

instance (f : Field) : Decidable f.InWord := inferInstanceAs (Decidable (_ < _))

theorem InWord.size_eq {f : Field} (h : f.InWord) : f.size = f.width * f.count :=
  wrap_of_lt (Nat.lt_of_le_of_lt (Nat.le_add_left _ _) h)

theorem InWord.stop_eq {f : Field} (h : f.InWord) : f.stop = f.offset + f.size := by
  rw [stop, wrap_of_lt]
  rwa [h.size_eq]

end Field

structure RecordLayout where
  fields : List Field
  recordSize : Nat
  order : ByteOrder
  deriving DecidableEq, Repr, Inhabited

namespace RecordLayout

/-- What is wrong with a field behind those named in `seen`. -/
def fieldFlaw? (seen : List String) (f : Field) : Option LayoutFlaw :=
  if f.dataType.size.isNone then some (.variableSize f.name f.dataType)
  else if f.count = 0 then some (.noElements f.name)
  else if f.name ∈ seen then some (.duplicateField f.name)
  else none

def fieldsFlaw? (seen : List String) : List Field → Option LayoutFlaw
  | [] => none
  | f :: rest => (fieldFlaw? seen f).orElse fun _ => fieldsFlaw? (f.name :: seen) rest

/-- The end of the field that reaches farthest. -/
def extent (fields : List Field) : Nat := fields.foldl (fun n f => max n f.stop) 0

/-- A layout whose fields have fixed sizes, distinct names, and ends within the record. Without a
declared size the record ends with its fields. -/
def make (order : ByteOrder) (fields : List Field) (size : Option Nat) : Except Fault RecordLayout :=
  let recordSize := size.getD (extent fields)
  match fieldsFlaw? [] fields with
  | some flaw => .error (.invalidLayout flaw)
  | none =>
    if recordSize = 0 then .error (.invalidLayout .emptyRecord)
    else if recordSize < extent fields then
      .error (.invalidLayout (.shortRecord recordSize (extent fields)))
    else .ok ⟨fields, recordSize, order⟩

def field? (l : RecordLayout) (name : String) : Option Field := l.fields.find? fun f => f.name = name

def field (l : RecordLayout) (name : String) : Except Fault Field :=
  match l.field? name with
  | some f => .ok f
  | none => .error (.fieldNotFound name)

end RecordLayout

/-- One element of a type with fixed size. -/
def Value.ofBytes (order : ByteOrder) (type : DataType) (bytes : List UInt8) : Value :=
  let n := order.number bytes
  match type with
  | .byte => .byte (UInt8.ofNat n).toInt8
  | .ubyte => .ubyte (UInt8.ofNat n)
  | .short => .short (UInt16.ofNat n).toInt16
  | .ushort => .ushort (UInt16.ofNat n)
  | .int => .int (UInt32.ofNat n).toInt32
  | .uint => .uint (UInt32.ofNat n)
  | .long => .long (UInt64.ofNat n).toInt64
  | .ulong => .ulong (UInt64.ofNat n)
  | .float => .float (UInt32.ofNat n)
  | .double => .double (UInt64.ofNat n)
  | .char => .char (Char.ofNat n)
  | .string | .struct | .sequence => .array []

/-- One record's bytes under their layout. -/
structure BinaryRecord where
  layout : RecordLayout
  bytes : List UInt8
  deriving DecidableEq, Repr, Inhabited

namespace BinaryRecord

/-- The bytes of exactly one record. -/
def make (layout : RecordLayout) (bytes : List UInt8) : Except Fault BinaryRecord :=
  if bytes.length = layout.recordSize then .ok ⟨layout, bytes⟩
  else .error (.invalidLayout (.recordLength bytes.length layout.recordSize))

def slice (bytes : List UInt8) (offset size : Nat) : List UInt8 := (bytes.drop offset).take size

/-! ### Slices that are checked -/

/-- The bytes from `start` up to `stop`, none if the bytes end before. -/
def range? (bytes : List UInt8) (start stop : Nat) : Option (List UInt8) :=
  if start ≤ stop ∧ stop ≤ bytes.length then some (slice bytes start (stop - start)) else none

/-- The element at the front of some bytes, none if they end before it. -/
def front? (order : ByteOrder) (type : DataType) (bytes : List UInt8) : Option Value :=
  (range? bytes 0 (type.size.getD 0)).map (Value.ofBytes order type)

/-- All whole pieces of `width` bytes, none for pieces without width. -/
def pieces? (width : Nat) (bytes : List UInt8) : Option (List (List UInt8)) :=
  if width = 0 then none
  else some ((List.range (bytes.length / width)).map fun i => slice bytes (i * width) width)

/-- The `count` elements that some bytes are made of. The width of each is its share of the bytes. -/
def elements? (order : ByteOrder) (type : DataType) (count : Nat) (bytes : List UInt8) : Option (List Value) :=
  (pieces? (bytes.length / count) bytes).bind fun pieces => pieces.mapM (front? order type)

/-! ### Fields -/

/-- The bytes of a field, none if a slice is out of range. -/
def raw? (r : BinaryRecord) (name : String) : Option (Except Fault (List UInt8)) :=
  match r.layout.field name with
  | .error e => some (.error e)
  | .ok f => (range? r.bytes f.offset f.stop).map .ok

/-- The first element of a field that stores elements of type `type`, none if a slice is out of range. -/
def get? (r : BinaryRecord) (type : DataType) (name : String) : Option (Except Fault Value) :=
  match r.layout.field name with
  | .error e => some (.error e)
  | .ok f =>
    if f.dataType = type then
      (range? r.bytes f.offset r.bytes.length).bind fun tail =>
        (front? r.layout.order type tail).map .ok
    else some (.error (.typeMismatch name f.dataType type))

/-- The value of a field, none if a slice is out of range. Several characters are a text without the nulls and
blanks at its end; several elements of another type are an array. -/
def value? (r : BinaryRecord) (name : String) : Option (Except Fault Value) :=
  match r.layout.field name with
  | .error e => some (.error e)
  | .ok f =>
    (range? r.bytes f.offset f.stop).bind fun bytes =>
      if f.count = 1 then (front? r.layout.order f.dataType bytes).map .ok
      else if f.dataType = .char then
        some (.ok (.text (String.ofList
          (Text.dropEnd (fun c => c == '\x00' || c == ' ') (Utf8.decodeLossy bytes)))))
      else (elements? r.layout.order f.dataType f.count bytes).map fun elements => .ok (.array elements)

/-! A slice out of range stops the program. -/

def raw (r : BinaryRecord) (name : String) : Except Fault (List UInt8) := (r.raw? name).getD (.error .crashed)

def get (r : BinaryRecord) (type : DataType) (name : String) : Except Fault Value :=
  (r.get? type name).getD (.error .crashed)

def value (r : BinaryRecord) (name : String) : Except Fault Value := (r.value? name).getD (.error .crashed)

end BinaryRecord

/-- Records side by side in a buffer; bytes behind the last whole record do not count. -/
structure RecordTable where
  layout : RecordLayout
  buffer : List UInt8
  deriving DecidableEq, Repr

namespace RecordTable

def length (t : RecordTable) : Nat := t.buffer.length / t.layout.recordSize

def base (t : RecordTable) (i : Nat) : Nat := i * t.layout.recordSize

def recordAt (t : RecordTable) (i : Nat) : BinaryRecord :=
  ⟨t.layout, BinaryRecord.slice t.buffer (t.base i) t.layout.recordSize⟩

def record (t : RecordTable) (i : Nat) : Except Fault BinaryRecord :=
  if i < t.length then .ok (t.recordAt i) else .error (.recordOutOfBounds i t.length)

/-- A place in the buffer. A sum that points behind it wraps, as others are words anyway. -/
def place (t : RecordTable) (n : Nat) : Nat := if n ≤ t.buffer.length then n else wrap n

/-- The bytes of a field of the record numbered `i`, none if the slice is out of range. -/
def rawField? (t : RecordTable) (i : Nat) (name : String) : Option (Except Fault (List UInt8)) :=
  if i < t.length then
    match t.layout.field name with
    | .error e => some (.error e)
    | .ok f =>
      let start := t.place (t.base i + f.offset)
      (BinaryRecord.range? t.buffer start (t.place (start + f.size))).map .ok
  else some (.error (.recordOutOfBounds i t.length))

def rawField (t : RecordTable) (i : Nat) (name : String) : Except Fault (List UInt8) :=
  (t.rawField? i name).getD (.error .crashed)

def read (t : RecordTable) (type : DataType) (i : Nat) (name : String) : Except Fault Value :=
  (t.record i).bind fun r => r.get type name

def records (t : RecordTable) : List BinaryRecord := (List.range t.length).map t.recordAt

end RecordTable
end SciArchive
