import SciArchive.DataType

/-! Everything that can go wrong, as causes. `Fault.message` gives each cause its one wording, and
`Fault.isConfiguration` tells a wrongly described model or layout from bad data or misuse. -/
namespace SciArchive

/-- What a name can belong to inside a scope or a variable. -/
inductive EntityKind where
  | dimension | scope | var | member | enumeration
  deriving DecidableEq, Repr

def EntityKind.label : EntityKind → String
  | dimension => "Dimension"
  | scope => "Scope"
  | var => "Variable"
  | member => "Member"
  | enumeration => "Enum typedef"

/-- Why a layout of records is refused; `outOfRange` is met only when one that was accepted is read by. -/
inductive LayoutFlaw where
  | columnCount (layout : String) (columns names : Nat)
  | columnEnd (token : String)
  | columnKind (token : String)
  | emptyRange (field : String) (start stop : Nat)
  | repetition (field : String)
  | duplicateField (field : String)
  | variableSize (field : String) (type : DataType)
  | noElements (field : String)
  | emptyRecord
  | shortRecord (size extent : Nat)
  | recordLength (found needed : Nat)
  | countOutsideHeader (offset header : Nat)
  | markOutsideHeader (mark header : Nat)
  | outOfRange
  deriving DecidableEq, Repr

def LayoutFlaw.message : LayoutFlaw → String
  | columnCount layout columns names =>
    s!"layout \"{layout}\" has {columns} columns but {names} names were given"
  | columnEnd token => s!"bad column end in \"{token}\""
  | columnKind token => s!"bad type in \"{token}\""
  | emptyRange field start stop => s!"field '{field}' has empty column range {start}..{stop}"
  | repetition field => s!"field '{field}' needs a positive repeat count and stride"
  | duplicateField field => s!"duplicate field '{field}'"
  | variableSize field type => s!"field '{field}' has variable-size type {type.name}"
  | noElements field => s!"field '{field}' has zero elements"
  | emptyRecord => "record size is zero"
  | shortRecord size extent => s!"record size {size} is smaller than field extent {extent}"
  | recordLength found needed => s!"record holds {found} bytes, layout needs {needed}"
  | countOutsideHeader offset header =>
    s!"record count at byte {offset} does not fit a {header} byte header"
  | markOutsideHeader mark header => s!"{mark} byte magic does not fit a {header} byte header"
  | outOfRange => "out of range"

/-- Why bytes are not an index. -/
inductive IndexFlaw where
  | truncatedVarint
  | varintOverflow
  | keyNotText
  | unknownWire (wire field : UInt64)
  | lengthPastEntry
  | missingPart (part : String)
  | badMagic
  | missingVersion
  | unsupportedVersion (version : UInt8)
  | entryPastFile
  | duplicateKey (key : String)
  | trailingBytes (count : Nat)
  deriving DecidableEq, Repr

def IndexFlaw.message : IndexFlaw → String
  | truncatedVarint => "truncated varint"
  | varintOverflow => "varint overflow"
  | keyNotText => "key is not UTF-8"
  | unknownWire wire field => s!"unsupported wire type {wire.toNat} for field {field.toNat}"
  | lengthPastEntry => "length past end of entry"
  | missingPart part => s!"entry without {part}"
  | badMagic => "bad magic"
  | missingVersion => "missing version"
  | unsupportedVersion version => s!"unsupported version {version.toNat}"
  | entryPastFile => "entry past end of file"
  | duplicateKey key => s!"duplicate key {key}"
  | trailingBytes count => s!"{count} trailing bytes"

/-- Why a file cannot be used: it was looked up and is not there, or the disk refuses. -/
inductive DiskFailure where
  | absent
  | noEntry
  | notDirectory
  | isDirectory
  | nameTooLong
  | nameHasNull
  | offsetTooLarge
  deriving DecidableEq, Repr

def DiskFailure.message : DiskFailure → String
  | absent => "entity not found"
  | noEntry => "No such file or directory (os error 2)"
  | notDirectory => "Not a directory (os error 20)"
  | isDirectory => "Is a directory (os error 21)"
  | nameTooLong => "File name too long (os error 36)"
  | nameHasNull => "file name contained an unexpected NUL byte"
  | offsetTooLarge => "Invalid argument (os error 22)"

inductive Fault where
  | malformedDimension (token spec : String)
  | unknownDimension (name scope : String)
  | duplicateName (kind : EntityKind) (name owner : String)
  | notShared (scope : String)
  | dimensionInUse (name user : String)
  | alreadyBuilt (name : String)
  | invalidLayout (flaw : LayoutFlaw)
  | fieldNotFound (field : String)
  | typeMismatch (field : String) (stored requested : DataType)
  | recordOutOfBounds (index length : Nat)
  | unreadable (field text : String)
  | noRecordReady
  | resourceClosed (path : String)
  | unexpectedEnd (expected found : Nat)
  | invalidIndex (flaw : IndexFlaw)
  | cannotOpen (path : String) (cause : DiskFailure)
  | unsupportedFormat (path : String)
  | notFound (path : String)
  | notText
  | cannotRead (cause : DiskFailure)
  deriving DecidableEq, Repr

namespace Fault

/-- An index or a slice is out of range, where an accepted layout has put it. This is no error that the program
reports: it stops, and gives no answer to this call or to another. Only layouts lead there, so it stands among their
flaws. -/
abbrev crashed : Fault := .invalidLayout .outOfRange

def message : Fault → String
  | malformedDimension token spec => s!"Malformed dimension token '{token}' in \"{spec}\""
  | unknownDimension name scope =>
    s!"Dimension '{name}' does not exist in scope '{scope}' or its ancestors"
  | duplicateName kind name owner => s!"{kind.label} '{name}' already exists in scope '{owner}'"
  | notShared scope => s!"Dimension added to scope '{scope}' must be shared and named"
  | dimensionInUse name user =>
    s!"Dimension '{name}' is still referenced by variable '{user}'"
  | alreadyBuilt name => s!"Builder for '{name}' was already built"
  | invalidLayout flaw => s!"Invalid record schema: {flaw.message}"
  | fieldNotFound field => s!"Field not found: {field}"
  | typeMismatch field stored requested =>
    s!"Field '{field}' holds {stored.name}, not {requested.name}"
  | recordOutOfBounds index length => s!"Record {index} out of bounds ({length} records)"
  | unreadable field text => s!"Cannot parse field '{field}' from \"{text}\""
  | noRecordReady =>
    "Invalid stream state: next_record called without a successful has_next"
  | resourceClosed path => s!"Resource closed: {path}"
  | unexpectedEnd expected found =>
    s!"Unexpected end of data: expected {expected} records, got {found}"
  | invalidIndex flaw => s!"Index format error: {flaw.message}"
  | cannotOpen path _ => s!"Failed to open file: {path}"
  | unsupportedFormat path => s!"Unsupported file format: {path}"
  | notFound path => s!"Not found: {path}"
  | notText => "IO error: stream did not contain valid UTF-8"
  | cannotRead cause => s!"IO error: {cause.message}"

/-- The model or a layout was described wrongly, whatever the data. -/
def isConfiguration : Fault → Bool
  | malformedDimension .. | unknownDimension .. | duplicateName .. | notShared ..
  | invalidLayout .. | fieldNotFound .. | typeMismatch .. => true
  | _ => false

/-- The texts below a fault's own message, outermost first. -/
def causes : Fault → List String
  | cannotOpen _ cause | cannotRead cause => [cause.message]
  | notText => ["stream did not contain valid UTF-8"]
  | _ => []

end Fault
end SciArchive
