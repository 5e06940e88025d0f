import SciArchive.Attribute
import SciArchive.Dimension

/-! Variables of a built tree and the drafts they are built from. A draft names its shared dimensions; the
built variable holds them as the scopes around it declare them. -/
namespace SciArchive

/-- Role of a coordinate axis. -/
inductive AxisType where
  | time | runTime | ensemble | lat | lon | geoX | geoY | geoZ | height | pressure
  deriving DecidableEq, Repr

namespace AxisType

def name : AxisType → String
  | time => "Time" | runTime => "RunTime" | ensemble => "Ensemble"
  | lat => "Lat" | lon => "Lon"
  | geoX => "GeoX" | geoY => "GeoY" | geoZ => "GeoZ"
  | height => "Height" | pressure => "Pressure"

def all : List AxisType :=
  [time, runTime, ensemble, lat, lon, geoX, geoY, geoZ, height, pressure]

/-- Case does not matter. -/
def ofName? (text : String) : Option AxisType :=
  all.find? fun a => Text.equalIgnoringCase a.name text

/-- The attribute that records the role. -/
def attributeName : String := "_CoordinateAxisType"

def asAttribute (a : AxisType) : Attribute := ⟨attributeName, .text a.name⟩

end AxisType

/-- Labels of integer codes, in code order. -/
structure EnumTypedef where
  name : String
  labels : List (Int × String)
  deriving DecidableEq, Repr

namespace EnumTypedef

/-- Insert by code; a code keeps its last label. -/
def insert (code : Int) (label : String) : List (Int × String) → List (Int × String)
  | [] => [(code, label)]
  | (c, l) :: rest =>
    if code < c then (code, label) :: (c, l) :: rest
    else if code = c then (code, label) :: rest
    else (c, l) :: insert code label rest

def ofLabels (name : String) (labels : List (Int × String)) : EnumTypedef :=
  ⟨name, labels.foldl (fun sorted p => insert p.1 p.2 sorted) []⟩

def label? (e : EnumTypedef) (code : Int) : Option String :=
  (e.labels.find? fun p => p.1 = code).map Prod.snd

end EnumTypedef

/-- Where the data of a tree comes from, and the format it was read as. -/
structure DatasetContext where
  location : String := ""
  fileType : Option String := none
  deriving DecidableEq, Repr, Inhabited

/-- `scope` is the number of the owning scope. -/
structure Variable where
  name : String
  dataType : DataType
  dimensions : List Dimension
  attributes : AttributeSnapshot
  axis : Option AxisType
  members : List Variable
  scope : Nat
  context : DatasetContext
  deriving Inhabited

structure VariableDraft where
  name : String
  dataType : DataType
  shape : List DimSpec := []
  attributes : AttributeSet
  axis : Option AxisType := none
  members : List VariableDraft := []
  context : Option DatasetContext := none
  deriving Inhabited

namespace Variable

def rank (v : Variable) : Nat := v.dimensions.length

/-- Multiply in a machine word. -/
def mulWord? (a b : Nat) : Option Nat := if a * b < UInt64.size then some (a * b) else none

/-- The number of elements, if every length is fixed and every partial product fits a word. -/
def elementCount? (v : Variable) : Option Nat :=
  v.dimensions.foldlM (fun product d => d.length.fixed?.bind (mulWord? product)) 1

/-- The shape as words that bring it back. -/
def shapeText (v : Variable) : String :=
  String.intercalate " " (v.dimensions.map fun d => d.sharedName?.getD d.length.render)

def member? (v : Variable) (name : String) : Option Variable := v.members.find? fun m => m.name = name

def isSequence (v : Variable) : Bool := v.dataType == .sequence

mutual

/-- Equal in everything but place and dataset: owners, scopes and contexts do not count. -/
def same : Variable → Variable → Bool
  | ⟨name, type, dims, atts, axis, members, _, _⟩, ⟨name', type', dims', atts', axis', members', _, _⟩ =>
    name == name' && type == type' && axis == axis' && atts.same atts' && sameAll members members'
      && dims.map Dimension.detached == dims'.map Dimension.detached

def sameAll : List Variable → List Variable → Bool
  | [], [] => true
  | v :: vs, w :: ws => v.same w && sameAll vs ws
  | _, _ => false

end

mutual

/-- A draft that brings back the variable; it keeps its dataset. -/
def toDraft : Variable → VariableDraft
  | ⟨name, type, dims, atts, axis, members, _, context⟩ =>
    { name, dataType := type, shape := dims.map DimSpec.ofDimension, attributes := atts.thaw, axis
      members := toDrafts members, context := some context }

def toDrafts : List Variable → List VariableDraft
  | [] => []
  | v :: vs => v.toDraft :: toDrafts vs

end

end Variable

/-- What the scopes around a place declare, the nearest first; the last is the root. -/
structure Frame where
  name : String
  dimensions : List Dimension
  deriving DecidableEq, Repr

namespace Frame

/-- The nearest declaration of a name. -/
def resolve? (frames : List Frame) (name : String) : Option Dimension :=
  frames.findSome? fun f => f.dimensions.find? (Dimension.isNamed name)

/-- The names from below the root down. -/
def path (frames : List Frame) : List String := (frames.dropLast.map Frame.name).reverse

def fullName (frames : List Frame) : String := "/" ++ String.intercalate "/" (path frames)

def dimension (frames : List Frame) : DimSpec → Except Fault Dimension
  | .fixed n => .ok (.anonymous n)
  | .varying => .ok .varying
  | .shared name =>
    match resolve? frames name with
    | some d => .ok d
    | none => .error (.unknownDimension name (fullName frames))

def shape (frames : List Frame) (specs : List DimSpec) : Except Fault (List Dimension) :=
  specs.mapM (dimension frames)

end Frame

namespace VariableDraft

def new (name : String) (type : DataType) : VariableDraft :=
  { name, dataType := type, attributes := .named name }

def sequence (name : String) : VariableDraft := new name .sequence

def addAttribute (v : VariableDraft) (a : Attribute) : Option Attribute × VariableDraft :=
  let r := v.attributes.add a; (r.1, { v with attributes := r.2 })

def withAttribute (v : VariableDraft) (name : String) (value : Value) : VariableDraft :=
  (v.addAttribute ⟨name, value⟩).2

def withAxis (v : VariableDraft) (a : AxisType) : VariableDraft :=
  { v with axis := some a, attributes := v.attributes.insert a.asAttribute }

def withShape (v : VariableDraft) (shape : List DimSpec) : VariableDraft := { v with shape }

def withDimensions (v : VariableDraft) (spec : String) : Except Fault VariableDraft :=
  (DimSpec.parse spec).map v.withShape

def withContext (v : VariableDraft) (context : DatasetContext) : VariableDraft :=
  { v with context := some context }

def member? (v : VariableDraft) (name : String) : Option VariableDraft :=
  v.members.find? fun m => m.name = name

/-- A member under a new name only. -/
def addMember (v : VariableDraft) (m : VariableDraft) : Except Fault Unit × VariableDraft :=
  if (v.member? m.name).isSome then (.error (.duplicateName .member m.name v.name), v)
  else (.ok (), { v with members := v.members ++ [m] })

def withMember (v : VariableDraft) (m : VariableDraft) : Except Fault VariableDraft :=
  (v.addMember m).1.map fun _ => (v.addMember m).2

def clearAttributes (v : VariableDraft) : VariableDraft := { v with attributes := v.attributes.clear }

/-- The attributes follow the name. -/
def rename (v : VariableDraft) (name : String) : VariableDraft :=
  { v with name, attributes := v.attributes.rename name }

mutual

/-- The first variable, the draft itself or a member, whose shape names the dimension. -/
def userOf? (dimension : String) : VariableDraft → Option String
  | ⟨name, _, shape, _, _, members, _⟩ =>
    if shape.contains (.shared dimension) then some name else userAmong? dimension members

def userAmong? (dimension : String) : List VariableDraft → Option String
  | [] => none
  | v :: vs => (v.userOf? dimension).orElse fun _ => userAmong? dimension vs

end

mutual

/-- Resolve the shape inside `frames`, then the members. A draft without a dataset takes `context`, and
so do its members. -/
def realize (frames : List Frame) (scope : Nat) (context : DatasetContext) :
    VariableDraft → Except Fault Variable
  | ⟨name, type, specs, atts, axis, members, own⟩ =>
    match Frame.shape frames specs with
    | .error e => .error e
    | .ok dims =>
      match realizeAll frames scope (own.getD context) members with
      | .error e => .error e
      | .ok members => .ok ⟨name, type, dims, atts.freeze, axis, members, scope, own.getD context⟩

def realizeAll (frames : List Frame) (scope : Nat) (context : DatasetContext) :
    List VariableDraft → Except Fault (List Variable)
  | [] => .ok []
  | v :: vs =>
    match v.realize frames scope context with
    | .error e => .error e
    | .ok v =>
      match realizeAll frames scope context vs with
      | .error e => .error e
      | .ok vs => .ok (v :: vs)

end

end VariableDraft
end SciArchive
