import SciArchive.Namespace.Variable

/-! Drafts of scopes. Every edit answers and hands back the draft, also when it fails; once a draft is
built, edits fail. Names are checked when an entity is added, references when the draft is built. -/
namespace SciArchive

structure ScopeDraft where
  name : String
  attributes : AttributeSet
  dimensions : List Dimension := []
  enums : List EnumTypedef := []
  scopes : List ScopeDraft := []
  vars : List VariableDraft := []
  context : Option DatasetContext := none
  built : Bool := false
  deriving Inhabited

/-- Change the first element that satisfies `p`. -/
def updateFirst {α : Type} (p : α → Bool) (f : α → α) : List α → List α
  | [] => []
  | a :: as => if p a then f a :: as else a :: updateFirst p f as

namespace ScopeDraft

def new (name : String) : ScopeDraft := { name, attributes := .named name }

def root : ScopeDraft := new ""

def dimension? (d : ScopeDraft) (name : String) : Option Dimension :=
  d.dimensions.find? (Dimension.isNamed name)

def scope? (d : ScopeDraft) (name : String) : Option ScopeDraft := d.scopes.find? fun s => s.name = name

def var? (d : ScopeDraft) (name : String) : Option VariableDraft :=
  d.vars.find? fun v => v.name = name

def enum? (d : ScopeDraft) (name : String) : Option EnumTypedef := d.enums.find? fun e => e.name = name

/-- The dataset of variables that have none of their own; it may be set at any time. -/
def withContext (d : ScopeDraft) (context : DatasetContext) : ScopeDraft :=
  { d with context := some context }

/-- An operation: its answer and the draft behind it. -/
abbrev Edit (α : Type) := ScopeDraft → Except Fault α × ScopeDraft

def whenOpen {α : Type} (edit : Edit α) : Edit α := fun d =>
  if d.built then (.error (.alreadyBuilt d.name), d) else edit d

/-! ### Attributes -/

def editAttributes {α : Type} (f : AttributeSet → α × AttributeSet) : Edit α := whenOpen fun d =>
  let r := f d.attributes; (.ok r.1, { d with attributes := r.2 })

def addAttribute (a : Attribute) : Edit (Option Attribute) := editAttributes fun s => s.add a

/-! ### Dimensions -/

/-- A scope declares named shared dimensions only. -/
def whenShared {α : Type} (dim : Dimension) (edit : String → Edit α) : Edit α := whenOpen fun d =>
  match dim.sharedName? with
  | none => (.error (.notShared d.name), d)
  | some name => edit name d

def addDimension (dim : Dimension) : Edit Unit := whenShared dim fun name d =>
  if (d.dimension? name).isSome then (.error (.duplicateName .dimension name d.name), d)
  else (.ok (), { d with dimensions := d.dimensions ++ [dim] })

/-- Whether it was added. -/
def addDimensionIfAbsent (dim : Dimension) : Edit Bool := whenShared dim fun name d =>
  if (d.dimension? name).isSome then (.ok false, d)
  else (.ok true, { d with dimensions := d.dimensions ++ [dim] })

/-- Whether one was replaced. References are by name, so they follow. -/
def replaceDimension (dim : Dimension) : Edit Bool := whenShared dim fun name d =>
  if (d.dimension? name).isSome then
    (.ok true,
      { d with dimensions := updateFirst (Dimension.isNamed name) (fun _ => dim) d.dimensions })
  else (.ok false, { d with dimensions := d.dimensions ++ [dim] })

mutual

/-- The path of the first variable in or below the scope that finds `dim` here: scopes below that
declare the name themselves hide it. -/
def userOf? (dim : String) : ScopeDraft → Option String
  | ⟨_, _, _, _, scopes, vars, _, _⟩ =>
    (VariableDraft.userAmong? dim vars).orElse fun _ => userBelow? dim scopes

def userBelow? (dim : String) : List ScopeDraft → Option String
  | [] => none
  | s :: rest =>
    let inside :=
      if (s.dimension? dim).isSome then none
      else (s.userOf? dim).map fun path => s!"{s.name}/{path}"
    inside.orElse fun _ => userBelow? dim rest

end

/-- Whether it was declared. A dimension that a variable would resolve to stays. -/
def removeDimension (name : String) : Edit Bool := whenOpen fun d =>
  if (d.dimension? name).isNone then (.ok false, d)
  else
    match d.userOf? name with
    | some user => (.error (.dimensionInUse name user), d)
    | none => (.ok true, { d with dimensions := d.dimensions.eraseP (Dimension.isNamed name) })

/-! ### Scopes -/

def addScope (s : ScopeDraft) : Edit Unit := whenOpen fun d =>
  if (d.scope? s.name).isSome then (.error (.duplicateName .scope s.name d.name), d)
  else (.ok (), { d with scopes := d.scopes ++ [s] })

def removeScope (name : String) : Edit Bool := whenOpen fun d =>
  (.ok (d.scopes.any fun s => s.name = name),
    { d with scopes := d.scopes.filter fun s => s.name ≠ name })

/-- Edit a child scope. -/
def inScope {α : Type} (name : String) (edit : Edit α) : Edit α := whenOpen fun d =>
  match d.scope? name with
  | none => (.error (.notFound s!"{d.name}/{name}"), d)
  | some s =>
    let r := edit s
    (r.1, { d with scopes := updateFirst (fun s => s.name = name) (fun _ => r.2) d.scopes })

/-- Edit the scope at the end of a path of child names. -/
def inPath {α : Type} : List String → Edit α → Edit α
  | [], edit => edit
  | name :: path, edit => inScope name (inPath path edit)

/-! ### Variables -/

def addVariable (v : VariableDraft) : Edit Unit := whenOpen fun d =>
  if (d.var? v.name).isSome then (.error (.duplicateName .var v.name d.name), d)
  else (.ok (), { d with vars := d.vars ++ [v] })

/-- Whether one was replaced, in its place. -/
def replaceVariable (v : VariableDraft) : Edit Bool := whenOpen fun d =>
  if (d.var? v.name).isSome then
    (.ok true,
      { d with vars := updateFirst (fun w => w.name = v.name) (fun _ => v) d.vars })
  else (.ok false, { d with vars := d.vars ++ [v] })

def removeVariable (name : String) : Edit Bool := whenOpen fun d =>
  (.ok (d.vars.any fun v => v.name = name),
    { d with vars := d.vars.filter fun v => v.name ≠ name })

/-- Edit a variable. Its new name is not compared with those of its siblings. -/
def inVariable {α : Type} (name : String) (f : VariableDraft → Except Fault α × VariableDraft) :
    Edit α := whenOpen fun d =>
  match d.var? name with
  | none => (.error (.notFound s!"{d.name}/{name}"), d)
  | some v =>
    let r := f v
    (r.1, { d with vars := updateFirst (fun v => v.name = name) (fun _ => r.2) d.vars })

/-! ### Enumerations -/

def addEnum (e : EnumTypedef) : Edit Unit := whenOpen fun d =>
  if (d.enum? e.name).isSome then (.error (.duplicateName .enumeration e.name d.name), d)
  else (.ok (), { d with enums := d.enums ++ [e] })

/-! ### The whole draft -/

mutual

/-- The number of scopes, this one included. -/
def size : ScopeDraft → Nat
  | ⟨_, _, _, _, scopes, _, _, _⟩ => 1 + sizeAll scopes

def sizeAll : List ScopeDraft → Nat
  | [] => 0
  | s :: rest => s.size + sizeAll rest

end

mutual

/-- Mark the draft and all drafts below it as built. -/
def markBuilt : ScopeDraft → ScopeDraft
  | ⟨name, atts, dims, enums, scopes, vars, context, _⟩ =>
    ⟨name, atts, dims, enums, markAllBuilt scopes, vars, context, true⟩

def markAllBuilt : List ScopeDraft → List ScopeDraft
  | [] => []
  | s :: rest => s.markBuilt :: markAllBuilt rest

end

end ScopeDraft
end SciArchive
