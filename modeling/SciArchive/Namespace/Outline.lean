import SciArchive.Namespace.Tree

/-! Outlines: a tree as labelled lines with branches drawn in front, and the description of a variable. -/
namespace SciArchive

/-- A label with what hangs below it. -/
structure Outline where
  label : String
  items : List Outline
  deriving Inhabited

namespace Outline

mutual

/-- The lines of an outline whose ancestors have drawn `lead`. -/
def lines (lead : String) (last : Bool) : Outline → List String
  | ⟨label, items⟩ =>
    (lead ++ (if last then "└── " else "├── ") ++ label)
      :: linesAll (lead ++ (if last then "    " else "│   ")) items

def linesAll (lead : String) : List Outline → List String
  | [] => []
  | o :: rest => o.lines lead rest.isEmpty ++ linesAll lead rest

end

mutual

/-- Labels with their depth, each before those below it. -/
def preorder (depth : Nat) : Outline → List (Nat × String)
  | ⟨label, items⟩ => (depth, label) :: preorderAll (depth + 1) items

def preorderAll (depth : Nat) : List Outline → List (Nat × String)
  | [] => []
  | o :: rest => o.preorder depth ++ preorderAll depth rest

end

/-- Each line with a line feed behind it. -/
def text (o : Outline) : String := String.join ((o.lines "" true).map (· ++ "\n"))

end Outline

namespace Variable

/-- The name with its dimensions, the type, and the role of an axis. -/
def label (v : Variable) : String :=
  let dim (d : Dimension) : String :=
    match d.name with
    | some name => s!"{name}={d.length.render}"
    | none => d.length.render
  let dims := if v.dimensions.isEmpty then "" else "(" ++ String.intercalate ", " (v.dimensions.map dim) ++ ")"
  let axis := match v.axis with
    | some a => s!" [{a.name}]"
    | none => ""
  s!"{v.name}{dims}: {v.dataType.name}{axis}"

mutual

def outline : Variable → Outline
  | ⟨name, type, dims, atts, axis, members, scope, context⟩ =>
    ⟨label ⟨name, type, dims, atts, axis, members, scope, context⟩, outlineAll members⟩

def outlineAll : List Variable → List Outline
  | [] => []
  | v :: vs => v.outline :: outlineAll vs

end

/-- Several lines about the variable and the attributes meant for readers. -/
def describe (v : Variable) : String :=
  let dims := if v.dimensions.isEmpty then "" else s!"Dimensions: {v.shapeText}\n"
  let atts := v.attributes.forUsers.items
  let list := if atts.isEmpty then ""
    else "\nAttributes:\n" ++ String.join (atts.map fun a => s!"  {a.render}\n")
  s!"Variable: {v.name}\nType: {v.dataType.name}\n{dims}{list}"

end Variable

namespace Dimension

def outline (d : Dimension) : Outline := ⟨s!"dim {d.render}", []⟩

end Dimension

namespace Scope

mutual

/-- Dimensions, then variables, then scopes below. -/
def outline (label : String) : Scope → Outline
  | ⟨_, _, _, dims, _, vars, scopes⟩ =>
    ⟨label, dims.map Dimension.outline ++ Variable.outlineAll vars ++ outlineAll scopes⟩

def outlineAll : List Scope → List Outline
  | [] => []
  | s :: rest => s.outline (s.name ++ "/") :: outlineAll rest

end

end Scope

namespace NamespaceTree

def outline (t : NamespaceTree) : Outline := t.root.outline "/"

def banner (title : Option String) : String :=
  let first := match title with
    | some name => s!"Tree Structure: {name}\n"
    | none => "Tree Structure\n"
  first ++ String.ofList (List.replicate 80 '=') ++ "\n\n"

/-- The outline of the tree under a banner. -/
def render (t : NamespaceTree) (title : Option String) : String := banner title ++ t.outline.text

end NamespaceTree
end SciArchive
