import SciArchive.Fault
import SciArchive.Text.Blank
import SciArchive.Text.Numeral

/-! Dimensions of variables: shared ones, named and owned by a scope, and anonymous ones of a single
shape. A shape is written as words: a name, a decimal length, or a star for a varying length. -/
namespace SciArchive

inductive DimLength where
  | fixed (n : Nat)
  | varying
  deriving DecidableEq, Repr, Inhabited

namespace DimLength

def fixed? : DimLength → Option Nat
  | fixed n => some n
  | varying => none

def render : DimLength → String
  | fixed n => n.repr
  | varying => "*"

end DimLength

/-- `owner` is the number of the declaring scope in a built tree. -/
structure Dimension where
  name : Option String := none
  length : DimLength
  shared : Bool := false
  unlimited : Bool := false
  owner : Option Nat := none
  deriving DecidableEq, Repr, Inhabited

namespace Dimension

def ofName (name : String) (length : Nat) : Dimension := { name, length := .fixed length, shared := true }
def anonymous (length : Nat) : Dimension := { length := .fixed length }
def varying : Dimension := { length := .varying }

/-- The fixed length, zero for a varying one. -/
def size (d : Dimension) : Nat := d.length.fixed?.getD 0

/-- The name under which a scope can declare it. -/
def sharedName? (d : Dimension) : Option String := if d.shared then d.name else none

def isNamed (name : String) (d : Dimension) : Bool := d.name == some name

def ownedBy (scope : Nat) (d : Dimension) : Dimension := { d with owner := some scope }

def detached (d : Dimension) : Dimension := { d with owner := none }

def render (d : Dimension) : String :=
  match d.name with
  | none => d.length.render
  | some name =>
    if d.unlimited then s!"{name} = UNLIMITED // ({d.length.render})"
    else s!"{name} = {d.length.render}"

end Dimension

/-- One word of a shape, its shared names not yet resolved. -/
inductive DimSpec where
  | shared (name : String)
  | fixed (n : Nat)
  | varying
  deriving DecidableEq, Repr, Inhabited

namespace DimSpec

def render : DimSpec → String
  | shared name => name
  | fixed n => n.repr
  | varying => "*"

/-- The word that brings back a dimension. -/
def ofDimension (d : Dimension) : DimSpec :=
  match d.sharedName?, d.length with
  | some name, _ => shared name
  | none, .fixed n => fixed n
  | none, .varying => varying

/-- A word is a star, a length when it begins like a number, or a name without slash and star. -/
def ofWord? (word : List Char) : Option DimSpec :=
  match word with
  | [] => none
  | ['*'] => some varying
  | c :: _ =>
    if c.isDigit ∨ c = '-' ∨ c = '+' then (Text.natural? word).map fixed
    else if '/' ∈ word ∨ '*' ∈ word then none
    else some (shared (String.ofList word))

/-- The words of a shape, or the first that is none. -/
def parse (spec : String) : Except Fault (List DimSpec) :=
  (Text.words spec.toList).mapM fun word =>
    match ofWord? word with
    | some s => .ok s
    | none => .error (.malformedDimension (String.ofList word) spec)

end DimSpec
end SciArchive
