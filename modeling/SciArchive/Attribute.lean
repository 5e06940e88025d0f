import SciArchive.Value
import SciArchive.Text.Numeral

/-! Named values attached to scopes and variables, in ordered sets with one attribute a name. A set is
edited while a tree is described; a built tree keeps snapshots. -/
namespace SciArchive

structure Attribute where
  name : String
  value : Value
  deriving Repr, Inhabited

def startsWith (text lead : String) : Bool := lead.toList.isPrefixOf text.toList

namespace Attribute

/-- Beginnings of names that formats keep for their own bookkeeping. -/
def reservedPrefixes : List String := ["_Coordinate", "_Netcdf4", "_Chunk"]

def isReserved (a : Attribute) : Bool := reservedPrefixes.any (startsWith a.name)

def same (a b : Attribute) : Bool := a.name == b.name && a.value.same b.value

def toText? (a : Attribute) : Option String := a.value.toText?

/-- The word of the double of the first element. -/
def toDouble? (a : Attribute) : Option UInt64 := a.value.elements.head?.bind Value.toDouble?

/-- Texts stand in quotes. -/
def render (a : Attribute) : String :=
  if a.value.isText then s!"{a.name} = \"{a.value.render}\"" else s!"{a.name} = {a.value.render}"

end Attribute

/-- The attributes of the entity `owner`, in order of insertion. -/
structure AttributeSet where
  owner : String := ""
  items : List Attribute := []
  deriving Repr, Inhabited

namespace AttributeSet

def named (owner : String) : AttributeSet := ⟨owner, []⟩

def names (s : AttributeSet) : List String := s.items.map Attribute.name

def find? (s : AttributeSet) (name : String) : Option Attribute :=
  s.items.find? fun a => a.name = name

def findIgnoringCase? (s : AttributeSet) (name : String) : Option Attribute :=
  s.items.find? fun a => Text.equalIgnoringCase a.name name

def textIgnoringCase (s : AttributeSet) (name default : String) : String :=
  ((s.findIgnoringCase? name).bind Attribute.toText?).getD default

/-- Put `a` in the place of the attribute of its name, which is returned, or at the end. -/
def add (s : AttributeSet) (a : Attribute) : Option Attribute × AttributeSet :=
  match s.find? a.name with
  | some old => (some old, { s with items := s.items.map fun b => if b.name = a.name then a else b })
  | none => (none, { s with items := s.items ++ [a] })

def insert (s : AttributeSet) (a : Attribute) : AttributeSet := (s.add a).2

def addAll (s : AttributeSet) (as : List Attribute) : AttributeSet := as.foldl insert s

/-- Take out the first attribute that is the same as `a`. -/
def remove (s : AttributeSet) (a : Attribute) : Bool × AttributeSet :=
  (s.items.any fun b => b.same a, { s with items := s.items.eraseP fun b => b.same a })

def removeNamed (s : AttributeSet) (name : String) : Option Attribute × AttributeSet :=
  (s.find? name, { s with items := s.items.eraseP fun a => a.name = name })

def removeIgnoringCase (s : AttributeSet) (name : String) : Option Attribute × AttributeSet :=
  (s.findIgnoringCase? name,
    { s with items := s.items.eraseP fun a => Text.equalIgnoringCase a.name name })

def clear (s : AttributeSet) : AttributeSet := { s with items := [] }

def rename (s : AttributeSet) (owner : String) : AttributeSet := { s with owner := owner }

/-- Those whose names begin with none of `prefixes`. -/
def without (s : AttributeSet) (prefixes : List String) : AttributeSet :=
  { s with items := s.items.filter fun a => !prefixes.any (startsWith a.name) }

/-- Those meant for readers of the data. -/
def forUsers (s : AttributeSet) : AttributeSet := s.without Attribute.reservedPrefixes

def sameItems : List Attribute → List Attribute → Bool
  | [], [] => true
  | a :: as, b :: bs => a.same b && sameItems as bs
  | _, _ => false

def same (s t : AttributeSet) : Bool := s.owner == t.owner && sameItems s.items t.items

end AttributeSet

/-- The attributes of a built entity. -/
structure AttributeSnapshot where
  owner : String := ""
  items : List Attribute := []
  deriving Repr, Inhabited

def AttributeSet.freeze (s : AttributeSet) : AttributeSnapshot := ⟨s.owner, s.items⟩

namespace AttributeSnapshot

def thaw (s : AttributeSnapshot) : AttributeSet := ⟨s.owner, s.items⟩

def find? (s : AttributeSnapshot) (name : String) : Option Attribute := s.thaw.find? name

def forUsers (s : AttributeSnapshot) : AttributeSet := s.thaw.forUsers

def same (s t : AttributeSnapshot) : Bool := s.thaw.same t.thaw

@[simp] theorem thaw_freeze (s : AttributeSet) : s.freeze.thaw = s := rfl
@[simp] theorem freeze_thaw (s : AttributeSnapshot) : s.thaw.freeze = s := rfl

end AttributeSnapshot
end SciArchive
