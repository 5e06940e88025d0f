import SciArchive.Namespace.Variable

/-! Built trees of scopes and the places in them. A place is a scope with the scopes around it, so that
looking upward is looking along a list. -/
namespace SciArchive

/-- A scope and everything below it; `id` counts the scopes of the tree from the root on, each before
those below it. -/
structure Scope where
  id : Nat
  name : String
  attributes : AttributeSnapshot
  dimensions : List Dimension
  enums : List EnumTypedef
  vars : List Variable
  scopes : List Scope
  deriving Inhabited

namespace Scope

def dimension? (s : Scope) (name : String) : Option Dimension :=
  s.dimensions.find? (Dimension.isNamed name)

def var? (s : Scope) (name : String) : Option Variable := s.vars.find? fun v => v.name = name

def enum? (s : Scope) (name : String) : Option EnumTypedef := s.enums.find? fun e => e.name = name

def scope? (s : Scope) (name : String) : Option Scope := s.scopes.find? fun c => c.name = name

def frame (s : Scope) : Frame := ⟨s.name, s.dimensions⟩

mutual

def size : Scope → Nat
  | ⟨_, _, _, _, _, _, scopes⟩ => 1 + sizeAll scopes

def sizeAll : List Scope → Nat
  | [] => 0
  | s :: rest => s.size + sizeAll rest

end

mutual

/-- Equal names, attributes, dimensions, variables and scopes below; numbers and owners do not count. -/
def same : Scope → Scope → Bool
  | ⟨_, name, atts, dims, enums, vars, scopes⟩, ⟨_, name', atts', dims', enums', vars', scopes'⟩ =>
    name == name' && atts.same atts' && enums == enums' && Variable.sameAll vars vars'
      && dims.map Dimension.detached == dims'.map Dimension.detached && sameAll scopes scopes'

def sameAll : List Scope → List Scope → Bool
  | [], [] => true
  | s :: ss, t :: ts => s.same t && sameAll ss ts
  | _, _ => false

end

mutual

/-- A scope with the chain of scopes around it, nearest first, and all such below, depth first. -/
def chains (above : List Scope) : Scope → List (Scope × List Scope)
  | ⟨id, name, atts, dims, enums, vars, scopes⟩ =>
    let s : Scope := ⟨id, name, atts, dims, enums, vars, scopes⟩
    (s, above) :: chainsAll (s :: above) scopes

def chainsAll (above : List Scope) : List Scope → List (Scope × List Scope)
  | [] => []
  | s :: rest => s.chains above ++ chainsAll above rest

end

end Scope

/-- A built tree. `serial` tells trees apart that were built apart, however equal they are. -/
structure NamespaceTree where
  serial : Nat
  context : DatasetContext
  root : Scope
  deriving Inhabited

/-- One scope of a tree; `above` are the scopes around it, the nearest first. -/
structure Place where
  tree : NamespaceTree
  scope : Scope
  above : List Scope

namespace Place

/-- The scope and those around it, up to the root. -/
def chain (p : Place) : List Scope := p.scope :: p.above

def isRoot (p : Place) : Bool := p.above.isEmpty

def parent? (p : Place) : Option Place :=
  match p.above with
  | [] => none
  | s :: above => some ⟨p.tree, s, above⟩

def enter (p : Place) (s : Scope) : Place := ⟨p.tree, s, p.chain⟩

def children (p : Place) : List Place := p.scope.scopes.map p.enter

def child? (p : Place) (name : String) : Option Place := (p.scope.scope? name).map p.enter

def frames (p : Place) : List Frame := p.chain.map Scope.frame

/-- Names from below the root down to here. -/
def path (p : Place) : List String := Frame.path p.frames

def fullName (p : Place) : String := Frame.fullName p.frames

/-! ### Looking upward -/

/-- The nearest declaration of a shared dimension. -/
def findDimension? (p : Place) (name : String) : Option Dimension := Frame.resolve? p.frames name

/-- A variable here or in the nearest scope around that has one of the name. -/
def findVariable? (p : Place) (name : String) : Option Variable :=
  p.chain.findSome? fun s => s.var? name

def findEnum? (p : Place) (name : String) : Option EnumTypedef :=
  p.chain.findSome? fun s => s.enum? name

/-- The dimensions that a shape written here stands for. -/
def makeDimensions (p : Place) (spec : String) : Except Fault (List Dimension) :=
  (DimSpec.parse spec).bind (Frame.shape p.frames)

/-! ### Places of one tree -/

def sameTree (p q : Place) : Bool := p.tree.serial == q.tree.serial

/-- Whether `p` is `q` or a scope around it. -/
def encloses (p q : Place) : Bool := p.sameTree q && q.chain.any fun s => s.id = p.scope.id

/-- The first place from `q` upward that encloses `p`. -/
def firstEnclosing? (tree : NamespaceTree) (p : Place) : List Scope → Option Place
  | [] => none
  | s :: above =>
    let q : Place := ⟨tree, s, above⟩
    if q.encloses p then some q else firstEnclosing? tree p above

/-- The innermost place that encloses both, for places of one tree. -/
def commonAncestor? (p q : Place) : Option Place :=
  if !p.sameTree q then none
  else if p.encloses q then some p
  else firstEnclosing? q.tree p q.chain

/-! ### Places of any two trees -/

def sameNames : List Scope → List Scope → Bool
  | [], [] => true
  | s :: ss, t :: ts => s.name == t.name && sameNames ss ts
  | _, _ => false

/-- One and the same place, or equal names all the way up. -/
def same (p q : Place) : Bool :=
  (p.sameTree q && p.scope.id == q.scope.id) || sameNames p.chain q.chain

/-- How a name and the digest of what is around it are digested. -/
abbrev Digest := String → Option UInt64 → UInt64

def standardDigest : Digest := fun name around => mixHash (hash name) (hash around)

/-- Digests computed so far, by tree and scope. -/
abbrev DigestCache := List ((Nat × Nat) × UInt64)

/-- The digest of a chain, taken from the cache or computed outward in and kept. -/
def digestChain (digest : Digest) (serial : Nat) (cache : DigestCache) :
    List Scope → Option UInt64 × DigestCache
  | [] => (none, cache)
  | s :: above =>
    match cache.lookup (serial, s.id) with
    | some h => (some h, cache)
    | none =>
      let r := digestChain digest serial cache above
      let h := digest s.name r.1
      (some h, ((serial, s.id), h) :: r.2)

def digest (d : Digest) (cache : DigestCache) (p : Place) : Option UInt64 × DigestCache :=
  digestChain d p.tree.serial cache p.chain

end Place

namespace NamespaceTree

def rootPlace (t : NamespaceTree) : Place := ⟨t, t.root, []⟩

/-- The number of scopes. -/
def size (t : NamespaceTree) : Nat := t.root.size

/-- All places, depth first. -/
def walk (t : NamespaceTree) : List Place := (t.root.chains []).map fun c => ⟨t, c.1, c.2⟩

/-- Follow the names between slashes from the root; empty ones do not count. -/
def placeAt? (t : NamespaceTree) (path : String) : Option Place :=
  ((path.toList.splitOn '/').filter fun name => !name.isEmpty).foldlM
    (fun p name => p.child? (String.ofList name)) t.rootPlace

/-- The variable named behind the last slash, in the scope that the rest leads to; slashes at the end
do not count. -/
def variableAt? (t : NamespaceTree) (path : String) : Option Variable :=
  let trimmed := (path.toList.reverse.dropWhile (· == '/'))
  let name := (trimmed.takeWhile (· != '/')).reverse
  let scope := (trimmed.dropWhile (· != '/')).reverse
  (t.placeAt? (String.ofList scope)).bind fun p => p.scope.var? (String.ofList name)

/-- Equal structure; where the data comes from does not count. -/
def same (t u : NamespaceTree) : Bool := t.root.same u.root

end NamespaceTree
end SciArchive
