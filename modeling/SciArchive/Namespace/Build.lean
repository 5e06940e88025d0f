import SciArchive.Namespace.Draft
import SciArchive.Namespace.Tree

/-! From drafts to trees and back. Building numbers the scopes depth first, makes each scope the owner of
its dimensions, and resolves every shape inside the scopes around it. -/
namespace SciArchive
namespace ScopeDraft

mutual

/-- Build the scope numbered `id` inside `frames`. -/
def realize (frames : List Frame) (context : DatasetContext) (id : Nat) :
    ScopeDraft → Except Fault Scope
  | ⟨name, atts, dims, enums, scopes, vars, _, _⟩ =>
    let dims := dims.map (Dimension.ownedBy id)
    let frames := ⟨name, dims⟩ :: frames
    match VariableDraft.realizeAll frames id context vars with
    | .error e => .error e
    | .ok vars =>
      match realizeAll frames context (id + 1) scopes with
      | .error e => .error e
      | .ok scopes => .ok ⟨id, name, atts.freeze, dims, enums, vars, scopes⟩

def realizeAll (frames : List Frame) (context : DatasetContext) (id : Nat) :
    List ScopeDraft → Except Fault (List Scope)
  | [] => .ok []
  | s :: rest =>
    match s.realize frames context id with
    | .error e => .error e
    | .ok scope =>
      match realizeAll frames context (id + s.size) rest with
      | .error e => .error e
      | .ok scopes => .ok (scope :: scopes)

end

/-- Build a tree with this scope as its root. It can be done once: the draft and those below it are
built then. A failure leaves all of them as they were. -/
def build (serial : Nat) : Edit NamespaceTree := whenOpen fun d =>
  let context := d.context.getD {}
  match d.realize [] context 0 with
  | .error e => (.error e, d)
  | .ok root => (.ok ⟨serial, context, root⟩, d.markBuilt)

end ScopeDraft

namespace Scope

mutual

/-- A draft that brings back the scope and everything below it. -/
def toDraft : Scope → ScopeDraft
  | ⟨_, name, atts, dims, enums, vars, scopes⟩ =>
    { name, attributes := atts.thaw, dimensions := dims.map Dimension.detached, enums
      scopes := toDrafts scopes, vars := Variable.toDrafts vars }

def toDrafts : List Scope → List ScopeDraft
  | [] => []
  | s :: rest => s.toDraft :: toDrafts rest

end

end Scope

def NamespaceTree.toDraft (t : NamespaceTree) : ScopeDraft := t.root.toDraft.withContext t.context

end SciArchive
