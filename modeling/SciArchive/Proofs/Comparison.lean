import Mathlib.Data.List.Forall2
import SciArchive.Proofs.Nesting

/-! Comparing trees. A value is the same as itself unless it holds a NaN, and so are the attributes,
variables, scopes and trees that it is part of. -/
namespace SciArchive

theorem FloatFormat.same_self (f : FloatFormat) (word : Nat) : f.same word word = !f.isNaN word := by
  simp [same]

namespace Value

mutual

/-- The value is a NaN, or an array with one in it. -/
def holdsNaN : Value → Bool
  | float bits => FloatFormat.single.isNaN bits.toNat
  | double bits => FloatFormat.double.isNaN bits.toNat
  | array items => anyHoldsNaN items
  | _ => false

def anyHoldsNaN : List Value → Bool
  | [] => false
  | v :: vs => v.holdsNaN || anyHoldsNaN vs

end

mutual

theorem same_self : (v : Value) → v.same v = !v.holdsNaN
  | float bits => by rw [same, holdsNaN, FloatFormat.same_self]
  | double bits => by rw [same, holdsNaN, FloatFormat.same_self]
  | array items => by rw [same, holdsNaN, sameAll_self items]
  | byte _ | ubyte _ | short _ | ushort _ | int _ | uint _ | long _ | ulong _ | char _ | text _ => by
    simp [same, holdsNaN]

theorem sameAll_self : (vs : List Value) → sameAll vs vs = !anyHoldsNaN vs
  | [] => rfl
  | v :: vs => by rw [sameAll, anyHoldsNaN, same_self v, sameAll_self vs, Bool.not_or]

end

end Value

namespace AttributeSnapshot

def HoldsNaN (s : AttributeSnapshot) : Prop := ∃ a ∈ s.items, a.value.holdsNaN = true

theorem sameItems_self (items : List Attribute) :
    AttributeSet.sameItems items items = true ↔ ∀ a ∈ items, a.value.holdsNaN = false := by
  induction items with
  | nil => simp [AttributeSet.sameItems]
  | cons a items ih =>
    rw [AttributeSet.sameItems, Bool.and_eq_true, ih, List.forall_mem_cons, Attribute.same,
      Value.same_self]
    simp

theorem same_self (s : AttributeSnapshot) : s.same s = true ↔ ¬ s.HoldsNaN := by
  have hitems := sameItems_self s.items
  simp only [same, thaw, AttributeSet.same, beq_self_eq_true, Bool.true_and, HoldsNaN, hitems]
  simp

end AttributeSnapshot

namespace Variable

theorem sameAll_iff {vs ws : List Variable} :
    sameAll vs ws = true ↔ List.Forall₂ (fun v w => v.same w = true) vs ws := by
  induction vs generalizing ws with
  | nil => cases ws <;> simp [sameAll]
  | cons v vs ih => cases ws <;> simp [sameAll, ih]

theorem sameAll_self (vs : List Variable) : sameAll vs vs = true ↔ ∀ v ∈ vs, v.same v = true :=
  sameAll_iff.trans List.forall₂_same

theorem same_self (v : Variable) : v.same v = true ↔ ∀ m ∈ v.nested, ¬ m.attributes.HoldsNaN := by
  induction v using inductionOnMembers with
  | var v ih =>
    have hparts : v.same v = true ↔
        v.attributes.same v.attributes = true ∧ sameAll v.members v.members = true := by
      cases v
      simp [same]
    rw [hparts, AttributeSnapshot.same_self, sameAll_self, forall_nested]
    exact and_congr_right fun _ => forall₂_congr ih

end Variable

namespace Scope

/-- An attribute of the scope holds a NaN, or one of a variable in it or of a member. -/
def HoldsNaN (s : Scope) : Prop :=
  s.attributes.HoldsNaN ∨ ∃ v ∈ s.vars, ∃ m ∈ v.nested, m.attributes.HoldsNaN

theorem sameAll_iff {ss ts : List Scope} :
    sameAll ss ts = true ↔ List.Forall₂ (fun s t => s.same t = true) ss ts := by
  induction ss generalizing ts with
  | nil => cases ts <;> simp [sameAll]
  | cons s ss ih => cases ts <;> simp [sameAll, ih]

theorem sameAll_self (ss : List Scope) : sameAll ss ss = true ↔ ∀ s ∈ ss, s.same s = true :=
  sameAll_iff.trans List.forall₂_same

theorem same_self (s : Scope) (above : List Scope) :
    s.same s = true ↔ ∀ c ∈ s.chains above, ¬ c.1.HoldsNaN := by
  induction s using inductionOnScopes generalizing above with
  | scope s ih =>
    have hparts : s.same s = true ↔ (s.attributes.same s.attributes = true ∧
        Variable.sameAll s.vars s.vars = true) ∧ sameAll s.scopes s.scopes = true := by
      cases s
      simp [same]
    have hown : (¬ s.attributes.HoldsNaN ∧ ∀ v ∈ s.vars, v.same v = true) ↔ ¬ s.HoldsNaN := by
      simp only [HoldsNaN, not_or, not_exists, not_and, Variable.same_self]
    have hbelow : (∀ c ∈ s.scopes, c.same c = true) ↔
        ∀ c ∈ s.scopes.flatMap (chains (s :: above)), ¬ c.1.HoldsNaN := by
      rw [List.forall_mem_flatMap]
      exact forall₂_congr fun c hc => ih c hc (s :: above)
    rw [hparts, AttributeSnapshot.same_self, Variable.sameAll_self, sameAll_self, hown, hbelow,
      chains_eq, List.forall_mem_cons]

end Scope

namespace NamespaceTree

def HoldsNaN (t : NamespaceTree) : Prop := ∃ p ∈ t.walk, p.scope.HoldsNaN

theorem same_self (t : NamespaceTree) : t.same t = true ↔ ¬ t.HoldsNaN := by
  rw [same, Scope.same_self t.root []]
  simp [HoldsNaN, walk]

end NamespaceTree
end SciArchive
