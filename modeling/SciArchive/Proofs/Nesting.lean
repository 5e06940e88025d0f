import SciArchive.Namespace.Build
import Mathlib.Data.List.Basic

/-! Drafts, variables and scopes as trees: induction on what lies right below, and the lists of
everything below at any depth. -/
namespace SciArchive

namespace VariableDraft

/-- Induction on the members. -/
@[elab_as_elim]
theorem inductionOnMembers {motive : VariableDraft → Prop}
    (draft : ∀ v : VariableDraft, (∀ m ∈ v.members, motive m) → motive v) : ∀ v, motive v
  | ⟨name, type, shape, atts, axis, members, context⟩ =>
    draft ⟨name, type, shape, atts, axis, members, context⟩ fun m hm =>
      have _hlt : sizeOf m < sizeOf members := List.sizeOf_lt_of_mem hm
      inductionOnMembers draft m
decreasing_by
  rw [VariableDraft.mk.sizeOf_spec]
  omega

mutual

/-- The draft and its members at any depth, each before its own members. -/
def nested : VariableDraft → List VariableDraft
  | ⟨name, type, shape, atts, axis, members, context⟩ =>
    ⟨name, type, shape, atts, axis, members, context⟩ :: nestedAll members

def nestedAll : List VariableDraft → List VariableDraft
  | [] => []
  | v :: vs => v.nested ++ nestedAll vs

end

theorem nestedAll_eq (vs : List VariableDraft) : nestedAll vs = vs.flatMap nested := by
  induction vs with
  | nil => rfl
  | cons v vs ih => simp [nestedAll, ih]

theorem nested_eq (v : VariableDraft) : v.nested = v :: v.members.flatMap nested := by
  cases v
  rw [nested, nestedAll_eq]

/-- What holds of all that is nested holds of the draft and of what is nested in its members. -/
theorem forall_nested {p : VariableDraft → Prop} {v : VariableDraft} :
    (∀ m ∈ v.nested, p m) ↔ p v ∧ ∀ m ∈ v.members, ∀ n ∈ m.nested, p n := by
  rw [nested_eq]
  simp only [List.forall_mem_cons, List.mem_flatMap]
  grind

theorem nested_trans {v m n : VariableDraft} (hm : m ∈ v.nested) (hn : n ∈ m.nested) : n ∈ v.nested := by
  induction v using inductionOnMembers with
  | draft v ih =>
    rw [nested_eq] at hm ⊢
    rcases List.mem_cons.mp hm with rfl | hm
    · rw [← nested_eq]
      exact hn
    · obtain ⟨member, hmember, hm⟩ := List.mem_flatMap.mp hm
      exact List.mem_cons_of_mem _ (List.mem_flatMap.mpr ⟨member, hmember, ih member hmember hm⟩)

end VariableDraft

namespace Variable

/-- Induction on the members. -/
@[elab_as_elim]
theorem inductionOnMembers {motive : Variable → Prop}
    (var : ∀ v : Variable, (∀ m ∈ v.members, motive m) → motive v) : ∀ v, motive v
  | ⟨name, type, dims, atts, axis, members, scope, context⟩ =>
    var ⟨name, type, dims, atts, axis, members, scope, context⟩ fun m hm =>
      have _hlt : sizeOf m < sizeOf members := List.sizeOf_lt_of_mem hm
      inductionOnMembers var m
decreasing_by
  rw [Variable.mk.sizeOf_spec]
  omega

mutual

/-- The variable and its members at any depth, each before its own members. -/
def nested : Variable → List Variable
  | ⟨name, type, dims, atts, axis, members, scope, context⟩ =>
    ⟨name, type, dims, atts, axis, members, scope, context⟩ :: nestedAll members

def nestedAll : List Variable → List Variable
  | [] => []
  | v :: vs => v.nested ++ nestedAll vs

end

theorem nestedAll_eq (vs : List Variable) : nestedAll vs = vs.flatMap nested := by
  induction vs with
  | nil => rfl
  | cons v vs ih => simp [nestedAll, ih]

theorem nested_eq (v : Variable) : v.nested = v :: v.members.flatMap nested := by
  cases v
  rw [nested, nestedAll_eq]

theorem self_mem_nested (v : Variable) : v ∈ v.nested := by
  rw [nested_eq]
  exact List.mem_cons_self

theorem forall_nested {p : Variable → Prop} {v : Variable} :
    (∀ m ∈ v.nested, p m) ↔ p v ∧ ∀ m ∈ v.members, ∀ n ∈ m.nested, p n := by
  rw [nested_eq]
  simp only [List.forall_mem_cons, List.mem_flatMap]
  grind

theorem nested_trans {v m n : Variable} (hm : m ∈ v.nested) (hn : n ∈ m.nested) : n ∈ v.nested := by
  induction v using inductionOnMembers with
  | var v ih =>
    rw [nested_eq] at hm ⊢
    rcases List.mem_cons.mp hm with rfl | hm
    · rw [← nested_eq]
      exact hn
    · obtain ⟨member, hmember, hm⟩ := List.mem_flatMap.mp hm
      exact List.mem_cons_of_mem _ (List.mem_flatMap.mpr ⟨member, hmember, ih member hmember hm⟩)

theorem toDrafts_eq (vs : List Variable) : toDrafts vs = vs.map toDraft := by
  induction vs with
  | nil => rfl
  | cons v vs ih => rw [toDrafts, ih, List.map_cons]

theorem toDraft_eq (v : Variable) :
    v.toDraft = ⟨v.name, v.dataType, v.dimensions.map DimSpec.ofDimension, v.attributes.thaw, v.axis,
      v.members.map toDraft, some v.context⟩ := by
  cases v
  rw [toDraft, toDrafts_eq]

theorem nested_toDraft (v : Variable) : v.toDraft.nested = v.nested.map toDraft := by
  induction v using inductionOnMembers with
  | var v ih =>
    have hmembers : v.toDraft.members = v.members.map toDraft := congrArg VariableDraft.members (toDraft_eq v)
    rw [nested_eq v, VariableDraft.nested_eq, hmembers, List.flatMap_map, List.map_cons, List.map_flatMap]
    exact congrArg (v.toDraft :: ·) (List.flatMap_congr ih)

end Variable

namespace ScopeDraft

/-- Induction on the scopes right below. -/
@[elab_as_elim]
theorem inductionOnScopes {motive : ScopeDraft → Prop}
    (draft : ∀ d : ScopeDraft, (∀ s ∈ d.scopes, motive s) → motive d) : ∀ d, motive d
  | ⟨name, atts, dims, enums, scopes, vars, context, built⟩ =>
    draft ⟨name, atts, dims, enums, scopes, vars, context, built⟩ fun s hs =>
      have _hlt : sizeOf s < sizeOf scopes := List.sizeOf_lt_of_mem hs
      inductionOnScopes draft s
decreasing_by
  rw [ScopeDraft.mk.sizeOf_spec]
  omega

mutual

/-- The draft and the drafts below it at any depth, each before those below it. -/
def nested : ScopeDraft → List ScopeDraft
  | ⟨name, atts, dims, enums, scopes, vars, context, built⟩ =>
    ⟨name, atts, dims, enums, scopes, vars, context, built⟩ :: nestedAll scopes

def nestedAll : List ScopeDraft → List ScopeDraft
  | [] => []
  | s :: rest => s.nested ++ nestedAll rest

end

mutual

/-- The drafts at any depth, each with the drafts around it, nearest first. -/
def chains (above : List ScopeDraft) : ScopeDraft → List (ScopeDraft × List ScopeDraft)
  | ⟨name, atts, dims, enums, scopes, vars, context, built⟩ =>
    let d : ScopeDraft := ⟨name, atts, dims, enums, scopes, vars, context, built⟩
    (d, above) :: chainsAll (d :: above) scopes

def chainsAll (above : List ScopeDraft) : List ScopeDraft → List (ScopeDraft × List ScopeDraft)
  | [] => []
  | s :: rest => s.chains above ++ chainsAll above rest

end

theorem nestedAll_eq (ds : List ScopeDraft) : nestedAll ds = ds.flatMap nested := by
  induction ds with
  | nil => rfl
  | cons d ds ih => simp [nestedAll, ih]

theorem nested_eq (d : ScopeDraft) : d.nested = d :: d.scopes.flatMap nested := by
  cases d
  rw [nested, nestedAll_eq]

theorem forall_nested {p : ScopeDraft → Prop} {d : ScopeDraft} :
    (∀ s ∈ d.nested, p s) ↔ p d ∧ ∀ s ∈ d.scopes, ∀ n ∈ s.nested, p n := by
  rw [nested_eq]
  simp only [List.forall_mem_cons, List.mem_flatMap]
  grind

theorem nested_trans {d s n : ScopeDraft} (hs : s ∈ d.nested) (hn : n ∈ s.nested) : n ∈ d.nested := by
  induction d using inductionOnScopes with
  | draft d ih =>
    rw [nested_eq] at hs ⊢
    rcases List.mem_cons.mp hs with rfl | hs
    · rw [← nested_eq]
      exact hn
    · obtain ⟨child, hchild, hs⟩ := List.mem_flatMap.mp hs
      exact List.mem_cons_of_mem _ (List.mem_flatMap.mpr ⟨child, hchild, ih child hchild hs⟩)

theorem chainsAll_eq (above ds : List ScopeDraft) : chainsAll above ds = ds.flatMap (chains above) := by
  induction ds with
  | nil => rfl
  | cons d ds ih => simp [chainsAll, ih]

theorem chains_eq (above : List ScopeDraft) (d : ScopeDraft) :
    d.chains above = (d, above) :: d.scopes.flatMap (chains (d :: above)) := by
  cases d
  rw [chains, chainsAll_eq]

theorem map_fst_chains (d : ScopeDraft) (above : List ScopeDraft) :
    (d.chains above).map Prod.fst = d.nested := by
  induction d using inductionOnScopes generalizing above with
  | draft d ih =>
    rw [chains_eq, nested_eq, List.map_cons, List.map_flatMap]
    exact congrArg (d :: ·) (List.flatMap_congr fun s hs => ih s hs (d :: above))

end ScopeDraft

namespace Scope

/-- Induction on the scopes right below. -/
@[elab_as_elim]
theorem inductionOnScopes {motive : Scope → Prop}
    (scope : ∀ s : Scope, (∀ c ∈ s.scopes, motive c) → motive s) : ∀ s, motive s
  | ⟨id, name, atts, dims, enums, vars, scopes⟩ =>
    scope ⟨id, name, atts, dims, enums, vars, scopes⟩ fun c hc =>
      have _hlt : sizeOf c < sizeOf scopes := List.sizeOf_lt_of_mem hc
      inductionOnScopes scope c
decreasing_by
  rw [Scope.mk.sizeOf_spec]
  omega

theorem chainsAll_eq (above ss : List Scope) : chainsAll above ss = ss.flatMap (chains above) := by
  induction ss with
  | nil => rfl
  | cons s ss ih => simp [chainsAll, ih]

theorem chains_eq (above : List Scope) (s : Scope) :
    s.chains above = (s, above) :: s.scopes.flatMap (chains (s :: above)) := by
  cases s
  rw [chains, chainsAll_eq]

theorem toDrafts_eq (ss : List Scope) : toDrafts ss = ss.map toDraft := by
  induction ss with
  | nil => rfl
  | cons s ss ih => rw [toDrafts, ih, List.map_cons]

theorem toDraft_eq (s : Scope) :
    s.toDraft = ⟨s.name, s.attributes.thaw, s.dimensions.map Dimension.detached, s.enums,
      s.scopes.map toDraft, s.vars.map Variable.toDraft, none, false⟩ := by
  cases s
  rw [toDraft, toDrafts_eq, Variable.toDrafts_eq]

theorem nested_toDraft (s : Scope) (above : List Scope) :
    s.toDraft.nested = (s.chains above).map fun c => c.1.toDraft := by
  induction s using inductionOnScopes generalizing above with
  | scope s ih =>
    have hscopes : s.toDraft.scopes = s.scopes.map toDraft := congrArg ScopeDraft.scopes (toDraft_eq s)
    rw [chains_eq, ScopeDraft.nested_eq, hscopes, List.flatMap_map, List.map_cons, List.map_flatMap]
    exact congrArg (s.toDraft :: ·) (List.flatMap_congr fun c hc => ih c hc (s :: above))

end Scope
end SciArchive
