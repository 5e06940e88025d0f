import SciArchive.Namespace.Outline
import SciArchive.Proofs.Comparison
import SciArchive.Proofs.RelatedLists
import SciArchive.Proofs.ScopeNumbers

/-! Trees that compare equal are read alike. Comparing leaves out numbers, owners and datasets, and none of
these shows in what a path leads to, in what is found upward from there, or in the outline. -/
namespace SciArchive

/-! ### What equality keeps -/

namespace Variable

variable {v w : Variable}

/-- Equality, part by part. -/
structure Alike (v w : Variable) : Prop where
  name : v.name = w.name
  dataType : v.dataType = w.dataType
  axis : v.axis = w.axis
  attributes : v.attributes.same w.attributes = true
  members : List.Forall₂ (fun m n => m.same n = true) v.members w.members
  dimensions : v.dimensions.map Dimension.detached = w.dimensions.map Dimension.detached

theorem alike_of_same (h : v.same w = true) : v.Alike w := by
  obtain ⟨name, type, dims, atts, axis, members, scope, context⟩ := v
  obtain ⟨name', type', dims', atts', axis', members', scope', context'⟩ := w
  simp only [same, Bool.and_eq_true, beq_iff_eq, sameAll_iff] at h
  obtain ⟨⟨⟨⟨⟨hname, htype⟩, haxis⟩, hatts⟩, hmembers⟩, hdims⟩ := h
  exact ⟨hname, htype, haxis, hatts, hmembers, hdims⟩

end Variable

namespace Scope

variable {s t : Scope}

/-- Equality, part by part. -/
structure Alike (s t : Scope) : Prop where
  name : s.name = t.name
  attributes : s.attributes.same t.attributes = true
  enums : s.enums = t.enums
  vars : List.Forall₂ (fun v w => v.same w = true) s.vars t.vars
  dimensions : s.dimensions.map Dimension.detached = t.dimensions.map Dimension.detached
  scopes : List.Forall₂ (fun c d => c.same d = true) s.scopes t.scopes

theorem alike_of_same (h : s.same t = true) : s.Alike t := by
  obtain ⟨id, name, atts, dims, enums, vars, scopes⟩ := s
  obtain ⟨id', name', atts', dims', enums', vars', scopes'⟩ := t
  simp only [same, Bool.and_eq_true, beq_iff_eq, Variable.sameAll_iff, sameAll_iff] at h
  obtain ⟨⟨⟨⟨⟨hname, hatts⟩, henums⟩, hvars⟩, hdims⟩, hscopes⟩ := h
  exact ⟨hname, hatts, henums, hvars, hdims, hscopes⟩

theorem size_eq_of_same (h : s.same t = true) : s.size = t.size := by
  induction s using inductionOnScopes generalizing t with
  | scope s ih =>
    have hsizes := map_eq_of_related (alike_of_same h).scopes fun c hc {_} hsame => ih c hc hsame
    rw [size_eq, size_eq, sizeAll_eq, sizeAll_eq, hsizes]

theorem var?_rel (h : s.same t = true) (name : String) :
    Option.Rel (fun v w => v.same w = true) (s.var? name) (t.var? name) :=
  find?_rel (alike_of_same h).vars fun hvars => by simp [(Variable.alike_of_same hvars).name]

end Scope

/-! ### Upward -/

namespace Frame

/-- The frame without the owners of its dimensions. -/
def detached (f : Frame) : Frame := ⟨f.name, f.dimensions.map Dimension.detached⟩

theorem resolve?_detached (frames : List Frame) (name : String) :
    resolve? (frames.map detached) name = (resolve? frames name).map Dimension.detached := by
  induction frames with
  | nil => rfl
  | cons f frames ih =>
    have hfind : (f.dimensions.map Dimension.detached).find? (Dimension.isNamed name) =
        (f.dimensions.find? (Dimension.isNamed name)).map Dimension.detached := List.find?_map
    simp only [resolve?, List.map_cons, List.findSome?_cons, detached, hfind] at ih ⊢
    cases f.dimensions.find? (Dimension.isNamed name) with
    | none => exact ih
    | some d => rfl

theorem path_detached (frames : List Frame) : path (frames.map detached) = path frames := by
  simp [path, ← List.map_dropLast, Function.comp_def, detached]

theorem dimension_detached (frames : List Frame) (spec : DimSpec) :
    dimension (frames.map detached) spec = (dimension frames spec).map Dimension.detached := by
  cases spec with
  | fixed n => rfl
  | varying => rfl
  | shared name =>
    rw [dimension, dimension, resolve?_detached, fullName, fullName, path_detached]
    cases resolve? frames name <;> rfl

theorem shape_detached (frames : List Frame) (specs : List DimSpec) :
    shape (frames.map detached) specs = (shape frames specs).map (List.map Dimension.detached) := by
  induction specs with
  | nil => rfl
  | cons spec specs ih =>
    simp only [shape, List.mapM_cons, dimension_detached] at ih ⊢
    rw [ih]
    cases dimension frames spec <;> cases specs.mapM (dimension frames) <;> rfl

end Frame

namespace Place

variable {p q : Place}

/-- Equal scopes all the way up. -/
def Alike (p q : Place) : Prop := List.Forall₂ (fun s t => s.same t = true) p.chain q.chain

/-- A reader who stands at either place reads the same. -/
structure ReadsAlike (p q : Place) : Prop where
  fullName : p.fullName = q.fullName
  dimension (name : String) :
    (p.findDimension? name).map Dimension.detached = (q.findDimension? name).map Dimension.detached
  findVariable (name : String) :
    Option.Rel (fun v w => v.same w = true) (p.findVariable? name) (q.findVariable? name)
  enum (name : String) : p.findEnum? name = q.findEnum? name
  shape (spec : String) : (p.makeDimensions spec).map (List.map Dimension.detached) =
    (q.makeDimensions spec).map (List.map Dimension.detached)

theorem Alike.frames_eq (h : p.Alike q) : p.frames.map Frame.detached = q.frames.map Frame.detached := by
  simp only [frames, List.map_map]
  refine map_eq_of_related h fun s _ {t} hsame => ?_
  have halike := Scope.alike_of_same hsame
  simp [Scope.frame, Frame.detached, halike.name, halike.dimensions]

theorem Alike.readsAlike (h : p.Alike q) : p.ReadsAlike q where
  fullName := by
    rw [fullName, fullName, Frame.fullName, Frame.fullName, ← Frame.path_detached, h.frames_eq, Frame.path_detached]
  dimension name := by
    rw [findDimension?, findDimension?, ← Frame.resolve?_detached, h.frames_eq, Frame.resolve?_detached]
  findVariable name := findSome?_rel h fun hsame => Scope.var?_rel hsame name
  enum name := by
    have henums := map_eq_of_related h fun s _ {t} hsame =>
      show s.enum? name = t.enum? name by rw [Scope.enum?, Scope.enum?, (Scope.alike_of_same hsame).enums]
    simpa [findEnum?, List.findSome?_map] using congrArg (List.findSome? id) henums
  shape spec := by
    simp only [makeDimensions]
    cases DimSpec.parse spec with
    | error e => rfl
    | ok specs =>
      change (Frame.shape p.frames specs).map _ = (Frame.shape q.frames specs).map _
      rw [← Frame.shape_detached, h.frames_eq, Frame.shape_detached]

theorem Alike.child? (h : p.Alike q) (name : String) : Option.Rel Alike (p.child? name) (q.child? name) := by
  have hscopes := (Scope.alike_of_same (List.forall₂_cons.mp h).1).scopes
  have hfound : Option.Rel (fun c d => c.same d = true) (p.scope.scope? name) (q.scope.scope? name) :=
    find?_rel hscopes fun hsame => by simp [(Scope.alike_of_same hsame).name]
  exact map_rel hfound fun hsame => List.forall₂_cons.mpr ⟨hsame, h⟩

end Place

/-! ### Outlines -/

namespace Variable

variable {v w : Variable}

theorem label_detached (v : Variable) :
    label { v with dimensions := v.dimensions.map Dimension.detached } = v.label := by
  simp [label, Function.comp_def, Dimension.detached]

theorem Alike.label_eq (h : v.Alike w) : v.label = w.label := by
  rw [← label_detached v, ← label_detached w]
  simp only [label, h.name, h.dataType, h.axis, h.dimensions]

theorem outlineAll_eq (vs : List Variable) : outlineAll vs = vs.map outline := by
  induction vs with
  | nil => rfl
  | cons v vs ih => rw [outlineAll, ih, List.map_cons]

theorem outline_eq (v : Variable) : v.outline = ⟨v.label, v.members.map outline⟩ := by
  cases v
  rw [outline, outlineAll_eq]

theorem outline_eq_of_same (h : v.same w = true) : v.outline = w.outline := by
  induction v using inductionOnMembers generalizing w with
  | var v ih =>
    have halike := alike_of_same h
    have hmembers := map_eq_of_related halike.members fun m hm {_} hsame => ih m hm hsame
    rw [outline_eq, outline_eq, halike.label_eq, hmembers]

end Variable

namespace Scope

variable {s t : Scope}

theorem outlineAll_eq (ss : List Scope) : outlineAll ss = ss.map fun s => s.outline (s.name ++ "/") := by
  induction ss with
  | nil => rfl
  | cons s ss ih => rw [outlineAll, ih, List.map_cons]

theorem outline_eq (label : String) (s : Scope) : s.outline label =
    ⟨label, s.dimensions.map Dimension.outline ++ s.vars.map Variable.outline ++
      s.scopes.map fun c => c.outline (c.name ++ "/")⟩ := by
  cases s
  rw [outline, outlineAll_eq, Variable.outlineAll_eq]

theorem map_outline_detached (dims : List Dimension) :
    (dims.map Dimension.detached).map Dimension.outline = dims.map Dimension.outline := by
  rw [List.map_map]
  rfl

theorem outline_eq_of_same (h : s.same t = true) (label : String) : s.outline label = t.outline label := by
  induction s using inductionOnScopes generalizing t label with
  | scope s ih =>
    have halike := alike_of_same h
    have hdims : s.dimensions.map Dimension.outline = t.dimensions.map Dimension.outline := by
      rw [← map_outline_detached, halike.dimensions, map_outline_detached]
    have hvars := map_eq_of_related halike.vars fun v _ {_} hsame => Variable.outline_eq_of_same hsame
    have hscopes : s.scopes.map (fun c => c.outline (c.name ++ "/")) =
        t.scopes.map fun c => c.outline (c.name ++ "/") := by
      refine map_eq_of_related halike.scopes fun c hc {d} hsame => ?_
      rw [(alike_of_same hsame).name, ih c hc hsame]
    rw [outline_eq, outline_eq, hdims, hvars, hscopes]

end Scope

namespace NamespaceTree

variable {t u : NamespaceTree}

theorem placeAt?_rel (h : t.same u = true) (path : String) :
    Option.Rel Place.Alike (t.placeAt? path) (u.placeAt? path) :=
  have hroot : t.rootPlace.Alike u.rootPlace := List.forall₂_cons.mpr ⟨h, .nil⟩
  foldlM_rel hroot _ fun hpq _ => hpq.child? _

/-- Whatever is read of trees that compare equal is equal: how many scopes there are, what every path leads to
and what is found upward from there, and the outline. -/
theorem same_readsAlike (h : t.same u = true) :
    t.size = u.size ∧
      (∀ path, Option.Rel Place.ReadsAlike (t.placeAt? path) (u.placeAt? path)) ∧
      (∀ path, Option.Rel (fun v w => v.same w = true) (t.variableAt? path) (u.variableAt? path)) ∧
      ∀ title, t.render title = u.render title := by
  refine ⟨Scope.size_eq_of_same h, fun path => ?_, fun path => ?_, fun title => ?_⟩
  · exact rel_imp (placeAt?_rel h path) Place.Alike.readsAlike
  · unfold variableAt?
    exact bind_rel (placeAt?_rel h _) fun {p q} hpq => Scope.var?_rel (List.forall₂_cons.mp hpq).1 _
  · rw [render, render, outline, outline, Scope.outline_eq_of_same h]

/-- A variable in the scope `inner`, along a dimension of the root, from a dataset. -/
def alongX (location : String) : ScopeDraft :=
  (ScopeDraft.Operation.run [.addDimension (.ofName "x" 2), .addScope (ScopeDraft.Operation.run
    [.addVariable ((VariableDraft.new "along" .int).withShape [.shared "x"])] (.new "inner")).2]
    (ScopeDraft.root.withContext ⟨location, none⟩)).2

theorem same_readsAlike_alongX :
    ∃ t u, ((alongX "here").build 0).1 = .ok t ∧ ((alongX "there").build 1).1 = .ok u ∧
      t.serial ≠ u.serial ∧ t.context ≠ u.context ∧ t.same u = true ∧
      (∃ p q, t.placeAt? "/inner" = some p ∧ u.placeAt? "/inner" = some q ∧ p.ReadsAlike q) ∧
      t.render none = u.render none := by
  have hbuilt : ∃ t u, ((alongX "here").build 0).1 = .ok t ∧ ((alongX "there").build 1).1 = .ok u ∧
      t.serial ≠ u.serial ∧ t.context ≠ u.context ∧ t.same u = true ∧ (t.placeAt? "/inner").isSome = true :=
    ⟨_, _, rfl, rfl, by decide, by decide, by decide +kernel, by decide +kernel⟩
  obtain ⟨t, u, ht, hu, hserial, hcontext, hsame, hsome⟩ := hbuilt
  obtain ⟨-, hplaces, -, hrender⟩ := same_readsAlike hsame
  have hinner := hplaces "/inner"
  cases hp : t.placeAt? "/inner" <;> cases hq : u.placeAt? "/inner" <;> simp only [hp, hq] at hinner hsome
  · cases hsome
  · cases hsome
  · cases hinner
  · exact ⟨t, u, ht, hu, hserial, hcontext, hsame, ⟨_, _, hp, hq, Option.rel_some_some.mp hinner⟩, hrender none⟩

end NamespaceTree
end SciArchive
