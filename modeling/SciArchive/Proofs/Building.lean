import SciArchive.Proofs.Nesting
import SciArchive.Proofs.Outcomes

/-! What building makes of a draft: each variable and each scope is described by its draft, and a
failure is a reference to a dimension that nothing declares. -/
namespace SciArchive

/-! ### Shapes -/

namespace Frame

variable {frames : List Frame}

theorem dimension_error {spec : DimSpec} {e : Fault} (h : dimension frames spec = .error e) :
    ∃ name, spec = .shared name ∧ resolve? frames name = none ∧
      e = .unknownDimension name (fullName frames) := by
  cases spec with
  | fixed n => cases h
  | varying => cases h
  | shared name =>
    cases hfound : resolve? frames name with
    | some d => simp [dimension, hfound] at h
    | none =>
      simp only [dimension, hfound, Except.error.injEq] at h
      exact ⟨name, rfl, hfound, h.symm⟩

end Frame

/-! ### Variables -/

namespace VariableDraft

/-- What a draft is built to inside `frames`. -/
structure Realizes (frames : List Frame) (scope : Nat) (context : DatasetContext) (v : VariableDraft)
    (w : Variable) : Prop where
  name : w.name = v.name
  dataType : w.dataType = v.dataType
  shape : Frame.shape frames v.shape = .ok w.dimensions
  attributes : w.attributes = v.attributes.freeze
  axis : w.axis = v.axis
  members : realizeAll frames scope (v.context.getD context) v.members = .ok w.members
  scope : w.scope = scope
  context : w.context = v.context.getD context

variable {frames : List Frame} {scope : Nat} {context : DatasetContext}

theorem realize_eq_ok {v : VariableDraft} {w : Variable} :
    v.realize frames scope context = .ok w ↔ v.Realizes frames scope context w := by
  obtain ⟨name, type, specs, atts, axis, members, own⟩ := v
  constructor
  · intro h
    rw [realize] at h
    cases hshape : Frame.shape frames specs with
    | error e => simp [hshape] at h
    | ok dims =>
      cases hmembers : realizeAll frames scope (own.getD context) members with
      | error e => simp [hshape, hmembers] at h
      | ok built =>
        simp only [hshape, hmembers, Except.ok.injEq] at h
        subst h
        exact ⟨rfl, rfl, hshape, rfl, rfl, hmembers, rfl, rfl⟩
  · rintro ⟨rfl, rfl, hshape, hatts, rfl, hmembers, rfl, hcontext⟩
    obtain ⟨name, type, dims, atts', axis, built, scope, context'⟩ := w
    simp only at hshape hatts hmembers hcontext
    subst hatts hcontext
    rw [realize, hshape, hmembers]

theorem realizeAll_eq_mapM (vs : List VariableDraft) :
    realizeAll frames scope context vs = vs.mapM (realize frames scope context) := by
  induction vs with
  | nil => rfl
  | cons v vs ih =>
    rw [realizeAll, List.mapM_cons, ← ih]
    cases v.realize frames scope context with
    | error e => rfl
    | ok w => cases realizeAll frames scope context vs <;> rfl

theorem realizeAll_eq_ok {vs : List VariableDraft} {ws : List Variable} :
    realizeAll frames scope context vs = .ok ws ↔
      List.Forall₂ (fun v w => v.realize frames scope context = .ok w) vs ws := by
  rw [realizeAll_eq_mapM, mapM_eq_ok]

theorem realizeAll_error {vs : List VariableDraft} {e : Fault}
    (h : realizeAll frames scope context vs = .error e) :
    ∃ v ∈ vs, v.realize frames scope context = .error e := by
  rw [realizeAll_eq_mapM] at h
  exact mapM_error h

/-- A variable that cannot be built refers, or a member of it does, to a name that is not declared. -/
theorem realize_error {v : VariableDraft} {e : Fault} (h : v.realize frames scope context = .error e) :
    ∃ m ∈ v.nested, ∃ name, .shared name ∈ m.shape ∧ Frame.resolve? frames name = none ∧
      e = .unknownDimension name (Frame.fullName frames) := by
  induction v using inductionOnMembers generalizing context with
  | draft v ih =>
    obtain ⟨name, type, specs, atts, axis, members, own⟩ := v
    rw [realize] at h
    cases hshape : Frame.shape frames specs with
    | error f =>
      simp only [hshape, Except.error.injEq] at h
      obtain ⟨spec, hspec, hdim⟩ := mapM_error hshape
      obtain ⟨dim, rfl, hnone, he⟩ := Frame.dimension_error hdim
      exact ⟨_, by rw [nested_eq]; exact List.mem_cons_self, dim, hspec, hnone, h ▸ he⟩
    | ok dims =>
      cases hmembers : realizeAll frames scope (own.getD context) members with
      | ok built => simp [hshape, hmembers] at h
      | error f =>
        simp only [hshape, hmembers, Except.error.injEq] at h
        obtain ⟨m, hm, hrealize⟩ := realizeAll_error hmembers
        obtain ⟨n, hn, found⟩ := ih m hm (h ▸ hrealize)
        refine ⟨n, ?_, found⟩
        rw [nested_eq]
        exact List.mem_cons_of_mem _ (List.mem_flatMap.mpr ⟨m, hm, hn⟩)

end VariableDraft

/-! ### Scopes -/

namespace ScopeDraft

/-- What a draft is built to as the scope numbered `number` inside `frames`. -/
structure Realizes (frames : List Frame) (context : DatasetContext) (number : Nat) (d : ScopeDraft)
    (s : Scope) : Prop where
  id : s.id = number
  name : s.name = d.name
  attributes : s.attributes = d.attributes.freeze
  dimensions : s.dimensions = d.dimensions.map (Dimension.ownedBy number)
  enums : s.enums = d.enums
  vars : VariableDraft.realizeAll (s.frame :: frames) number context d.vars = .ok s.vars
  scopes : realizeAll (s.frame :: frames) context (number + 1) d.scopes = .ok s.scopes

variable {frames : List Frame} {context : DatasetContext} {id : Nat}

theorem realize_eq_ok {d : ScopeDraft} {s : Scope} :
    d.realize frames context id = .ok s ↔ d.Realizes frames context id s := by
  obtain ⟨name, atts, dims, enums, scopes, vars, own, built⟩ := d
  constructor
  · intro h
    rw [realize] at h
    split at h
    · cases h
    · rename_i vars' hvars
      split at h
      · cases h
      · rename_i scopes' hscopes
        rw [Except.ok.injEq] at h
        subst h
        exact ⟨rfl, rfl, rfl, rfl, rfl, hvars, hscopes⟩
  · obtain ⟨id', name', atts', dims', enums', vars', scopes'⟩ := s
    rintro ⟨hid, hname, hatts, hdims, henums, hvars, hscopes⟩
    simp only [Scope.frame] at hid hname hatts hdims henums hvars hscopes
    subst hid hname hatts hdims henums
    rw [realize]
    rw [hvars, hscopes]

theorem realizeAll_cons (d : ScopeDraft) (ds : List ScopeDraft) :
    realizeAll frames context id (d :: ds) =
      match d.realize frames context id with
      | .error e => .error e
      | .ok s => (realizeAll frames context (id + d.size) ds).map (s :: ·) := by
  rw [realizeAll]
  cases d.realize frames context id with
  | error e => rfl
  | ok s => cases realizeAll frames context (id + d.size) ds <;> rfl

theorem realizeAll_cons_ok {d : ScopeDraft} {ds : List ScopeDraft} {ss : List Scope} :
    realizeAll frames context id (d :: ds) = .ok ss ↔
      ∃ s rest, ss = s :: rest ∧ d.realize frames context id = .ok s ∧
        realizeAll frames context (id + d.size) ds = .ok rest := by
  rw [realizeAll_cons]
  cases d.realize frames context id with
  | error e => simp
  | ok s => cases realizeAll frames context (id + d.size) ds <;> simp [Except.map, eq_comm]

theorem realizeAll_ok {ds : List ScopeDraft} {ss : List Scope}
    (h : realizeAll frames context id ds = .ok ss) :
    List.Forall₂ (fun d s => ∃ id, d.realize frames context id = .ok s) ds ss := by
  induction ds generalizing id ss with
  | nil =>
    cases h
    exact .nil
  | cons d ds ih =>
    obtain ⟨s, rest, rfl, hs, hrest⟩ := realizeAll_cons_ok.mp h
    exact .cons ⟨id, hs⟩ (ih hrest)

theorem realizeAll_error {ds : List ScopeDraft} {e : Fault}
    (h : realizeAll frames context id ds = .error e) :
    ∃ d ∈ ds, ∃ id, d.realize frames context id = .error e := by
  induction ds generalizing id with
  | nil => cases h
  | cons d ds ih =>
    rw [realizeAll_cons] at h
    cases hd : d.realize frames context id with
    | error f =>
      simp only [hd, Except.error.injEq] at h
      exact ⟨d, List.mem_cons_self, id, h ▸ hd⟩
    | ok s =>
      cases hrest : realizeAll frames context (id + d.size) ds with
      | ok rest => simp [hd, hrest, Except.map] at h
      | error f =>
        simp only [hd, hrest, Except.map, Except.error.injEq] at h
        obtain ⟨found, hmem, hfound⟩ := ih (h ▸ hrest)
        exact ⟨found, List.mem_cons_of_mem _ hmem, hfound⟩

theorem build_eq_ok {d : ScopeDraft} {serial : Nat} {t : NamespaceTree} :
    (d.build serial).1 = .ok t ↔
      d.built = false ∧ t.serial = serial ∧ t.context = d.context.getD {} ∧
        d.realize [] t.context 0 = .ok t.root := by
  obtain ⟨serial', context, root⟩ := t
  rw [build, whenOpen]
  cases d.built with
  | true => simp
  | false =>
    cases hroot : d.realize [] (d.context.getD {}) 0 with
    | error e =>
      simp only [hroot, Bool.false_eq_true, if_false, reduceCtorEq, true_and, false_iff]
      rintro ⟨-, rfl, h⟩
      rw [hroot] at h
      cases h
    | ok s =>
      simp only [hroot, Bool.false_eq_true, if_false, Except.ok.injEq, NamespaceTree.mk.injEq,
        true_and]
      constructor
      · rintro ⟨rfl, rfl, rfl⟩
        exact ⟨rfl, rfl, hroot⟩
      · rintro ⟨rfl, rfl, h⟩
        rw [hroot] at h
        exact ⟨rfl, rfl, Except.ok.inj h⟩

theorem build_error {d : ScopeDraft} {serial : Nat} {e : Fault} (hopen : d.built = false)
    (h : (d.build serial).1 = .error e) : d.realize [] (d.context.getD {}) 0 = .error e := by
  rw [build, whenOpen, hopen] at h
  cases hroot : d.realize [] (d.context.getD {}) 0 with
  | error f => simpa [hroot] using h
  | ok s => simp [hroot] at h

end ScopeDraft
end SciArchive
