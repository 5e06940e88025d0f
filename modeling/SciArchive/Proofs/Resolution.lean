import SciArchive.Proofs.Building
import SciArchive.Proofs.RelatedLists

/-! References to dimensions. In a built tree each is the nearest declaration of its name, owned by the
scope that declares it; a draft is refused exactly when it refers to a name that nothing around it
declares. -/
namespace SciArchive

/-! ### Declarations -/

namespace Frame

/-- The frame once its scope has a number. -/
def ownedBy (scope : Nat) (f : Frame) : Frame := ⟨f.name, f.dimensions.map (Dimension.ownedBy scope)⟩

theorem resolve?_eq_none {frames : List Frame} {name : String} :
    resolve? frames name = none ↔ ∀ f ∈ frames, ∀ dim ∈ f.dimensions, dim.name ≠ some name := by
  simp [resolve?, Dimension.isNamed]

theorem fullName_congr {frames others : List Frame} (h : frames.map name = others.map name) :
    fullName frames = fullName others := by
  rw [fullName, fullName, path, path, List.map_dropLast, List.map_dropLast, h]

end Frame

namespace ScopeDraft

/-- What the draft declares. -/
def frame (d : ScopeDraft) : Frame := ⟨d.name, d.dimensions⟩

/-- A reference to a name that no scope around declares: it stands in a variable right below the draft,
or in a member of one at any depth. -/
def Dangling (c : ScopeDraft × List ScopeDraft) (name : String) : Prop :=
  (∃ v ∈ c.1.vars, ∃ m ∈ v.nested, .shared name ∈ m.shape) ∧
    ∀ s ∈ c.1 :: c.2, ∀ dim ∈ s.dimensions, dim.name ≠ some name

/-- The scope has the draft's name, and its dimensions as their owner. -/
def DeclaredAs (d : ScopeDraft) (s : Scope) : Prop := s.frame = d.frame.ownedBy s.id

end ScopeDraft

/-- What one word of a shape stands for at a place. -/
inductive Place.Resolves (p : Place) : DimSpec → Dimension → Prop
  | fixed (n : Nat) : Resolves p (.fixed n) ⟨none, .fixed n, false, false, none⟩
  | varying : Resolves p .varying ⟨none, .varying, false, false, none⟩
  | shared {name : String} {dim : Dimension} {s : Scope} {nearer outer : List Scope}
      (chain : p.chain = nearer ++ s :: outer)
      (nearest : ∀ n ∈ nearer, ∀ other ∈ n.dimensions, other.name ≠ some name)
      (declared : s.dimension? name = some dim)
      (named : dim.name = some name)
      (owner : dim.owner = some s.id) : Resolves p (.shared name) dim

/-- What a variable is built to at a place, its members with it. -/
inductive VariableDraft.BuiltAt (p : Place) : VariableDraft → Variable → Prop
  | intro {v : VariableDraft} {w : Variable}
      (name : w.name = v.name)
      (dataType : w.dataType = v.dataType)
      (attributes : w.attributes = v.attributes.freeze)
      (axis : w.axis = v.axis)
      (scope : w.scope = p.scope.id)
      (dimensions : List.Forall₂ p.Resolves v.shape w.dimensions)
      (members : List.Forall₂ (BuiltAt p) v.members w.members) : BuiltAt p v w

/-- What a draft, given with those around it, is built to. -/
structure ScopeDraft.BuiltAt (c : ScopeDraft × List ScopeDraft) (p : Place) : Prop where
  chain : List.Forall₂ DeclaredAs (c.1 :: c.2) p.chain
  attributes : p.scope.attributes = c.1.attributes.freeze
  enums : p.scope.enums = c.1.enums
  scopes : p.scope.scopes.map Scope.name = c.1.scopes.map ScopeDraft.name
  vars : List.Forall₂ (VariableDraft.BuiltAt p) c.1.vars p.scope.vars

/-! ### What is built -/

namespace Place

variable {p : Place}

theorem resolves_of_dimension (howned : ∀ s ∈ p.chain, ∀ dim ∈ s.dimensions, dim.owner = some s.id)
    {spec : DimSpec} {dim : Dimension} (h : Frame.dimension p.frames spec = .ok dim) :
    p.Resolves spec dim := by
  cases spec with
  | fixed n =>
    cases h
    exact .fixed n
  | varying =>
    cases h
    exact .varying
  | shared name =>
    have hfound : p.chain.findSome? (Scope.dimension? · name) = some dim := by
      rw [Frame.dimension, Frame.resolve?, frames, List.findSome?_map] at h
      split at h
      · rename_i found hfound
        cases h
        exact hfound
      · cases h
    obtain ⟨nearer, s, outer, hchain, hdecl, hnearer⟩ := List.findSome?_eq_some_iff.mp hfound
    have hs : s ∈ p.chain := by
      rw [hchain]
      exact List.mem_append_right _ List.mem_cons_self
    have hmem : dim ∈ s.dimensions := List.mem_of_find?_eq_some hdecl
    refine .shared hchain (fun n hn other hother => ?_) hdecl ?_ (howned s hs dim hmem)
    · simpa [Dimension.isNamed] using List.find?_eq_none.mp (hnearer n hn) other hother
    · simpa [Dimension.isNamed] using List.find?_some hdecl

theorem Resolves.dimension {spec : DimSpec} {dim : Dimension} (h : p.Resolves spec dim) :
    Frame.dimension p.frames spec = .ok dim := by
  cases h with
  | fixed n => rfl
  | varying => rfl
  | @shared name _ s nearer outer hchain hnearest hdecl _ _ =>
    have hnearer : ∀ n ∈ nearer, n.dimension? name = none := by
      intro n hn
      refine List.find?_eq_none.mpr fun other hother => ?_
      simpa [Dimension.isNamed] using hnearest n hn other hother
    have hfound : p.chain.findSome? (Scope.dimension? · name) = some dim :=
      List.findSome?_eq_some_iff.mpr ⟨nearer, s, outer, hchain, hdecl, hnearer⟩
    have hresolve : Frame.resolve? p.frames name = some dim := by
      rw [Frame.resolve?, frames, List.findSome?_map]
      exact hfound
    rw [Frame.dimension, hresolve]

/-- A name that a place resolves is declared around it. -/
theorem Resolves.declared_of_shared {name : String} {dim : Dimension} (h : p.Resolves (.shared name) dim) :
    ∃ s ∈ p.chain, ∃ dim ∈ s.dimensions, dim.name = some name := by
  cases h with
  | @shared _ _ s nearer outer hchain _ hdecl hnamed _ =>
    refine ⟨s, ?_, dim, List.mem_of_find?_eq_some hdecl, hnamed⟩
    rw [hchain]
    exact List.mem_append_right _ List.mem_cons_self

end Place

namespace VariableDraft

variable {p : Place}

theorem builtAt_of_realize
    (howned : ∀ s ∈ p.chain, ∀ dim ∈ s.dimensions, dim.owner = some s.id) {v : VariableDraft}
    {w : Variable} {context : DatasetContext}
    (h : v.realize p.frames p.scope.id context = .ok w) : v.BuiltAt p w := by
  induction v using inductionOnMembers generalizing w context with
  | draft v ih =>
    obtain ⟨hname, htype, hshape, hatts, haxis, hmembers, hscope, -⟩ := realize_eq_ok.mp h
    have hdims : List.Forall₂ p.Resolves v.shape w.dimensions :=
      (mapM_eq_ok.mp hshape).imp fun _ _ => Place.resolves_of_dimension howned
    have hbelow : List.Forall₂ (BuiltAt p) v.members w.members :=
      ((List.forall₂_and_left _ _).mpr ⟨ih, realizeAll_eq_ok.mp hmembers⟩).imp fun _ _ hm => hm.1 hm.2
    exact .intro hname htype hatts haxis hscope hdims hbelow

/-- The members of a built variable, at every depth, are built at its place. -/
theorem BuiltAt.nested {v : VariableDraft} {w : Variable} (h : v.BuiltAt p w) :
    ∀ m ∈ w.nested, ∃ n ∈ v.nested, n.BuiltAt p m := by
  induction v using inductionOnMembers generalizing w with
  | draft v ih =>
    have hself := h
    cases h with
    | intro _ _ _ _ _ _ hmembers =>
      rw [Variable.forall_nested, nested_eq]
      refine ⟨⟨v, List.mem_cons_self, hself⟩, fun member hmember m hm => ?_⟩
      obtain ⟨draft, hdraft, hbuilt⟩ := forall₂_mem_right hmembers hmember
      obtain ⟨n, hn, hbuiltAt⟩ := ih draft hdraft hbuilt m hm
      exact ⟨n, List.mem_cons_of_mem _ (List.mem_flatMap.mpr ⟨draft, hdraft, hn⟩), hbuiltAt⟩

/-- Every word of a built variable's shape is resolved, and so is every word of its members. -/
theorem BuiltAt.resolves {v : VariableDraft} {w : Variable} (h : v.BuiltAt p w) :
    ∀ m ∈ v.nested, ∀ spec ∈ m.shape, ∃ dim, p.Resolves spec dim := by
  induction v using inductionOnMembers generalizing w with
  | draft v ih =>
    cases h with
    | intro _ _ _ _ _ hdims hmembers =>
      rw [forall_nested]
      constructor
      · intro spec hspec
        obtain ⟨dim, -, hdim⟩ := forall₂_mem_left hdims hspec
        exact ⟨dim, hdim⟩
      · intro m hm
        obtain ⟨_, -, hbuilt⟩ := forall₂_mem_left hmembers hm
        exact ih m hm hbuilt

end VariableDraft

namespace ScopeDraft

variable {context : DatasetContext} {id : Nat}

theorem Realizes.declaredAs {frames : List Frame} {d : ScopeDraft} {s : Scope}
    (h : d.Realizes frames context id s) : d.DeclaredAs s := by
  rw [DeclaredAs, Scope.frame, h.name, h.dimensions, h.id]
  rfl

theorem DeclaredAs.owner {d : ScopeDraft} {s : Scope} (h : d.DeclaredAs s) :
    ∀ dim ∈ s.dimensions, dim.owner = some s.id := by
  intro dim hdim
  have hdims : s.dimensions = d.dimensions.map (Dimension.ownedBy s.id) := congrArg Frame.dimensions h
  rw [hdims] at hdim
  obtain ⟨declared, -, rfl⟩ := List.mem_map.mp hdim
  rfl

theorem DeclaredAs.names {d : ScopeDraft} {s : Scope} (h : d.DeclaredAs s) :
    s.dimensions.map Dimension.name = d.dimensions.map Dimension.name := by
  have hdims : s.dimensions = d.dimensions.map (Dimension.ownedBy s.id) := congrArg Frame.dimensions h
  rw [hdims, List.map_map]
  rfl

/-- Below built scopes a draft is built, at all depths, to what its variables and declarations say. -/
theorem builtAt_of_realize (tree : NamespaceTree) {d : ScopeDraft} {s : Scope}
    {around : List ScopeDraft} {above : List Scope} (haround : List.Forall₂ DeclaredAs around above)
    (h : d.realize (above.map Scope.frame) context id = .ok s) :
    List.Forall₂ (fun c q => BuiltAt c ⟨tree, q.1, q.2⟩) (d.chains around) (s.chains above) := by
  induction d using inductionOnScopes generalizing s around above id with
  | draft d ih =>
    have hreal := realize_eq_ok.mp h
    have hchain : List.Forall₂ DeclaredAs (d :: around) (s :: above) := .cons hreal.declaredAs haround
    have howned : ∀ n ∈ s :: above, ∀ dim ∈ n.dimensions, dim.owner = some n.id := by
      intro n hn
      obtain ⟨_, -, hdecl⟩ := forall₂_mem_right hchain hn
      exact hdecl.owner
    have hnames : s.scopes.map Scope.name = d.scopes.map ScopeDraft.name :=
      map_eq_of_forall₂ ((realizeAll_ok hreal.scopes).imp fun _ _ ⟨_, h⟩ => (realize_eq_ok.mp h).name)
    rw [chains_eq, Scope.chains_eq]
    refine .cons ⟨hchain, hreal.attributes, hreal.enums, hnames, ?_⟩ ?_
    · have hvars := hreal.vars
      rw [← hreal.id] at hvars
      exact (VariableDraft.realizeAll_eq_ok.mp hvars).imp fun _ _ =>
        VariableDraft.builtAt_of_realize (p := ⟨tree, s, above⟩) howned
    · have hscopes := (List.forall₂_and_left _ _).mpr ⟨ih, realizeAll_ok hreal.scopes⟩
      exact List.rel_flatMap hscopes fun child built hchild => hchild.1 hchain hchild.2.choose_spec

/-- A name that resolves where a draft is built does not dangle there. -/
theorem BuiltAt.not_dangling {c : ScopeDraft × List ScopeDraft} {p : Place} (h : BuiltAt c p)
    (name : String) : ¬ Dangling c name := by
  rintro ⟨⟨v, hv, m, hm, hspec⟩, hundeclared⟩
  obtain ⟨w, -, hbuilt⟩ := forall₂_mem_left h.vars hv
  obtain ⟨dim, hresolves⟩ := hbuilt.resolves m hm _ hspec
  obtain ⟨s, hs, found, hfound, hnamed⟩ := hresolves.declared_of_shared
  obtain ⟨d, hd, hdecl⟩ := forall₂_mem_right h.chain hs
  have hname : some name ∈ d.dimensions.map Dimension.name := by
    rw [← hdecl.names]
    exact List.mem_map.mpr ⟨found, hfound, hnamed⟩
  obtain ⟨declared, hmem, heq⟩ := List.mem_map.mp hname
  exact hundeclared d hd declared hmem heq

/-! ### What is refused -/

theorem realize_error {frames : List Frame} {d : ScopeDraft} {e : Fault}
    (h : d.realize frames context id = .error e) :
    VariableDraft.realizeAll (d.frame.ownedBy id :: frames) id context d.vars = .error e ∨
      realizeAll (d.frame.ownedBy id :: frames) context (id + 1) d.scopes = .error e := by
  obtain ⟨name, atts, dims, enums, scopes, vars, own, built⟩ := d
  rw [realize] at h
  split at h
  · rename_i hvars
    cases h
    exact .inl hvars
  · split at h
    · rename_i hscopes
      cases h
      exact .inr hscopes
    · cases h

/-- The frames of drafts that have been numbered. -/
def Numbered (around : List ScopeDraft) (frames : List Frame) : Prop :=
  List.Forall₂ (fun d f => ∃ id, f = d.frame.ownedBy id) around frames

theorem Numbered.fullName {around : List ScopeDraft} {frames : List Frame} (h : Numbered around frames) :
    Frame.fullName frames = Frame.fullName (around.map frame) := by
  apply Frame.fullName_congr
  induction h with
  | nil => rfl
  | cons hf _ ih =>
    obtain ⟨id, rfl⟩ := hf
    rw [List.map_cons, List.map_cons, List.map_cons, ih]
    rfl

theorem Numbered.undeclared {around : List ScopeDraft} {frames : List Frame} {name : String}
    (h : Numbered around frames) (hnone : Frame.resolve? frames name = none) :
    ∀ s ∈ around, ∀ dim ∈ s.dimensions, dim.name ≠ some name := by
  intro s hs dim hdim
  obtain ⟨f, hf, id, rfl⟩ := forall₂_mem_left h hs
  exact Frame.resolve?_eq_none.mp hnone _ hf (dim.ownedBy id) (List.mem_map.mpr ⟨dim, hdim, rfl⟩)

/-- A draft that cannot be built refers somewhere to a name that is not declared, and says so. -/
theorem dangling_of_realize {frames : List Frame} {around : List ScopeDraft} {d : ScopeDraft} {e : Fault}
    (haround : Numbered around frames) (h : d.realize frames context id = .error e) :
    ∃ c ∈ d.chains around, ∃ name, Dangling c name ∧
      e = .unknownDimension name (Frame.fullName ((c.1 :: c.2).map frame)) := by
  induction d using inductionOnScopes generalizing frames around id with
  | draft d ih =>
    -- a name missing from the frames is missing from the drafts: numbering changes owners only
    have hnumbered : Numbered (d :: around) (d.frame.ownedBy id :: frames) := .cons ⟨id, rfl⟩ haround
    rw [chains_eq]
    cases realize_error h with
    | inl hvars =>
      obtain ⟨v, hv, hrealize⟩ := VariableDraft.realizeAll_error hvars
      obtain ⟨m, hm, name, hspec, hnone, he⟩ := VariableDraft.realize_error hrealize
      refine ⟨(d, around), List.mem_cons_self, name, ⟨⟨v, hv, m, hm, hspec⟩, ?_⟩, ?_⟩
      · exact hnumbered.undeclared hnone
      · rw [he, hnumbered.fullName]
    | inr hscopes =>
      obtain ⟨s, hs, id', hrealize⟩ := realizeAll_error hscopes
      obtain ⟨c, hc, found⟩ := ih s hs hnumbered hrealize
      exact ⟨c, List.mem_cons_of_mem _ (List.mem_flatMap.mpr ⟨s, hs, hc⟩), found⟩

/-! ### Building -/

theorem builtAt_of_build {d : ScopeDraft} {serial : Nat} {t : NamespaceTree}
    (h : (d.build serial).1 = .ok t) : List.Forall₂ BuiltAt (d.chains []) t.walk := by
  obtain ⟨-, -, -, hroot⟩ := build_eq_ok.mp h
  exact List.forall₂_map_right_iff.mpr (builtAt_of_realize t .nil hroot)

/-- An open draft is refused exactly when a reference in it dangles, and the refusal names one that
does. Otherwise every word of every shape in the tree stands for the nearest declaration. -/
theorem build_resolves (d : ScopeDraft) (serial : Nat) (hopen : d.built = false) :
    ((∃ e, (d.build serial).1 = .error e) ↔ ∃ c ∈ d.chains [], ∃ name, Dangling c name) ∧
    (∀ e, (d.build serial).1 = .error e → ∃ c ∈ d.chains [], ∃ name, Dangling c name ∧
      e = .unknownDimension name (Frame.fullName ((c.1 :: c.2).map frame))) ∧
    ∀ t, (d.build serial).1 = .ok t → List.Forall₂ BuiltAt (d.chains []) t.walk := by
  have hrefused : ∀ e, (d.build serial).1 = .error e → ∃ c ∈ d.chains [], ∃ name, Dangling c name ∧
      e = .unknownDimension name (Frame.fullName ((c.1 :: c.2).map frame)) :=
    fun e he => dangling_of_realize .nil (build_error hopen he)
  refine ⟨⟨?_, ?_⟩, hrefused, fun t => builtAt_of_build⟩
  · rintro ⟨e, he⟩
    obtain ⟨c, hc, name, hdangling, -⟩ := hrefused e he
    exact ⟨c, hc, name, hdangling⟩
  · rintro ⟨c, hc, name, hdangling⟩
    cases hbuild : (d.build serial).1 with
    | error e => exact ⟨e, rfl⟩
    | ok t =>
      obtain ⟨p, -, hbuilt⟩ := forall₂_mem_left (builtAt_of_build hbuild) hc
      exact absurd hdangling (hbuilt.not_dangling name)

/-- Two scopes declare `x`. A record in the inner one has a field whose shape is `name`, a star and a
length. -/
def shadowed (name : String) : ScopeDraft :=
  { root with
    dimensions := [.ofName "x" 2]
    vars := [(VariableDraft.new "v" .double).withShape [.shared "x"]]
    scopes := [{ new "inner" with
      dimensions := [.ofName "x" 3]
      vars := [{ VariableDraft.new "record" .struct with
        members := [(VariableDraft.new "field" .int).withShape [.shared name, .varying, .fixed 4]] }] }] }

theorem build_resolves_shadowed :
    (∀ name, (shadowed name).built = false) ∧
    (∃ t, ((shadowed "x").build 0).1 = .ok t ∧ List.Forall₂ BuiltAt ((shadowed "x").chains []) t.walk) ∧
    ∃ e, ((shadowed "y").build 0).1 = .error e := by
  have hy : ∃ c ∈ (shadowed "y").chains [], ∃ name, Dangling c name := by
    refine ⟨_, List.mem_cons_of_mem _ List.mem_cons_self, "y", ⟨_, List.mem_cons_self, _,
      List.mem_cons_of_mem _ List.mem_cons_self, List.mem_cons_self⟩, ?_⟩
    decide
  exact ⟨fun _ => rfl, ⟨_, rfl, (build_resolves (shadowed "x") 0 rfl).2.2 _ rfl⟩,
    (build_resolves (shadowed "y") 0 rfl).1.mpr hy⟩

end ScopeDraft
end SciArchive
