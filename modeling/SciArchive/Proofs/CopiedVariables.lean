import SciArchive.Proofs.AddedVariables
import SciArchive.Proofs.ShapeTexts

/-! Variables taken from one tree to another. A copy keeps what it consists of and, at every depth, the dataset that
it is read from; its shared dimensions are looked up where it is put, and so it can be put wherever they are
declared. -/
namespace SciArchive

/-! ### Dimensions -/

namespace DimSpec

theorem ofDimension_eq_shared {dim : Dimension} {name : String} :
    ofDimension dim = shared name ↔ dim.sharedName? = some name := by
  rw [ofDimension]
  cases dim.sharedName? with
  | some other => simp
  | none => cases dim.length <;> simp

end DimSpec

namespace Place

/-- What a dimension of a variable becomes when the variable is put at a place. -/
inductive Takes (q : Place) : Dimension → Dimension → Prop
  | own {dim : Dimension} (unshared : dim.sharedName? = none) : Takes q dim dim
  | shared {dim found : Dimension} {name : String} (named : dim.sharedName? = some name)
      (resolves : q.Resolves (.shared name) found) : Takes q dim found

variable {q : Place}

/-- The word for a dimension of a built variable brings back a fixed or a varying one, and looks a shared one up. -/
theorem takes_of_dimension {frames : List Frame} (hshared : Frame.Shared frames)
    (howned : ∀ s ∈ q.chain, ∀ dim ∈ s.dimensions, dim.owner = some s.id) {spec : DimSpec} {dim found : Dimension}
    (hdim : Frame.dimension frames spec = .ok dim)
    (hfound : Frame.dimension q.frames (.ofDimension dim) = .ok found) : q.Takes dim found := by
  have hword := Frame.ofDimension_of_dimension hshared hdim
  rw [hword] at hfound
  cases spec with
  | fixed n =>
    cases hdim
    cases hfound
    exact .own rfl
  | varying =>
    cases hdim
    cases hfound
    exact .own rfl
  | shared name => exact .shared (DimSpec.ofDimension_eq_shared.mp hword) (resolves_of_dimension howned hfound)

end Place

/-! ### Variables -/

namespace Variable

/-- The variable, or a member at any depth, lies along a shared dimension of the name. -/
def Shares (v : Variable) (name : String) : Prop := ∃ m ∈ v.nested, ∃ dim ∈ m.dimensions, dim.sharedName? = some name

theorem refersTo_toDraft {v : Variable} {name : String} : v.toDraft.RefersTo name ↔ v.Shares name := by
  have hshape : ∀ m : Variable, m.toDraft.shape = m.dimensions.map .ofDimension := fun m => by rw [toDraft_eq]
  simp only [VariableDraft.RefersTo, nested_toDraft, List.mem_map, exists_exists_and_eq_and, hshape,
    DimSpec.ofDimension_eq_shared, Shares]

/-- The second variable is the first one taken to a place. At every depth all is kept, the dataset with it, but for
the scope and the shared dimensions. -/
inductive CopiedTo (q : Place) : Variable → Variable → Prop
  | intro {v w : Variable}
      (name : w.name = v.name)
      (dataType : w.dataType = v.dataType)
      (axis : w.axis = v.axis)
      (attributes : w.attributes = v.attributes)
      (context : w.context = v.context)
      (scope : w.scope = q.scope.id)
      (dimensions : List.Forall₂ q.Takes v.dimensions w.dimensions)
      (members : List.Forall₂ (CopiedTo q) v.members w.members) : CopiedTo q v w

variable {q : Place}

theorem copiedTo_of_realize {frames : List Frame} (hshared : Frame.Shared frames)
    (howned : ∀ s ∈ q.chain, ∀ dim ∈ s.dimensions, dim.owner = some s.id) {v w : Variable} {context : DatasetContext}
    (hshapes : ∀ m ∈ v.nested, ∃ specs, Frame.shape frames specs = .ok m.dimensions)
    (h : v.toDraft.realize q.frames q.scope.id context = .ok w) : v.CopiedTo q w := by
  induction v using inductionOnMembers generalizing w context with
  | var v ih =>
    rw [forall_nested] at hshapes
    obtain ⟨⟨specs, hspecs⟩, hbelow⟩ := hshapes
    rw [toDraft_eq, VariableDraft.realize_eq_ok] at h
    obtain ⟨hname, htype, hshape, hatts, haxis, hmembers, hscope, hcontext⟩ := h
    have hdims : List.Forall₂ q.Takes v.dimensions w.dimensions := by
      have hwords := List.forall₂_map_left_iff.mp (mapM_eq_ok.mp hshape)
      have hbuilt : ∀ dim ∈ v.dimensions, ∃ spec, Frame.dimension frames spec = .ok dim := fun dim hdim => by
        obtain ⟨spec, -, hspec⟩ := forall₂_mem_right (mapM_eq_ok.mp hspecs) hdim
        exact ⟨spec, hspec⟩
      refine ((List.forall₂_and_left _ _).mpr ⟨hbuilt, hwords⟩).imp fun dim found hdim => ?_
      obtain ⟨⟨spec, hspec⟩, hfound⟩ := hdim
      exact Place.takes_of_dimension hshared howned hspec hfound
    have hcopies : List.Forall₂ (CopiedTo q) v.members w.members := by
      have hrealized := List.forall₂_map_left_iff.mp (VariableDraft.realizeAll_eq_ok.mp hmembers)
      have hall := (List.forall₂_and_left _ _).mpr ⟨fun m hm => hm, hrealized⟩
      exact hall.imp fun m built hm => ih m hm.1 (hbelow m hm.1) hm.2
    exact .intro hname htype haxis hatts hcontext hscope hdims hcopies

end Variable

namespace VariableDraft

/-- A draft is built at a place exactly if all names that it refers to are found there. -/
theorem exists_realize_iff {q : Place} (howned : ∀ s ∈ q.chain, ∀ dim ∈ s.dimensions, dim.owner = some s.id)
    {v : VariableDraft} {context : DatasetContext} :
    (∃ w, v.realize q.frames q.scope.id context = .ok w) ↔
      ∀ name, v.RefersTo name → (Frame.resolve? q.frames name).isSome = true := by
  refine ⟨?_, exists_realize⟩
  rintro ⟨w, hw⟩ name ⟨m, hm, hname⟩
  obtain ⟨dim, hdim⟩ := (builtAt_of_realize howned hw).resolves m hm _ hname
  have hfound := hdim.dimension
  rw [Frame.dimension] at hfound
  cases hresolve : Frame.resolve? q.frames name with
  | some found => rfl
  | none => simp [hresolve] at hfound

end VariableDraft

/-! ### Drafts -/

namespace ScopeDraft

variable {s d : ScopeDraft} {around : List ScopeDraft} {path : List String} {serial : Nat} {t : NamespaceTree}
  {q : Place}

/-- What is found at a place is declared by the draft it was built from, or by one around. -/
theorem isSome_resolve? (h : List.Forall₂ DeclaredAs (s :: around) q.chain) (name : String) :
    (Frame.resolve? q.frames name).isSome = true ↔ ∃ n ∈ s :: around, (n.dimension? name).isSome = true := by
  have hfound : ∀ dims : List Dimension,
      (dims.find? (Dimension.isNamed name)).isSome = true ↔ some name ∈ dims.map Dimension.name := by
    intro dims
    simp [List.find?_isSome, Dimension.isNamed]
  have hnames : q.chain.map (fun n => n.dimensions.map Dimension.name) =
      (s :: around).map fun n => n.dimensions.map Dimension.name :=
    map_eq_of_forall₂ (h.imp fun _ _ => DeclaredAs.names)
  have hdeclared : (∃ n ∈ q.chain, some name ∈ n.dimensions.map Dimension.name) ↔
      ∃ n ∈ s :: around, some name ∈ n.dimensions.map Dimension.name := by
    simpa only [List.mem_map, exists_exists_and_eq_and] using
      iff_of_eq (congrArg (fun names => ∃ ns ∈ names, some name ∈ ns) hnames)
  rw [Frame.resolve?, Place.frames, List.findSome?_map, List.findSome?_isSome_iff]
  simp only [Function.comp_apply, Scope.frame, dimension?, hfound]
  exact hdeclared

/-- The place that a scope of a reachable root is built to, and what the root is built to once the scope has one
more variable. -/
theorem exists_addVariable (hreach : Reachable (fun _ _ => True) (.scope d))
    (hopen : ∀ n ∈ d.nested, n.built = false) (hbuild : (d.build serial).1 = .ok t) (hs : (s, around) ∈ d.chains [])
    (hpath : path = Frame.path ((s :: around).map frame)) :
    ∃ q ∈ t.walk, q.path = path ∧ List.Forall₂ DeclaredAs (s :: around) q.chain ∧
      ∀ v : VariableDraft, s.var? v.name = none → ∃ d', inPath path (addVariable v) d = (.ok (), d') ∧
        ∀ serial', (d'.build serial').1 = (v.realize q.frames q.scope.id t.context).map fun w =>
          { t with serial := serial', root := t.root.withVariable q.scope.id w } := by
  have hdistinct : d.All Holdings.Distinct List.Nodup := hreach.all kept_distinct
  have htree : Reachable (fun _ _ => True) (.tree t) := .build hreach hbuild
  obtain ⟨inner, hinner⟩ := exists_inner hs
  have hnames : path = (inner.map name).reverse := by
    rw [hpath, hinner]
    simp [Frame.path, frame, Function.comp_def]
  have hsopen : s.built = false := by
    refine hopen s ?_
    rw [← map_fst_chains d []]
    exact List.mem_map_of_mem hs
  obtain ⟨q, hq, hbuilt⟩ := forall₂_mem_left (builtAt_of_build hbuild) hs
  have hqpath : q.path = path := by
    have hframes : q.frames.map Frame.name = ((s :: around).map frame).map Frame.name := by
      rw [Place.frames, List.map_map, List.map_map]
      exact map_eq_of_forall₂ (hbuilt.chain.imp fun _ _ hdecl => congrArg Frame.name hdecl)
    rw [hpath, Place.path, Frame.path, Frame.path, List.map_dropLast, hframes, List.map_dropLast]
  obtain ⟨number, hedit⟩ := inPath_editedAt hopen hdistinct hs hinner
  rw [← hnames] at hedit
  refine ⟨q, hq, hqpath, hbuilt.chain, fun v hnew => ?_⟩
  obtain ⟨d', hanswer, hedited⟩ := hedit (addVariable v)
  rw [addVariable_ok hsopen hnew] at hanswer hedited
  refine ⟨d', hanswer, fun serial' => ?_⟩
  obtain ⟨p, hp, hppath, -, hwith⟩ := hedited.build_addVariable hbuild serial'
  rw [Place.eq_of_path htree hp hq (hppath.trans hqpath.symm)] at hwith
  exact hwith

/-- Take a variable of any tree, or a member at any depth, and any scope of a reachable root that is open all
through and builds, where the name is free. The draft of the variable is taken there. The root then builds exactly
if the scope, or one around, declares each shared dimension of the variable and of its members; where the scope is
built stands a copy of the variable, and all else is as before. -/
theorem build_addVariable_toDraft {a : NamespaceTree} {p : Place} {u v : Variable}
    (ha : Reachable (fun _ _ => True) (.tree a)) (hp : p ∈ a.walk) (hu : u ∈ p.scope.vars) (hv : v ∈ u.nested)
    (hreach : Reachable (fun _ _ => True) (.scope d)) (hopen : ∀ n ∈ d.nested, n.built = false)
    (hbuild : (d.build serial).1 = .ok t) (hs : (s, around) ∈ d.chains [])
    (hpath : path = Frame.path ((s :: around).map frame)) (hnew : s.var? v.name = none) :
    ∃ d', inPath path (addVariable v.toDraft) d = (.ok (), d') ∧ ∃ q ∈ t.walk, q.path = path ∧ ∀ serial',
      ((∃ t', (d'.build serial').1 = .ok t') ↔
        ∀ name, v.Shares name → ∃ n ∈ s :: around, (n.dimension? name).isSome = true) ∧
      ∀ t', (d'.build serial').1 = .ok t' → ∃ w, v.CopiedTo q w ∧ t.Gains t' q w := by
  obtain ⟨q, hq, hqpath, hchain, hadd⟩ := exists_addVariable hreach hopen hbuild hs hpath
  have howned : ∀ n ∈ q.chain, ∀ dim ∈ n.dimensions, dim.owner = some n.id := by
    intro n hn
    obtain ⟨_, -, hdecl⟩ := forall₂_mem_right hchain hn
    exact hdecl.owner
  have hshapes : ∀ m ∈ v.nested, ∃ specs, Frame.shape p.frames specs = .ok m.dimensions :=
    fun m hm => ha.exists_shape hp hu (Variable.nested_trans hv hm)
  have hname : v.toDraft.name = v.name := by rw [Variable.toDraft_eq]
  obtain ⟨d', hanswer, hwith⟩ := hadd v.toDraft (hname ▸ hnew)
  refine ⟨d', hanswer, q, hq, hqpath, fun serial' => ?_⟩
  have hrealized : (∃ w, v.toDraft.realize q.frames q.scope.id t.context = .ok w) ↔
      ∀ name, v.Shares name → ∃ n ∈ s :: around, (n.dimension? name).isSome = true := by
    simp only [VariableDraft.exists_realize_iff howned, Variable.refersTo_toDraft, isSome_resolve? hchain]
  rw [hwith, ← hrealized]
  cases hw : v.toDraft.realize q.frames q.scope.id t.context with
  | error e => simp [Except.map]
  | ok w =>
    refine ⟨⟨fun _ => ⟨w, rfl⟩, fun _ => ⟨_, rfl⟩⟩, ?_⟩
    rintro _ ⟨⟩
    exact ⟨w, Variable.copiedTo_of_realize (ha.shared_frames hp) howned hshapes hw, t.gains_withVariable serial' q w⟩

/-! ### A profile from one dataset with levels from another -/

def levelOfX : VariableDraft :=
  (VariableDraft.Operation.setContext ⟨"levels", none⟩).apply
    ((VariableDraft.Operation.setShape [.shared "x", .fixed 4]).apply (.new "level" .int)).2 |>.2

def profileOfX : VariableDraft :=
  (VariableDraft.Operation.addMember levelOfX).apply
    ((VariableDraft.Operation.setShape [.varying]).apply (.sequence "profile")).2 |>.2

def profiles : ScopeDraft :=
  (ScopeDraft.Operation.run [.setContext ⟨"profiles", none⟩, .addDimension (.ofName "x" 7), .addVariable profileOfX]
    .root).2

theorem reachable_profiles : Reachable (fun _ _ => True) (.scope profiles) := by
  have hlevel : Reachable (fun _ _ => True) (.var levelOfX) :=
    .editVariable _ (.editVariable _ (.newVariable "level" .int) fun _ hm => by cases hm) fun _ hm => by cases hm
  have hprofile : Reachable (fun _ _ => True) (.var profileOfX) :=
    .editVariable _ (.editVariable _ (.newVariable "profile" .sequence) fun _ hm => by cases hm)
      (List.forall_mem_singleton.mpr hlevel)
  refine .run (.newScope "") (by simp [ScopeDraft.Operation.scopes]) ?_ fun _ _ _ => trivial
  simpa [ScopeDraft.Operation.vars] using hprofile

/-- Where the profile is put, `x` is another declaration, of another length. -/
theorem build_addVariable_toDraft_profiles : ∃ a t, (profiles.build 0).1 = .ok a ∧ (redeclared.build 1).1 = .ok t ∧
    ∃ v ∈ a.root.vars, ∃ d', inPath ["inner"] (addVariable v.toDraft) redeclared = (.ok (), d') ∧
      ∃ q ∈ t.walk, q.path = ["inner"] ∧ ∃ t' w, (d'.build 2).1 = .ok t' ∧ v.CopiedTo q w ∧ t.Gains t' q w := by
  have hopen : ∀ n ∈ redeclared.nested, n.built = false := by decide
  obtain ⟨s, hs, hname, hnew, hdeclared⟩ : ∃ s, (s, [redeclared]) ∈ redeclared.chains [] ∧ s.name = "inner" ∧
      s.var? "profile" = none ∧ (s.dimension? "x").isSome = true :=
    ⟨_, List.mem_cons_of_mem _ List.mem_cons_self, rfl, rfl, rfl⟩
  have hpath : ["inner"] = Frame.path ([s, redeclared].map frame) := by
    simp [Frame.path, frame, hname]
  obtain ⟨a, ha, v, hv, hvname, hshares⟩ : ∃ a, (profiles.build 0).1 = .ok a ∧ ∃ v ∈ a.root.vars,
      v.name = "profile" ∧ ∀ m ∈ v.nested, ∀ dim ∈ m.dimensions, ∀ name ∈ dim.sharedName?, name = "x" :=
    ⟨_, rfl, _, List.mem_cons_self, rfl, by decide +kernel⟩
  obtain ⟨t, ht⟩ : ∃ t, (redeclared.build 1).1 = .ok t := ⟨_, rfl⟩
  obtain ⟨d', hanswer, q, hq, hqpath, hbuilds⟩ := build_addVariable_toDraft (.build reachable_profiles ha)
    (NamespaceTree.mem_walk_iff_holds.mpr .root) hv v.self_mem_nested reachable_redeclared hopen ht hs hpath
    (hvname ▸ hnew)
  obtain ⟨hsucceeds, hcopied⟩ := hbuilds 2
  have hall : ∀ name, v.Shares name → ∃ n ∈ [s, redeclared], (n.dimension? name).isSome = true := by
    rintro name ⟨m, hm, dim, hdim, hnamed⟩
    exact ⟨s, List.mem_cons_self, hshares m hm dim hdim name hnamed ▸ hdeclared⟩
  obtain ⟨t', ht'⟩ := hsucceeds.mpr hall
  obtain ⟨w, hcopy, hgains⟩ := hcopied t' ht'
  exact ⟨a, t, ha, ht, v, hv, d', hanswer, q, hq, hqpath, t', w, ht', hcopy, hgains⟩

end ScopeDraft
end SciArchive
