import SciArchive.Proofs.Comparison
import SciArchive.Proofs.DraftRuns

/-! From a tree to its draft and back. The draft of a built tree builds again, and what it builds is the
same tree down to numbers, owners and datasets; whether the two compare equal depends on NaN values only. -/
namespace SciArchive

/-! ### Shapes -/

namespace Frame

/-- Every dimension of every frame is a shared one, with a name. -/
def Shared (frames : List Frame) : Prop :=
  ∀ f ∈ frames, ∀ dim ∈ f.dimensions, dim.sharedName?.isSome = true

/-- A resolved dimension is written as the word that it was resolved from. -/
theorem ofDimension_of_dimension {frames : List Frame} (hshared : Shared frames) {spec : DimSpec}
    {dim : Dimension} (h : dimension frames spec = .ok dim) : DimSpec.ofDimension dim = spec := by
  cases spec with
  | fixed n =>
    cases h
    rfl
  | varying =>
    cases h
    rfl
  | shared name =>
    cases hfound : resolve? frames name with
    | none => simp [dimension, hfound] at h
    | some found =>
      simp only [dimension, hfound, Except.ok.injEq] at h
      subst h
      obtain ⟨f, hf, hdecl⟩ := List.exists_of_findSome?_eq_some hfound
      have hnamed : found.name = some name := by
        simpa [Dimension.isNamed] using List.find?_some hdecl
      have hname : found.sharedName? = some name := by
        have hsome := hshared f hf found (List.mem_of_find?_eq_some hdecl)
        cases hflag : found.shared with
        | true => simp [Dimension.sharedName?, hflag, hnamed]
        | false => simp [Dimension.sharedName?, hflag] at hsome
      rw [DimSpec.ofDimension, hname]

theorem map_ofDimension_of_shape {frames : List Frame} (hshared : Shared frames) {specs : List DimSpec}
    {dims : List Dimension} (h : shape frames specs = .ok dims) : dims.map .ofDimension = specs := by
  have hwords := (mapM_eq_ok.mp h).imp fun _ _ hdim => ofDimension_of_dimension hshared hdim
  rw [map_eq_of_forall₂ hwords (f := id), List.map_id]

/-- The words for resolved dimensions resolve to them again. -/
theorem shape_ofDimension {frames : List Frame} (hshared : Shared frames) {specs : List DimSpec}
    {dims : List Dimension} (h : shape frames specs = .ok dims) :
    shape frames (dims.map .ofDimension) = .ok dims := by
  rw [map_ofDimension_of_shape hshared h]
  exact h

end Frame

/-! ### Variables and scopes -/

namespace VariableDraft

variable {frames : List Frame} {scope : Nat} {context : DatasetContext}

theorem realizeAll_toDraft (other : DatasetContext) {vs : List VariableDraft} {ws : List Variable}
    (hrebuilds : ∀ v ∈ vs, ∀ {w}, v.realize frames scope context = .ok w →
      w.toDraft.realize frames scope other = .ok w)
    (h : realizeAll frames scope context vs = .ok ws) :
    realizeAll frames scope other (ws.map Variable.toDraft) = .ok ws := by
  rw [realizeAll_eq_ok, List.forall₂_map_left_iff, List.forall₂_same]
  intro w hw
  obtain ⟨v, hv, hrealize⟩ := forall₂_mem_right (realizeAll_eq_ok.mp h) hw
  exact hrebuilds v hv hrealize

theorem realize_toDraft (hshared : Frame.Shared frames) {v : VariableDraft} {w : Variable}
    (h : v.realize frames scope context = .ok w) (other : DatasetContext) :
    w.toDraft.realize frames scope other = .ok w := by
  induction v using inductionOnMembers generalizing w context other with
  | draft v ih =>
    obtain ⟨-, -, hshape, -, -, hmembers, hscope, -⟩ := realize_eq_ok.mp h
    rw [realize_eq_ok, Variable.toDraft_eq]
    refine ⟨rfl, rfl, Frame.shape_ofDimension hshared hshape, rfl, rfl, ?_, hscope, rfl⟩
    exact realizeAll_toDraft w.context (fun m hm _ hrealize => ih m hm hrealize w.context) hmembers

end VariableDraft

namespace ScopeDraft

theorem sizeAll_eq (ds : List ScopeDraft) : sizeAll ds = (ds.map size).foldr (· + ·) 0 := by
  induction ds with
  | nil => rfl
  | cons d ds ih => rw [sizeAll, ih, List.map_cons, List.foldr_cons]

theorem size_eq (d : ScopeDraft) : d.size = 1 + sizeAll d.scopes := by
  cases d
  rw [size]

/-- Drafts that bring back built scopes take up as many numbers as the drafts these were built from. -/
theorem size_toDraft {frames : List Frame} {context : DatasetContext} {id : Nat} {d : ScopeDraft}
    {s : Scope} (h : d.realize frames context id = .ok s) : s.toDraft.size = d.size := by
  induction d using inductionOnScopes generalizing frames id s with
  | draft d ih =>
    have hscopes := realizeAll_ok (realize_eq_ok.mp h).scopes
    have hsizes : (s.scopes.map Scope.toDraft).map size = d.scopes.map size := by
      rw [List.map_map]
      refine map_eq_of_forall₂ (((List.forall₂_and_left _ _).mpr ⟨ih, hscopes⟩).imp ?_)
      rintro child built ⟨hsize, id', hrealize⟩
      exact hsize hrealize
    rw [size_eq, size_eq, sizeAll_eq, sizeAll_eq, ← hsizes, Scope.toDraft_eq]

variable {context : DatasetContext}

theorem realizeAll_toDraft {frames : List Frame} (other : DatasetContext) {ds : List ScopeDraft}
    (hrebuilds : ∀ d ∈ ds, ∀ {id s}, d.realize frames context id = .ok s →
      s.toDraft.realize frames other id = .ok s) {id : Nat} {ss : List Scope}
    (h : realizeAll frames context id ds = .ok ss) :
    realizeAll frames other id (ss.map Scope.toDraft) = .ok ss := by
  induction ds generalizing id ss with
  | nil =>
    cases h
    rfl
  | cons d ds ih =>
    obtain ⟨hfirst, hothers⟩ := List.forall_mem_cons.mp hrebuilds
    obtain ⟨s, rest, rfl, hs, hrest⟩ := realizeAll_cons_ok.mp h
    rw [List.map_cons, realizeAll_cons_ok, size_toDraft hs]
    exact ⟨s, rest, rfl, hfirst hs, ih hothers hrest⟩

theorem realize_toDraft {frames : List Frame} (hframes : Frame.Shared frames) {id : Nat} {d : ScopeDraft}
    {s : Scope} (hshared : ∀ n ∈ d.nested, ∀ dim ∈ n.dimensions, dim.sharedName?.isSome = true)
    (h : d.realize frames context id = .ok s) (other : DatasetContext) :
    s.toDraft.realize frames other id = .ok s := by
  induction d using inductionOnScopes generalizing frames id s with
  | draft d ih =>
    obtain ⟨hid, -, -, hdims, -, hvars, hscopes⟩ := realize_eq_ok.mp h
    obtain ⟨hown, hbelow⟩ := forall_nested.mp hshared
    -- both builds resolve inside the frame of the built scope, so only the words could differ
    have hinside : Frame.Shared (s.frame :: frames) := by
      rw [Frame.Shared, List.forall_mem_cons]
      refine ⟨?_, hframes⟩
      show ∀ dim ∈ s.dimensions, dim.sharedName?.isSome = true
      rw [hdims, List.forall_mem_map]
      exact hown
    rw [realize_eq_ok, Scope.toDraft_eq]
    refine ⟨hid, rfl, rfl, ?_, rfl, ?_, ?_⟩
    · show s.dimensions = (s.dimensions.map Dimension.detached).map (Dimension.ownedBy id)
      rw [hdims, List.map_map, List.map_map]
      rfl
    · exact VariableDraft.realizeAll_toDraft other
        (fun _ _ _ hrealize => VariableDraft.realize_toDraft hinside hrealize other) hvars
    · exact realizeAll_toDraft other (fun c hc _ _ => ih c hc hinside (hbelow c hc)) hscopes

end ScopeDraft

/-! ### Reachable trees -/

/-- Scopes declare shared dimensions only, each with a name. -/
def Holdings.Shared (h : Holdings) : Prop := ∀ dim ∈ h.dimensions, dim.sharedName?.isSome = true

namespace ScopeDraft

theorem shared_holdings {d : ScopeDraft} :
    d.holdings.Shared ↔ ∀ dim ∈ d.dimensions, dim.sharedName?.isSome = true :=
  List.forall_mem_map

theorem Effect.shared {d d' : ScopeDraft} {op : Operation} (h : Effect d op d')
    (hd : d.holdings.Shared) : d'.holdings.Shared := by
  have hdims := shared_holdings.mp hd
  cases h with
  | addedDimension hname =>
    rw [shared_holdings, List.forall_mem_append, List.forall_mem_singleton, hname]
    exact ⟨hdims, rfl⟩
  | replacedDimension hname hfound =>
    rw [shared_holdings]
    exact forall_mem_updateFirst hfound hdims (by rw [hname, Option.isSome_some])
  | removedDimension =>
    exact shared_holdings.mpr fun dim hdim => hdims dim (List.mem_of_mem_eraseP hdim)
  | marked =>
    rw [holdings_markBuilt]
    exact hd
  | _ => exact hd

theorem kept_shared : Kept (fun _ _ => True) Holdings.Shared (fun _ => True) where
  empty := fun _ hdim => by cases hdim
  step := fun h _ => h.shared
  inner := fun _ _ _ => trivial
  noMembers := trivial
  member := fun _ _ => trivial

end ScopeDraft

/-- The draft of a tree that came of any run builds again, and gives the tree back: all but its serial,
which tells the two apart, is equal. As values they compare equal unless some attribute holds a NaN. -/
theorem NamespaceTree.build_toDraft {t : NamespaceTree} (h : Reachable (fun _ _ => True) (.tree t))
    (serial : Nat) :
    (t.toDraft.build serial).1 = .ok { t with serial } ∧
      (t.same { t with serial } = true ↔ ¬ t.HoldsNaN) := by
  constructor
  · cases h with
    | build hdraft hbuilt =>
      obtain ⟨-, -, -, hroot⟩ := ScopeDraft.build_eq_ok.mp hbuilt
      have hshared := fun n hn =>
        ScopeDraft.shared_holdings.mp ((hdraft.all ScopeDraft.kept_shared) n hn).1
      have hframes : Frame.Shared [] := fun f hf => by cases hf
      rw [ScopeDraft.build_eq_ok]
      refine ⟨?_, rfl, rfl, ?_⟩
      · rw [toDraft, Scope.toDraft_eq]
        rfl
      · have hrebuilt := ScopeDraft.realize_toDraft hframes hshared hroot t.context
        rw [Scope.toDraft_eq] at hrebuilt
        rw [toDraft, Scope.toDraft_eq, ScopeDraft.withContext]
        exact hrebuilt
  · exact t.same_self

/-- A field with a NaN among its attributes. -/
def fieldOfX : VariableDraft :=
  ((VariableDraft.Operation.addAttribute ⟨"missing", .double 0x7FF8000000000000⟩).apply
    ((VariableDraft.Operation.setShape [.shared "x", .varying]).apply (.new "field" .int)).2).2

def recordOfX : VariableDraft :=
  ((VariableDraft.Operation.addMember fieldOfX).apply (.new "record" .struct)).2

/-- The scope around the record declares its dimension anew. -/
def redeclared : ScopeDraft :=
  (ScopeDraft.Operation.run [.addDimension (.ofName "x" 2), .addScope
    (ScopeDraft.Operation.run [.addDimension (.ofName "x" 3), .addVariable recordOfX]
      (.new "inner")).2] .root).2

theorem reachable_redeclared : Reachable (fun _ _ => True) (.scope redeclared) := by
  have hfield : Reachable (fun _ _ => True) (.var fieldOfX) :=
    .editVariable _ (.editVariable _ (.newVariable "field" .int) fun _ hm => by cases hm)
      fun _ hm => by cases hm
  have hrecord : Reachable (fun _ _ => True) (.var recordOfX) :=
    .editVariable _ (.newVariable "record" .struct) (List.forall_mem_singleton.mpr hfield)
  refine .run (.newScope "") ?_ (by simp [ScopeDraft.Operation.vars]) fun _ _ _ => trivial
  have hinner : Reachable (fun _ _ => True) (.scope (ScopeDraft.Operation.run
      [.addDimension (.ofName "x" 3), .addVariable recordOfX] (.new "inner")).2) := by
    refine .run (.newScope "inner") (by simp [ScopeDraft.Operation.scopes]) ?_ fun _ _ _ => trivial
    simpa [ScopeDraft.Operation.vars] using hrecord
  simpa [ScopeDraft.Operation.scopes] using hinner

theorem NamespaceTree.build_toDraft_redeclared :
    ∃ t, (redeclared.build 0).1 = .ok t ∧ Reachable (fun _ _ => True) (.tree t) ∧
      (t.toDraft.build 1).1 = .ok { t with serial := 1 } ∧
      (t.same { t with serial := 1 } = true ↔ ¬ t.HoldsNaN) := by
  have hbuilt : ∃ t, (redeclared.build 0).1 = .ok t := ⟨_, rfl⟩
  obtain ⟨t, ht⟩ := hbuilt
  have htree := Reachable.build reachable_redeclared ht
  exact ⟨t, ht, htree, build_toDraft htree 1⟩

end SciArchive
