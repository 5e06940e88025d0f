import SciArchive.Proofs.DimensionEdits
import SciArchive.Proofs.ScopeNumbers

/-! One more variable in one scope of a draft. The scope builds with it exactly if the variable does where the
scope is built, and all else is built as before; so the dimensions that a shape stands for in the tree without
the variable are those that the variable is built with. -/
namespace SciArchive

/-! ### Trees with one more variable -/

namespace Scope

mutual

/-- The tree in which the scope numbered `id` has one more variable. -/
def withVariable (id : Nat) (w : Variable) : Scope → Scope
  | ⟨own, name, atts, dims, enums, vars, scopes⟩ =>
    ⟨own, name, atts, dims, enums, if own = id then vars ++ [w] else vars, withVariableAll id w scopes⟩

def withVariableAll (id : Nat) (w : Variable) : List Scope → List Scope
  | [] => []
  | s :: rest => s.withVariable id w :: withVariableAll id w rest

end

variable (id : Nat) (w : Variable)

theorem withVariableAll_eq (ss : List Scope) : withVariableAll id w ss = ss.map (withVariable id w) := by
  induction ss with
  | nil => rfl
  | cons s ss ih => rw [withVariableAll, ih, List.map_cons]

theorem withVariable_eq (s : Scope) :
    s.withVariable id w =
      { s with
        vars := if s.id = id then s.vars ++ [w] else s.vars
        scopes := s.scopes.map (withVariable id w) } := by
  cases s
  rw [withVariable, withVariableAll_eq]

@[simp] theorem withVariable_id (s : Scope) : (s.withVariable id w).id = s.id := by
  rw [withVariable_eq]

@[simp] theorem frame_withVariable (s : Scope) : (s.withVariable id w).frame = s.frame := by
  rw [withVariable_eq]
  rfl

theorem chains_withVariable (s : Scope) (above : List Scope) :
    (s.withVariable id w).chains (above.map (withVariable id w)) =
      (s.chains above).map fun c => (c.1.withVariable id w, c.2.map (withVariable id w)) := by
  induction s using inductionOnScopes generalizing above with
  | scope s ih =>
    have hbelow : (s.withVariable id w).scopes = s.scopes.map (withVariable id w) := by
      rw [withVariable_eq]
    rw [chains_eq, chains_eq above, hbelow, List.flatMap_map, List.map_cons, List.map_flatMap]
    exact congrArg (_ :: ·) (List.flatMap_congr fun c hc => ih c hc (s :: above))

/-- Nothing changes where no scope has the number. -/
theorem withVariable_of_ne {s : Scope} {above : List Scope} (h : ∀ c ∈ s.chains above, c.1.id ≠ id) :
    s.withVariable id w = s := by
  induction s using inductionOnScopes generalizing above with
  | scope s ih =>
    rw [chains_eq, List.forall_mem_cons] at h
    have hscopes : s.scopes.map (withVariable id w) = s.scopes := by
      refine (List.map_congr_left fun c hc => ?_).trans (List.map_id _)
      exact ih c hc fun n hn => h.2 n (List.mem_flatMap.mpr ⟨c, hc, hn⟩)
    rw [withVariable_eq, if_neg h.1, hscopes]
    cases s
    rfl

end Scope

namespace NamespaceTree

/-- The place `q` has the variable `w` behind its own, and all else is as before. -/
structure Gains (t t' : NamespaceTree) (q : Place) (w : Variable) : Prop where
  context : t'.context = t.context
  walk : List.Forall₂ (fun p p' => p.Matches p' ∧ p'.scope = { p.scope with
      vars := if p.scope.id = q.scope.id then p.scope.vars ++ [w] else p.scope.vars
      scopes := p'.scope.scopes }) t.walk t'.walk

theorem gains_withVariable (t : NamespaceTree) (serial : Nat) (q : Place) (w : Variable) :
    t.Gains { t with serial, root := t.root.withVariable q.scope.id w } q w := by
  refine ⟨rfl, ?_⟩
  have hchains := t.root.chains_withVariable q.scope.id w []
  rw [List.map_nil] at hchains
  rw [walk, walk, hchains, List.map_map, List.forall₂_map_left_iff, List.forall₂_map_right_iff,
    List.forall₂_same]
  intro c _
  refine ⟨⟨Scope.withVariable_id _ _ c.1, ?_⟩, ?_⟩
  · simp [Place.path, Place.frames, Place.chain, Function.comp_def]
  · simp [Scope.withVariable_eq]

end NamespaceTree

/-! ### Variables -/

namespace VariableDraft

variable {frames : List Frame} {scope : Nat} {context : DatasetContext} {v : VariableDraft}

/-- A draft is built where all names that it refers to are declared. -/
theorem exists_realize (h : ∀ name, v.RefersTo name → (Frame.resolve? frames name).isSome = true) :
    ∃ w, v.realize frames scope context = .ok w := by
  cases hv : v.realize frames scope context with
  | ok w => exact ⟨w, rfl⟩
  | error e =>
    obtain ⟨m, hm, name, hname, hnone, -⟩ := realize_error hv
    have hsome := h name ⟨m, hm, hname⟩
    rw [hnone] at hsome
    cases hsome

theorem realize_of_shape {dims : List Dimension} (hshape : Frame.shape frames v.shape = .ok dims)
    (hmembers : ∀ m ∈ v.members, ∀ name, m.RefersTo name → (Frame.resolve? frames name).isSome = true) :
    ∃ w, v.realize frames scope context = .ok w ∧ w.dimensions = dims := by
  have hbuilt : ∃ ms, realizeAll frames scope (v.context.getD context) v.members = .ok ms := by
    rw [realizeAll_eq_mapM, mapM_isOk]
    exact fun m hm => exists_realize (hmembers m hm)
  obtain ⟨ms, hms⟩ := hbuilt
  exact ⟨⟨v.name, v.dataType, dims, v.attributes.freeze, v.axis, ms, scope, v.context.getD context⟩,
    realize_eq_ok.mpr ⟨rfl, rfl, hshape, rfl, rfl, hms, rfl, rfl⟩, rfl⟩

/-- The shape is resolved before the members. -/
theorem realize_error_of_shape {e : Fault} (h : Frame.shape frames v.shape = .error e) :
    v.realize frames scope context = .error e := by
  cases v
  simp only at h
  rw [realize, h]

theorem realizeAll_snoc {vs : List VariableDraft} {ws : List Variable}
    (h : realizeAll frames scope context vs = .ok ws) :
    realizeAll frames scope context (vs ++ [v]) =
      (v.realize frames scope context).map fun w => ws ++ [w] := by
  rw [realizeAll_eq_mapM] at h ⊢
  rw [List.mapM_append, h, List.mapM_cons, List.mapM_nil]
  cases v.realize frames scope context <;> rfl

end VariableDraft

/-! ### Shapes -/

namespace DimSpec

/-- A text that is no shape is refused for one of its words. -/
theorem parse_error {spec : String} {e : Fault} (h : parse spec = .error e) :
    ∃ token, e = .malformedDimension token spec := by
  obtain ⟨word, -, hword⟩ := mapM_error h
  split at hword
  · cases hword
  · cases hword
    exact ⟨_, rfl⟩

end DimSpec

namespace Place

theorem makeDimensions_eq_ok {q : Place} {spec : String} {dims : List Dimension} :
    q.makeDimensions spec = .ok dims ↔
      ∃ specs, DimSpec.parse spec = .ok specs ∧ Frame.shape q.frames specs = .ok dims :=
  bind_eq_ok

theorem makeDimensions_error {q : Place} {spec : String} {e : Fault} (h : q.makeDimensions spec = .error e) :
    (∃ token, e = .malformedDimension token spec ∧ DimSpec.parse spec = .error e) ∨
      ∃ name specs, e = .unknownDimension name q.fullName ∧ DimSpec.parse spec = .ok specs ∧
        Frame.shape q.frames specs = .error e := by
  rw [makeDimensions] at h
  cases hparse : DimSpec.parse spec with
  | error f =>
    simp only [hparse, Except.bind, Except.error.injEq] at h
    subst h
    obtain ⟨token, htoken⟩ := DimSpec.parse_error hparse
    exact .inl ⟨token, htoken, rfl⟩
  | ok specs =>
    simp only [hparse, Except.bind] at h
    obtain ⟨word, -, hword⟩ := mapM_error h
    obtain ⟨name, -, -, hname⟩ := Frame.dimension_error hword
    exact .inr ⟨name, specs, hname, rfl, h⟩

/-- The paths of names tell the scopes of a tree apart. -/
theorem eq_of_path {t : NamespaceTree} (h : Reachable (fun _ _ => True) (.tree t)) {p q : Place}
    (hp : p ∈ t.walk) (hq : q ∈ t.walk) (hpath : p.path = q.path) : p = q :=
  eq_of_names h hp hq (by rw [names_eq hp, names_eq hq, hpath])

end Place

namespace ScopeDraft

variable {s d d' : ScopeDraft} {v : VariableDraft} {path : List String} {number id : Nat}
  {context : DatasetContext} {root : Scope} {e : Fault}

/-! ### Building with one more variable -/

section
variable {frames : List Frame}

theorem realize_error_of_vars
    (h : VariableDraft.realizeAll (d.frame.ownedBy id :: frames) id context d.vars = .error e) :
    d.realize frames context id = .error e := by
  cases d
  simp only [frame, Frame.ownedBy] at h
  rw [realize, h]

theorem realize_error_of_scopes {vs : List Variable}
    (hvars : VariableDraft.realizeAll (d.frame.ownedBy id :: frames) id context d.vars = .ok vs)
    (h : realizeAll (d.frame.ownedBy id :: frames) context (id + 1) d.scopes = .error e) :
    d.realize frames context id = .error e := by
  cases d
  simp only [frame, Frame.ownedBy] at hvars h
  rw [realize, hvars]
  simp only [h]

theorem realizeAll_error_of_child {before behind : List ScopeDraft} {child : ScopeDraft} {bs : List Scope}
    (hbefore : realizeAll frames context id before = .ok bs)
    (hchild : child.realize frames context (id + sizeAll before) = .error e) :
    realizeAll frames context id (before ++ child :: behind) = .error e := by
  induction before generalizing id bs with
  | nil =>
    rw [sizeAll, Nat.add_zero] at hchild
    rw [List.nil_append, realizeAll_cons, hchild]
  | cons d before ih =>
    obtain ⟨s, rest, rfl, hs, hrest⟩ := realizeAll_cons_ok.mp hbefore
    rw [sizeAll, ← Nat.add_assoc] at hchild
    rw [List.cons_append, realizeAll_cons, hs]
    simp only [ih hrest hchild]
    rfl

theorem Realizes.frame_eq (h : d.Realizes frames context id root) : root.frame = d.frame.ownedBy id :=
  h.id ▸ h.declaredAs

/-- Scopes with other numbers stay as they are. -/
theorem map_withVariable_of_avoids {ds : List ScopeDraft} {ss : List Scope} (w : Variable)
    (h : realizeAll frames context id ds = .ok ss) (hnumber : Avoids number id (sizeAll ds)) :
    ss.map (Scope.withVariable number w) = ss := by
  have hids := map_id_chainsAll [] (fun _ _ _ _ hd => map_id_chains hd []) h
  have hne : ∀ c ∈ ss, ∀ n ∈ c.chains [], n.1.id ≠ number := by
    intro c hc n hn hsame
    have hmem : n.1.id ∈ List.range' id (sizeAll ds) := by
      rw [← hids]
      exact List.mem_map_of_mem (List.mem_flatMap.mpr ⟨c, hc, hn⟩)
    rw [hsame, List.mem_range'_1] at hmem
    simp only [Avoids] at hnumber
    omega
  refine (List.map_congr_left fun c hc => ?_).trans (List.map_id _)
  exact Scope.withVariable_of_ne number w (hne c hc)

theorem size_addVariable (s : ScopeDraft) (v : VariableDraft) :
    ScopeDraft.size { s with vars := s.vars ++ [v] } = s.size := by
  rw [size_eq, size_eq]

theorem realize_addVariable (h : s.realize frames context id = .ok root) :
    ScopeDraft.realize frames context id { s with vars := s.vars ++ [v] } =
      (v.realize (root.frame :: frames) id context).map fun w => root.withVariable id w := by
  have hreal := realize_eq_ok.mp h
  have hvars := hreal.vars
  have hadded := VariableDraft.realizeAll_snoc (v := v) hvars
  cases hv : v.realize (root.frame :: frames) id context with
  | error e =>
    rw [hv, hreal.frame_eq] at hadded
    exact realize_error_of_vars hadded
  | ok w =>
    have hscopes : root.scopes.map (Scope.withVariable id w) = root.scopes :=
      map_withVariable_of_avoids w hreal.scopes (.inl (Nat.lt_succ_self id))
    rw [hv] at hadded
    have hbuilt : Realizes frames context id { s with vars := s.vars ++ [v] } (root.withVariable id w) := by
      rw [Scope.withVariable_eq, if_pos hreal.id, hscopes]
      exact { hreal with vars := hadded }
    exact realize_eq_ok.mpr hbuilt

end

/-- The place that the scope of the path is built to. The variable is built there, or fails there, and with it
the whole draft. -/
theorem EditedAt.realize_addVariable (h : EditedAt s { s with vars := s.vars ++ [v] } number path d d')
    {above : List Scope} (hroot : d.realize (above.map Scope.frame) context id = .ok root) :
    ∃ q ∈ root.chains above, q.1.id = id + number ∧
      (∃ inner, q.1 :: q.2 = inner ++ root :: above ∧ (inner.map Scope.name).reverse = path) ∧
      d'.realize (above.map Scope.frame) context id =
        (v.realize ((q.1 :: q.2).map Scope.frame) (id + number) context).map fun w =>
          root.withVariable (id + number) w := by
  induction h generalizing id root above with
  | here =>
    refine ⟨(root, above), ?_, (realize_eq_ok.mp hroot).id, ⟨[], rfl, rfl⟩,
      ScopeDraft.realize_addVariable hroot⟩
    rw [Scope.chains_eq]
    exact List.mem_cons_self
  | @inside number path d child child' before behind hscopes hedited ih =>
    have hreal := realize_eq_ok.mp hroot
    obtain ⟨bs, b, rest, hbelow, hbefore, hchild, hbehind⟩ := hreal.split hscopes
    rw [← List.map_cons] at hchild
    obtain ⟨q, hq, hid, ⟨inner, hinner, hpath⟩, hedit⟩ := ih hchild
    obtain ⟨n, hn⟩ : ∃ n, n = id + 1 + sizeAll before + number := ⟨_, rfl⟩
    have hnumber : id + (1 + sizeAll before + number) = n := by omega
    have hsize : child'.size = child.size := hedited.size_eq (size_addVariable s v)
    have hlt := hedited.number_lt
    have hb : b ∈ root.scopes := by simp [hbelow]
    rw [List.map_cons, ← hn] at hedit
    rw [← hn] at hid
    rw [hnumber]
    refine ⟨q, ?_, hid, ⟨inner ++ [b], by simp [hinner], ?_⟩, ?_⟩
    · rw [Scope.chains_eq]
      exact List.mem_cons_of_mem _ (List.mem_flatMap.mpr ⟨b, hb, hq⟩)
    · simp [hpath, (realize_eq_ok.mp hchild).name]
    · cases hv : v.realize ((q.1 :: q.2).map Scope.frame) n context with
      | error e =>
        rw [hv] at hedit
        rw [hreal.frame_eq] at hbefore hedit
        have hvars := hreal.vars
        rw [hreal.frame_eq] at hvars
        exact realize_error_of_scopes hvars (realizeAll_error_of_child hbefore hedit)
      | ok w =>
        rw [hv] at hedit
        -- the scopes beside the one that is edited keep their numbers
        have hne : root.id ≠ n := by
          rw [hreal.id]
          omega
        have hbs : bs.map (Scope.withVariable n w) = bs :=
          map_withVariable_of_avoids w hbefore (by simp only [Avoids]; omega)
        have hrest : rest.map (Scope.withVariable n w) = rest :=
          map_withVariable_of_avoids w hbehind (by simp only [Avoids]; omega)
        have hscopes' : realizeAll (root.frame :: above.map Scope.frame) context (id + 1)
            (before ++ child' :: behind) = .ok (root.scopes.map (Scope.withVariable n w)) := by
          rw [hbelow, List.map_append, List.map_cons, hbs, hrest]
          refine realizeAll_append_ok.mpr ⟨bs, _, rfl, hbefore, ?_⟩
          refine realizeAll_cons_ok.mpr ⟨_, rest, rfl, hedit, ?_⟩
          rw [hsize]
          exact hbehind
        have hbuilt : Realizes (above.map Scope.frame) context id
            { d with scopes := before ++ child' :: behind } (root.withVariable n w) := by
          rw [Scope.withVariable_eq, if_neg hne]
          exact { hreal with scopes := hscopes' }
        exact realize_eq_ok.mpr hbuilt

/-! ### The whole tree -/

variable {serial : Nat} {t : NamespaceTree}

theorem build_error_of_realize (hopen : d.built = false) (h : d.realize [] (d.context.getD {}) 0 = .error e) :
    (d.build serial).1 = .error e := by
  rw [build, whenOpen, hopen]
  simp [h]

/-- A root builds after one scope inside got one more variable, or fails as the variable does there. -/
theorem EditedAt.build_addVariable (h : EditedAt s { s with vars := s.vars ++ [v] } number path d d')
    (hbuild : (d.build serial).1 = .ok t) (serial' : Nat) :
    ∃ q ∈ t.walk, q.path = path ∧ q.scope.id = number ∧
      (d'.build serial').1 = (v.realize q.frames q.scope.id t.context).map fun w =>
        { t with serial := serial', root := t.root.withVariable q.scope.id w } := by
  obtain ⟨hopen, -, hcontext, hroot⟩ := build_eq_ok.mp hbuild
  obtain ⟨hbuilt', hcontext'⟩ := h.same rfl rfl
  rw [← List.map_nil] at hroot
  obtain ⟨q, hq, hid, ⟨inner, hinner, hpath⟩, hedit⟩ := h.realize_addVariable hroot
  rw [Nat.zero_add] at hid hedit
  refine ⟨⟨t, q.1, q.2⟩, List.mem_map_of_mem hq, ?_, hid, ?_⟩
  · rw [← hpath]
    simp [Place.path, Place.frames, Place.chain, hinner, Frame.path, Scope.frame, Function.comp_def]
  · have hframes : (⟨t, q.1, q.2⟩ : Place).frames = (q.1 :: q.2).map Scope.frame := rfl
    rw [hframes, hid]
    cases hv : v.realize ((q.1 :: q.2).map Scope.frame) number t.context with
    | error e =>
      rw [hv, hcontext, ← hcontext'] at hedit
      exact build_error_of_realize (hbuilt'.trans hopen) hedit
    | ok w =>
      rw [hv] at hedit
      exact build_eq_ok.mpr ⟨hbuilt'.trans hopen, rfl, hcontext' ▸ hcontext, hedit⟩

theorem addVariable_ok (hopen : s.built = false) (hnew : s.var? v.name = none) :
    addVariable v s = (.ok (), { s with vars := s.vars ++ [v] }) := by
  simp [addVariable, whenOpen, hopen, hnew]

/-- What comes of adding a variable with a new name at the end of a path of child names, its shape being given
as text. -/
structure AddsShaped (d : ScopeDraft) (path : List String) (serial : Nat) (t : NamespaceTree) (q : Place)
    (v : VariableDraft) (spec : String) : Prop where
  shaped : ∀ dims, q.makeDimensions spec = .ok dims →
    (∀ m ∈ v.members, ∀ name, m.RefersTo name → (q.findDimension? name).isSome = true) →
    ∃ v' w t', v.withDimensions spec = .ok v' ∧ (inPath path (addVariable v') d).1 = .ok () ∧
      ((inPath path (addVariable v') d).2.build serial).1 = .ok t' ∧
      v'.BuiltAt q w ∧ w.dimensions = dims ∧ t.Gains t' q w
  refused : ∀ e, q.makeDimensions spec = .error e →
    (∃ token, e = .malformedDimension token spec ∧ v.withDimensions spec = .error e) ∨
      ∃ name v', e = .unknownDimension name q.fullName ∧ v.withDimensions spec = .ok v' ∧
        (inPath path (addVariable v') d).1 = .ok () ∧
        ((inPath path (addVariable v') d).2.build serial).1 = .error e

/-- Take any scope of a reachable root that is open all through and builds, and the place that the scope is
built to. What a shape stands for at that place, it stands for in a variable that is added to the scope under a
new name: the root still builds, the variable has exactly those dimensions, and all else is as before; the
members of the variable, if it has any, must find what they refer to. A text that the place refuses as
malformed is refused as the variable's shape, and a name that the place does not find is what the build
reports. -/
theorem build_addVariable_makeDimensions (hreach : Reachable (fun _ _ => True) (.scope d))
    (hopen : ∀ n ∈ d.nested, n.built = false) (hbuild : (d.build serial).1 = .ok t) {around : List ScopeDraft}
    (hs : (s, around) ∈ d.chains []) (hpath : path = Frame.path ((s :: around).map frame)) :
    ∃ q ∈ t.walk, q.path = path ∧ (∀ p ∈ t.walk, p.path = path → p = q) ∧
      ∀ (v : VariableDraft) (spec : String) (serial' : Nat), s.var? v.name = none →
        d.AddsShaped path serial' t q v spec := by
  have hdistinct : d.All Holdings.Distinct List.Nodup := hreach.all kept_distinct
  have htree : Reachable (fun _ _ => True) (.tree t) := .build hreach hbuild
  obtain ⟨inner, hinner⟩ := exists_inner hs
  have hnames : path = (inner.map name).reverse := by
    rw [hpath, hinner]
    simp [Frame.path, frame, Function.comp_def]
  have hsopen : s.built = false := by
    refine hopen s ?_
    rw [← map_fst_chains d []]
    exact List.mem_map_of_mem hs
  obtain ⟨number, hedit⟩ := inPath_editedAt hopen hdistinct hs hinner
  rw [← hnames] at hedit
  -- the edit of a scope tells where it is built, whatever is added
  have hadd : ∀ (v : VariableDraft) (serial' : Nat), s.var? v.name = none →
      ∃ q ∈ t.walk, q.path = path ∧ (inPath path (addVariable v) d).1 = .ok () ∧
        ((inPath path (addVariable v) d).2.build serial').1 =
          (v.realize q.frames q.scope.id t.context).map fun w =>
            { t with serial := serial', root := t.root.withVariable q.scope.id w } := by
    intro v serial' hnew
    obtain ⟨d', hanswer, hedited⟩ := hedit (addVariable v)
    rw [addVariable_ok hsopen hnew] at hanswer hedited
    obtain ⟨q, hq, hqpath, -, hbuilt⟩ := hedited.build_addVariable hbuild serial'
    rw [hanswer]
    exact ⟨q, hq, hqpath, rfl, hbuilt⟩
  obtain ⟨_, -, hedited⟩ := hedit (removeDimension "")
  obtain ⟨q, hq, hqpath, -, -⟩ := hedited.exists_mem_walk hbuild
  have hunique : ∀ p ∈ t.walk, p.path = path → p = q := fun p hp hppath =>
    Place.eq_of_path htree hp hq (hppath.trans hqpath.symm)
  refine ⟨q, hq, hqpath, hunique, fun v spec serial' hnew =>
    ⟨fun dims hdims hmembers => ?_, fun e he => ?_⟩⟩
  · obtain ⟨specs, hparse, hshape⟩ := Place.makeDimensions_eq_ok.mp hdims
    obtain ⟨p, hp, hppath, hanswer, hbuilt⟩ := hadd (v.withShape specs) serial' hnew
    rw [hunique p hp hppath] at hbuilt
    obtain ⟨w, hw, hwdims⟩ : ∃ w, (v.withShape specs).realize q.frames q.scope.id t.context = .ok w ∧
        w.dimensions = dims := VariableDraft.realize_of_shape hshape hmembers
    rw [hw] at hbuilt
    have howned : ∀ n ∈ q.chain, ∀ dim ∈ n.dimensions, dim.owner = some n.id := by
      intro n hn
      obtain ⟨r, hr, rfl⟩ := NamespaceTree.exists_place_of_mem_chain hq hn
      exact (NamespaceTree.numbered_of_build hbuild).dimensions r (NamespaceTree.mem_walk_iff_holds.mp hr)
    exact ⟨_, w, _, by rw [VariableDraft.withDimensions, hparse]; rfl, hanswer, hbuilt,
      VariableDraft.builtAt_of_realize howned hw, hwdims, t.gains_withVariable serial' q w⟩
  · rcases Place.makeDimensions_error he with ⟨token, htoken, hparse⟩ | ⟨name, specs, hname, hparse, hshape⟩
    · exact .inl ⟨token, htoken, by rw [VariableDraft.withDimensions, hparse]; rfl⟩
    · obtain ⟨p, hp, hppath, hanswer, hbuilt⟩ := hadd (v.withShape specs) serial' hnew
      rw [hunique p hp hppath] at hbuilt
      have hfails : (v.withShape specs).realize q.frames q.scope.id t.context = .error e :=
        VariableDraft.realize_error_of_shape hshape
      rw [hfails] at hbuilt
      exact .inr ⟨name, _, hname, by rw [VariableDraft.withDimensions, hparse]; rfl, hanswer, hbuilt⟩

/-- In the scope inside, `x` is its own declaration and not that of the root; `y` is not declared, and no name
has a slash. -/
theorem build_addVariable_makeDimensions_redeclared :
    ∃ t, (redeclared.build 0).1 = .ok t ∧ ∃ q ∈ t.walk, q.path = ["inner"] ∧
      (∃ v' w t', (VariableDraft.new "v" .float).withDimensions "x * 4" = .ok v' ∧
        ((inPath ["inner"] (addVariable v') redeclared).2.build 1).1 = .ok t' ∧
        w.dimensions = [(Dimension.ofName "x" 3).ownedBy 1, .varying, .anonymous 4] ∧ t.Gains t' q w) ∧
      (∃ v', (VariableDraft.new "v" .float).withDimensions "x y" = .ok v' ∧
        ((inPath ["inner"] (addVariable v') redeclared).2.build 1).1 = .error (.unknownDimension "y" "/inner")) ∧
      (VariableDraft.new "v" .float).withDimensions "y a/b" = .error (.malformedDimension "a/b" "y a/b") := by
  have hopen : ∀ n ∈ redeclared.nested, n.built = false := by decide
  obtain ⟨s, hs, hname, hnew⟩ : ∃ s, (s, [redeclared]) ∈ redeclared.chains [] ∧ s.name = "inner" ∧
      s.var? "v" = none :=
    ⟨_, List.mem_cons_of_mem _ List.mem_cons_self, rfl, rfl⟩
  have hpath : ["inner"] = Frame.path ([s, redeclared].map frame) := by
    simp [Frame.path, frame, hname]
  obtain ⟨t, ht, p, hp, hppath, hfound, hunknown, hmalformed⟩ : ∃ t, (redeclared.build 0).1 = .ok t ∧
      ∃ p ∈ t.walk, p.path = ["inner"] ∧
        p.makeDimensions "x * 4" = .ok [(Dimension.ofName "x" 3).ownedBy 1, .varying, .anonymous 4] ∧
        p.makeDimensions "x y" = .error (.unknownDimension "y" "/inner") ∧
        p.makeDimensions "y a/b" = .error (.malformedDimension "a/b" "y a/b") :=
    ⟨_, rfl, _, List.mem_cons_of_mem _ List.mem_cons_self, rfl,
      by decide +kernel, by decide +kernel, by decide +kernel⟩
  obtain ⟨q, hq, hqpath, hunique, hadds⟩ :=
    build_addVariable_makeDimensions reachable_redeclared hopen ht hs hpath
  rw [hunique p hp hppath] at hfound hunknown hmalformed
  have hshape := fun spec => hadds (.new "v" .float) spec 1 hnew
  obtain ⟨v', w, t', hv', -, hbuild, -, hdims, hgains⟩ :=
    (hshape "x * 4").shaped _ hfound fun _ hm => by cases hm
  refine ⟨t, ht, q, hq, hqpath, ⟨v', w, t', hv', hbuild, hdims, hgains⟩, ?_, ?_⟩
  · rcases (hshape "x y").refused _ hunknown with ⟨_, htoken, -⟩ | ⟨_, v', -, hv', -, hbuild⟩
    · cases htoken
    · exact ⟨v', hv', hbuild⟩
  · rcases (hshape "y a/b").refused _ hmalformed with ⟨_, -, hrefused⟩ | ⟨_, _, hname, -⟩
    · exact hrefused
    · cases hname

end ScopeDraft
end SciArchive
