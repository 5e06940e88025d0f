import SciArchive.Proofs.DistinctNames
import SciArchive.Proofs.Redeclaring

/-! Edits of the dimensions of one scope inside a draft, and what they do to the tree that is built. A
dimension in use stays; taking out another leaves all variables as they were; a replacement reaches the
references that found the old declaration, and no others. -/
namespace SciArchive
namespace ScopeDraft

/-! ### Edits of one scope -/

/-- The second draft is the first with `s` changed to `s'` at the end of a path of child names. So many
scopes stand before it, depth first. -/
inductive EditedAt (s s' : ScopeDraft) : Nat → List String → ScopeDraft → ScopeDraft → Prop
  | here : EditedAt s s' 0 [] s s'
  | inside {number : Nat} {path : List String} {d child child' : ScopeDraft}
      {before behind : List ScopeDraft} (scopes : d.scopes = before ++ child :: behind)
      (edited : EditedAt s s' number path child child') :
      EditedAt s s' (1 + sizeAll before + number) (child.name :: path) d
        { d with scopes := before ++ child' :: behind }

theorem inScope_ok {α : Type} {d child : ScopeDraft} (edit : Edit α) (hopen : d.built = false)
    {before behind : List ScopeDraft} (hscopes : d.scopes = before ++ child :: behind)
    (hnames : (d.scopes.map name).Nodup) :
    inScope child.name edit d =
      ((edit child).1, { d with scopes := before ++ (edit child).2 :: behind }) := by
  rw [hscopes, List.map_append, List.map_cons, List.nodup_middle, List.nodup_cons] at hnames
  have hbefore : ∀ s ∈ before, s.name ≠ child.name := by
    intro s hs hsame
    exact hnames.1 (List.mem_append_left _ (hsame ▸ List.mem_map_of_mem hs))
  have hupdate : ∀ s', updateFirst (fun s => s.name = child.name) (fun _ => s') d.scopes =
      before ++ s' :: behind := by
    intro s'
    rw [hscopes]
    clear hscopes hnames
    induction before with
    | nil => simp [updateFirst]
    | cons s before ih =>
      rw [List.forall_mem_cons] at hbefore
      simp [updateFirst, hbefore.1, ih hbefore.2]
  have hfound : d.scope? child.name = some child := by
    rw [scope?, hscopes, List.find?_append, List.find?_eq_none.mpr (by simpa using hbefore)]
    simp
  simp [inScope, whenOpen, hopen, hfound, hupdate]

/-- Where names are distinct, the path of a scope's names leads edits to the scope. -/
theorem inPath_editedAt {Q : List String → Prop} {d : ScopeDraft}
    (hopen : ∀ n ∈ d.nested, n.built = false) (hd : d.All Holdings.Distinct Q)
    {above inner : List ScopeDraft} {c : ScopeDraft × List ScopeDraft} (hc : c ∈ d.chains above)
    (hinner : c.1 :: c.2 = inner ++ d :: above) :
    ∃ number, ∀ {α : Type} (edit : Edit α), ∃ d',
      inPath (inner.map name).reverse edit d = ((edit c.1).1, d') ∧
        EditedAt c.1 (edit c.1).2 number (inner.map name).reverse d d' := by
  induction d using inductionOnScopes generalizing above inner with
  | draft d ih =>
    rw [forall_nested] at hopen
    obtain ⟨hown, hbelow⟩ := all_iff.mp hd
    rw [chains_eq, List.mem_cons, List.mem_flatMap] at hc
    rcases hc with rfl | ⟨child, hchild, hc⟩
    · have hempty : inner = [] := by
        have hlength := congrArg List.length hinner
        simp only [List.length_append, List.length_cons] at hlength
        exact List.length_eq_zero_iff.mp (by omega)
      subst hempty
      exact ⟨0, fun edit => ⟨(edit d).2, rfl, .here⟩⟩
    · obtain ⟨inner', hinner'⟩ := exists_inner hc
      have hsplit : inner = inner' ++ [child] := by
        have hsame : inner ++ (d :: above) = (inner' ++ [child]) ++ (d :: above) := by
          rw [← hinner, hinner', List.append_assoc]
          rfl
        exact List.append_cancel_right hsame
      have hpath : (inner.map name).reverse = child.name :: (inner'.map name).reverse := by
        simp [hsplit]
      obtain ⟨number, hedits⟩ := ih child hchild (hopen.2 child hchild) (hbelow child hchild) hc hinner'
      obtain ⟨before, behind, hscopes⟩ := List.append_of_mem hchild
      rw [hpath]
      refine ⟨1 + sizeAll before + number, fun edit => ?_⟩
      obtain ⟨child', hanswer, hedited⟩ := hedits edit
      have hedit := inScope_ok (inPath (inner'.map name).reverse edit) hopen.1 hscopes hown.1.scopes
      rw [hanswer] at hedit
      exact ⟨_, hedit, .inside hscopes hedited⟩

/-! ### Building what was edited -/

section
variable {s s' d d' : ScopeDraft} {path : List String} {frames : List Frame} {context : DatasetContext}
  {id number : Nat} {root : Scope}

theorem sizeAll_append (before behind : List ScopeDraft) :
    sizeAll (before ++ behind) = sizeAll before + sizeAll behind := by
  induction before with
  | nil => simp [sizeAll]
  | cons d before ih => rw [List.cons_append, sizeAll, sizeAll, ih, Nat.add_assoc]

theorem EditedAt.size_eq (h : EditedAt s s' number path d d') (hsame : s'.size = s.size) :
    d'.size = d.size := by
  induction h with
  | here => exact hsame
  | inside hscopes _ ih =>
    rw [ScopeDraft.size_eq, ScopeDraft.size_eq, hscopes]
    simp only [sizeAll_append, sizeAll, ih]

theorem EditedAt.number_lt (h : EditedAt s s' number path d d') : number < d.size := by
  induction h with
  | here => exact size_pos s
  | @inside _ _ d child _ before behind hscopes _ ih =>
    have hsize : d.size = 1 + (sizeAll before + (child.size + sizeAll behind)) := by
      rw [ScopeDraft.size_eq, hscopes, sizeAll_append, sizeAll]
    omega

/-- What a draft with a child among others is built to. -/
theorem Realizes.split {child : ScopeDraft} {before behind : List ScopeDraft}
    (h : d.Realizes frames context id root) (hscopes : d.scopes = before ++ child :: behind) :
    ∃ bs b rest, root.scopes = bs ++ b :: rest ∧
      realizeAll (root.frame :: frames) context (id + 1) before = .ok bs ∧
      child.realize (root.frame :: frames) context (id + 1 + sizeAll before) = .ok b ∧
      realizeAll (root.frame :: frames) context (id + 1 + sizeAll before + child.size) behind =
        .ok rest := by
  have hbuilt := h.scopes
  rw [hscopes, realizeAll_append_ok] at hbuilt
  obtain ⟨bs, _, hroot, hbefore, hlater⟩ := hbuilt
  obtain ⟨b, rest, rfl, hchild, hbehind⟩ := realizeAll_cons_ok.mp hlater
  exact ⟨bs, b, rest, hroot, hbefore, hchild, hbehind⟩

/-- The place that the edited scope is built to. -/
theorem EditedAt.exists_place (h : EditedAt s s' number path d d')
    (hroot : d.realize frames context id = .ok root) (above : List Scope) :
    ∃ q ∈ root.chains above, (∃ around, s.realize around context (id + number) = .ok q.1) ∧
      q.1.chains q.2 ⊆ root.chains above ∧
      ∃ inner, q.1 :: q.2 = inner ++ root :: above ∧ (inner.map Scope.name).reverse = path := by
  induction h generalizing frames id root above with
  | here =>
    refine ⟨(root, above), ?_, ⟨frames, hroot⟩, List.Subset.refl _, [], rfl, rfl⟩
    rw [Scope.chains_eq]
    exact List.mem_cons_self
  | @inside number _ _ child _ before _ hscopes _ ih =>
    obtain ⟨bs, b, rest, hbelow, -, hchild, -⟩ := (realize_eq_ok.mp hroot).split hscopes
    obtain ⟨q, hq, ⟨around, hrealize⟩, hsubset, inner, hinner, hpath⟩ := ih hchild (root :: above)
    have hb : b ∈ root.scopes := by simp [hbelow]
    have hinside : b.chains (root :: above) ⊆ root.chains above := by
      intro p hp
      rw [Scope.chains_eq]
      exact List.mem_cons_of_mem _ (List.mem_flatMap.mpr ⟨b, hb, hp⟩)
    have hnumber : id + (1 + sizeAll before + number) = id + 1 + sizeAll before + number := by omega
    rw [hnumber]
    have habove : q.1.chains q.2 ⊆ root.chains above := List.Subset.trans hsubset hinside
    refine ⟨q, hinside hq, ⟨around, hrealize⟩, habove, inner ++ [b], by simp [hinner], ?_⟩
    simp [hpath, (realize_eq_ok.mp hchild).name]

/-- Nothing is edited by a change to the same. -/
theorem EditedAt.refl (h : EditedAt s s' number path d d') : EditedAt s s number path d d := by
  induction h with
  | here => exact .here
  | @inside _ _ d _ _ _ _ hscopes _ ih =>
    have hsame := EditedAt.inside hscopes ih
    rw [← hscopes] at hsame
    cases d
    exact hsame

variable {f : Dimension → Dimension} {declare : List Dimension → List Dimension} {dims : List Dimension}

/-- A scope that declares other dimensions is built to the old scope with those dimensions, if the
references that reach it find what `f` makes of the old ones. -/
theorem realize_redeclared (hfixed : ∀ dim : Dimension, dim.owner ≠ some id → f dim = dim)
    (hframes : ∀ g ∈ frames, ∀ dim ∈ g.dimensions, dim.owner ≠ some id)
    (hdeclare : declare (s.dimensions.map (Dimension.ownedBy id)) = dims.map (Dimension.ownedBy id))
    (hused : ∀ name, s.UsedIn name → (dims.find? (Dimension.isNamed name)).map (Dimension.ownedBy id) =
      (s.dimension? name).map fun dim => f (dim.ownedBy id))
    (h : s.realize frames context id = .ok root) :
    ScopeDraft.realize frames context id { s with dimensions := dims } =
      .ok (root.redeclare id declare f) := by
  have hreal := realize_eq_ok.mp h
  have hdims : (root.redeclare id declare f).dimensions = dims.map (Dimension.ownedBy id) := by
    rw [Scope.redeclare_eq, if_pos hreal.id, hreal.dimensions, hdeclare]
  have hinside : ∀ name, s.UsedIn name →
      Frame.Follows f (root.frame :: frames) ((root.redeclare id declare f).frame :: frames) name := by
    intro name hname
    refine .cons ?_ fun _ => Frame.follows_self fun g hg dim hdim => hfixed dim (hframes g hg dim hdim)
    rw [Scope.frame, Scope.frame, hdims, hreal.dimensions, find?_ownedBy, find?_ownedBy, hused name hname,
      Option.map_map]
    rfl
  refine hreal.redeclare rfl rfl rfl hdims ?_ ?_
  · refine VariableDraft.realizeAll_follows (fun dim hdim => hfixed dim (by simp [hdim])) hreal.vars ?_
    exact fun v hv name hname => hinside name (usedIn_iff.mpr (.inl ⟨v, hv, hname⟩))
  · refine realizeAll_follows (fun c hc _ _ hbuilt hnumber => ?_) hreal.scopes
      (by simp only [Avoids]; omega)
    exact realize_follows hfixed hbuilt hnumber fun name hnone hname =>
      hinside name (usedIn_iff.mpr (.inr ⟨c, hc, hnone, hname⟩))

/-- All other scopes of the tree keep what they declare, and their variables are changed by `f` too. -/
theorem EditedAt.realize (declare : List Dimension → List Dimension)
    (h : EditedAt s { s with dimensions := dims } number path d d')
    (hfixed : ∀ dim : Dimension, dim.owner ≠ some (id + number) → f dim = dim)
    (hframes : ∀ g ∈ frames, ∀ dim ∈ g.dimensions, dim.owner ≠ some (id + number))
    (hdeclare : declare (s.dimensions.map (Dimension.ownedBy (id + number))) =
      dims.map (Dimension.ownedBy (id + number)))
    (hused : ∀ name, s.UsedIn name →
      (dims.find? (Dimension.isNamed name)).map (Dimension.ownedBy (id + number)) =
        (s.dimension? name).map fun dim => f (dim.ownedBy (id + number)))
    (hroot : d.realize frames context id = .ok root) :
    d'.realize frames context id = .ok (root.redeclare (id + number) declare f) := by
  obtain ⟨n, hn⟩ : ∃ n, n = id + number := ⟨_, rfl⟩
  rw [← hn] at hfixed hframes hdeclare hused ⊢
  induction h generalizing frames id root with
  | here =>
    rw [Nat.add_zero] at hn
    subst hn
    exact realize_redeclared hfixed hframes hdeclare hused hroot
  | @inside number path d child child' before behind hscopes hinside ih =>
    have hreal := realize_eq_ok.mp hroot
    obtain ⟨bs, b, rest, hbelow, hbefore, hchild, hbehind⟩ := hreal.split hscopes
    have hsize : child'.size = child.size := hinside.size_eq (by simp [ScopeDraft.size_eq])
    have hid : root.id ≠ n := by
      rw [hreal.id]
      omega
    have hframe := Scope.frame_redeclare n declare f hid
    have hframes' : ∀ g ∈ root.frame :: frames, ∀ dim ∈ g.dimensions, dim.owner ≠ some n := by
      rw [List.forall_mem_cons]
      refine ⟨fun dim hdim => ?_, hframes⟩
      rw [hreal.declaredAs.owner dim hdim]
      simpa using hid
    have hfollows : ∀ name, Frame.Follows f (root.frame :: frames) (root.frame :: frames) name :=
      fun name => Frame.follows_self fun g hg dim hdim => hfixed dim (hframes' g hg dim hdim)
    -- the scopes on both sides resolve as before, and so do the variables of the scope itself
    have hbeside : ∀ {ds ss j}, realizeAll (root.frame :: frames) context j ds = .ok ss →
        Avoids n j (sizeAll ds) → realizeAll (root.frame :: frames) context j ds =
          .ok (ss.map (Scope.redeclare n declare f)) := fun hbuilt hnumber =>
      realizeAll_follows (fun c _ _ _ hc havoids => realize_follows hfixed hc havoids
        fun name _ _ => hfollows name) hbuilt hnumber
    have hlt := hinside.number_lt
    have hinner := ih hchild hframes' (by omega)
    have hscopes' : realizeAll (root.frame :: frames) context (id + 1) (before ++ child' :: behind) =
        .ok (root.scopes.map (Scope.redeclare n declare f)) := by
      rw [hbelow, List.map_append, List.map_cons]
      refine realizeAll_append_ok.mpr ⟨_, _, rfl, hbeside hbefore (by simp only [Avoids]; omega), ?_⟩
      refine realizeAll_cons_ok.mpr ⟨_, _, rfl, hinner, ?_⟩
      rw [hsize]
      exact hbeside hbehind (by simp only [Avoids]; omega)
    refine hreal.redeclare rfl rfl rfl ?_ ?_ ?_
    · rw [Scope.redeclare_eq, if_neg hid, hreal.dimensions]
    · rw [hframe]
      exact VariableDraft.realizeAll_follows (fun dim hdim => hfixed dim (by simp [hdim])) hreal.vars
        fun _ _ name _ => hfollows name
    · rw [hframe]
      exact hscopes'

theorem EditedAt.same (h : EditedAt s s' number path d d') (hbuilt : s'.built = s.built)
    (hcontext : s'.context = s.context) : d'.built = d.built ∧ d'.context = d.context := by
  cases h with
  | here => exact ⟨hbuilt, hcontext⟩
  | inside => exact ⟨rfl, rfl⟩

end

end ScopeDraft

/-! ### Trees before and after -/

/-- The same place in two trees. -/
def Place.Matches (p p' : Place) : Prop := p'.scope.id = p.scope.id ∧ p'.path = p.path

theorem NamespaceTree.forall_walk_redeclare (t : NamespaceTree) (id : Nat)
    (declare : List Dimension → List Dimension) (f : Dimension → Dimension) :
    List.Forall₂ (fun p p' => p.Matches p' ∧ p'.scope.vars = p.scope.vars.map (Variable.mapDimensions f))
      t.walk { t with root := t.root.redeclare id declare f }.walk := by
  have hchains := t.root.chains_redeclare id declare f []
  rw [walk, walk]
  rw [List.map_nil] at hchains
  rw [hchains, List.map_map, List.forall₂_map_left_iff, List.forall₂_map_right_iff, List.forall₂_same]
  intro c _
  refine ⟨⟨Scope.redeclare_id _ _ _ c.1, ?_⟩, by simp [Scope.redeclare_eq]⟩
  simp [Place.path, Place.frames, Place.chain, Frame.path, Scope.frame, Function.comp_def]

namespace ScopeDraft

variable {s d d' : ScopeDraft} {path : List String} {number : Nat} {serial : Nat} {t : NamespaceTree}
  {dims : List Dimension}

/-- A root builds after the dimensions of one scope inside were changed as `f` says. -/
theorem EditedAt.build (h : EditedAt s { s with dimensions := dims } number path d d')
    {f : Dimension → Dimension}
    (hfixed : ∀ dim : Dimension, dim.owner ≠ some number → f dim = dim)
    (hused : ∀ name, s.UsedIn name →
      (dims.find? (Dimension.isNamed name)).map (Dimension.ownedBy number) =
        (s.dimension? name).map fun dim => f (dim.ownedBy number))
    (hbuild : (d.build serial).1 = .ok t) :
    ∃ t', (d'.build serial).1 = .ok t' ∧
      List.Forall₂ (fun p p' => p.Matches p' ∧
        p'.scope.vars = p.scope.vars.map (Variable.mapDimensions f)) t.walk t'.walk := by
  obtain ⟨hopen, hserial, hcontext, hroot⟩ := build_eq_ok.mp hbuild
  obtain ⟨hbuilt', hcontext'⟩ := h.same rfl rfl
  have hzero : 0 + number = number := Nat.zero_add number
  rw [← hzero] at hfixed hused
  let declare : List Dimension → List Dimension := fun _ => dims.map (Dimension.ownedBy (0 + number))
  have hroot' := h.realize declare hfixed (fun _ hg => by cases hg) rfl hused hroot
  have hbuild' : (d'.build serial).1 = .ok { t with root := t.root.redeclare (0 + number) declare f } :=
    build_eq_ok.mpr ⟨hbuilt'.trans hopen, hserial, hcontext' ▸ hcontext, hroot'⟩
  exact ⟨_, hbuild', t.forall_walk_redeclare _ _ f⟩

theorem ne_ownedBy {found dim : Dimension} (h : found.owner ≠ some number) :
    found ≠ dim.ownedBy number := by
  rintro rfl
  exact h rfl

/-- Declarations of two names are told apart by the names. -/
theorem ownedBy_ne {name other : String} {dim old : Dimension} (hdim : s.dimension? other = some dim)
    (hold : s.dimension? name = some old) (hne : other ≠ name) :
    dim.ownedBy number ≠ old.ownedBy number := by
  intro heq
  have hname : dim.name = some other := by simpa [Dimension.isNamed] using List.find?_some hdim
  have holdName : old.name = some name := by simpa [Dimension.isNamed] using List.find?_some hold
  have hsame : dim.name = old.name := by
    simpa [Dimension.ownedBy] using congrArg Dimension.name heq
  rw [hname, holdName] at hsame
  exact hne (Option.some.inj hsame)

/-- The place in the tree that the edited scope is built to; what it declares is found in the variables
exactly if it is used. -/
theorem EditedAt.exists_mem_walk {s' : ScopeDraft} (h : EditedAt s s' number path d d')
    (hbuild : (d.build serial).1 = .ok t) :
    ∃ q ∈ t.walk, q.path = path ∧ q.scope.id = number ∧
      ∀ name old, s.dimension? name = some old → (s.UsedIn name ↔
        ∃ p ∈ t.walk, ∃ v ∈ p.scope.vars, ∃ m ∈ v.nested, old.ownedBy q.scope.id ∈ m.dimensions) := by
  obtain ⟨-, -, -, hroot⟩ := build_eq_ok.mp hbuild
  obtain ⟨q, hq, ⟨around, hrealize⟩, hsubset, inner, hinner, hpath⟩ := h.exists_place hroot []
  have hreal := realize_eq_ok.mp hrealize
  have hid : q.1.id = number := by simpa using hreal.id
  refine ⟨⟨t, q.1, q.2⟩, List.mem_map_of_mem hq, ?_, hid, fun name old hdecl => ⟨fun hname => ?_, ?_⟩⟩
  · rw [← hpath]
    simp [Place.path, Place.frames, Place.chain, hinner, Frame.path, Scope.frame, Function.comp_def]
  · have hfound : Frame.resolve? (q.1.frame :: around) name = some (old.ownedBy q.1.id) := by
      have hfind : s.dimensions.find? (Dimension.isNamed name) = some old := hdecl
      rw [Frame.resolve?_cons, Scope.frame, hreal.dimensions, find?_ownedBy, hfind, hreal.id]
      rfl
    obtain ⟨p, hp, v, hv, hdim⟩ := hname.exists_dimension hrealize hfound q.2
    exact ⟨⟨t, p.1, p.2⟩, List.mem_map_of_mem (hsubset hp), v, hv, hdim⟩
  · rintro ⟨p, hp, v, hv, m, hm, hdim⟩
    by_contra hunused
    -- unused, the declaration could be any other dimension, and the tree would not change
    let other : Dimension := { old.ownedBy number with unlimited := !old.unlimited }
    have hother : other ≠ old.ownedBy number := fun heq => by
      simpa [other, Dimension.ownedBy] using congrArg Dimension.unlimited heq
    have hsame : ∀ dims, dims = s.dimensions →
        EditedAt s { s with dimensions := dims } number path d d := by
      rintro _ rfl
      cases s
      exact h.refl
    have hused : ∀ name', s.UsedIn name' →
        (s.dimensions.find? (Dimension.isNamed name')).map (Dimension.ownedBy number) =
          (s.dimension? name').map fun dim =>
            if dim.ownedBy number = old.ownedBy number then other else dim.ownedBy number := by
      intro name' hname'
      have hne : name' ≠ name := by
        rintro rfl
        exact hunused hname'
      exact Option.map_congr fun dim hdim => (if_neg (ownedBy_ne hdim hdecl hne)).symm
    obtain ⟨t', hbuild', hwalk⟩ :=
      (hsame _ rfl).build (f := fun dim => if dim = old.ownedBy number then other else dim)
        (fun found hfound => if_neg (ne_ownedBy hfound)) hused hbuild
    rw [hbuild, Except.ok.injEq] at hbuild'
    subst hbuild'
    have hvars := (List.forall₂_same.mp hwalk p hp).2
    have hv' := List.map_inj_left.mp (hvars.symm.trans (List.map_id _).symm) v hv
    refine Variable.not_mem_of_mapDimensions_eq hv' ?_ m hm hdim
    simpa [hid] using hother

/-! ### Removing and replacing -/

theorem find?_eraseP_of_disjoint {α : Type} {p q : α → Bool} (hdisjoint : ∀ a, p a = true → q a = false)
    (l : List α) : (l.eraseP p).find? q = l.find? q := by
  induction l with
  | nil => rfl
  | cons a l ih =>
    by_cases hp : p a = true
    · simp [hp, hdisjoint a hp]
    · simp [hp, List.find?_cons, ih]

theorem find?_updateFirst {α : Type} {p : α → Bool} {b : α} (hb : p b = true) (l : List α) :
    (updateFirst p (fun _ => b) l).find? p = (l.find? p).map fun _ => b := by
  induction l with
  | nil => rfl
  | cons a l ih =>
    by_cases hp : p a = true
    · simp [updateFirst, hp, hb]
    · simp [updateFirst, hp, ih]

theorem find?_updateFirst_of_disjoint {α : Type} {p q : α → Bool} {b : α} (hb : q b = false)
    (hdisjoint : ∀ a, p a = true → q a = false) (l : List α) :
    (updateFirst p (fun _ => b) l).find? q = l.find? q := by
  induction l with
  | nil => rfl
  | cons a l ih =>
    by_cases hp : p a = true
    · simp [updateFirst, hp, hb, hdisjoint a hp]
    · simp [updateFirst, hp, List.find?_cons, ih]

theorem isNamed_disjoint {name other : String} (h : other ≠ name) :
    ∀ dim : Dimension, dim.isNamed name = true → dim.isNamed other = false := by
  intro dim hdim
  have hname : dim.name = some name := by simpa [Dimension.isNamed] using hdim
  simpa [Dimension.isNamed, hname] using h.symm

/-- Names in use are found as before, if the name taken out is not in use. -/
theorem find?_removed {name : String} (hunused : ¬ s.UsedIn name) :
    ∀ other, s.UsedIn other → ((s.dimensions.eraseP (Dimension.isNamed name)).find?
        (Dimension.isNamed other)).map (Dimension.ownedBy number) =
      (s.dimension? other).map fun dim => id (dim.ownedBy number) := by
  intro other hother
  have hne : other ≠ name := by
    rintro rfl
    exact hunused hother
  rw [find?_eraseP_of_disjoint (isNamed_disjoint hne)]
  rfl

/-- The new declaration is found in the place of the old one, and all others as before. -/
theorem find?_replaced {name : String} {dim old : Dimension} (hname : dim.name = some name)
    (hdecl : s.dimension? name = some old) :
    ∀ other, s.UsedIn other → ((updateFirst (Dimension.isNamed name) (fun _ => dim) s.dimensions).find?
        (Dimension.isNamed other)).map (Dimension.ownedBy number) =
      (s.dimension? other).map fun found =>
        if found.ownedBy number = old.ownedBy number then dim.ownedBy number else found.ownedBy number := by
  intro other _
  have hnamed : dim.isNamed name = true := by simp [Dimension.isNamed, hname]
  by_cases hsame : other = name
  · subst hsame
    have hold : s.dimensions.find? (Dimension.isNamed other) = some old := hdecl
    rw [find?_updateFirst hnamed, hold, hdecl]
    simp
  · have hother := isNamed_disjoint hsame
    rw [find?_updateFirst_of_disjoint (hother dim hnamed) hother]
    exact Option.map_congr fun found hfound => (if_neg (ownedBy_ne hfound hdecl hsame)).symm

theorem removeDimension_inUse_iff (hopen : s.built = false) (name : String) :
    (∃ user, (removeDimension name s).1 = .error (.dimensionInUse name user)) ↔
      (s.dimension? name).isSome = true ∧ s.UsedIn name := by
  rw [← userOf?_isSome]
  cases hdecl : s.dimension? name with
  | none => simp [removeDimension, whenOpen, hopen, hdecl]
  | some dim =>
    cases huser : s.userOf? name with
    | none => simp [removeDimension, whenOpen, hopen, hdecl, huser]
    | some user => simp [removeDimension, whenOpen, hopen, hdecl, huser]

theorem removeDimension_true {name : String} (h : (removeDimension name s).1 = .ok true) :
    ¬ s.UsedIn name ∧ (removeDimension name s).2 =
      { s with dimensions := s.dimensions.eraseP (Dimension.isNamed name) } := by
  rw [← userOf?_isSome]
  cases hopen : s.built with
  | true => simp [removeDimension, whenOpen, hopen] at h
  | false =>
    cases hdecl : s.dimension? name with
    | none => simp [removeDimension, whenOpen, hopen, hdecl] at h
    | some dim =>
      cases huser : s.userOf? name with
      | none => simp [removeDimension, whenOpen, hopen, hdecl, huser]
      | some user => simp [removeDimension, whenOpen, hopen, hdecl, huser] at h

theorem replaceDimension_true {dim : Dimension} (h : (replaceDimension dim s).1 = .ok true) :
    ∃ name old, dim.sharedName? = some name ∧ s.dimension? name = some old ∧
      (replaceDimension dim s).2 = { s with
        dimensions := updateFirst (Dimension.isNamed name) (fun _ => dim) s.dimensions } := by
  cases hopen : s.built with
  | true => simp [replaceDimension, whenShared, whenOpen, hopen] at h
  | false =>
    cases hname : dim.sharedName? with
    | none => simp [replaceDimension, whenShared, whenOpen, hopen, hname] at h
    | some name =>
      cases hdecl : s.dimension? name with
      | none => simp [replaceDimension, whenShared, whenOpen, hopen, hname, hdecl] at h
      | some old =>
        exact ⟨name, old, rfl, hdecl, by simp [replaceDimension, whenShared, whenOpen, hopen, hname, hdecl]⟩

/-- In a reachable root that is open all through, take any scope and the path of its names. Taking out a
dimension there is refused as being in use exactly if the scope declares it and a reference in or below
resolves to that declaration. If the root builds, the declaration is then found in the tree. Where it is
taken out, the root still builds and all variables are the same. Where a dimension is replaced, the root
still builds; each dimension of a variable or member that was the old declaration is the new one, owned by
the scope, and all others are the same. -/
theorem dimensions_edited (hreach : Reachable (fun _ _ => True) (.scope d))
    (hopen : ∀ n ∈ d.nested, n.built = false) {around : List ScopeDraft}
    (hs : (s, around) ∈ d.chains []) (hpath : path = Frame.path ((s :: around).map frame)) :
    (∀ name, (∃ user, (inPath path (removeDimension name) d).1 = .error (.dimensionInUse name user)) ↔
      (s.dimension? name).isSome = true ∧ s.UsedIn name) ∧
    ∀ serial t, (d.build serial).1 = .ok t → ∃ q ∈ t.walk, q.path = path ∧
      (∀ name old, s.dimension? name = some old → (s.UsedIn name ↔
        ∃ p ∈ t.walk, ∃ v ∈ p.scope.vars, ∃ m ∈ v.nested, old.ownedBy q.scope.id ∈ m.dimensions)) ∧
      (∀ name, (inPath path (removeDimension name) d).1 = .ok true →
        ∃ t', ((inPath path (removeDimension name) d).2.build serial).1 = .ok t' ∧
          List.Forall₂ (fun p p' => p.Matches p' ∧ p'.scope.vars = p.scope.vars) t.walk t'.walk) ∧
      ∀ dim, (inPath path (replaceDimension dim) d).1 = .ok true →
        ∃ name old t', dim.sharedName? = some name ∧ s.dimension? name = some old ∧
          ((inPath path (replaceDimension dim) d).2.build serial).1 = .ok t' ∧
          List.Forall₂ (fun p p' => p.Matches p' ∧ p'.scope.vars = p.scope.vars.map
            (Variable.mapDimensions fun found => if found = old.ownedBy q.scope.id
              then dim.ownedBy q.scope.id else found)) t.walk t'.walk := by
  have hdistinct : d.All Holdings.Distinct List.Nodup := hreach.all kept_distinct
  obtain ⟨inner, hinner⟩ := exists_inner hs
  have hnames : path = (inner.map name).reverse := by
    rw [hpath, hinner]
    simp [Frame.path, frame, Function.comp_def]
  have hsopen : s.built = false := by
    refine hopen s ?_
    rw [← map_fst_chains d []]
    exact List.mem_map_of_mem hs
  obtain ⟨number, hedit⟩ := inPath_editedAt hopen hdistinct hs hinner
  rw [← hnames] at hedit
  refine ⟨fun name => ?_, fun serial t hbuild => ?_⟩
  · obtain ⟨d', hanswer, -⟩ := hedit (removeDimension name)
    rw [hanswer]
    exact removeDimension_inUse_iff hsopen name
  · obtain ⟨_, -, hedited⟩ := hedit (removeDimension "")
    obtain ⟨q, hq, hqpath, hid, hfound⟩ := hedited.exists_mem_walk hbuild
    refine ⟨q, hq, hqpath, hfound, fun name htrue => ?_, fun dim htrue => ?_⟩
    · obtain ⟨d', hanswer, hedited⟩ := hedit (removeDimension name)
      rw [hanswer] at htrue ⊢
      obtain ⟨hunused, hafter⟩ := removeDimension_true htrue
      rw [hafter] at hedited
      have hbuilt := hedited.build (f := id) (fun _ _ => rfl) (find?_removed hunused) hbuild
      simpa using hbuilt
    · obtain ⟨d', hanswer, hedited⟩ := hedit (replaceDimension dim)
      rw [hanswer] at htrue ⊢
      obtain ⟨name, old, hname, hdecl, hafter⟩ := replaceDimension_true htrue
      rw [hafter] at hedited
      obtain ⟨t', hbuild', hwalk⟩ := hedited.build (fun found hfound => if_neg (ne_ownedBy hfound))
        (find?_replaced (Dimension.name_of_sharedName hname) hdecl) hbuild
      rw [hid]
      exact ⟨name, old, t', hname, hdecl, hbuild', hwalk⟩

/-- The record refers to the declaration of the scope inside, and nothing to that of the root. -/
theorem dimensions_edited_redeclared :
    (∃ user, (inPath ["inner"] (removeDimension "x") redeclared).1 = .error (.dimensionInUse "x" user)) ∧
      ∃ t, (redeclared.build 0).1 = .ok t ∧
        (∃ q ∈ t.walk, q.path = ["inner"] ∧
          ∃ t', ((inPath ["inner"] (replaceDimension (.ofName "x" 5)) redeclared).2.build 0).1 = .ok t' ∧
            List.Forall₂ (fun p p' => p.Matches p' ∧ p'.scope.vars = p.scope.vars.map
              (Variable.mapDimensions fun found =>
                if found = (Dimension.ofName "x" 3).ownedBy q.scope.id
                then (Dimension.ofName "x" 5).ownedBy q.scope.id else found)) t.walk t'.walk) ∧
        ∃ t', ((inPath [] (removeDimension "x") redeclared).2.build 0).1 = .ok t' ∧
          List.Forall₂ (fun p p' => p.Matches p' ∧ p'.scope.vars = p.scope.vars) t.walk t'.walk := by
  have hopen : ∀ n ∈ redeclared.nested, n.built = false := by decide
  have hroot : (redeclared, []) ∈ redeclared.chains [] := List.mem_cons_self
  obtain ⟨s, hs, hname, hdecl, hused⟩ : ∃ s, (s, [redeclared]) ∈ redeclared.chains [] ∧
      s.name = "inner" ∧ s.dimension? "x" = some (.ofName "x" 3) ∧ s.UsedIn "x" :=
    ⟨_, List.mem_cons_of_mem _ List.mem_cons_self, rfl, rfl, userOf?_isSome.mp rfl⟩
  have hpath : ["inner"] = Frame.path ([s, redeclared].map frame) := by
    simp [Frame.path, frame, hname]
  have hbuilt : ∃ t, (redeclared.build 0).1 = .ok t := ⟨_, rfl⟩
  obtain ⟨t, ht⟩ := hbuilt
  obtain ⟨hrefused, hedits⟩ := dimensions_edited reachable_redeclared hopen hs hpath
  obtain ⟨q, hq, hqpath, -, -, hreplaced⟩ := hedits 0 t ht
  obtain ⟨name, old, t', hshared, hold, hbuild, hwalk⟩ := hreplaced (.ofName "x" 5) (by decide)
  obtain ⟨-, hrootEdits⟩ := dimensions_edited reachable_redeclared hopen hroot rfl
  obtain ⟨-, -, -, -, hremoved, -⟩ := hrootEdits 0 t ht
  have hsame : "x" = name := Option.some.inj hshared
  subst hsame
  rw [hdecl, Option.some.injEq] at hold
  subst hold
  have hinUse := (hrefused "x").mpr ⟨Option.isSome_of_eq_some hdecl, hused⟩
  exact ⟨hinUse, t, ht, ⟨q, hq, hqpath, t', hbuild, hwalk⟩, hremoved "x" (by decide)⟩

end ScopeDraft
end SciArchive
