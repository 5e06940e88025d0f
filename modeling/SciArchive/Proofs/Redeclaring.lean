import SciArchive.Proofs.Rebuilding

/-! Building where the scopes around declare other dimensions. A draft whose references find other
declarations builds to the same variables with those dimensions in the place of the old ones, and only
the references that reach past the scopes below it count. -/
namespace SciArchive

/-! ### Trees with other dimensions -/

namespace Variable

mutual

/-- The variable with all its dimensions changed by `f`, those of its members at any depth too. -/
def mapDimensions (f : Dimension → Dimension) : Variable → Variable
  | ⟨name, type, dims, atts, axis, members, scope, context⟩ =>
    ⟨name, type, dims.map f, atts, axis, mapAllDimensions f members, scope, context⟩

def mapAllDimensions (f : Dimension → Dimension) : List Variable → List Variable
  | [] => []
  | v :: vs => v.mapDimensions f :: mapAllDimensions f vs

end

variable {f : Dimension → Dimension}

theorem mapAllDimensions_eq (vs : List Variable) : mapAllDimensions f vs = vs.map (mapDimensions f) := by
  induction vs with
  | nil => rfl
  | cons v vs ih => simp [mapAllDimensions, ih]

theorem mapDimensions_eq (v : Variable) :
    v.mapDimensions f =
      { v with dimensions := v.dimensions.map f, members := v.members.map (mapDimensions f) } := by
  cases v
  simp [mapDimensions, mapAllDimensions_eq]

@[simp] theorem mapDimensions_id : mapDimensions id = id := by
  funext v
  induction v using inductionOnMembers with
  | var v ih =>
    have hmembers : v.members.map (mapDimensions id) = v.members :=
      (List.map_congr_left ih).trans (List.map_id _)
    rw [mapDimensions_eq, hmembers, List.map_id]
    cases v
    rfl

/-- A dimension that `f` changes is none of those of a variable that it leaves alone. -/
theorem not_mem_of_mapDimensions_eq {v : Variable} (h : v.mapDimensions f = v) {dim : Dimension}
    (hchanged : f dim ≠ dim) : ∀ m ∈ v.nested, dim ∉ m.dimensions := by
  induction v using inductionOnMembers with
  | var v ih =>
    rw [mapDimensions_eq] at h
    have hdims : v.dimensions.map f = v.dimensions.map id := by
      simpa using congrArg dimensions h
    have hmembers : v.members.map (mapDimensions f) = v.members.map id := by
      simpa using congrArg members h
    rw [forall_nested]
    constructor
    · intro hmem
      exact hchanged (List.map_inj_left.mp hdims dim hmem)
    · exact fun m hm => ih m hm (List.map_inj_left.mp hmembers m hm)

end Variable

namespace Scope

mutual

/-- The tree in which the scope numbered `id` declares other dimensions, and the dimensions of all
variables are changed by `f`. -/
def redeclare (id : Nat) (declare : List Dimension → List Dimension) (f : Dimension → Dimension) :
    Scope → Scope
  | ⟨own, name, atts, dims, enums, vars, scopes⟩ =>
    ⟨own, name, atts, if own = id then declare dims else dims, enums, vars.map (Variable.mapDimensions f),
      redeclareAll id declare f scopes⟩

def redeclareAll (id : Nat) (declare : List Dimension → List Dimension) (f : Dimension → Dimension) :
    List Scope → List Scope
  | [] => []
  | s :: rest => s.redeclare id declare f :: redeclareAll id declare f rest

end

variable (id : Nat) (declare : List Dimension → List Dimension) (f : Dimension → Dimension)

theorem redeclareAll_eq (ss : List Scope) :
    redeclareAll id declare f ss = ss.map (redeclare id declare f) := by
  induction ss with
  | nil => rfl
  | cons s ss ih => simp [redeclareAll, ih]

theorem redeclare_eq (s : Scope) :
    s.redeclare id declare f =
      { s with
        dimensions := if s.id = id then declare s.dimensions else s.dimensions
        vars := s.vars.map (Variable.mapDimensions f)
        scopes := s.scopes.map (redeclare id declare f) } := by
  cases s
  simp [redeclare, redeclareAll_eq]

@[simp] theorem redeclare_id (s : Scope) : (s.redeclare id declare f).id = s.id := by
  rw [redeclare_eq]

@[simp] theorem redeclare_name (s : Scope) : (s.redeclare id declare f).name = s.name := by
  rw [redeclare_eq]

theorem frame_redeclare {s : Scope} (h : s.id ≠ id) : (s.redeclare id declare f).frame = s.frame := by
  simp [redeclare_eq, frame, h]

/-- The places of the changed tree are those of the tree, changed. -/
theorem chains_redeclare (s : Scope) (above : List Scope) :
    (s.redeclare id declare f).chains (above.map (redeclare id declare f)) =
      (s.chains above).map fun c => (c.1.redeclare id declare f, c.2.map (redeclare id declare f)) := by
  induction s using inductionOnScopes generalizing above with
  | scope s ih =>
    have hbelow : (s.redeclare id declare f).scopes = s.scopes.map (redeclare id declare f) := by
      rw [redeclare_eq]
    rw [chains_eq, chains_eq above, hbelow, List.flatMap_map, List.map_cons, List.map_flatMap]
    exact congrArg (_ :: ·) (List.flatMap_congr fun c hc => ih c hc (s :: above))

end Scope

/-! ### Frames -/

namespace Frame

/-- For a name the others find what the frames find, changed by `f`. -/
def Follows (f : Dimension → Dimension) (frames others : List Frame) (name : String) : Prop :=
  resolve? others name = (resolve? frames name).map f

theorem resolve?_cons (g : Frame) (frames : List Frame) (name : String) :
    resolve? (g :: frames) name =
      (g.dimensions.find? (Dimension.isNamed name)).or (resolve? frames name) := by
  rw [resolve?, List.findSome?_cons]
  cases g.dimensions.find? (Dimension.isNamed name) <;> rfl

variable {f : Dimension → Dimension} {frames others : List Frame} {name : String}

/-- What each frame declares being changed, a name is followed if the frames around follow. -/
theorem Follows.cons {g h : Frame}
    (hdeclared : h.dimensions.find? (Dimension.isNamed name) =
      (g.dimensions.find? (Dimension.isNamed name)).map f)
    (haround : g.dimensions.find? (Dimension.isNamed name) = none → Follows f frames others name) :
    Follows f (g :: frames) (h :: others) name := by
  rw [Follows, resolve?_cons, resolve?_cons, hdeclared]
  cases hfound : g.dimensions.find? (Dimension.isNamed name) with
  | none => simpa [Follows] using haround hfound
  | some dim => simp

theorem follows_self (hfixed : ∀ g ∈ frames, ∀ dim ∈ g.dimensions, f dim = dim) :
    Follows f frames frames name := by
  induction frames with
  | nil => rfl
  | cons g frames ih =>
    rw [List.forall_mem_cons] at hfixed
    refine .cons ?_ fun _ => ih hfixed.2
    cases hfound : g.dimensions.find? (Dimension.isNamed name) with
    | none => rfl
    | some dim => simp [hfixed.1 dim (List.mem_of_find?_eq_some hfound)]

theorem dimension_follows (hplain : ∀ dim : Dimension, dim.owner = none → f dim = dim) {spec : DimSpec}
    {dim : Dimension} (h : dimension frames spec = .ok dim)
    (hfollows : ∀ name, spec = .shared name → Follows f frames others name) :
    dimension others spec = .ok (f dim) := by
  cases spec with
  | fixed n =>
    cases h
    rw [hplain (.anonymous n) rfl]
    rfl
  | varying =>
    cases h
    rw [hplain .varying rfl]
    rfl
  | shared name =>
    have hname := hfollows name rfl
    cases hfound : resolve? frames name with
    | none => simp [dimension, hfound] at h
    | some found =>
      simp only [dimension, hfound, Except.ok.injEq] at h
      subst h
      simp only [Follows, hfound, Option.map_some] at hname
      simp [dimension, hname]

end Frame

/-! ### Variables -/

namespace VariableDraft

/-- The draft, or a member at any depth, refers to the name. -/
def RefersTo (v : VariableDraft) (name : String) : Prop := ∃ m ∈ v.nested, .shared name ∈ m.shape

theorem refersTo_iff {v : VariableDraft} {name : String} :
    v.RefersTo name ↔ .shared name ∈ v.shape ∨ ∃ m ∈ v.members, m.RefersTo name := by
  simp only [RefersTo, nested_eq v, List.mem_cons, List.mem_flatMap]
  grind

theorem userAmong?_eq (name : String) (vs : List VariableDraft) :
    userAmong? name vs = vs.findSome? (userOf? name) := by
  induction vs with
  | nil => rfl
  | cons v vs ih =>
    rw [userAmong?, List.findSome?_cons, ih]
    cases v.userOf? name <;> rfl

/-- The search through the members finds a user exactly if there is one. -/
theorem userOf?_isSome {v : VariableDraft} {name : String} :
    (v.userOf? name).isSome = true ↔ v.RefersTo name := by
  induction v using inductionOnMembers with
  | draft v ih =>
    have hmembers : (userAmong? name v.members).isSome = true ↔ ∃ m ∈ v.members, m.RefersTo name := by
      rw [userAmong?_eq, List.findSome?_isSome_iff]
      exact exists_congr fun m => and_congr_right fun hm => ih m hm
    rw [refersTo_iff, ← hmembers]
    cases v with
    | mk _ _ shape =>
      rw [userOf?]
      by_cases hown : .shared name ∈ shape <;> simp [hown]

variable {f : Dimension → Dimension} {frames others : List Frame} {scope : Nat}
  {context : DatasetContext}

theorem realize_follows (hplain : ∀ dim : Dimension, dim.owner = none → f dim = dim)
    {v : VariableDraft} {w : Variable} (h : v.realize frames scope context = .ok w)
    (hfollows : ∀ name, v.RefersTo name → Frame.Follows f frames others name) :
    v.realize others scope context = .ok (w.mapDimensions f) := by
  induction v using inductionOnMembers generalizing w context with
  | draft v ih =>
    have hreal := realize_eq_ok.mp h
    have hshape : Frame.shape others v.shape = .ok (w.dimensions.map f) := by
      refine mapM_eq_ok.mpr (List.forall₂_map_right_iff.mpr ?_)
      have hdims := (List.forall₂_and_left _ _).mpr ⟨fun _ hspec => hspec, mapM_eq_ok.mp hreal.shape⟩
      refine hdims.imp fun spec dim hdim => Frame.dimension_follows hplain hdim.2 ?_
      rintro name rfl
      exact hfollows name (refersTo_iff.mpr (.inl hdim.1))
    have hmembers : realizeAll others scope (v.context.getD context) v.members =
        .ok (w.members.map (Variable.mapDimensions f)) := by
      refine realizeAll_eq_ok.mpr (List.forall₂_map_right_iff.mpr ?_)
      have hbuilt := (List.forall₂_and_left _ _).mpr ⟨ih, realizeAll_eq_ok.mp hreal.members⟩
      have hall := (List.forall₂_and_left _ _).mpr ⟨fun _ hm => hm, hbuilt⟩
      refine hall.imp fun m built hm => hm.2.1 hm.2.2 fun name hname => ?_
      exact hfollows name (refersTo_iff.mpr (.inr ⟨m, hm.1, hname⟩))
    rw [realize_eq_ok, Variable.mapDimensions_eq]
    exact { hreal with shape := hshape, members := hmembers }

/-- What a name resolves to is among the dimensions of a variable that refers to it. -/
theorem exists_dimension {v : VariableDraft} {w : Variable}
    (h : v.realize frames scope context = .ok w) {name : String} {dim : Dimension}
    (hname : v.RefersTo name) (hfound : Frame.resolve? frames name = some dim) :
    ∃ m ∈ w.nested, dim ∈ m.dimensions := by
  induction v using inductionOnMembers generalizing w context with
  | draft v ih =>
    have hreal := realize_eq_ok.mp h
    rw [Variable.nested_eq]
    rcases refersTo_iff.mp hname with hown | ⟨m, hm, hmember⟩
    · obtain ⟨found, hmem, hdim⟩ := forall₂_mem_left (mapM_eq_ok.mp hreal.shape) hown
      simp only [Frame.dimension, hfound, Except.ok.injEq] at hdim
      exact ⟨w, List.mem_cons_self, hdim ▸ hmem⟩
    · obtain ⟨built, hbuilt, hrealize⟩ := forall₂_mem_left (realizeAll_eq_ok.mp hreal.members) hm
      obtain ⟨n, hn, hdim⟩ := ih m hm hrealize hmember
      exact ⟨n, List.mem_cons_of_mem _ (List.mem_flatMap.mpr ⟨built, hbuilt, hn⟩), hdim⟩

theorem realizeAll_follows (hplain : ∀ dim : Dimension, dim.owner = none → f dim = dim)
    {vs : List VariableDraft} {ws : List Variable} (h : realizeAll frames scope context vs = .ok ws)
    (hfollows : ∀ v ∈ vs, ∀ name, v.RefersTo name → Frame.Follows f frames others name) :
    realizeAll others scope context vs = .ok (ws.map (Variable.mapDimensions f)) := by
  have hbuilt := (List.forall₂_and_left _ _).mpr ⟨hfollows, realizeAll_eq_ok.mp h⟩
  refine realizeAll_eq_ok.mpr (List.forall₂_map_right_iff.mpr (hbuilt.imp fun v w hv => ?_))
  exact realize_follows hplain hv.2 hv.1

end VariableDraft

/-! ### Scopes -/

namespace ScopeDraft

/-- The draft is where a reference to the name finds it, if the draft declares it: the reference stands
in a variable of the draft or of one below, and no scope strictly below the draft, down to that one,
declares the name. -/
def UsedIn (d : ScopeDraft) (name : String) : Prop :=
  ∃ c ∈ d.chains [], (∀ s ∈ (c.1 :: c.2).dropLast, s.dimension? name = none) ∧
    ∃ v ∈ c.1.vars, v.RefersTo name

theorem chains_append (d : ScopeDraft) (inner outer : List ScopeDraft) :
    d.chains (inner ++ outer) = (d.chains inner).map fun c => (c.1, c.2 ++ outer) := by
  induction d using inductionOnScopes generalizing inner with
  | draft d ih =>
    rw [chains_eq, chains_eq inner, List.map_cons, List.map_flatMap]
    exact congrArg (_ :: ·) (List.flatMap_congr fun s hs => ih s hs (d :: inner))

/-- The scopes from one inside the draft up to what is above: those strictly below, then the draft. -/
theorem exists_inner {d : ScopeDraft} {above : List ScopeDraft} {c : ScopeDraft × List ScopeDraft}
    (hc : c ∈ d.chains above) : ∃ inner, c.1 :: c.2 = inner ++ d :: above := by
  induction d using inductionOnScopes generalizing above with
  | draft d ih =>
    rw [chains_eq, List.mem_cons, List.mem_flatMap] at hc
    rcases hc with rfl | ⟨s, hs, hc⟩
    · exact ⟨[], rfl⟩
    · obtain ⟨inner, hinner⟩ := ih s hs hc
      exact ⟨inner ++ [s], by simp [hinner]⟩

theorem usedIn_iff {d : ScopeDraft} {name : String} :
    d.UsedIn name ↔ (∃ v ∈ d.vars, v.RefersTo name) ∨
      ∃ s ∈ d.scopes, s.dimension? name = none ∧ s.UsedIn name := by
  have hchains : ∀ s : ScopeDraft, s.chains [d] = (s.chains []).map fun c => (c.1, c.2 ++ [d]) :=
    fun s => chains_append s [] [d]
  -- the scopes strictly below `d` are those strictly below its child, and the child
  have hbelow : ∀ s : ScopeDraft, ∀ c ∈ s.chains [], ∀ n,
      n ∈ (c.1 :: (c.2 ++ [d])).dropLast ↔ n ∈ (c.1 :: c.2).dropLast ∨ n = s := by
    intro s c hc n
    obtain ⟨inner, hinner⟩ := exists_inner hc
    rw [← List.cons_append, List.dropLast_concat, hinner, List.dropLast_concat]
    simp
  rw [UsedIn, chains_eq]
  simp only [List.mem_cons, exists_eq_or_imp, List.mem_flatMap, hchains]
  constructor
  · rintro (⟨-, huse⟩ | ⟨_, ⟨s, hs, hc⟩, hnone, huse⟩)
    · exact .inl huse
    · obtain ⟨c, hinside, rfl⟩ := List.mem_map.mp hc
      simp only [hbelow s c hinside] at hnone
      exact .inr ⟨s, hs, hnone s (.inr rfl), c, hinside, fun n hn => hnone n (.inl hn), huse⟩
  · rintro (huse | ⟨s, hs, hown, c, hc, hnone, huse⟩)
    · exact .inl ⟨fun _ hn => by simp at hn, huse⟩
    · refine .inr ⟨_, ⟨s, hs, List.mem_map_of_mem hc⟩, fun n hn => ?_, huse⟩
      rcases (hbelow s c hc n).mp hn with hn | rfl
      · exact hnone n hn
      · exact hown

theorem userBelow?_isSome {name : String} {ss : List ScopeDraft}
    (ih : ∀ s ∈ ss, (s.userOf? name).isSome = true ↔ s.UsedIn name) :
    (userBelow? name ss).isSome = true ↔ ∃ s ∈ ss, s.dimension? name = none ∧ s.UsedIn name := by
  induction ss with
  | nil => simp [userBelow?]
  | cons s ss ihss =>
    rw [List.forall_mem_cons] at ih
    simp only [List.mem_cons, exists_eq_or_imp]
    rw [userBelow?, ← ihss ih.2, ← ih.1]
    cases hown : s.dimension? name with
    | some dim => simp
    | none => cases s.userOf? name <;> simp

/-- The search for a user goes down and stops where the name is declared anew; it finds one exactly if
a reference resolves to the draft. -/
theorem userOf?_isSome {d : ScopeDraft} {name : String} :
    (d.userOf? name).isSome = true ↔ d.UsedIn name := by
  induction d using inductionOnScopes with
  | draft d ih =>
    have hvars : (VariableDraft.userAmong? name d.vars).isSome = true ↔ ∃ v ∈ d.vars, v.RefersTo name := by
      rw [VariableDraft.userAmong?_eq, List.findSome?_isSome_iff]
      exact exists_congr fun v => and_congr_right fun _ => VariableDraft.userOf?_isSome
    rw [usedIn_iff, ← hvars, ← userBelow?_isSome ih]
    cases d with
    | mk =>
      rw [userOf?]
      cases VariableDraft.userAmong? name _ <;> simp

/-! ### Building inside other frames -/

variable {f : Dimension → Dimension} {declare : List Dimension → List Dimension}
  {frames others : List Frame} {context : DatasetContext} {id number : Nat}

theorem realizeAll_append_ok {before behind : List ScopeDraft} {ss : List Scope} :
    realizeAll frames context id (before ++ behind) = .ok ss ↔
      ∃ bs rest, ss = bs ++ rest ∧ realizeAll frames context id before = .ok bs ∧
        realizeAll frames context (id + sizeAll before) behind = .ok rest := by
  induction before generalizing id ss with
  | nil => simp [realizeAll, sizeAll]
  | cons d before ih =>
    have hsize : id + sizeAll (d :: before) = id + d.size + sizeAll before := by
      rw [sizeAll, Nat.add_assoc]
    rw [List.cons_append, realizeAll_cons_ok, hsize]
    simp only [ih, realizeAll_cons_ok]
    constructor
    · rintro ⟨s, _, rfl, hs, bs, rest, rfl, hbefore, hbehind⟩
      exact ⟨s :: bs, rest, rfl, ⟨s, bs, rfl, hs, hbefore⟩, hbehind⟩
    · rintro ⟨_, rest, rfl, ⟨s, bs, rfl, hs, hbefore⟩, hbehind⟩
      exact ⟨s, bs ++ rest, rfl, hs, bs, rest, rfl, hbefore, hbehind⟩

theorem size_pos (d : ScopeDraft) : 0 < d.size := by
  rw [size_eq]
  omega

theorem find?_ownedBy (dims : List Dimension) (name : String) :
    (dims.map (Dimension.ownedBy id)).find? (Dimension.isNamed name) =
      (dims.find? (Dimension.isNamed name)).map (Dimension.ownedBy id) :=
  List.find?_map

/-- Where a draft is used for a name, some variable in or below it has what the name resolves to. -/
theorem UsedIn.exists_dimension {d : ScopeDraft} {s : Scope} {name : String} {dim : Dimension}
    (hname : d.UsedIn name) (h : d.realize frames context id = .ok s)
    (hfound : Frame.resolve? (s.frame :: frames) name = some dim) (above : List Scope) :
    ∃ q ∈ s.chains above, ∃ v ∈ q.1.vars, ∃ m ∈ v.nested, dim ∈ m.dimensions := by
  induction d using inductionOnScopes generalizing frames id s above with
  | draft d ih =>
    have hreal := realize_eq_ok.mp h
    rw [Scope.chains_eq]
    rcases usedIn_iff.mp hname with ⟨v, hv, hrefers⟩ | ⟨c, hc, hnone, hchild⟩
    · obtain ⟨w, hw, hbuilt⟩ := forall₂_mem_left (VariableDraft.realizeAll_eq_ok.mp hreal.vars) hv
      exact ⟨_, List.mem_cons_self, w, hw, VariableDraft.exists_dimension hbuilt hrefers hfound⟩
    · obtain ⟨b, hb, number, hbuilt⟩ := forall₂_mem_left (realizeAll_ok hreal.scopes) hc
      have hbdims : b.frame.dimensions.find? (Dimension.isNamed name) = none := by
        rw [Scope.frame, (realize_eq_ok.mp hbuilt).dimensions, find?_ownedBy]
        exact Option.map_eq_none_iff.mpr hnone
      have hinside : Frame.resolve? (b.frame :: s.frame :: frames) name = some dim := by
        rw [Frame.resolve?_cons, hbdims, Option.none_or, hfound]
      obtain ⟨q, hq, hdim⟩ := ih c hc hchild hbuilt hinside (s :: above)
      exact ⟨q, List.mem_cons_of_mem _ (List.mem_flatMap.mpr ⟨b, hb, hq⟩), hdim⟩

/-- What has the same name, attributes and enums as a draft is built to the same scope with other
dimensions, if that is true of what is inside. -/
theorem Realizes.redeclare {d d' : ScopeDraft} {s : Scope} (h : d.Realizes frames context id s)
    (hname : d'.name = d.name) (hattributes : d'.attributes = d.attributes) (henums : d'.enums = d.enums)
    (hdims : (s.redeclare number declare f).dimensions = d'.dimensions.map (Dimension.ownedBy id))
    (hvars : VariableDraft.realizeAll ((s.redeclare number declare f).frame :: others) id context d'.vars =
      .ok (s.vars.map (Variable.mapDimensions f)))
    (hscopes : realizeAll ((s.redeclare number declare f).frame :: others) context (id + 1) d'.scopes =
      .ok (s.scopes.map (Scope.redeclare number declare f))) :
    d'.realize others context id = .ok (s.redeclare number declare f) := by
  have hsame := Scope.redeclare_eq number declare f s
  rw [realize_eq_ok]
  exact {
    id := by rw [hsame, h.id]
    name := by rw [hsame, h.name, hname]
    attributes := by rw [hsame, h.attributes, hattributes]
    dimensions := hdims
    enums := by rw [hsame, h.enums, henums]
    vars := by
      rw [hvars, hsame]
    scopes := by
      rw [hscopes, hsame] }

/-- Scopes with other numbers than the one that declares anew. -/
def Avoids (number id size : Nat) : Prop := number < id ∨ id + size ≤ number

theorem realizeAll_follows {ds : List ScopeDraft} {ss : List Scope}
    (hfollows : ∀ d ∈ ds, ∀ {id s}, d.realize frames context id = .ok s → Avoids number id d.size →
      d.realize others context id = .ok (s.redeclare number declare f))
    (h : realizeAll frames context id ds = .ok ss) (hnumber : Avoids number id (sizeAll ds)) :
    realizeAll others context id ds = .ok (ss.map (Scope.redeclare number declare f)) := by
  induction ds generalizing id ss with
  | nil =>
    cases h
    rfl
  | cons d ds ih =>
    obtain ⟨s, rest, rfl, hs, hrest⟩ := realizeAll_cons_ok.mp h
    rw [List.forall_mem_cons] at hfollows
    simp only [Avoids, sizeAll] at hnumber
    have hfirst := hfollows.1 hs (by simp only [Avoids]; omega)
    have hothers := ih hfollows.2 hrest (by simp only [Avoids]; omega)
    exact realizeAll_cons_ok.mpr ⟨_, _, rfl, hfirst, hothers⟩

/-- What the draft does not find in itself must be followed; all else is its own. -/
theorem realize_follows (hfixed : ∀ dim : Dimension, dim.owner ≠ some number → f dim = dim)
    {d : ScopeDraft} {s : Scope} (h : d.realize frames context id = .ok s)
    (hnumber : Avoids number id d.size)
    (hfollows : ∀ name, d.dimension? name = none → d.UsedIn name → Frame.Follows f frames others name) :
    d.realize others context id = .ok (s.redeclare number declare f) := by
  induction d using inductionOnScopes generalizing frames others id s with
  | draft d ih =>
    have hreal := realize_eq_ok.mp h
    have hsize : d.size = 1 + sizeAll d.scopes := size_eq d
    simp only [Avoids, hsize] at hnumber
    have hid : s.id ≠ number := by
      rw [hreal.id]
      omega
    have hinside : ∀ name, d.UsedIn name →
        Frame.Follows f (s.frame :: frames) (s.frame :: others) name := by
      intro name hname
      have hfind : s.frame.dimensions.find? (Dimension.isNamed name) =
          (d.dimension? name).map (Dimension.ownedBy id) := by
        rw [Scope.frame, hreal.dimensions, find?_ownedBy]
        rfl
      refine .cons ?_ fun hnone => hfollows name (by simpa [hfind] using hnone) hname
      rw [hfind, Option.map_map]
      refine Option.map_congr fun dim _ => (hfixed _ ?_).symm
      simpa [Dimension.ownedBy, hreal.id] using hid
    have hvars : VariableDraft.realizeAll (s.frame :: others) id context d.vars =
        .ok (s.vars.map (Variable.mapDimensions f)) := by
      refine VariableDraft.realizeAll_follows (fun dim hdim => hfixed dim (by simp [hdim])) hreal.vars ?_
      exact fun v hv name hname => hinside name (usedIn_iff.mpr (.inl ⟨v, hv, hname⟩))
    have hscopes : realizeAll (s.frame :: others) context (id + 1) d.scopes =
        .ok (s.scopes.map (Scope.redeclare number declare f)) := by
      refine realizeAll_follows (fun c hc _ _ hbuilt hnumber => ?_) hreal.scopes
        (by simp only [Avoids]; omega)
      exact ih c hc hbuilt hnumber fun name hnone hname =>
        hinside name (usedIn_iff.mpr (.inr ⟨c, hc, hnone, hname⟩))
    have hdims : (s.redeclare number declare f).dimensions = d.dimensions.map (Dimension.ownedBy id) := by
      rw [Scope.redeclare_eq, if_neg hid, hreal.dimensions]
    rw [← Scope.frame_redeclare number declare f hid] at hvars hscopes
    exact hreal.redeclare rfl rfl rfl hdims hvars hscopes

end ScopeDraft
end SciArchive
