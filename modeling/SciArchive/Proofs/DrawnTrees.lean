import SciArchive.Proofs.OutlineRows
import SciArchive.Proofs.SameTrees
import SciArchive.Proofs.ShapeTexts

/-! The outline of a tree has one line for each scope, dimension and variable, in the order of a walk, and shows
where each of them hangs. -/
namespace SciArchive

/-- What the outline of a tree has a line for. -/
inductive Entity where
  | scope (p : Place)
  | dimension (d : Dimension)
  | var (v : Variable)

namespace Entity

def label : Entity → String
  | scope p => if p.isRoot then "/" else p.scope.name ++ "/"
  | dimension d => s!"dim {d.render}"
  | var v => v.label

/-- What hangs right below: dimensions, then variables, then scopes. -/
def children : Entity → List Entity
  | scope p => p.scope.dimensions.map dimension ++ p.scope.vars.map var ++ p.children.map scope
  | dimension _ => []
  | var v => v.members.map var

def outline : Entity → Outline
  | scope p => p.scope.outline (scope p).label
  | dimension d => d.outline
  | var v => v.outline

/-- What is reached by taking the child with each number in turn. -/
def at? : Entity → List Nat → Option Entity
  | e, [] => some e
  | e, i :: a => e.children[i]?.bind (at? · a)

/-- Whether another child of its parent follows what is at an address. -/
def later (e : Entity) : List Nat → Bool
  | [] => false
  | i :: a => (e.at? (Outline.next (i :: a))).isSome

/-- What the line tells of the entity at an address. -/
def row (e : Entity) (q : List Nat × Entity) : Outline.Row :=
  ⟨q.1.inits.dropLast.map e.later, e.later q.1, q.2.label⟩

/-- What is at an address and below, with the addresses. -/
def entries (e : Entity) : List (List Nat × Entity) :=
  e.outline.addresses.filterMap fun a => (e.at? a).map (a, ·)

/-- What a scope brings to a walk: itself, its dimensions, and its variables with their members. -/
def ofPlace (p : Place) : List Entity :=
  scope p :: p.scope.dimensions.map dimension ++ (p.scope.vars.flatMap Variable.nested).map var

variable {e c x : Entity} {i : Nat} {a : List Nat}

theorem at?_cons (h : e.children[i]? = some c) : e.at? (i :: a) = c.at? a := by
  rw [at?, h, Option.bind_some]

theorem outline_eq (e : Entity) : e.outline = ⟨e.label, e.children.map outline⟩ := by
  cases e with
  | scope p =>
    have hscopes : p.children.map (outline ∘ scope) = p.scope.scopes.map fun c => c.outline (c.name ++ "/") := by
      rw [Place.children, List.map_map]
      rfl
    rw [outline, Scope.outline_eq, children, List.map_append, List.map_append, List.map_map, List.map_map,
      List.map_map, hscopes]
    rfl
  | dimension d => rfl
  | var v =>
    rw [outline, Variable.outline_eq, children, List.map_map]
    rfl

theorem at?_outline (e : Entity) (a : List Nat) : e.outline.at? a = (e.at? a).map outline := by
  induction a generalizing e with
  | nil => rfl
  | cons i a ih =>
    rw [Outline.at?, at?, outline_eq, List.getElem?_map]
    cases e.children[i]? with
    | none => rfl
    | some c => exact ih c

theorem isSome_at?_outline (e : Entity) (a : List Nat) : (e.outline.at? a).isSome = (e.at? a).isSome := by
  rw [at?_outline, Option.isSome_map]

theorem later_outline (e : Entity) : e.outline.later false = e.later := by
  funext a
  cases a with
  | nil => rfl
  | cons i a => exact isSome_at?_outline e _

theorem row_outline (h : e.at? a = some x) : e.outline.row false a = e.row (a, x) := by
  rw [Outline.row, later_outline, at?_outline, h, row, Option.map_some, Option.map_some, outline_eq]
  rfl

/-! ### Entries -/

theorem mem_entries : (a, x) ∈ e.entries ↔ e.at? a = some x := by
  simp only [entries, List.mem_filterMap, Option.map_eq_some_iff, Prod.mk.injEq]
  constructor
  · rintro ⟨_, -, _, hx, rfl, rfl⟩
    exact hx
  · intro h
    have ha : (e.outline.at? a).isSome = true := by rw [isSome_at?_outline, h, Option.isSome_some]
    exact ⟨a, Outline.mem_addresses.mpr ha, x, h, rfl, rfl⟩

/-- There is an entry for every address of the outline. -/
theorem map_entries {β : Type} {f : List Nat × Entity → β} {g : List Nat → β}
    (h : ∀ a x, e.at? a = some x → f (a, x) = g a) : e.entries.map f = e.outline.addresses.map g := by
  rw [entries, List.map_filterMap, ← List.filterMap_eq_map]
  refine List.filterMap_congr fun a ha => ?_
  rw [Outline.mem_addresses, isSome_at?_outline, Option.isSome_iff_exists] at ha
  obtain ⟨x, hx⟩ := ha
  rw [hx, Option.map_some, Option.map_some, h a x hx, Function.comp]

theorem map_snd_entries (e : Entity) :
    e.entries.map Prod.snd = e :: e.children.flatMap fun c => c.entries.map Prod.snd := by
  have hreached : ∀ e : Entity, e.entries.map Prod.snd = e.outline.addresses.filterMap e.at? := by
    intro e
    rw [entries, List.map_filterMap]
    simp [Function.comp_def]
  have hitems : e.outline.items.zipIdx = e.children.zipIdx.map (Prod.map outline id) := by
    rw [outline_eq, List.zipIdx_map]
  rw [hreached, Outline.addresses_eq, List.filterMap_cons, hitems,
    ← Outline.flatMap_zipIdx (fun c : Entity => c.entries.map Prod.snd), List.flatMap_map, List.filterMap_flatMap]
  refine congrArg (e :: ·) (List.flatMap_congr fun q hq => ?_)
  rw [hreached, List.filterMap_map]
  exact List.filterMap_congr fun a _ => at?_cons (List.mem_zipIdx_iff_getElem?.mp hq)

theorem map_snd_entries_var (v : Variable) : (var v).entries.map Prod.snd = v.nested.map var := by
  induction v using Variable.inductionOnMembers with
  | var v ih =>
    rw [map_snd_entries, Variable.nested_eq, children, List.flatMap_map, List.map_cons, List.map_flatMap]
    exact congrArg (var v :: ·) (List.flatMap_congr ih)

/-- The entries of a scope are what a walk brings from there on. -/
theorem map_snd_entries_scope (tree : NamespaceTree) (s : Scope) (above : List Scope) :
    (scope ⟨tree, s, above⟩).entries.map Prod.snd = (s.chains above).flatMap fun c => ofPlace ⟨tree, c.1, c.2⟩ := by
  induction s using Scope.inductionOnScopes generalizing above with
  | scope s ih =>
    have hdims : (s.dimensions.map dimension).flatMap (fun c => c.entries.map Prod.snd) =
        s.dimensions.map dimension := by
      rw [List.flatMap_map]
      exact List.flatMap_pure_eq_map _ _
    have hvars : (s.vars.map var).flatMap (fun c => c.entries.map Prod.snd) =
        (s.vars.flatMap Variable.nested).map var := by
      rw [List.flatMap_map, List.map_flatMap]
      exact List.flatMap_congr fun v _ => map_snd_entries_var v
    have hscopes : ((Place.mk tree s above).children.map scope).flatMap (fun c => c.entries.map Prod.snd) =
        s.scopes.flatMap fun c => (c.chains (s :: above)).flatMap fun c => ofPlace ⟨tree, c.1, c.2⟩ := by
      rw [List.flatMap_map, Place.children, List.flatMap_map]
      exact List.flatMap_congr fun c hc => ih c hc (s :: above)
    rw [map_snd_entries, children, List.flatMap_append, List.flatMap_append, hdims, hvars, hscopes, Scope.chains_eq,
      List.flatMap_cons, List.flatMap_assoc]
    rfl

end Entity

/-! ### Labels -/

/-- A text without a line feed. -/
def OneLine (text : String) : Prop := '\n' ∉ text.toList

instance : DecidablePred OneLine := fun text => inferInstanceAs (Decidable ('\n' ∉ text.toList))

namespace OneLine

variable {text other : String}

theorem append (h : OneLine text) (hother : OneLine other) : OneLine (text ++ other) := by
  rw [OneLine, String.toList_append, List.mem_append]
  exact not_or.mpr ⟨h, hother⟩

theorem intercalate {texts : List String} (h : OneLine text) (htexts : ∀ other ∈ texts, OneLine other) :
    OneLine (String.intercalate text texts) := by
  induction texts with
  | nil => exact List.not_mem_nil
  | cons other texts ih =>
    obtain ⟨hother, htexts⟩ := List.forall_mem_cons.mp htexts
    cases texts with
    | nil => simpa using hother
    | cons next texts =>
      rw [String.intercalate_cons_cons]
      exact (hother.append h).append (ih htexts)

theorem ofLength (n : DimLength) : OneLine n.render := by
  cases n with
  | fixed n => exact fun h => absurd (Text.isDigit_of_mem_repr h) (by decide)
  | varying => decide

theorem ofDimension {d : Dimension} (h : ∀ name ∈ d.name, OneLine name) : OneLine d.render := by
  have hlength := ofLength d.length
  rw [Dimension.render]
  split
  · exact hlength
  · rename_i name hname
    have hname := h name hname
    split
    · exact ((hname.append (by decide)).append hlength).append (by decide)
    · exact (hname.append (by decide)).append hlength

theorem ofDataType (type : DataType) : OneLine type.name := by cases type <;> decide

theorem ofAxis (a : AxisType) : OneLine a.name := by cases a <;> decide

theorem ofVariable {v : Variable} (hname : OneLine v.name)
    (hdims : ∀ d ∈ v.dimensions, ∀ name ∈ d.name, OneLine name) : OneLine v.label := by
  rw [Variable.label]
  refine (((hname.append ?_).append (by decide)).append (ofDataType v.dataType)).append ?_
  · split
    · decide
    · refine (OneLine.append (by decide) (intercalate (by decide) (List.forall_mem_map.mpr fun d hd => ?_))).append
        (by decide)
      split
      · rename_i name hname
        exact ((hdims d hd name hname).append (by decide)).append (ofLength d.length)
      · exact ofLength d.length
  · split
    · exact (OneLine.append (by decide) (ofAxis _)).append (by decide)
    · decide

end OneLine

/-! ### Trees -/

namespace NamespaceTree

/-- The names of scopes, dimensions, variables and their members. -/
def names (t : NamespaceTree) : List String :=
  t.walk.flatMap fun p => p.scope.name :: p.scope.dimensions.filterMap Dimension.name ++
    (p.scope.vars.flatMap Variable.nested).map Variable.name

/-- A text is the outline of a tree: what its lines stand for, given with addresses, and what they look like. -/
structure DrawnBy (t : NamespaceTree) (text : String) (entries : List (List Nat × Entity)) : Prop where
  /-- Each scope of a walk, followed by its dimensions and then by its variables with their members. -/
  entities : entries.map Prod.snd = t.walk.flatMap Entity.ofPlace
  /-- An address is a way down from the root, and comes behind those it continues. -/
  address (a : List Nat) (e : Entity) : (a, e) ∈ entries ↔ (Entity.scope t.rootPlace).at? a = some e
  ordered : (entries.map Prod.fst).Pairwise (· < ·)
  /-- A line for each, and nothing behind the last line feed. -/
  lines : text.toList.splitOn '\n' =
    (entries.map fun q => ((Entity.scope t.rootPlace).row q).draw.toList) ++ [[]]
  readBack : Outline.Row.readAll? text = some (entries.map (Entity.scope t.rootPlace).row)
  preorder : t.outline.preorder 0 = entries.map fun q => (q.1.length, q.2.label)

section
variable {d : ScopeDraft} {serial : Nat} {t : NamespaceTree} {p : Place} (ht : (d.build serial).1 = .ok t)
  (hnames : ∀ name ∈ t.names, OneLine name) (hp : p ∈ t.walk)

section
include hnames hp

theorem oneLine_scope : OneLine p.scope.name :=
  hnames _ (List.mem_flatMap.mpr ⟨p, hp, List.mem_cons_self⟩)

theorem oneLine_dimension {dim : Dimension} (hdim : dim ∈ p.scope.dimensions) : ∀ name ∈ dim.name, OneLine name := by
  intro name hname
  have hmem : name ∈ p.scope.dimensions.filterMap Dimension.name := List.mem_filterMap.mpr ⟨dim, hdim, hname⟩
  exact hnames name (List.mem_flatMap.mpr ⟨p, hp, List.mem_cons_of_mem _ (List.mem_append_left _ hmem)⟩)

theorem oneLine_var {m : Variable} (hm : m ∈ p.scope.vars.flatMap Variable.nested) : OneLine m.name := by
  have hmem : m.name ∈ (p.scope.vars.flatMap Variable.nested).map Variable.name := List.mem_map_of_mem hm
  exact hnames _ (List.mem_flatMap.mpr ⟨p, hp, List.mem_cons_of_mem _ (List.mem_append_right _ hmem)⟩)

include ht

/-- A variable lies along dimensions that the scopes around it declare. -/
theorem oneLine_along {m : Variable} (hm : m ∈ p.scope.vars.flatMap Variable.nested) {dim : Dimension}
    (hdim : dim ∈ m.dimensions) : ∀ name ∈ dim.name, OneLine name := by
  obtain ⟨v, hv, hm⟩ := List.mem_flatMap.mp hm
  obtain ⟨n, hbuilt⟩ := exists_builtAt ht hp hv hm
  cases hbuilt with
  | intro _ _ _ _ _ hdims _ =>
    obtain ⟨spec, -, hresolves⟩ := forall₂_mem_right hdims hdim
    cases hresolves with
    | fixed n => exact fun _ hname => by cases hname
    | varying => exact fun _ hname => by cases hname
    | @shared _ _ s nearer outer hchain _ hdecl _ _ =>
      have hs : s ∈ p.chain := hchain ▸ List.mem_append_right _ List.mem_cons_self
      obtain ⟨q, hq, rfl⟩ := exists_place_of_mem_chain hp hs
      exact oneLine_dimension hnames hq (List.mem_of_find?_eq_some hdecl)

theorem oneLine_label {e : Entity} (he : e ∈ Entity.ofPlace p) : OneLine e.label := by
  simp only [Entity.ofPlace, List.cons_append, List.mem_cons, List.mem_append, List.mem_map] at he
  rcases he with rfl | ⟨dim, hdim, rfl⟩ | ⟨m, hm, rfl⟩
  · rw [Entity.label]
    split
    · decide
    · exact (oneLine_scope hnames hp).append (by decide)
  · exact OneLine.append (by decide) (OneLine.ofDimension (oneLine_dimension hnames hp hdim))
  · exact OneLine.ofVariable (oneLine_var hnames hp hm) fun dim hdim => oneLine_along ht hnames hp hm hdim

end

include ht hnames in
theorem exists_drawnBy : ∃ entries, t.DrawnBy t.outline.text entries := by
  have hentities : (Entity.scope t.rootPlace).entries.map Prod.snd = t.walk.flatMap Entity.ofPlace := by
    rw [walk, List.flatMap_map]
    exact Entity.map_snd_entries_scope t t.root []
  have hrows : (Entity.scope t.rootPlace).entries.map (Entity.scope t.rootPlace).row =
      t.outline.addresses.map (t.outline.row false) :=
    Entity.map_entries fun a e h => (Entity.row_outline h).symm
  have hlabels : ∀ r ∈ t.outline.addresses.map (t.outline.row false), OneLine r.label := by
    rw [← hrows]
    refine List.forall_mem_map.mpr fun q hq => ?_
    have hmem : q.2 ∈ t.walk.flatMap Entity.ofPlace := hentities ▸ List.mem_map_of_mem hq
    obtain ⟨p, hp, he⟩ := List.mem_flatMap.mp hmem
    exact oneLine_label ht hnames hp he
  have haddresses : (Entity.scope t.rootPlace).entries.map Prod.fst = t.outline.addresses.map id :=
    Entity.map_entries fun _ _ _ => rfl
  obtain ⟨hlines, hread⟩ := Outline.readAll?_text fun a ha => hlabels _ (List.mem_map_of_mem ha)
  refine ⟨_, hentities, fun a e => Entity.mem_entries, ?_, ?_, ?_, ?_⟩
  · rw [haddresses, List.map_id]
    exact Outline.pairwise_addresses _
  · rw [hlines]
    simpa [Function.comp_def] using congrArg (List.map fun r => r.draw.toList) hrows.symm
  · rw [hread, hrows]
  · rw [Outline.preorder_eq_rows 0 false, ← hrows, List.map_map]
    simp [Entity.row, Function.comp_def]

theorem DrawnBy.preorder_eq {text : String} {entries : List (List Nat × Entity)} (h : t.DrawnBy text entries) :
    t.outline.preorder 0 =
      (entries.map (Entity.scope t.rootPlace).row).map fun r => (r.ancestors.length, r.label) := by
  rw [h.preorder, List.map_map]
  simp [Entity.row, Function.comp_def]

theorem text_of_render {title : Option String} {text : String} (h : t.render title = banner title ++ text) :
    t.outline.text = text := by
  have hchars := congrArg String.toList h
  rw [render, String.toList_append, String.toList_append] at hchars
  exact String.toList_inj.mp (List.append_cancel_left hchars)

include ht hnames in
/-- Under the banner of a tree whose names hold no line feed stands what the tree consists of, line by line, whatever
else is in the names. Of trees with such names only those with the same depths and labels, and so with the same
below each, have that outline. -/
theorem render_drawnBy : ∃ text entries,
    (∀ title, t.render title = banner title ++ text) ∧ t.DrawnBy text entries ∧
    ∀ {d' : ScopeDraft} {serial' : Nat} {u : NamespaceTree} (title : Option String), (d'.build serial').1 = .ok u →
      (∀ name ∈ u.names, OneLine name) → u.render title = banner title ++ text →
      u.outline.preorder 0 = t.outline.preorder 0 ∧ u.outline = t.outline := by
  obtain ⟨entries, hdrawn⟩ := exists_drawnBy ht hnames
  refine ⟨t.outline.text, entries, fun _ => rfl, hdrawn, fun title hu hnames' hrender => ?_⟩
  obtain ⟨entries', hdrawn'⟩ := exists_drawnBy hu hnames'
  have hrows := hdrawn'.readBack
  rw [text_of_render hrender, hdrawn.readBack] at hrows
  have hpreorder := hdrawn'.preorder_eq
  rw [← Option.some.inj hrows, ← hdrawn.preorder_eq] at hpreorder
  exact ⟨hpreorder, Outline.preorder_inj hpreorder⟩

end

/-- Names that look like what is drawn in front of names. -/
def imitating : ScopeDraft :=
  (ScopeDraft.Operation.run [.addDimension (.ofName "└── x" 2),
    .addVariable ((VariableDraft.new "├── v: int" .int).withShape [.shared "└── x"]),
    .addScope (ScopeDraft.Operation.run [.addVariable ((VariableDraft.sequence "│   ├── /").addMember
      (VariableDraft.new "    " .char)).2] (.new "│   │   ")).2] .root).2

theorem render_drawnBy_imitating : ∃ t u, (imitating.build 0).1 = .ok t ∧ (imitating.build 1).1 = .ok u ∧
    (∃ text entries, (∀ title, t.render title = banner title ++ text) ∧ t.DrawnBy text entries) ∧
    u.outline.preorder 0 = t.outline.preorder 0 := by
  have hbuilt : ∃ t u, (imitating.build 0).1 = .ok t ∧ (imitating.build 1).1 = .ok u ∧
      (∀ name ∈ t.names, OneLine name) ∧ (∀ name ∈ u.names, OneLine name) ∧ u.render none = t.render none :=
    ⟨_, _, rfl, rfl, by decide +kernel, by decide +kernel, by decide +kernel⟩
  obtain ⟨t, u, ht, hu, hnames, hnames', hrender⟩ := hbuilt
  obtain ⟨text, entries, htext, hdrawn, hother⟩ := render_drawnBy ht hnames
  exact ⟨t, u, ht, hu, ⟨text, entries, htext, hdrawn⟩, (hother none hu hnames' (hrender.trans (htext none))).1⟩

end NamespaceTree
end SciArchive
