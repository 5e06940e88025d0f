import SciArchive.Proofs.ScopeIdentity

/-! The numbers of scopes. A build numbers them as rows of a table, to which each scope is appended before
those below it; a walk that keeps a stack of numbers takes them out in that order. -/
namespace SciArchive

/-! ### Tables of scopes -/

/-- A scope as a row of a table. The scopes around and right below it are numbers of rows, and its variables
are drafts until the table is whole. -/
structure ScopeRow where
  name : String
  parent : Option Nat
  children : List Nat
  attributes : AttributeSnapshot
  dimensions : List Dimension
  enums : List EnumTypedef
  vars : List VariableDraft

namespace ScopeRow

def addChild (child : Nat) (row : ScopeRow) : ScopeRow := { row with children := row.children ++ [child] }

/-- The row stands for the place. -/
structure Stands (row : ScopeRow) (p : Place) : Prop where
  name : row.name = p.scope.name
  parent : row.parent = p.parent?.map fun q => q.scope.id
  children : row.children = p.children.map fun c => c.scope.id
  attributes : row.attributes = p.scope.attributes
  dimensions : row.dimensions = p.scope.dimensions
  enums : row.enums = p.scope.enums
  vars : List.Forall₂ (VariableDraft.BuiltAt p) row.vars p.scope.vars

/-- Take numbers off a stack until it is empty; the children of each are laid on it, the last one first.
At most `rounds` numbers are taken. -/
def visit (table : List ScopeRow) : Nat → List Nat → Option (List Nat)
  | _, [] => some []
  | 0, _ :: _ => none
  | rounds + 1, id :: stack =>
    table[id]?.bind fun row =>
      (visit table rounds (row.children.reverse.foldl (fun stack child => child :: stack) stack)).map (id :: ·)

theorem visit_cons {table : List ScopeRow} {id : Nat} {row : ScopeRow} (h : table[id]? = some row)
    (rounds : Nat) (stack : List Nat) :
    visit table (rounds + 1) (id :: stack) = (visit table rounds (row.children ++ stack)).map (id :: ·) := by
  simp [visit, h]

end ScopeRow

namespace ScopeDraft

/-- A draft as a row that has no children yet. -/
def row (parent : Option Nat) (id : Nat) (d : ScopeDraft) : ScopeRow :=
  ⟨d.name, parent, [], d.attributes.freeze, d.dimensions.map (Dimension.ownedBy id), d.enums, d.vars⟩

mutual

/-- Append the draft and those below it to a table. The first answer is the draft's number. -/
def allocate (parent : Option Nat) (table : List ScopeRow) : ScopeDraft → Nat × List ScopeRow
  | ⟨name, atts, dims, enums, scopes, vars, context, built⟩ =>
    let id := table.length
    let d : ScopeDraft := ⟨name, atts, dims, enums, scopes, vars, context, built⟩
    (id, allocateAll id (table ++ [d.row parent id]) scopes)

/-- Append drafts one after the other, each of which becomes a child of row `id`. -/
def allocateAll (id : Nat) (table : List ScopeRow) : List ScopeDraft → List ScopeRow
  | [] => table
  | s :: rest =>
    let r := s.allocate (some id) table
    allocateAll id (r.2.modify id (ScopeRow.addChild r.1)) rest

end

/-- The table of a draft and all those below it. -/
def table (d : ScopeDraft) : List ScopeRow := (d.allocate none []).2

theorem allocate_eq (parent : Option Nat) (table : List ScopeRow) (d : ScopeDraft) :
    d.allocate parent table =
      (table.length, allocateAll table.length (table ++ [d.row parent table.length]) d.scopes) := by
  cases d
  rw [allocate]

theorem modify_row (pre post : List ScopeRow) (row : ScopeRow) (f : ScopeRow → ScopeRow) :
    (pre ++ row :: post).modify pre.length f = pre ++ f row :: post := by
  induction pre with
  | nil => rfl
  | cons r pre ih => exact congrArg (r :: ·) ih

variable {tree : NamespaceTree} {context : DatasetContext} {above : List Scope}

theorem length_chains {frames : List Frame} {id : Nat} {d : ScopeDraft} {s : Scope}
    (h : d.realize frames context id = .ok s) (above : List Scope) : (s.chains above).length = d.size := by
  rw [← List.length_map (fun c => c.1.id), map_id_chains h above, List.length_range']

/-- What is appended for a draft stands for the scopes that it is built to. -/
def Appends (tree : NamespaceTree) (context : DatasetContext) (above : List Scope) (d : ScopeDraft) : Prop :=
  ∀ {table : List ScopeRow} {s : Scope}, d.realize (above.map Scope.frame) context table.length = .ok s →
    ∃ rows, d.allocate (above.head?.map Scope.id) table = (s.id, table ++ rows) ∧
      List.Forall₂ (fun row q => row.Stands ⟨tree, q.1, q.2⟩) rows (s.chains above)

theorem allocateAll_appends {n : Scope} {pre post : List ScopeRow} {row : ScopeRow} {ds : List ScopeDraft}
    {ss : List Scope} (hid : n.id = pre.length) (hds : ∀ d ∈ ds, d.Appends tree context (n :: above))
    (h : realizeAll ((n :: above).map Scope.frame) context (pre ++ row :: post).length ds = .ok ss) :
    ∃ rows, allocateAll pre.length (pre ++ row :: post) ds =
        pre ++ { row with children := row.children ++ ss.map Scope.id } :: (post ++ rows) ∧
      List.Forall₂ (fun row q => row.Stands ⟨tree, q.1, q.2⟩) rows (ss.flatMap (Scope.chains (n :: above))) := by
  induction ds generalizing row post ss with
  | nil =>
    cases h
    refine ⟨[], ?_, .nil⟩
    rw [allocateAll, List.map_nil, List.append_nil, List.append_nil]
  | cons d ds ih =>
    obtain ⟨hfirst, hothers⟩ := List.forall_mem_cons.mp hds
    obtain ⟨s, rest, rfl, hs, hrest⟩ := realizeAll_cons_ok.mp h
    obtain ⟨rows, halloc, hrows⟩ := hfirst hs
    -- the number of the next draft is where the table then ends
    have hlength : (pre ++ row.addChild s.id :: (post ++ rows)).length =
        (pre ++ row :: post).length + d.size := by
      rw [← length_chains hs (n :: above), ← hrows.length_eq]
      simp only [List.length_append, List.length_cons]
      omega
    rw [← hlength] at hrest
    obtain ⟨later, hall, hlater⟩ := ih hothers hrest
    simp only [List.head?_cons, Option.map_some, hid] at halloc
    refine ⟨rows ++ later, ?_, List.rel_append hrows hlater⟩
    rw [allocateAll, halloc, List.append_assoc, List.cons_append, modify_row, hall]
    simp [ScopeRow.addChild]

theorem appends (d : ScopeDraft) (howned : ∀ n ∈ above, ∀ dim ∈ n.dimensions, dim.owner = some n.id) :
    d.Appends tree context above := by
  induction d using inductionOnScopes generalizing above with
  | draft d ih =>
    intro table s h
    have hreal := realize_eq_ok.mp h
    have howned' : ∀ n ∈ s :: above, ∀ dim ∈ n.dimensions, dim.owner = some n.id :=
      List.forall_mem_cons.mpr ⟨hreal.declaredAs.owner, howned⟩
    have hvars : List.Forall₂ (VariableDraft.BuiltAt ⟨tree, s, above⟩) d.vars s.vars := by
      have hvars := hreal.vars
      rw [← hreal.id] at hvars
      exact (VariableDraft.realizeAll_eq_ok.mp hvars).imp fun _ _ =>
        VariableDraft.builtAt_of_realize (p := ⟨tree, s, above⟩) howned'
    have hscopes := hreal.scopes
    have hlength : table.length + 1 = (table ++ [d.row (above.head?.map Scope.id) table.length]).length := by
      rw [List.length_append, List.length_singleton]
    rw [hlength] at hscopes
    obtain ⟨rows, hall, hrows⟩ := allocateAll_appends hreal.id (fun c hc => ih c hc howned') hscopes
    have hrow : ScopeRow.Stands
        { d.row (above.head?.map Scope.id) table.length with children := s.scopes.map Scope.id }
        ⟨tree, s, above⟩ := {
      name := hreal.name.symm
      parent := by cases above <;> rfl
      children := by rw [Place.children, List.map_map]; rfl
      attributes := hreal.attributes.symm
      dimensions := hreal.dimensions.symm
      enums := hreal.enums.symm
      vars := hvars }
    rw [Scope.chains_eq, allocate_eq, hall, hreal.id]
    exact ⟨_, rfl, .cons hrow hrows⟩

/-- The table of a draft stands for the tree that it is built to. -/
theorem table_stands {d : ScopeDraft} {serial : Nat} {t : NamespaceTree} (h : (d.build serial).1 = .ok t) :
    List.Forall₂ ScopeRow.Stands d.table t.walk := by
  obtain ⟨-, -, -, hroot⟩ := build_eq_ok.mp h
  have hnone : ∀ n ∈ ([] : List Scope), ∀ dim ∈ n.dimensions, dim.owner = some n.id := fun _ hn => by cases hn
  have happends : d.Appends t t.context [] := appends d hnone
  have hstart : d.realize (([] : List Scope).map Scope.frame) t.context ([] : List ScopeRow).length = .ok t.root :=
    hroot
  obtain ⟨rows, halloc, hrows⟩ := happends hstart
  have htable : d.table = rows := congrArg Prod.snd halloc
  rw [htable]
  exact List.forall₂_map_right_iff.mpr hrows

/-- The scope has the name of the draft, and below it the scopes that those below the draft are built to, in
their order. -/
inductive Mirrors : ScopeDraft → Scope → Prop
  | intro {d : ScopeDraft} {s : Scope} (name : s.name = d.name)
      (scopes : List.Forall₂ Mirrors d.scopes s.scopes) : Mirrors d s

theorem mirrors_of_realize {frames : List Frame} {id : Nat} {d : ScopeDraft} {s : Scope}
    (h : d.realize frames context id = .ok s) : d.Mirrors s := by
  induction d using inductionOnScopes generalizing frames id s with
  | draft d ih =>
    have hreal := realize_eq_ok.mp h
    refine .intro hreal.name (((List.forall₂_and_left _ _).mpr ⟨ih, realizeAll_ok hreal.scopes⟩).imp ?_)
    rintro child built ⟨hmirrors, id', hchild⟩
    exact hmirrors hchild

theorem length_nested (d : ScopeDraft) : d.nested.length = d.size := by
  induction d using inductionOnScopes with
  | draft d ih =>
    have hbelow : d.scopes.map (fun s => s.nested.length) = d.scopes.map size := List.map_congr_left ih
    rw [nested_eq, List.length_cons, List.length_flatMap, hbelow, size_eq, sizeAll_eq, Nat.add_comm]
    rfl

end ScopeDraft

/-! ### The order of a walk -/

/-- A piece of consecutive numbers is told by its first and its length. -/
theorem eq_range'_of_infix {i n : Nat} {l : List Nat} (h : i :: l <:+: List.range n) :
    i :: l = List.range' i (l.length + 1) := by
  obtain ⟨front, back, hparts⟩ := h
  rw [List.range_eq_range'] at hparts
  obtain ⟨k, -, hfront, -⟩ := List.range'_eq_append_iff.mp hparts.symm
  obtain ⟨j, -, -, hl⟩ := List.range'_eq_append_iff.mp hfront.symm
  have hlength : l.length + 1 = k - j := by simpa using congrArg List.length hl
  rw [← hlength] at hl
  have hfirst : i = 0 + j * 1 := (List.cons.inj hl).1
  rw [hl, hfirst]

namespace Scope

variable {s n : Scope} {above around : List Scope}

theorem sizeAll_eq (ss : List Scope) : sizeAll ss = (ss.map size).foldr (· + ·) 0 := by
  induction ss with
  | nil => rfl
  | cons s ss ih => rw [sizeAll, ih, List.map_cons, List.foldr_cons]

theorem size_eq (s : Scope) : s.size = sizeAll s.scopes + 1 := by
  cases s
  rw [size, Nat.add_comm]

theorem length_chains (s : Scope) (above : List Scope) : (s.chains above).length = s.size := by
  induction s using inductionOnScopes generalizing above with
  | scope s ih =>
    have hbelow : s.scopes.map (fun c => (c.chains (s :: above)).length) = s.scopes.map size :=
      List.map_congr_left fun c hc => ih c hc (s :: above)
    rw [chains_eq, List.length_cons, List.length_flatMap, hbelow, size_eq, sizeAll_eq]
    rfl

/-- A walk meets a scope and all below it in one piece. -/
theorem chains_infix (h : (n, around) ∈ s.chains above) : n.chains around <:+: s.chains above := by
  induction s using inductionOnScopes generalizing above with
  | scope s ih =>
    rw [chains_eq] at h
    rcases List.mem_cons.mp h with hself | hbelow
    · cases hself
      exact List.infix_rfl
    · obtain ⟨c, hc, hn⟩ := List.mem_flatMap.mp hbelow
      have hchild : c.chains (s :: above) <:+: s.scopes.flatMap (chains (s :: above)) :=
        List.infix_of_mem_flatten (List.mem_map_of_mem hc)
      rw [chains_eq above s]
      exact List.infix_cons ((ih c hc hn).trans hchild)

theorem children_sublist (ss above : List Scope) :
    (ss.map fun c => (c, above)).Sublist (ss.flatMap (chains above)) := by
  induction ss with
  | nil => exact List.Sublist.refl _
  | cons c ss ih =>
    rw [List.map_cons, List.flatMap_cons, chains_eq, List.cons_append]
    exact (ih.trans (List.sublist_append_right _ _)).cons_cons _

end Scope

namespace NamespaceTree

variable {t : NamespaceTree} {p c : Place}

/-- The root is in the tree, and so is all right below what is in it. -/
inductive Holds (t : NamespaceTree) : Place → Prop
  | root : Holds t t.rootPlace
  | child {p c : Place} (place : Holds t p) (mem : c ∈ p.children) : Holds t c

/-- A walk meets a place before those right below it, and these in their order. -/
theorem family_sublist (h : p ∈ t.walk) : (p :: p.children).Sublist t.walk := by
  obtain ⟨htree, hmem⟩ := mem_walk.mp h
  have hfamily : ((p.scope, p.above) :: p.scope.scopes.map fun c => (c, p.chain)).Sublist (t.root.chains []) := by
    refine List.Sublist.trans ?_ (Scope.chains_infix hmem).sublist
    rw [Scope.chains_eq]
    exact (Scope.children_sublist p.scope.scopes p.chain).cons_cons _
  have hplaces := hfamily.map fun q => (⟨t, q.1, q.2⟩ : Place)
  rw [List.map_cons, List.map_map, ← htree] at hplaces
  rw [← htree] at *
  exact hplaces

theorem mem_walk_iff_holds : p ∈ t.walk ↔ t.Holds p := by
  constructor
  · intro h
    obtain ⟨tree, s, above⟩ := p
    obtain ⟨htree, hmem⟩ := mem_walk.mp h
    simp only at htree hmem
    subst htree
    clear h
    induction above generalizing s with
    | nil =>
      rw [Scope.eq_root_of_mem hmem]
      exact .root
    | cons q above ih =>
      obtain ⟨hq, hs⟩ := Scope.parent_of_mem hmem
      exact .child (ih q hq) (List.mem_map_of_mem hs)
  · intro h
    induction h with
    | root =>
      rw [mem_walk, Scope.chains_eq]
      exact ⟨rfl, List.mem_cons_self⟩
    | child _ hmem ih => exact (family_sublist ih).subset (List.mem_cons_of_mem _ hmem)

/-- The scopes around a place are those of other places. -/
theorem exists_place_of_mem_chain {s : Scope} (hp : p ∈ t.walk) (hs : s ∈ p.chain) : ∃ q ∈ t.walk, q.scope = s := by
  replace hp := mem_walk_iff_holds.mp hp
  induction hp with
  | root =>
    rw [List.mem_singleton.mp hs]
    exact ⟨t.rootPlace, mem_walk_iff_holds.mpr .root, rfl⟩
  | @child p c hplace hmem ih =>
    obtain ⟨child, _, rfl⟩ := List.mem_map.mp hmem
    rcases List.mem_cons.mp hs with rfl | hs
    · exact ⟨_, mem_walk_iff_holds.mpr (.child hplace hmem), rfl⟩
    · exact ih hs

section
variable {d : ScopeDraft} {serial : Nat} (h : (d.build serial).1 = .ok t)
include h

theorem size_of_build : t.size = d.size := by
  obtain ⟨-, -, -, hroot⟩ := ScopeDraft.build_eq_ok.mp h
  rw [size, ← Scope.length_chains t.root [], ScopeDraft.length_chains hroot]

theorem map_id_root_chains : (t.root.chains []).map (fun q => q.1.id) = List.range t.size := by
  obtain ⟨-, -, -, hroot⟩ := ScopeDraft.build_eq_ok.mp h
  rw [size_of_build h, List.range_eq_range']
  exact ScopeDraft.map_id_chains hroot []

theorem map_id_walk : t.walk.map (fun p => p.scope.id) = List.range t.size := by
  rw [walk, List.map_map]
  exact map_id_root_chains h

/-- A place and all below it have consecutive numbers. -/
theorem map_id_chains_of_mem (hp : p ∈ t.walk) :
    (p.scope.chains p.above).map (fun q => q.1.id) = List.range' p.scope.id p.scope.size := by
  have hinfix := (Scope.chains_infix (mem_walk.mp hp).2).map fun q => q.1.id
  rw [map_id_root_chains h, Scope.chains_eq, List.map_cons] at hinfix
  rw [← Scope.length_chains p.scope p.above, Scope.chains_eq, List.map_cons, List.length_cons]
  have hconsecutive := eq_range'_of_infix hinfix
  rwa [List.length_map] at hconsecutive

theorem pairwise_walk : t.walk.Pairwise fun p q => p.scope.id < q.scope.id := by
  have hrange : (t.walk.map fun p => p.scope.id).Pairwise (· < ·) := by
    rw [map_id_walk h]
    exact List.pairwise_lt_range
  exact List.pairwise_map.mp hrange

/-- A place is below the one around it, and has a greater number. -/
theorem id_lt_of_mem_children (hp : p ∈ t.walk) (hc : c ∈ p.children) : p.scope.id < c.scope.id :=
  List.rel_of_pairwise_cons ((pairwise_walk h).sublist (family_sublist hp)) hc

/-- A walk meets each place at its number. -/
theorem getElem?_walk (hp : p ∈ t.walk) : t.walk[p.scope.id]? = some p := by
  obtain ⟨i, hi, hget⟩ := List.mem_iff_getElem.mp hp
  have hid : p.scope.id = i := by
    have hrange := List.getElem_of_eq (map_id_walk h) (i := i) (by rwa [List.length_map])
    rwa [List.getElem_map, hget, List.getElem_range] at hrange
  rw [hid, List.getElem?_eq_getElem hi, hget]

/-- The row of a place's number stands for it. -/
theorem exists_row (hp : p ∈ t.walk) : ∃ row, d.table[p.scope.id]? = some row ∧ row.Stands p := by
  obtain ⟨hi, hget⟩ := List.getElem?_eq_some_iff.mp (getElem?_walk h hp)
  obtain ⟨hlength, hrows⟩ := List.forall₂_iff_get.mp (ScopeDraft.table_stands h)
  have hi' : p.scope.id < d.table.length := hlength ▸ hi
  have hrow : d.table[p.scope.id].Stands t.walk[p.scope.id] := hrows p.scope.id hi' hi
  rw [hget] at hrow
  exact ⟨d.table[p.scope.id], List.getElem?_eq_getElem hi', hrow⟩

/-- A variable of a place, or a member at any depth, is one that the build made there. -/
theorem exists_builtAt (hp : p ∈ t.walk) {v m : Variable} (hv : v ∈ p.scope.vars) (hm : m ∈ v.nested) :
    ∃ n : VariableDraft, n.BuiltAt p m := by
  obtain ⟨c, -, hbuilt⟩ := forall₂_mem_right (ScopeDraft.builtAt_of_build h) hp
  obtain ⟨draft, -, hdraft⟩ := forall₂_mem_right hbuilt.vars hv
  obtain ⟨n, -, hn⟩ := hdraft.nested m hm
  exact ⟨n, hn⟩

/-- Variables of a place and their members, at any depth, tell its number. -/
theorem scope_eq (hp : p ∈ t.walk) {v m : Variable} (hv : v ∈ p.scope.vars) (hm : m ∈ v.nested) :
    m.scope = p.scope.id := by
  obtain ⟨n, hn⟩ := exists_builtAt h hp hv hm
  cases hn with
  | intro _ _ _ _ hscope _ _ => exact hscope

end

end NamespaceTree

/-! ### Walking with a stack -/

namespace ScopeRow

variable {table : List ScopeRow}

/-- The table has a row for the scope, which tells the scopes right below it. -/
def Lists (table : List ScopeRow) (s : Scope) : Prop :=
  ∃ row, table[s.id]? = some row ∧ row.children = s.scopes.map Scope.id

theorem visit_scopes (above : List Scope) {ss : List Scope}
    (hss : ∀ s ∈ ss, ∀ rounds stack, visit table (s.size + rounds) (s.id :: stack) =
      (visit table rounds stack).map ((s.chains above).map (fun q => q.1.id) ++ ·)) (rounds : Nat)
    (stack : List Nat) :
    visit table (Scope.sizeAll ss + rounds) (ss.map Scope.id ++ stack) =
      (visit table rounds stack).map ((ss.flatMap (Scope.chains above)).map (fun q => q.1.id) ++ ·) := by
  induction ss with
  | nil =>
    rw [Scope.sizeAll, Nat.zero_add]
    exact Option.map_id'.symm
  | cons s ss ih =>
    obtain ⟨hfirst, hothers⟩ := List.forall_mem_cons.mp hss
    rw [Scope.sizeAll, Nat.add_assoc, List.map_cons, List.cons_append, hfirst, ih hothers, Option.map_map,
      List.flatMap_cons, List.map_append]
    congr 1
    funext ids
    exact (List.append_assoc _ _ _).symm

/-- A scope on the stack and all below it are taken out in the order of a walk before what lies beneath. -/
theorem visit_scope {s : Scope} {above : List Scope} (hlists : ∀ q ∈ s.chains above, Lists table q.1)
    (rounds : Nat) (stack : List Nat) :
    visit table (s.size + rounds) (s.id :: stack) =
      (visit table rounds stack).map ((s.chains above).map (fun q => q.1.id) ++ ·) := by
  induction s using Scope.inductionOnScopes generalizing above rounds stack with
  | scope s ih =>
    rw [Scope.chains_eq, List.forall_mem_cons] at hlists
    obtain ⟨⟨row, hrow, hchildren⟩, hbelow⟩ := hlists
    have hscopes := visit_scopes (s :: above) (fun c hc => ih c hc fun q hq =>
      hbelow q (List.mem_flatMap.mpr ⟨c, hc, hq⟩)) rounds stack
    have hsize : s.size + rounds = Scope.sizeAll s.scopes + rounds + 1 := by
      rw [Scope.size_eq]
      omega
    rw [hsize, visit_cons hrow, hchildren, hscopes, Option.map_map, Scope.chains_eq]
    rfl

end ScopeRow

namespace NamespaceTree

variable {t : NamespaceTree}

/-- As many rounds as there are scopes empty the stack. -/
theorem visit_table {d : ScopeDraft} {serial : Nat} (h : (d.build serial).1 = .ok t) {rounds : Nat}
    (hrounds : t.size ≤ rounds) : ScopeRow.visit d.table rounds [0] = some (List.range t.size) := by
  obtain ⟨-, -, -, hroot⟩ := ScopeDraft.build_eq_ok.mp h
  have hlists : ∀ q ∈ t.root.chains [], ScopeRow.Lists d.table q.1 := by
    intro q hq
    obtain ⟨row, hrow, hstands⟩ := exists_row h (List.mem_map_of_mem hq)
    exact ⟨row, hrow, hstands.children.trans List.map_map⟩
  have hid : t.root.id = 0 := (ScopeDraft.realize_eq_ok.mp hroot).id
  obtain ⟨more, rfl⟩ := Nat.exists_eq_add_of_le hrounds
  have hvisit := ScopeRow.visit_scope hlists more []
  have hids := map_id_root_chains h
  have hempty : ScopeRow.visit d.table more [] = some [] := by cases more <;> rfl
  rw [hid, hids, hempty, Option.map_some, List.append_nil] at hvisit
  exact hvisit

/-! ### The whole tree -/

/-- How the scopes of a tree that a draft is built to are numbered, listed and walked. -/
structure Numbered (d : ScopeDraft) (t : NamespaceTree) : Prop where
  root_id : t.root.id = 0
  root_parent : t.rootPlace.parent? = none
  parent : ∀ p, t.Holds p → p ≠ t.rootPlace → ∃ q, p.parent? = some q ∧ t.Holds q ∧ q.scope.id < p.scope.id
  mem_children : ∀ p c, t.Holds p → t.Holds c → (c ∈ p.children ↔ c.parent? = some p)
  nodup_children : ∀ p, t.Holds p → p.children.Nodup
  mirrors : d.Mirrors t.root
  size : t.size = d.nested.length
  dimensions : ∀ p, t.Holds p → ∀ dim ∈ p.scope.dimensions, dim.owner = some p.scope.id
  vars : ∀ p, t.Holds p → ∀ v ∈ p.scope.vars, ∀ m ∈ v.nested, m.scope = p.scope.id
  mem_walk : ∀ p, p ∈ t.walk ↔ t.Holds p
  ids : t.walk.map (fun p => p.scope.id) = List.range t.size
  preorder : ∀ p, t.Holds p →
    (p.scope.chains p.above).map (fun q => q.1.id) = List.range' p.scope.id p.scope.size
  table : List.Forall₂ ScopeRow.Stands d.table t.walk
  visit : ∀ rounds, t.size ≤ rounds → ScopeRow.visit d.table rounds [0] = some (List.range t.size)

/-- Being listed right below a place is having it around one. -/
theorem mem_children_iff {p c : Place} (hp : t.Holds p) (hc : t.Holds c) :
    c ∈ p.children ↔ c.parent? = some p := by
  obtain ⟨tree, s, above⟩ := c
  obtain ⟨htree, hmem⟩ := NamespaceTree.mem_walk.mp (mem_walk_iff_holds.mpr hp)
  obtain ⟨htree', hmem'⟩ := NamespaceTree.mem_walk.mp (mem_walk_iff_holds.mpr hc)
  simp only at htree' hmem'
  constructor
  · intro hchild
    obtain ⟨_, _, hchild⟩ := List.mem_map.mp hchild
    cases hchild
    rfl
  · intro hparent
    cases above with
    | nil => cases hparent
    | cons q above =>
      cases hparent
      obtain ⟨-, hs⟩ := Scope.parent_of_mem hmem'
      exact List.mem_map_of_mem hs

theorem exists_parent {p : Place} (hp : t.Holds p) (hroot : p ≠ t.rootPlace) :
    ∃ q, p.parent? = some q ∧ t.Holds q ∧ p ∈ q.children := by
  cases hp with
  | root => exact absurd rfl hroot
  | child hq hmem =>
    exact ⟨_, (mem_children_iff hq (.child hq hmem)).mp hmem, hq, hmem⟩

/-- A build numbers the scopes from the root on, each before those below it, and a walk meets each once, in
the order of the numbers. -/
theorem numbered_of_build {d : ScopeDraft} {serial : Nat} (h : (d.build serial).1 = .ok t) :
    t.Numbered d := by
  obtain ⟨-, -, -, hroot⟩ := ScopeDraft.build_eq_ok.mp h
  refine {
    root_id := (ScopeDraft.realize_eq_ok.mp hroot).id
    root_parent := rfl
    parent := fun p hp hne => ?_
    mem_children := fun p c => mem_children_iff
    nodup_children := fun p hp => ?_
    mirrors := ScopeDraft.mirrors_of_realize hroot
    size := (size_of_build h).trans d.length_nested.symm
    dimensions := fun p hp => ?_
    vars := fun p hp v hv m hm => scope_eq h (mem_walk_iff_holds.mpr hp) hv hm
    mem_walk := fun p => mem_walk_iff_holds
    ids := map_id_walk h
    preorder := fun p hp => map_id_chains_of_mem h (mem_walk_iff_holds.mpr hp)
    table := ScopeDraft.table_stands h
    visit := fun rounds => visit_table h }
  · obtain ⟨q, hparent, hq, hmem⟩ := exists_parent hp hne
    exact ⟨q, hparent, hq, id_lt_of_mem_children h (mem_walk_iff_holds.mpr hq) hmem⟩
  · have hfamily := (pairwise_walk h).sublist (family_sublist (mem_walk_iff_holds.mpr hp))
    exact (List.pairwise_cons.mp hfamily).2.imp fun hlt heq => 
      absurd (congrArg (fun c => c.scope.id) heq) (Nat.ne_of_lt hlt)
  · obtain ⟨c, -, hbuilt⟩ := forall₂_mem_right (ScopeDraft.builtAt_of_build h) (mem_walk_iff_holds.mpr hp)
    cases hbuilt.chain with
    | cons hself _ => exact hself.owner

/-- A root with two scopes, the first with one below it. -/
theorem numbered_of_build_nested :
    let d : ScopeDraft := { ScopeDraft.shadowed "x" with
      scopes := [{ ScopeDraft.new "a" with scopes := [ScopeDraft.shadowed "x"] }, ScopeDraft.new "b"] }
    ∃ t, (d.build 0).1 = .ok t ∧ t.Numbered d := by
  exact ⟨_, rfl, numbered_of_build rfl⟩

end NamespaceTree
end SciArchive
