import SciArchive.Proofs.CommonAncestors
import SciArchive.Proofs.ScopeNumbers

/-! Searches upward. What is declared under a name is found in the nearest scope around that declares it, and
scopes elsewhere do not count; this is so along chains of scopes as well as along the numbers of parents. -/
namespace SciArchive

/-! ### The nearest declaration -/

/-- Of the elements of a list that `named` tells, the first is `x`. -/
def IsFirst {α : Type} (named : α → Prop) (l : List α) (x : α) : Prop :=
  ∃ before after, l = before ++ x :: after ∧ named x ∧ ∀ y ∈ before, ¬ named y

theorem isFirst_iff {α : Type} {named : α → Prop} {test : α → Bool} (htest : ∀ x, test x = true ↔ named x)
    {l : List α} {x : α} : IsFirst named l x ↔ l.find? test = some x := by
  rw [List.find?_eq_some_iff_append]
  constructor
  · rintro ⟨before, after, hl, hx, hbefore⟩
    exact ⟨(htest x).mpr hx, before, after, hl, fun y hy => by simpa [← htest] using hbefore y hy⟩
  · rintro ⟨hx, before, after, hl, hbefore⟩
    exact ⟨before, after, hl, (htest x).mp hx, fun y hy => by simpa [← htest] using hbefore y hy⟩

theorem IsFirst.exists_mem {α : Type} {named : α → Prop} {l : List α} {x : α} (h : IsFirst named l x) :
    ∃ y ∈ l, named y := by
  obtain ⟨before, after, hl, hx, -⟩ := h
  exact ⟨x, hl ▸ List.mem_append_right _ List.mem_cons_self, hx⟩

namespace Place

/-- What a search upward from a place answers for the entities of a name: that of the nearest scope around that
declares any, and nothing if none does. The place itself counts as the nearest. -/
structure Nearest {α : Type} (p : Place) (entities : Scope → List α) (named : α → Prop)
    (answer : Option α) : Prop where
  found : ∀ x, answer = some x ↔ ∃ q : Place, q.Surrounds p ∧ IsFirst named (entities q.scope) x ∧
    ∀ r : Place, r.Surrounds p → (∃ y ∈ entities r.scope, named y) → r.Surrounds q
  missing : answer = none ↔ ∀ q : Place, q.Surrounds p → ∀ y ∈ entities q.scope, ¬ named y

variable {p q r : Place}

/-- The scopes up to the root are those of the places around. -/
theorem mem_chain_iff {s : Scope} : s ∈ p.chain ↔ ∃ q : Place, q.Surrounds p ∧ q.scope = s := by
  constructor
  · intro hs
    obtain ⟨inner, outer, hsplit⟩ := List.append_of_mem hs
    exact ⟨⟨p.tree, s, outer⟩, surrounds_iff.mpr ⟨rfl, inner, hsplit.symm⟩, rfl⟩
  · rintro ⟨q, hq, rfl⟩
    exact (surrounds_iff.mp hq).2.subset List.mem_cons_self

/-- Of two places around a third one, one is around the other, or lies nearer. -/
theorem Surrounds.or_mem {inner outer : List Scope} {s : Scope} (hchain : p.chain = inner ++ s :: outer)
    (hr : r.Surrounds p) : r.Surrounds ⟨p.tree, s, outer⟩ ∨ r.scope ∈ inner := by
  obtain ⟨htree, hsuffix⟩ := surrounds_iff.mp hr
  have hends : s :: outer <:+ p.chain := ⟨inner, hchain.symm⟩
  by_cases hlength : r.chain.length ≤ (s :: outer).length
  · exact Or.inl (surrounds_iff.mpr ⟨htree, List.suffix_of_suffix_length_le hsuffix hends hlength⟩)
  · obtain ⟨between, hbetween⟩ := List.suffix_of_suffix_length_le hends hsuffix (by omega)
    obtain ⟨nearer, hnearer⟩ := hsuffix
    rw [hchain, ← hbetween, ← List.append_assoc, List.append_cancel_right_eq] at hnearer
    cases between with
    | nil => exact absurd (congrArg List.length hbetween) (by simp at hlength ⊢; omega)
    | cons n between =>
      have hscope : r.scope = n := (List.cons.inj hbetween).1.symm
      rw [← hnearer, hscope]
      exact Or.inr (List.mem_append_right _ List.mem_cons_self)

section
variable {α : Type} {entities : Scope → List α} {named : α → Prop} {test : α → Bool}

theorem findSome?_chain_eq_none (htest : ∀ x, test x = true ↔ named x) :
    (p.chain.findSome? fun s => (entities s).find? test) = none ↔
      ∀ q : Place, q.Surrounds p → ∀ y ∈ entities q.scope, ¬ named y := by
  simp only [List.findSome?_eq_none_iff, List.find?_eq_none, htest, mem_chain_iff]
  constructor
  · exact fun h q hq => h q.scope ⟨q, hq, rfl⟩
  · rintro h s ⟨q, hq, rfl⟩
    exact h q hq

/-- What is found along a chain is declared by the nearest place that declares anything of the kind. -/
theorem exists_nearest_of_findSome? (htest : ∀ x, test x = true ↔ named x) {x : α}
    (hx : (p.chain.findSome? fun s => (entities s).find? test) = some x) :
    ∃ q : Place, q.Surrounds p ∧ IsFirst named (entities q.scope) x ∧
      ∀ r : Place, r.Surrounds p → (∃ y ∈ entities r.scope, named y) → r.Surrounds q := by
  obtain ⟨inner, s, outer, hchain, hs, hinner⟩ := List.findSome?_eq_some_iff.mp hx
  refine ⟨⟨p.tree, s, outer⟩, surrounds_iff.mpr ⟨rfl, inner, hchain.symm⟩, (isFirst_iff htest).mpr hs, ?_⟩
  rintro r hr ⟨y, hy, hnamed⟩
  rcases hr.or_mem hchain with haround | hnearer
  · exact haround
  · exact absurd ((htest y).mpr hnamed) (List.find?_eq_none.mp (hinner r.scope hnearer) y hy)

theorem nearest_findSome? (p : Place) (entities : Scope → List α) (htest : ∀ x, test x = true ↔ named x) :
    p.Nearest entities named (p.chain.findSome? fun s => (entities s).find? test) := by
  refine ⟨fun x => ⟨exists_nearest_of_findSome? htest, ?_⟩, findSome?_chain_eq_none htest⟩
  rintro ⟨q, hq, hfirst, hnearest⟩
  cases hanswer : p.chain.findSome? fun s => (entities s).find? test with
  | none =>
    obtain ⟨y, hy, hnamed⟩ := hfirst.exists_mem
    exact absurd hnamed ((findSome?_chain_eq_none htest).mp hanswer q hq y hy)
  | some y =>
    -- both places are the nearest, so they are one
    obtain ⟨q', hq', hfirst', hnearest'⟩ := exists_nearest_of_findSome? htest hanswer
    have hinward : q'.Surrounds q := hnearest q' hq' hfirst'.exists_mem
    have houtward : q.Surrounds q' := hnearest' q hq hfirst.exists_mem
    obtain rfl := hinward.eq_of_length houtward.length_le
    rw [← (isFirst_iff htest).mp hfirst, (isFirst_iff htest).mp hfirst']

end

theorem findDimension?_eq (p : Place) (name : String) :
    p.findDimension? name = p.chain.findSome? fun s => s.dimension? name := by
  rw [findDimension?, Frame.resolve?, frames, List.findSome?_map]
  rfl

end Place

/-! ### Numbers of parents -/

namespace NamespaceTree

/-- The scopes of a tree as rows of a table, each with the number of the row of the scope around it. -/
def rows (t : NamespaceTree) : List (Option Nat × Scope) :=
  t.walk.map fun p => (p.parent?.map fun q => q.scope.id, p.scope)

/-- From row to row of the parents until something is declared. At most `rounds` rows are looked at; there is no
answer if these are too few or a number is that of no row. -/
def climb {α : Type} (rows : List (Option Nat × Scope)) (declared : Scope → Option α) :
    Nat → Option Nat → Option (Option α)
  | _, none => some none
  | 0, some _ => none
  | rounds + 1, some id =>
    match rows[id]? with
    | none => none
    | some (parent, s) =>
      match declared s with
      | some x => some (some x)
      | none => climb rows declared rounds parent

section
variable {t : NamespaceTree} {p : Place} {d : ScopeDraft} {serial : Nat} (h : (d.build serial).1 = .ok t)
include h

theorem getElem?_rows (hp : p ∈ t.walk) :
    t.rows[p.scope.id]? = some (p.parent?.map fun q => q.scope.id, p.scope) := by
  rw [rows, List.getElem?_map, getElem?_walk h hp, Option.map_some]

/-- Parents have smaller numbers, so the number of a scope bounds the rounds from it. Only the rows of the scopes
around it are looked at. -/
theorem climb_eq {α : Type} (hp : p ∈ t.walk) (declared : Scope → Option α) {rows : List (Option Nat × Scope)}
    (hrows : ∀ q : Place, q.Surrounds p → rows[q.scope.id]? = t.rows[q.scope.id]?) {rounds : Nat}
    (hrounds : p.scope.id < rounds) :
    climb rows declared rounds (some p.scope.id) = some (p.chain.findSome? declared) := by
  induction rounds generalizing p with
  | zero => cases hrounds
  | succ rounds ih =>
    have hrow := (hrows p .self).trans (getElem?_rows h hp)
    simp only [climb, hrow]
    cases hdeclared : declared p.scope with
    | some x => rw [Place.chain, List.findSome?_cons, hdeclared]
    | none =>
      cases hparent : p.parent? with
      | none =>
        have htop : p.chain = [p.scope] := by
          rcases p with ⟨tree, s, above⟩
          cases above with
          | nil => rfl
          | cons n above => cases hparent
        simp [climb, htop, hdeclared]
      | some q =>
        have haround : q.Surrounds p := .outward hparent .self
        have hq := mem_walk_of_surrounds haround hp
        have hmem : p ∈ q.children :=
          (mem_children_iff (mem_walk_iff_holds.mp hq) (mem_walk_iff_holds.mp hp)).mpr hparent
        have hless := id_lt_of_mem_children h hq hmem
        have hrest := ih hq (fun r hr => hrows r (hr.trans haround)) (by omega)
        rw [(Place.chain_of_parent? hparent).2, List.findSome?_cons, hdeclared]
        exact hrest

end

/-! ### The three searches -/

/-- The searches upward from a place for a name. Each finds the nearest declaration, of which there is one in a scope
if it is not of a variable; along the numbers of parents each comes to its end, the rows of other scopes
not being looked at; and nothing but what the scopes of the chain declare counts. -/
structure SearchesUpward (t : NamespaceTree) (p : Place) (name : String) : Prop where
  dimensions : p.Nearest Scope.dimensions (fun dim => dim.name = some name) (p.findDimension? name)
  vars : p.Nearest Scope.vars (fun v => v.name = name) (p.findVariable? name)
  enums : p.Nearest Scope.enums (fun e => e.name = name) (p.findEnum? name)
  nodup_dimensions : ∀ q : Place, q.Surrounds p → (q.scope.dimensions.map Dimension.name).Nodup
  nodup_enums : ∀ q : Place, q.Surrounds p → (q.scope.enums.map EnumTypedef.name).Nodup
  climbs : ∀ rows : List (Option Nat × Scope),
    (∀ q : Place, q.Surrounds p → rows[q.scope.id]? = t.rows[q.scope.id]?) → ∀ rounds, p.scope.id < rounds →
      climb rows (fun s => s.dimension? name) rounds (some p.scope.id) = some (p.findDimension? name) ∧
      climb rows (fun s => s.var? name) rounds (some p.scope.id) = some (p.findVariable? name) ∧
      climb rows (fun s => s.enum? name) rounds (some p.scope.id) = some (p.findEnum? name)
  dimension_of_chain : ∀ q : Place, q.chain.map Scope.dimensions = p.chain.map Scope.dimensions →
    q.findDimension? name = p.findDimension? name
  variable_of_chain : ∀ q : Place, q.chain.map Scope.vars = p.chain.map Scope.vars →
    q.findVariable? name = p.findVariable? name
  enum_of_chain : ∀ q : Place, q.chain.map Scope.enums = p.chain.map Scope.enums → q.findEnum? name = p.findEnum? name

theorem searchesUpward_of_build {d : ScopeDraft} {serial : Nat} {t : NamespaceTree}
    (hdraft : Reachable (fun _ _ => True) (.scope d)) (hbuild : (d.build serial).1 = .ok t) {p : Place}
    (hp : p ∈ t.walk) (name : String) : t.SearchesUpward p name := by
  have hdistinct : ∀ q : Place, q.Surrounds p →
      (q.scope.dimensions.map Dimension.name).Nodup ∧ (q.scope.enums.map EnumTypedef.name).Nodup := by
    intro q hq
    have hall : t.All Holdings.Distinct List.Nodup := (Reachable.build hdraft hbuild).all kept_distinct
    obtain ⟨hdims, -, henums⟩ := (hall q (mem_walk_of_surrounds hq hp)).1
    rw [Scope.holdings, List.map_map] at hdims
    exact ⟨hdims, henums⟩
  have hdimension := p.findDimension?_eq name
  have hchains : ∀ {α : Type} {entities : Scope → List α} {p q : Place} (test : α → Bool),
      q.chain.map entities = p.chain.map entities →
        (q.chain.findSome? fun s => (entities s).find? test) = p.chain.findSome? fun s => (entities s).find? test := by
    intro α entities p q test hsame
    have hlists := congrArg (List.findSome? (List.find? test)) hsame
    rwa [List.findSome?_map, List.findSome?_map] at hlists
  refine {
    dimensions := ?_
    vars := p.nearest_findSome? Scope.vars fun v => decide_eq_true_iff
    enums := p.nearest_findSome? Scope.enums fun e => decide_eq_true_iff
    nodup_dimensions := fun q hq => (hdistinct q hq).1
    nodup_enums := fun q hq => (hdistinct q hq).2
    climbs := fun rows hrows rounds hrounds =>
      ⟨?_, climb_eq hbuild hp _ hrows hrounds, climb_eq hbuild hp _ hrows hrounds⟩
    dimension_of_chain := fun q hsame => ?_
    variable_of_chain := fun q hsame => hchains _ hsame
    enum_of_chain := fun q hsame => hchains _ hsame }
  · rw [hdimension]
    exact p.nearest_findSome? Scope.dimensions fun dim => by rw [Dimension.isNamed, beq_iff_eq]
  · rw [hdimension]
    exact climb_eq hbuild hp _ hrows hrounds
  · rw [hdimension, q.findDimension?_eq]
    exact hchains _ hsame

/-- The dimension that the root declares is found in the scope below it only as declared anew there. -/
theorem searchesUpward_of_build_redeclared :
    ∃ t, (redeclared.build 0).1 = .ok t ∧ ∃ p ∈ t.walk, p.above ≠ [] ∧
      p.findDimension? "x" = some ((Dimension.ofName "x" 3).ownedBy 1) ∧ t.SearchesUpward p "x" := by
  refine ⟨_, rfl, _, List.mem_cons_of_mem _ List.mem_cons_self, by simp, by rfl, ?_⟩
  exact searchesUpward_of_build reachable_redeclared rfl (List.mem_cons_of_mem _ List.mem_cons_self) "x"

end NamespaceTree
end SciArchive
