import SciArchive.Proofs.DraftRuns
import Mathlib.Data.List.Nodup

/-! Names that tell entities apart. Dimensions, child scopes, enumerations and members are compared with
their siblings whenever one is added, so their names stay distinct. Variables are too, but not when one
of them is renamed: their names stay distinct exactly as long as no variable takes a sibling's name. -/
namespace SciArchive

/-! ### Lists of names -/

theorem nodup_snoc {α β : Type} {f : α → β} {l : List α} {a : α} (h : (l.map f).Nodup)
    (hnew : ∀ x ∈ l, f x ≠ f a) : ((l ++ [a]).map f).Nodup := by
  rw [List.map_append, List.map_singleton, List.nodup_append]
  refine ⟨h, List.nodup_singleton _, ?_⟩
  rw [List.forall_mem_map]
  intro x hx b hb
  rw [List.mem_singleton.mp hb]
  exact hnew x hx

/-- Putting `b` in the place of `a` keeps the list distinct if it is told from the others. -/
theorem nodup_updateFirst {α β : Type} {f : α → β} {p : α → Bool} {l : List α} {a b : α}
    (hfound : l.find? p = some a) (h : (l.map f).Nodup) :
    ((updateFirst p (fun _ => b) l).map f).Nodup ↔ f b = f a ∨ ∀ x ∈ l, f x ≠ f b := by
  obtain ⟨l₁, l₂, rfl, -, hupdate⟩ := updateFirst_split hfound
  rw [List.map_append, List.map_cons, List.nodup_middle, List.nodup_cons] at h
  rw [hupdate, List.map_append, List.map_cons, List.nodup_middle, List.nodup_cons]
  obtain ⟨hothers, hnodup⟩ := h
  simp only [List.mem_append, List.mem_map, List.mem_cons] at hothers ⊢
  grind

/-! ### Dimensions, scopes, enumerations and members -/

structure Holdings.Distinct (h : Holdings) : Prop where
  dimensions : (h.dimensions.map Dimension.name).Nodup
  scopes : h.scopes.Nodup
  enums : (h.enums.map EnumTypedef.name).Nodup

structure Holdings.FullyDistinct (h : Holdings) : Prop extends h.Distinct where
  vars : h.vars.Nodup

theorem Dimension.name_of_sharedName {dim : Dimension} {name : String} (h : dim.sharedName? = some name) :
    dim.name = some name := by
  cases hshared : dim.shared with
  | true => simpa [sharedName?, hshared] using h
  | false => simp [sharedName?, hshared] at h

namespace ScopeDraft

theorem map_name_holdings (d : ScopeDraft) :
    d.holdings.dimensions.map Dimension.name = d.dimensions.map Dimension.name := by
  rw [holdings, List.map_map]
  rfl

theorem Effect.distinct {d d' : ScopeDraft} {op : Operation} (h : Effect d op d')
    (hd : d.holdings.Distinct) : d'.holdings.Distinct := by
  obtain ⟨hdims, hscopes, henums⟩ := hd
  have hnames := map_name_holdings d ▸ hdims
  cases h with
  | @addedDimension _ _ dim name hname habsent =>
    refine ⟨?_, hscopes, henums⟩
    rw [map_name_holdings]
    refine nodup_snoc hnames fun x hx => ?_
    have hother := List.find?_eq_none.mp habsent x hx
    simpa [Dimension.isNamed, Dimension.name_of_sharedName hname] using hother
  | @replacedDimension _ dim old name hname hfound =>
    refine ⟨?_, hscopes, henums⟩
    have hold : old.name = some name := by
      simpa [Dimension.isNamed] using List.find?_some hfound
    rw [map_name_holdings, nodup_updateFirst hfound hnames]
    exact .inl ((Dimension.name_of_sharedName hname).trans hold.symm)
  | removedDimension =>
    refine ⟨?_, hscopes, henums⟩
    rw [map_name_holdings]
    exact hnames.sublist ((List.eraseP_sublist).map _)
  | addedScope habsent =>
    refine ⟨hdims, nodup_snoc hscopes fun x hx => ?_, henums⟩
    simpa using List.find?_eq_none.mp habsent x hx
  | removedScope => exact ⟨hdims, hscopes.sublist (List.filter_sublist.map _), henums⟩
  | inScope _ hfound heffect =>
    refine ⟨hdims, ?_, henums⟩
    exact (nodup_updateFirst hfound hscopes).mpr (.inl heffect.name_eq)
  | addedEnum habsent =>
    refine ⟨hdims, hscopes, nodup_snoc henums fun x hx => ?_⟩
    simpa using List.find?_eq_none.mp habsent x hx
  | marked =>
    rw [holdings_markBuilt]
    exact ⟨hdims, hscopes, henums⟩
  | _ => exact ⟨hdims, hscopes, henums⟩

/-! ### Variables -/

/-- The operation gives a variable the name of another one beside it. -/
def Operation.Clashes : Operation → ScopeDraft → Prop
  | inScope name op, d => d.built = false ∧ ∃ s, d.scope? name = some s ∧ op.Clashes s
  | inVariable name op, d => d.built = false ∧ (d.var? name).isSome = true ∧
      op.newName name ≠ name ∧ (d.var? (op.newName name)).isSome = true
  | _, _ => False

theorem Effect.nodup_vars {d d' : ScopeDraft} {op : Operation} (h : Effect d op d')
    (hclash : ¬ op.Clashes d) (hd : d.holdings.vars.Nodup) : d'.holdings.vars.Nodup := by
  cases h with
  | addedVariable _ habsent =>
    refine nodup_snoc hd fun x hx => ?_
    simpa using List.find?_eq_none.mp habsent x hx
  | replacedVariable hfound =>
    have hold := List.find?_some hfound
    refine (nodup_updateFirst hfound hd).mpr (.inl ?_)
    simpa [eq_comm] using hold
  | removedVariable => exact hd.sublist (List.filter_sublist.map _)
  | @inVariable _ v name op hopen hfound =>
    have hname : v.name = name := by simpa using List.find?_some hfound
    refine (nodup_updateFirst hfound hd).mpr ?_
    rw [VariableDraft.Operation.name_apply, hname]
    by_cases hnew : op.newName name = name
    · exact .inl hnew
    · right
      have habsent : d.var? (op.newName name) = none := by
        by_contra hsome
        exact hclash ⟨hopen, by rw [hfound, Option.isSome_some], hnew,
          Option.isSome_iff_ne_none.mpr hsome⟩
      intro x hx
      simpa using List.find?_eq_none.mp habsent x hx
  | marked =>
    rw [holdings_markBuilt]
    exact hd
  | _ => exact hd

/-- Two variables of one name are there after a clash. -/
theorem not_all_of_clashes {Q : List String → Prop} {op : Operation} {d : ScopeDraft}
    (hclash : op.Clashes d) (hd : d.All Holdings.FullyDistinct Q) :
    ¬ (op.apply d).2.All Holdings.FullyDistinct Q := by
  -- only a renaming clashes, here or along a path of children
  induction op generalizing d with
  | inScope name op ih =>
    obtain ⟨hopen, s, hfound, hinner⟩ := hclash
    have hafter : (op.apply s).2 ∈ ((Operation.inScope name op).apply d).2.scopes := by
      obtain ⟨l₁, l₂, -, -, hupdate⟩ := updateFirst_split hfound
      simp [Operation.apply, ScopeDraft.inScope, whenOpen, hopen, hfound, hupdate]
    intro hall
    have hs := (all_iff.mp hd).2 s (List.mem_of_find?_eq_some hfound)
    exact ih hinner hs ((all_iff.mp hall).2 _ hafter)
  | inVariable name op =>
    obtain ⟨hopen, hsome, hnew, hother⟩ := hclash
    obtain ⟨v, hfound⟩ := Option.isSome_iff_exists.mp hsome
    obtain ⟨other, hsibling⟩ := Option.isSome_iff_exists.mp hother
    have hname : v.name = name := by simpa using List.find?_some hfound
    have hsame : other.name = op.newName name := by simpa using List.find?_some hsibling
    have hafter : ((Operation.inVariable name op).apply d).2.vars =
        updateFirst (fun v => v.name = name) (fun _ => (op.apply v).2) d.vars := by
      simp [Operation.apply, ScopeDraft.inVariable, whenOpen, hopen, hfound]
    intro hall
    have hnodup := (all_iff.mp hall).1.1.vars
    rw [holdings, hafter, nodup_updateFirst hfound (all_iff.mp hd).1.1.vars,
      VariableDraft.Operation.name_apply, hname] at hnodup
    cases hnodup with
    | inl hkept => exact hnew hkept
    | inr habsent => exact habsent other (List.mem_of_find?_eq_some hsibling) hsame
  | _ => cases hclash

end ScopeDraft

/-! ### Runs -/

theorem kept_distinct : Kept (fun _ _ => True) Holdings.Distinct List.Nodup where
  empty := ⟨List.nodup_nil, List.nodup_nil, List.nodup_nil⟩
  step := fun h _ => h.distinct
  inner := fun _ _ _ => trivial
  noMembers := List.nodup_nil
  member := fun hnew h => h.append (List.nodup_singleton _) (by simpa using hnew)

theorem kept_fullyDistinct :
    Kept (fun d op => ¬ op.Clashes d) Holdings.FullyDistinct List.Nodup where
  empty := ⟨kept_distinct.empty, List.nodup_nil⟩
  step := fun h hclash hd => ⟨h.distinct hd.toDistinct, h.nodup_vars hclash hd.vars⟩
  inner := fun hopen hfound hclash hinner => hclash ⟨hopen, _, hfound, hinner⟩
  noMembers := kept_distinct.noMembers
  member := kept_distinct.member

/-- Over all runs the names of dimensions, child scopes, enumerations and members are distinct at every
depth, in drafts and in built trees. So are those of variables over the runs in which none takes a
sibling's name, and an operation that does not keep them so is one that makes a variable do that. -/
theorem names_distinct (x : Product) (d : ScopeDraft) (op : ScopeDraft.Operation) :
    (Reachable (fun _ _ => True) x → x.All Holdings.Distinct List.Nodup) ∧
    (Reachable (fun d op => ¬ op.Clashes d) x → x.All Holdings.FullyDistinct List.Nodup) ∧
    (d.All Holdings.FullyDistinct List.Nodup →
      (∀ s ∈ op.scopes, s.All Holdings.FullyDistinct List.Nodup) → (∀ v ∈ op.vars, v.All List.Nodup) →
      ((op.apply d).2.All Holdings.FullyDistinct List.Nodup ↔ ¬ op.Clashes d)) := by
  refine ⟨Reachable.all kept_distinct, Reachable.all kept_fullyDistinct, ?_⟩
  intro hd hscopes hvars
  constructor
  · intro hall hclash
    exact ScopeDraft.not_all_of_clashes hclash hd hall
  · intro hclash
    exact hd.effect kept_fullyDistinct (ScopeDraft.effect_apply op d) hclash hscopes hvars

def siblings : ScopeDraft :=
  (ScopeDraft.Operation.run [.addVariable (.new "a" .int), .addVariable (.new "b" .int)] .root).2

/-- One of two variables takes the other's name. -/
def takeSiblingsName : ScopeDraft.Operation := .inVariable "a" (.rename "b")

theorem reachable_siblings {admits : ScopeDraft → ScopeDraft.Operation → Prop}
    (hadmits : ∀ d v, admits d (.addVariable v)) : Reachable admits (.scope siblings) := by
  have hvars : Reachable admits (.var (.new "a" .int)) ∧ Reachable admits (.var (.new "b" .int)) :=
    ⟨.newVariable "a" .int, .newVariable "b" .int⟩
  exact .run (.newScope "") (by simp [ScopeDraft.Operation.scopes])
    (by simpa [ScopeDraft.Operation.vars] using hvars) (by simp [hadmits])

theorem reachable_takeSiblingsName :
    Reachable (fun _ _ => True) (.scope (takeSiblingsName.apply siblings).2) :=
  .editScope takeSiblingsName (reachable_siblings fun _ _ => trivial) (fun _ hs => by cases hs)
    (fun _ hv => by cases hv) trivial

theorem names_distinct_siblings :
    Product.All Holdings.Distinct List.Nodup (.scope (takeSiblingsName.apply siblings).2) ∧
    Product.All Holdings.FullyDistinct List.Nodup (.scope siblings) ∧
    ¬ (takeSiblingsName.apply siblings).2.All Holdings.FullyDistinct List.Nodup := by
  have hrenamed := names_distinct (.scope (takeSiblingsName.apply siblings).2) siblings takeSiblingsName
  obtain ⟨-, hdistinct, hexactly⟩ := names_distinct (.scope siblings) siblings takeSiblingsName
  have hsiblings := hdistinct (reachable_siblings fun _ _ hclash => hclash)
  refine ⟨hrenamed.1 reachable_takeSiblingsName, hsiblings, ?_⟩
  rw [hexactly hsiblings (fun _ hs => by cases hs) (fun _ hv => by cases hv), not_not]
  exact ⟨rfl, rfl, by decide, rfl⟩

/-- Variables of one scope can come to share a name, in the draft and in the tree built from it. -/
theorem shared_variable_name :
    Reachable (fun _ _ => True) (.scope (takeSiblingsName.apply siblings).2) ∧
    ¬ ((takeSiblingsName.apply siblings).2.vars.map VariableDraft.name).Nodup ∧
    ∃ t, ((takeSiblingsName.apply siblings).2.build 0).1 = .ok t ∧
      ¬ (t.root.vars.map Variable.name).Nodup :=
  ⟨reachable_takeSiblingsName, by decide, _, rfl, by decide⟩

end SciArchive
