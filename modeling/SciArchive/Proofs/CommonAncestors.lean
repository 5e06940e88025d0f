import SciArchive.Proofs.ScopeIdentity

/-! Common ancestors. What is around two scopes of a tree is exactly what is around one of its scopes, the
innermost around both, and that is the one which the search finds. -/
namespace SciArchive

/-! ### Ancestors -/

namespace Place

/-- `p` is the place itself or is reached from it by going from a scope to the one around it. -/
inductive Surrounds (p : Place) : Place → Prop
  | self : Surrounds p p
  | outward {q r : Place} (parent : q.parent? = some r) (around : Surrounds p r) : Surrounds p q

variable {p q r c : Place}

theorem chain_of_parent? (h : q.parent? = some r) : q.tree = r.tree ∧ q.chain = q.scope :: r.chain := by
  rcases q with ⟨t, s, above⟩
  cases above with
  | nil => cases h
  | cons n around =>
    cases h
    exact ⟨rfl, rfl⟩

theorem eq_of_chain (htree : p.tree = q.tree) (hchain : p.chain = q.chain) : p = q := by
  cases p
  cases q
  cases htree
  cases hchain
  rfl

/-- The chains of the places around one are the ends of its own. -/
theorem surrounds_iff : p.Surrounds q ↔ p.tree = q.tree ∧ p.chain <:+ q.chain := by
  constructor
  · intro h
    induction h with
    | self => exact ⟨rfl, List.suffix_rfl⟩
    | outward hparent _ ih =>
      obtain ⟨htree, hchain⟩ := chain_of_parent? hparent
      exact ⟨ih.1.trans htree.symm, hchain ▸ ih.2.trans (List.suffix_cons _ _)⟩
  · rintro ⟨htree, hsuffix⟩
    rcases q with ⟨t, s, above⟩
    induction above generalizing s with
    | nil =>
      rcases List.suffix_cons_iff.mp hsuffix with hself | hnil
      · exact eq_of_chain htree hself ▸ .self
      · cases List.suffix_nil.mp hnil
    | cons n around ih =>
      rcases List.suffix_cons_iff.mp hsuffix with hself | hbelow
      · exact eq_of_chain htree hself ▸ .self
      · exact .outward rfl (ih n htree hbelow)

theorem Surrounds.trans (hpq : p.Surrounds q) (hqr : q.Surrounds r) : p.Surrounds r := by
  induction hqr with
  | self => exact hpq
  | outward hparent _ ih => exact .outward hparent ih

theorem Surrounds.length_le (h : p.Surrounds q) : p.chain.length ≤ q.chain.length :=
  (surrounds_iff.mp h).2.length_le

/-- Of two places as deep none is around the other. -/
theorem Surrounds.eq_of_length (h : p.Surrounds q) (hlength : q.chain.length ≤ p.chain.length) : p = q := by
  obtain ⟨htree, hsuffix⟩ := surrounds_iff.mp h
  exact eq_of_chain htree (hsuffix.eq_of_length_le hlength)

/-- What is around both places is what is around `r`. -/
def Joins (r p q : Place) : Prop := ∀ c : Place, c.Surrounds r ↔ c.Surrounds p ∧ c.Surrounds q

theorem Joins.surrounds (h : r.Joins p q) : r.Surrounds p ∧ r.Surrounds q := (h r).mp .self

theorem Joins.symm (h : r.Joins p q) : r.Joins q p := fun c => (h c).trans and_comm

/-- Places around which there is the same are one. -/
theorem eq_of_surrounds_iff (h : ∀ c : Place, c.Surrounds p ↔ c.Surrounds q) : p = q := by
  have hpq : p.Surrounds q := (h p).mp .self
  have hqp : q.Surrounds p := (h q).mpr .self
  exact hpq.eq_of_length hqp.length_le

theorem Joins.unique (hp : p.Joins q r) (hc : c.Joins q r) : p = c :=
  eq_of_surrounds_iff fun x => (hp x).trans (hc x).symm

end Place

/-! ### The search -/

namespace NamespaceTree

variable {t : NamespaceTree} {p q c : Place}

theorem mem_walk_of_surrounds (h : p.Surrounds q) (hq : q ∈ t.walk) : p ∈ t.walk := by
  induction h with
  | self => exact hq
  | @outward q r hparent _ ih =>
    refine ih ?_
    rcases q with ⟨u, s, above⟩
    cases above with
    | nil => cases hparent
    | cons n around =>
      cases hparent
      obtain ⟨htree, hmem⟩ := mem_walk.mp hq
      exact mem_walk.mpr ⟨htree, (Scope.parent_of_mem hmem).1⟩

theorem rootPlace_surrounds (hp : p ∈ t.walk) : t.rootPlace.Surrounds p := by
  obtain ⟨htree, hmem⟩ := mem_walk.mp hp
  obtain ⟨below, hbelow⟩ := Scope.chain_ends hmem
  exact Place.surrounds_iff.mpr ⟨htree.symm, below, hbelow.symm⟩

section
variable (h : Reachable (fun _ _ => True) (.tree t))
include h

/-- Scopes are compared by their numbers, and in one tree that finds the scopes around a place. -/
theorem encloses_iff (hp : p ∈ t.walk) (hq : q ∈ t.walk) : p.encloses q = true ↔ p.Surrounds q := by
  have hsame : p.sameTree q = true := by
    simp [Place.sameTree, (mem_walk.mp hp).1, (mem_walk.mp hq).1]
  rw [Place.encloses, hsame, Bool.true_and, List.any_eq_true]
  simp only [decide_eq_true_eq]
  constructor
  · rintro ⟨s, hs, hid⟩
    obtain ⟨inner, outer, hsplit⟩ := List.append_of_mem hs
    -- the scope with the number, as a place
    have haround : Place.Surrounds ⟨q.tree, s, outer⟩ q := Place.surrounds_iff.mpr ⟨rfl, inner, hsplit.symm⟩
    have hmem := mem_walk_of_surrounds haround hq
    exact eq_of_id h hp hmem hid.symm ▸ haround
  · intro haround
    exact ⟨p.scope, (Place.surrounds_iff.mp haround).2.subset List.mem_cons_self, rfl⟩

/-- Going outward from one place, the first that is around the other is the innermost around both. -/
theorem firstEnclosing?_joins (hp : p ∈ t.walk) {s : Scope} {above : List Scope}
    (hq : (⟨t, s, above⟩ : Place) ∈ t.walk) :
    ∃ r, Place.firstEnclosing? t p (s :: above) = some r ∧ r.Joins p ⟨t, s, above⟩ := by
  induction above generalizing s with
  | nil =>
    have hroot : (⟨t, s, []⟩ : Place) = t.rootPlace := by
      cases Scope.eq_root_of_mem (mem_walk.mp hq).2
      rfl
    have haround := rootPlace_surrounds hp
    rw [← hroot] at haround
    refine ⟨_, if_pos ((encloses_iff h hq hp).mpr haround), fun c => ?_⟩
    exact ⟨fun hc => ⟨hc.trans haround, hc⟩, fun hc => hc.2⟩
  | cons n around ih =>
    rw [Place.firstEnclosing?]
    by_cases haround : (⟨t, s, n :: around⟩ : Place).Surrounds p
    · refine ⟨_, if_pos ((encloses_iff h hq hp).mpr haround), fun c => ?_⟩
      exact ⟨fun hc => ⟨hc.trans haround, hc⟩, fun hc => hc.2⟩
    · have hn : (⟨t, n, around⟩ : Place) ∈ t.walk := mem_walk_of_surrounds (.outward rfl .self) hq
      obtain ⟨r, hr, hjoins⟩ := ih hn
      refine ⟨r, by simp [encloses_iff h hq hp, haround, hr], fun c => (hjoins c).trans ?_⟩
      refine and_congr_right fun hc => ⟨fun hout => hout.trans (.outward rfl .self), fun hin => ?_⟩
      cases hin with
      | self => exact absurd hc haround
      | outward hparent hout =>
        cases hparent
        exact hout

theorem commonAncestor?_joins (hp : p ∈ t.walk) (hq : q ∈ t.walk) :
    ∃ r, p.commonAncestor? q = some r ∧ r.Joins p q := by
  obtain ⟨u, s, above⟩ := q
  obtain ⟨htree, -⟩ := mem_walk.mp hq
  simp only at htree
  subst htree
  have hsame : p.sameTree ⟨u, s, above⟩ = true := by simp [Place.sameTree, (mem_walk.mp hp).1]
  by_cases haround : p.Surrounds ⟨u, s, above⟩
  · refine ⟨p, by simp [Place.commonAncestor?, hsame, encloses_iff h hp hq, haround], fun c => ?_⟩
    exact ⟨fun hc => ⟨hc, hc.trans haround⟩, fun hc => hc.1⟩
  · obtain ⟨r, hr, hjoins⟩ := firstEnclosing?_joins h hp hq
    exact ⟨r, by simp [Place.commonAncestor?, hsame, encloses_iff h hp hq, haround, Place.chain, hr], hjoins⟩

theorem commonAncestor?_eq_some_iff (hp : p ∈ t.walk) (hq : q ∈ t.walk) :
    p.commonAncestor? q = some c ↔ c.Joins p q := by
  obtain ⟨r, hr, hjoins⟩ := commonAncestor?_joins h hp hq
  rw [hr, Option.some.injEq]
  exact ⟨fun heq => heq ▸ hjoins, hjoins.unique⟩

end

end NamespaceTree

/-! ### The innermost scope around two -/

namespace Place

/-- How two places of a tree lie to each other, and the place that the search finds around them. -/
structure Ancestry (t : NamespaceTree) (a b r : Place) : Prop where
  enclosing : a.encloses b = true ↔ a.Surrounds b
  mem : r ∈ t.walk
  found : a.commonAncestor? b = some r
  swapped : b.commonAncestor? a = some r
  around : ∀ c ∈ t.walk, c.Surrounds a ∧ c.Surrounds b ↔ c.Surrounds r
  deepest : ∀ c ∈ t.walk, c.Surrounds a → c.Surrounds b → c ≠ r → c.chain.length < r.chain.length

/-- Two scopes of one tree have an innermost scope around both, whichever is named first; with three the order
in which they are taken together does not matter, and a scope with itself gives itself. Scopes of different
trees have none. -/
theorem commonAncestor?_innermost {trees : NamespaceTree → Prop} (h : NamespaceTree.Apart trees) :
    (∀ t, trees t → ∀ a ∈ t.walk, ∀ b ∈ t.walk, ∃ r, Ancestry t a b r) ∧
    (∀ t, trees t → ∀ a ∈ t.walk, a.commonAncestor? a = some a ∧ ∀ b ∈ t.walk, ∀ c ∈ t.walk,
      ((a.commonAncestor? b).bind fun r => r.commonAncestor? c) =
        (b.commonAncestor? c).bind fun r => a.commonAncestor? r) ∧
    ∀ a b : Place, a.In trees → b.In trees → a.tree ≠ b.tree → a.commonAncestor? b = none := by
  refine ⟨fun t ht a ha b hb => ?_, fun t ht a ha => ⟨?_, fun b hb c hc => ?_⟩, fun a b ha hb htrees => ?_⟩
  · have htree := h.reachable t ht
    obtain ⟨r, hfound, hjoins⟩ := NamespaceTree.commonAncestor?_joins htree ha hb
    refine ⟨r, {
      enclosing := NamespaceTree.encloses_iff htree ha hb
      mem := NamespaceTree.mem_walk_of_surrounds hjoins.surrounds.1 ha
      found := hfound
      swapped := (NamespaceTree.commonAncestor?_eq_some_iff htree hb ha).mpr hjoins.symm
      around := fun c _ => (hjoins c).symm
      deepest := fun c _ hca hcb hne => ?_ }⟩
    have hc : c.Surrounds r := (hjoins c).mpr ⟨hca, hcb⟩
    exact Nat.lt_of_not_le fun hle => hne (hc.eq_of_length hle)
  · rw [NamespaceTree.commonAncestor?_eq_some_iff (h.reachable t ht) ha ha]
    exact fun c => (and_self_iff).symm
  · have htree := h.reachable t ht
    obtain ⟨r, hr, hab⟩ := NamespaceTree.commonAncestor?_joins htree ha hb
    obtain ⟨u, hu, hbc⟩ := NamespaceTree.commonAncestor?_joins htree hb hc
    have hrmem := NamespaceTree.mem_walk_of_surrounds hab.surrounds.1 ha
    have humem := NamespaceTree.mem_walk_of_surrounds hbc.surrounds.1 hb
    obtain ⟨x, hx, hrc⟩ := NamespaceTree.commonAncestor?_joins htree hrmem hc
    have hau : x.Joins a u := by
      intro d
      rw [hrc d, hab d, hbc d, and_assoc]
    rw [hr, hu, Option.bind_some, Option.bind_some, hx]
    exact ((NamespaceTree.commonAncestor?_eq_some_iff htree ha humem).mpr hau).symm
  · have hserial : a.tree.serial ≠ b.tree.serial := fun heq => htrees (h.serial _ _ ha.tree hb.tree heq)
    simp [commonAncestor?, sameTree, hserial]

/-- The scopes `b` of the one tree lie below its root, one of them at a greater depth; the scope `b` of the other
tree has nothing around it that is around them. -/
theorem commonAncestor?_innermost_forked_single :
    (∃ r, Ancestry forked forkedB forkedInnerB r) ∧ forkedB.commonAncestor? forkedB = some forkedB ∧
      forkedB.commonAncestor? singleB = none := by
  have hforked : forkedB ∈ forked.walk ∧ forkedInnerB ∈ forked.walk :=
    ⟨.tail _ (.tail _ (.tail _ (.head _))), .tail _ (.tail _ (.head _))⟩
  have hsingle : singleB ∈ single.walk := .tail _ (.head _)
  have htrees : forked ∈ [forked, single] ∧ single ∈ [forked, single] := ⟨.head _, .tail _ (.head _)⟩
  obtain ⟨hpairs, hlaws, hapart⟩ := commonAncestor?_innermost apart_forked_single
  have hne : forkedB.tree ≠ singleB.tree := fun heq => absurd (congrArg NamespaceTree.serial heq) (by decide)
  exact ⟨hpairs forked htrees.1 forkedB hforked.1 forkedInnerB hforked.2,
    (hlaws forked htrees.1 forkedB hforked.1).1,
    hapart forkedB singleB ⟨htrees.1, hforked.1⟩ ⟨htrees.2, hsingle⟩ hne⟩

end Place
end SciArchive
