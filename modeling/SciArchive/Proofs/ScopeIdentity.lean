import SciArchive.Proofs.DistinctNames
import SciArchive.Proofs.Rebuilding

/-! What tells the scopes of built trees apart. In one tree the number does, and so do the path and the names
from the root down. Scopes of any two trees are equal where these names are, and then they have one digest, no
matter which digests were computed before and kept. -/
namespace SciArchive

/-! ### Numbers -/

namespace ScopeDraft

variable {context : DatasetContext}

theorem map_id_chainsAll {frames : List Frame} (above : List Scope) {ds : List ScopeDraft}
    (hnumbers : ∀ d ∈ ds, ∀ {id s}, d.realize frames context id = .ok s →
      (s.chains above).map (fun c => c.1.id) = List.range' id d.size) {id : Nat} {ss : List Scope}
    (h : realizeAll frames context id ds = .ok ss) :
    (ss.flatMap (Scope.chains above)).map (fun c => c.1.id) = List.range' id (sizeAll ds) := by
  induction ds generalizing id ss with
  | nil =>
    cases h
    rfl
  | cons d ds ih =>
    obtain ⟨hfirst, hothers⟩ := List.forall_mem_cons.mp hnumbers
    obtain ⟨s, rest, rfl, hs, hrest⟩ := realizeAll_cons_ok.mp h
    rw [List.flatMap_cons, List.map_append, hfirst hs, ih hothers hrest, sizeAll, List.range'_append_1]

/-- Built scopes are numbered one after the other, each before those below it. -/
theorem map_id_chains {frames : List Frame} {id : Nat} {d : ScopeDraft} {s : Scope}
    (h : d.realize frames context id = .ok s) (above : List Scope) :
    (s.chains above).map (fun c => c.1.id) = List.range' id d.size := by
  induction d using inductionOnScopes generalizing frames id s above with
  | draft d ih =>
    have hreal := realize_eq_ok.mp h
    have hbelow := map_id_chainsAll (s :: above) (fun c hc _ _ hchild => ih c hc hchild (s :: above)) hreal.scopes
    rw [Scope.chains_eq, List.map_cons, hbelow, hreal.id, size_eq, Nat.add_comm 1, List.range'_succ]

end ScopeDraft

/-! ### Chains -/

namespace Scope

/-- A scope is the one the walk begins with or one of those right below the next in its chain. -/
theorem mem_chains_cases {s n : Scope} {above around : List Scope} (h : (n, around) ∈ s.chains above) :
    (n = s ∧ around = above) ∨
      ∃ p r, around = p :: r ∧ (p, r) ∈ s.chains above ∧ n ∈ p.scopes := by
  induction s using inductionOnScopes generalizing above with
  | scope s ih =>
    rw [chains_eq] at h ⊢
    rcases List.mem_cons.mp h with hself | hbelow
    · exact Or.inl (Prod.mk.inj hself)
    · right
      rcases List.mem_flatMap.mp hbelow with ⟨c, hc, hn⟩
      rcases ih c hc hn with ⟨rfl, rfl⟩ | ⟨p, r, rfl, hp, hmem⟩
      · exact ⟨s, above, rfl, List.mem_cons_self, hc⟩
      · exact ⟨p, r, rfl, List.mem_cons_of_mem _ (List.mem_flatMap.mpr ⟨c, hc, hp⟩), hmem⟩

variable {root s u p : Scope} {r around around' : List Scope}

theorem eq_root_of_mem (h : (s, []) ∈ root.chains []) : s = root := by
  rcases mem_chains_cases h with ⟨rfl, -⟩ | ⟨p, r, hnil, -, -⟩
  · rfl
  · cases hnil

theorem parent_of_mem (h : (s, p :: r) ∈ root.chains []) : (p, r) ∈ root.chains [] ∧ s ∈ p.scopes := by
  rcases mem_chains_cases h with ⟨-, hnil⟩ | ⟨p', r', hcons, hp, hmem⟩
  · cases hnil
  · cases hcons
    exact ⟨hp, hmem⟩

theorem chain_ends (h : (s, around) ∈ root.chains []) : ∃ below, s :: around = below ++ [root] := by
  induction around generalizing s with
  | nil => exact ⟨[], by rw [eq_root_of_mem h, List.nil_append]⟩
  | cons p r ih =>
    rcases ih (parent_of_mem h).1 with ⟨below, hbelow⟩
    exact ⟨s :: below, by rw [hbelow, List.cons_append]⟩

/-- Where no scope has two of one name, the names up to the root tell a scope. -/
theorem eq_of_names (hdistinct : ∀ c ∈ root.chains [], (c.1.scopes.map name).Nodup)
    (hs : (s, around) ∈ root.chains []) (hu : (u, around') ∈ root.chains [])
    (hnames : (s :: around).map name = (u :: around').map name) : s = u ∧ around = around' := by
  -- from the root down: below one scope a name is that of one child
  induction around generalizing s u around' with
  | nil =>
    cases around' with
    | nil => exact ⟨(eq_root_of_mem hs).trans (eq_root_of_mem hu).symm, rfl⟩
    | cons p r => simp at hnames
  | cons p r ih =>
    cases around' with
    | nil => simp at hnames
    | cons p' r' =>
      have hp := parent_of_mem hs
      have hp' := parent_of_mem hu
      have hboth := List.cons.inj hnames
      rcases ih hp.1 hp'.1 hboth.2 with ⟨rfl, rfl⟩
      exact ⟨List.inj_on_of_nodup_map (hdistinct _ hp.1) hp.2 hp'.2 hboth.1, rfl⟩

end Scope

/-! ### Places of one tree -/

namespace NamespaceTree

variable {t : NamespaceTree} {p q : Place}

theorem mem_walk : p ∈ t.walk ↔ p.tree = t ∧ (p.scope, p.above) ∈ t.root.chains [] := by
  constructor
  · intro h
    rcases List.mem_map.mp h with ⟨c, hc, rfl⟩
    exact ⟨rfl, hc⟩
  · rintro ⟨rfl, h⟩
    exact List.mem_map.mpr ⟨_, h, rfl⟩

theorem nodup_ids (h : Reachable (fun _ _ => True) (.tree t)) : (t.walk.map fun p => p.scope.id).Nodup := by
  cases h with
  | build hdraft hbuilt =>
    obtain ⟨-, -, -, hroot⟩ := ScopeDraft.build_eq_ok.mp hbuilt
    have hnumbers := ScopeDraft.map_id_chains hroot []
    rw [walk, List.map_map]
    exact hnumbers ▸ List.nodup_range'

theorem distinct_scopes (h : Reachable (fun _ _ => True) (.tree t)) :
    ∀ c ∈ t.root.chains [], (c.1.scopes.map Scope.name).Nodup := by
  intro c hc
  have hall : t.All Holdings.Distinct List.Nodup := h.all kept_distinct
  exact (hall ⟨t, c.1, c.2⟩ (mem_walk.mpr ⟨rfl, hc⟩)).1.scopes

/-- A number is that of one place. -/
theorem eq_of_id (h : Reachable (fun _ _ => True) (.tree t)) (hp : p ∈ t.walk) (hq : q ∈ t.walk)
    (hid : p.scope.id = q.scope.id) : p = q :=
  List.inj_on_of_nodup_map (nodup_ids h) hp hq hid

end NamespaceTree

namespace Place

/-- Names from the root down to here, that of the root included. -/
def names (p : Place) : List String := (p.chain.map Scope.name).reverse

theorem names_eq {t : NamespaceTree} {p : Place} (h : p ∈ t.walk) : p.names = t.root.name :: p.path := by
  rcases Scope.chain_ends (NamespaceTree.mem_walk.mp h).2 with ⟨below, hbelow⟩
  have hchain : p.chain = below ++ [t.root] := hbelow
  have hnames : (below.map Scope.frame).map Frame.name = below.map Scope.name := by
    rw [List.map_map]
    rfl
  rw [names, path, Frame.path, frames, hchain, List.map_append, List.map_append, List.map_singleton,
    List.map_singleton, List.dropLast_concat, hnames, List.reverse_append]
  rfl

theorem names_inj {p q : Place} : p.names = q.names ↔ p.chain.map Scope.name = q.chain.map Scope.name :=
  List.reverse_inj

theorem sameNames_iff (ss us : List Scope) :
    sameNames ss us = true ↔ ss.map Scope.name = us.map Scope.name := by
  induction ss generalizing us with
  | nil => cases us <;> simp [sameNames]
  | cons s ss ih => cases us <;> simp [sameNames, ih]

theorem eq_of_names {t : NamespaceTree} (h : Reachable (fun _ _ => True) (.tree t)) {p q : Place}
    (hp : p ∈ t.walk) (hq : q ∈ t.walk) (hnames : p.names = q.names) : p = q := by
  have hp' := NamespaceTree.mem_walk.mp hp
  have hq' := NamespaceTree.mem_walk.mp hq
  have hsame := Scope.eq_of_names (NamespaceTree.distinct_scopes h) hp'.2 hq'.2 (names_inj.mp hnames)
  have htree := hp'.1.trans hq'.1.symm
  cases p
  cases q
  cases htree
  cases hsame.1
  cases hsame.2
  rfl

end Place

/-! ### Places of several trees -/

/-- Trees that came of any runs, told apart by their serials. -/
structure NamespaceTree.Apart (trees : NamespaceTree → Prop) : Prop where
  reachable : ∀ t, trees t → Reachable (fun _ _ => True) (.tree t)
  serial : ∀ t u, trees t → trees u → t.serial = u.serial → t = u

namespace Place

/-- A place of one of some trees. -/
structure In (trees : NamespaceTree → Prop) (p : Place) : Prop where
  tree : trees p.tree
  mem : p ∈ p.tree.walk

/-- The comparison of two chains step by step, which ends at the first scope that is one and the same. -/
def sameUp (oneTree : Bool) : List Scope → List Scope → Bool
  | [], [] => true
  | s :: ss, u :: us => (oneTree && s.id == u.id) || (s.name == u.name && sameUp oneTree ss us)
  | _, _ => false

/-- So it tells whether the names are equal, if scopes that are one and the same have one chain. -/
theorem sameUp_cons {oneTree : Bool} {s u : Scope} {ss us : List Scope}
    (hshared : (oneTree && s.id == u.id) = true → (s :: ss).map Scope.name = (u :: us).map Scope.name)
    (hrest : sameUp oneTree ss us = true ↔ ss.map Scope.name = us.map Scope.name) :
    sameUp oneTree (s :: ss) (u :: us) = true ↔ (s :: ss).map Scope.name = (u :: us).map Scope.name := by
  have hnames : (s :: ss).map Scope.name = (u :: us).map Scope.name ↔
      (s.name == u.name && sameUp oneTree ss us) = true := by
    simp [hrest]
  rw [sameUp, Bool.or_eq_true, ← hnames]
  exact or_iff_right_of_imp hshared

theorem In.parent {trees : NamespaceTree → Prop} {t : NamespaceTree} {s r : Scope} {above : List Scope}
    (hp : In trees ⟨t, s, r :: above⟩) : In trees ⟨t, r, above⟩ := by
  have hmem := (NamespaceTree.mem_walk.mp hp.mem).2
  exact ⟨hp.tree, NamespaceTree.mem_walk.mpr ⟨rfl, (Scope.parent_of_mem hmem).1⟩⟩

section
variable {trees : NamespaceTree → Prop} (h : NamespaceTree.Apart trees) {p q : Place}
include h

theorem eq_of_number (hp : p.In trees) (hq : q.In trees) (hserial : p.tree.serial = q.tree.serial)
    (hid : p.scope.id = q.scope.id) : p = q := by
  have htree := h.serial _ _ hp.tree hq.tree hserial
  have hmem := hq.mem
  rw [← htree] at hmem
  exact NamespaceTree.eq_of_id (h.reachable _ hp.tree) hp.mem hmem hid

/-- Places compare equal exactly where the names from the root are. -/
theorem same_iff_names (hp : p.In trees) (hq : q.In trees) : p.same q = true ↔ p.names = q.names := by
  rw [names_inj, ← sameNames_iff, same, Bool.or_eq_true, or_iff_right_of_imp]
  intro hnumber
  simp only [sameTree, Bool.and_eq_true, beq_iff_eq] at hnumber
  rw [eq_of_number h hp hq hnumber.1 hnumber.2, sameNames_iff]

theorem sameUp_iff_names (hp : p.In trees) (hq : q.In trees) :
    sameUp (p.sameTree q) p.chain q.chain = true ↔ p.names = q.names := by
  rw [names_inj]
  rcases p with ⟨t, s, above⟩
  rcases q with ⟨u, s', above'⟩
  have hshared : ∀ {s s' above above'}, In trees ⟨t, s, above⟩ → In trees ⟨u, s', above'⟩ →
      (t.serial == u.serial && s.id == s'.id) = true →
      (s :: above).map Scope.name = (s' :: above').map Scope.name := by
    intro s s' above above' hp hq hnumber
    simp only [Bool.and_eq_true, beq_iff_eq] at hnumber
    cases eq_of_number h hp hq hnumber.1 hnumber.2
    rfl
  induction above generalizing s s' above' with
  | nil => exact sameUp_cons (hshared hp hq) (by cases above' <;> simp [sameUp])
  | cons r above ih =>
    cases above' with
    | nil => exact sameUp_cons (hshared hp hq) (by simp [sameUp])
    | cons r' above' => exact sameUp_cons (hshared hp hq) (ih r hp.parent r' above' hq.parent)

end

/-! ### Digests -/

/-- The digest of a chain by its names alone, the innermost first. -/
def digestOf (d : Digest) : List String → Option UInt64
  | [] => none
  | name :: around => some (d name (digestOf d around))

/-- The digests kept behind the digests of some places, the latest of which is the first. -/
def digested (d : Digest) : List Place → DigestCache
  | [] => []
  | p :: earlier => (p.digest d (digested d earlier)).2

/-- What is kept for a place of the trees is the digest of its names. -/
def Sound (d : Digest) (trees : NamespaceTree → Prop) (cache : DigestCache) : Prop :=
  ∀ p : Place, p.In trees → ∀ kept, cache.lookup (p.tree.serial, p.scope.id) = some kept →
    some kept = digestOf d (p.chain.map Scope.name)

section
variable {d : Digest} {trees : NamespaceTree → Prop} (h : NamespaceTree.Apart trees) {cache : DigestCache}
include h

theorem Sound.keep (hcache : Sound d trees cache) {p : Place} (hp : p.In trees) {new : UInt64}
    (hnew : some new = digestOf d (p.chain.map Scope.name)) :
    Sound d trees (((p.tree.serial, p.scope.id), new) :: cache) := by
  intro q hq kept hkept
  rw [List.lookup_cons] at hkept
  by_cases hkey : (q.tree.serial, q.scope.id) = (p.tree.serial, p.scope.id)
  · have hsame := eq_of_number h hq hp (Prod.mk.inj hkey).1 (Prod.mk.inj hkey).2
    simp only [hkey, beq_self_eq_true, Option.some.injEq] at hkept
    rw [← hkept, hsame, hnew]
  · simp only [beq_eq_false_iff_ne.mpr hkey] at hkept
    exact hcache q hq kept hkept

theorem digestChain_cons (hcache : Sound d trees cache) {t : NamespaceTree} {s : Scope} {above : List Scope}
    (hp : In trees ⟨t, s, above⟩)
    (haround : (digestChain d t.serial cache above).1 = digestOf d (above.map Scope.name) ∧
      Sound d trees (digestChain d t.serial cache above).2) :
    (digestChain d t.serial cache (s :: above)).1 = digestOf d ((s :: above).map Scope.name) ∧
      Sound d trees (digestChain d t.serial cache (s :: above)).2 := by
  rw [digestChain]
  split
  · rename_i kept hkept
    exact ⟨hcache ⟨t, s, above⟩ hp kept hkept, hcache⟩
  · have hnew : some (d s.name (digestChain d t.serial cache above).1) =
        digestOf d ((s :: above).map Scope.name) := by
      rw [haround.1]
      rfl
    exact ⟨hnew, haround.2.keep h hp hnew⟩

/-- A digest is that of the names, and it is kept as such. -/
theorem digest_spec (hcache : Sound d trees cache) {p : Place} (hp : p.In trees) :
    (p.digest d cache).1 = digestOf d (p.chain.map Scope.name) ∧ Sound d trees (p.digest d cache).2 := by
  rcases p with ⟨t, s, above⟩
  -- from the root down, each scope being around the next
  induction above generalizing s with
  | nil => exact digestChain_cons h hcache hp ⟨rfl, hcache⟩
  | cons r above ih => exact digestChain_cons h hcache hp (ih r hp.parent)

theorem sound_digested {places : List Place} (hplaces : ∀ p ∈ places, p.In trees) :
    Sound d trees (digested d places) := by
  induction places with
  | nil =>
    intro p _ kept hkept
    cases hkept
  | cons p earlier ih =>
    rw [List.forall_mem_cons] at hplaces
    exact (digest_spec h (ih hplaces.2) hplaces.1).2

end

end Place

/-! ### Identity -/

/-- In one tree no path is there twice, and places compare equal exactly where their numbers are equal, and
exactly where their paths are. Places of any trees compare equal exactly where their names from the root are
equal, and that is an equivalence; and equal places have one digest, whatever digests were computed before. -/
theorem Place.identified {trees : NamespaceTree → Prop} (h : NamespaceTree.Apart trees) :
    (∀ t, trees t → (t.walk.map path).Nodup ∧ ∀ p ∈ t.walk, ∀ q ∈ t.walk,
      (p.same q = true ↔ p.scope.id = q.scope.id) ∧ (p.same q = true ↔ p.path = q.path)) ∧
    (∀ p q : Place, p.In trees → q.In trees →
      (p.same q = true ↔ p.names = q.names) ∧ p.same q = sameUp (p.sameTree q) p.chain q.chain) ∧
    Equivalence (fun p q : { p : Place // p.In trees } => p.1.same q.1 = true) ∧
    ∀ (d : Digest) (before before' : List Place), (∀ r ∈ before, r.In trees) → (∀ r ∈ before', r.In trees) →
      ∀ p q : Place, p.In trees → q.In trees → p.same q = true →
        (p.digest d (digested d before)).1.isSome = true ∧
          (p.digest d (digested d before)).1 = (q.digest d (digested d before')).1 := by
  have hin : ∀ t, trees t → ∀ p ∈ t.walk, p.In trees := by
    intro t ht p hp
    have htree := (NamespaceTree.mem_walk.mp hp).1
    exact ⟨htree ▸ ht, htree ▸ hp⟩
  have hid : ∀ t, trees t → ∀ p ∈ t.walk, ∀ q ∈ t.walk, (p.same q = true ↔ p = q) := by
    intro t ht p hp q hq
    rw [same_iff_names h (hin t ht p hp) (hin t ht q hq)]
    exact ⟨eq_of_names (h.reachable t ht) hp hq, fun heq => heq ▸ rfl⟩
  have hpath : ∀ t, trees t → ∀ p ∈ t.walk, ∀ q ∈ t.walk, (p.path = q.path ↔ p = q) := by
    intro t ht p hp q hq
    rw [← hid t ht p hp q hq, same_iff_names h (hin t ht p hp) (hin t ht q hq), names_eq hp, names_eq hq,
      List.cons.injEq, eq_self_iff_true, true_and]
  refine ⟨fun t ht => ⟨?_, fun p hp q hq => ⟨?_, ?_⟩⟩, fun p q hp hq => ⟨same_iff_names h hp hq, ?_⟩, ?_, ?_⟩
  · have hnodup : t.walk.Nodup := List.Nodup.of_map _ (NamespaceTree.nodup_ids (h.reachable t ht))
    exact hnodup.map_on fun p hp q hq heq => (hpath t ht p hp q hq).mp heq
  · rw [hid t ht p hp q hq]
    exact ⟨fun heq => heq ▸ rfl, NamespaceTree.eq_of_id (h.reachable t ht) hp hq⟩
  · rw [hid t ht p hp q hq, hpath t ht p hp q hq]
  · rw [Bool.eq_iff_iff, same_iff_names h hp hq, sameUp_iff_names h hp hq]
  · have hnames : ∀ p q : { p : Place // p.In trees }, p.1.same q.1 = true ↔ p.1.names = q.1.names :=
      fun p q => same_iff_names h p.2 q.2
    exact {
      refl := fun p => (hnames p p).mpr rfl
      symm := fun {p q} hpq => (hnames q p).mpr ((hnames p q).mp hpq).symm
      trans := fun {p q r} hpq hqr => (hnames p r).mpr (((hnames p q).mp hpq).trans ((hnames q r).mp hqr)) }
  · intro d before before' hbefore hbefore' p q hp hq hsame
    have hp' := (digest_spec h (sound_digested (d := d) h hbefore) hp).1
    have hq' := (digest_spec h (sound_digested (d := d) h hbefore') hq).1
    have hnames := names_inj.mp ((same_iff_names h hp hq).mp hsame)
    exact ⟨by rw [hp']; rfl, by rw [hp', hq', hnames]⟩

/-- A scope that holds nothing but scopes. -/
def bare (id : Nat) (name : String) (scopes : List Scope) : Scope :=
  ⟨id, name, (AttributeSet.named name).freeze, [], [], [], scopes⟩

/-- A scope `b` below the root, and another in the scope `a` before it. -/
def forked : NamespaceTree := ⟨0, {}, bare 0 "" [bare 1 "a" [bare 2 "b" []], bare 3 "b" []]⟩

def single : NamespaceTree := ⟨1, {}, bare 0 "" [bare 1 "b" []]⟩

theorem reachable_addScopes (name : String) {scopes : List ScopeDraft}
    (h : ∀ s ∈ scopes, Reachable (fun _ _ => True) (.scope s)) :
    Reachable (fun _ _ => True)
      (.scope (ScopeDraft.Operation.run (scopes.map .addScope) (.new name)).2) := by
  refine .run (.newScope name) ?_ ?_ fun _ _ _ => trivial
  · rintro op hop s hs
    rcases List.mem_map.mp hop with ⟨s', hs', rfl⟩
    rw [List.mem_singleton.mp hs]
    exact h s' hs'
  · rintro op hop v hv
    rcases List.mem_map.mp hop with ⟨s', -, rfl⟩
    cases hv

theorem apart_forked_single : NamespaceTree.Apart fun t => t ∈ [forked, single] where
  reachable := by
    have hb : ∀ s ∈ [ScopeDraft.new "b"], Reachable (fun _ _ => True) (.scope s) :=
      List.forall_mem_singleton.mpr (.newScope "b")
    have ha := reachable_addScopes "a" hb
    have hforked : Reachable (fun _ _ => True) (.tree forked) :=
      .build (reachable_addScopes "" (List.forall_mem_cons.mpr ⟨ha, hb⟩)) (show (ScopeDraft.build 0 _).1 = _ from rfl)
    have hsingle : Reachable (fun _ _ => True) (.tree single) :=
      .build (reachable_addScopes "" hb) (show (ScopeDraft.build 1 _).1 = _ from rfl)
    simpa using ⟨hforked, hsingle⟩
  serial := by
    intro t u ht hu hserial
    simp only [List.mem_cons, List.not_mem_nil, or_false] at ht hu
    rcases ht with rfl | rfl <;> rcases hu with rfl | rfl <;> first | rfl | cases hserial

def forkedB : Place := ⟨forked, bare 3 "b" [], [forked.root]⟩

def forkedInnerB : Place := ⟨forked, bare 2 "b" [], [bare 1 "a" [bare 2 "b" []], forked.root]⟩

def singleB : Place := ⟨single, bare 1 "b" [], [single.root]⟩

/-- The scopes `b` right below the two roots are equal though their numbers differ, and have one digest, also
behind that of the other scope `b`. -/
theorem Place.identified_forked_single :
    (forked.walk.map path).Nodup ∧ ¬ forkedB.same forkedInnerB = true ∧ forkedB.same singleB = true ∧
    (forkedB.digest standardDigest (digested standardDigest [forkedInnerB])).1 =
      (singleB.digest standardDigest (digested standardDigest [])).1 := by
  have hforked : forkedB ∈ forked.walk ∧ forkedInnerB ∈ forked.walk :=
    ⟨.tail _ (.tail _ (.tail _ (.head _))), .tail _ (.tail _ (.head _))⟩
  have hsingle : singleB ∈ single.walk := .tail _ (.head _)
  have htrees : forked ∈ [forked, single] ∧ single ∈ [forked, single] := ⟨.head _, .tail _ (.head _)⟩
  have hin : forkedB.In (fun t => t ∈ [forked, single]) := ⟨htrees.1, hforked.1⟩
  have hin' : forkedInnerB.In (fun t => t ∈ [forked, single]) := ⟨htrees.1, hforked.2⟩
  have hin'' : singleB.In (fun t => t ∈ [forked, single]) := ⟨htrees.2, hsingle⟩
  obtain ⟨hone, hnames, -, hdigests⟩ := identified apart_forked_single
  have hpaths := (hone forked htrees.1).2 forkedB hforked.1 forkedInnerB hforked.2
  have hsame := (hnames forkedB singleB hin hin'').1.mpr rfl
  refine ⟨(hone forked htrees.1).1, ?_, hsame, ?_⟩
  · rw [hpaths.2]
    decide
  · exact (hdigests standardDigest [forkedInnerB] [] (List.forall_mem_singleton.mpr hin')
      (fun _ hr => by cases hr) forkedB singleB hin hin'' hsame).2

end SciArchive
