import Mathlib.Data.List.TakeWhile
import SciArchive.Proofs.Pieces
import SciArchive.Proofs.ScopeNumbers

/-! Full names. A scope is found by its full name, and a variable by its scope's and its own, exactly when these
can be taken apart again: no scope on the way has an empty name or a slash in it. -/
namespace SciArchive

/-! ### Paths -/

namespace Place

variable {p c : Place}

/-- The names up to the root are not empty and hold no slash. -/
def Plain (p : Place) : Prop := ∀ name ∈ p.path, name ≠ "" ∧ '/' ∉ name.toList

instance (p : Place) : Decidable p.Plain := inferInstanceAs (Decidable (∀ name ∈ p.path, _))

theorem plain_iff_whole : p.Plain ↔ ∀ word ∈ p.path.map String.toList, Text.Whole (· == '/') word := by
  rw [List.forall_mem_map]
  refine forall₂_congr fun name _ => and_congr (not_congr String.toList_eq_nil_iff.symm) ?_
  simp only [beq_eq_false_iff_ne]
  exact ⟨fun hslash c hc heq => hslash (heq ▸ hc), fun hplain hslash => hplain '/' hslash rfl⟩

theorem path_of_mem_children (h : c ∈ p.children) : c.path = p.path ++ [c.scope.name] := by
  obtain ⟨s, _, rfl⟩ := List.mem_map.mp h
  simp [path, Frame.path, frames, enter, chain, Scope.frame]

/-- What is between the slashes of a full name. -/
theorem pieces_fullName (p : Place) :
    Text.pieces (· == '/') p.fullName.toList = (p.path.map String.toList).flatMap (Text.pieces (· == '/')) := by
  have hname : p.fullName.toList = [] ++ '/' :: ['/'].intercalate (p.path.map String.toList) := by
    rw [fullName, Frame.fullName, String.toList_append, String.toList_intercalate]
    rfl
  rw [hname, Text.pieces_append_cons rfl, Text.pieces_intercalate rfl]
  rfl

end Place

namespace NamespaceTree

variable {t : NamespaceTree} {p q c : Place}

/-- Down to the child of a name. -/
def step (p : Place) (word : List Char) : Option Place := p.child? (String.ofList word)

theorem placeAt?_eq (path : String) :
    t.placeAt? path = (Text.pieces (· == '/') path.toList).foldlM step t.rootPlace := by
  rw [placeAt?, List.splitOn_eq_splitOnP]
  rfl

/-- The name behind the last slash is looked up in the scope that stands before it. -/
theorem variableAt?_slash (front : List Char) {name : List Char} (hname : Text.Whole (· == '/') name) :
    t.variableAt? (String.ofList (front ++ '/' :: name)) =
      (t.placeAt? (String.ofList (front ++ ['/']))).bind fun p => p.scope.var? (String.ofList name) := by
  obtain ⟨hne, hplain⟩ := hname
  have hreverse : (front ++ '/' :: name).reverse = name.reverse ++ '/' :: front.reverse := by simp
  have htrimmed : (front ++ '/' :: name).reverse.dropWhile (· == '/') = name.reverse ++ '/' :: front.reverse := by
    obtain ⟨c, rest, hlast⟩ := List.exists_cons_of_ne_nil (List.reverse_ne_nil_iff.mpr hne)
    have hc : (c == '/') = false := hplain c (List.mem_reverse.mp (hlast ▸ List.mem_cons_self))
    rw [hreverse, hlast, List.cons_append, List.dropWhile_cons_of_neg (by simp [hc])]
  have hkeep : ∀ c ∈ name.reverse, (c != '/') = true := by
    intro c hc
    simpa using hplain c (List.mem_reverse.mp hc)
  rw [variableAt?, String.toList_ofList, htrimmed, List.takeWhile_append_of_pos hkeep,
    List.dropWhile_append_of_pos hkeep]
  simp

theorem step_sound {word : List Char} (hp : p ∈ t.walk) (h : step p word = some q) :
    q ∈ t.walk ∧ q.path.map String.toList = p.path.map String.toList ++ [word] := by
  obtain ⟨s, hs, rfl⟩ := Option.map_eq_some_iff.mp h
  have hmem : p.enter s ∈ p.children := List.mem_map_of_mem (List.mem_of_find?_eq_some hs)
  have hname : s.name = String.ofList word := by simpa using List.find?_some hs
  refine ⟨mem_walk_iff_holds.mpr (.child (mem_walk_iff_holds.mp hp) hmem), ?_⟩
  rw [Place.path_of_mem_children hmem, List.map_append, List.map_singleton]
  simp [Place.enter, hname]

theorem steps_sound {words : List (List Char)} (hp : p ∈ t.walk) (h : words.foldlM step p = some q) :
    q ∈ t.walk ∧ q.path.map String.toList = p.path.map String.toList ++ words := by
  induction words generalizing p with
  | nil =>
    cases h
    exact ⟨hp, (List.append_nil _).symm⟩
  | cons word words ih =>
    rw [List.foldlM_cons] at h
    obtain ⟨next, hnext, hrest⟩ := Option.bind_eq_some_iff.mp h
    obtain ⟨hmem, hpath⟩ := step_sound hp hnext
    obtain ⟨hq, hwords⟩ := ih hmem hrest
    refine ⟨hq, ?_⟩
    rw [hwords, hpath, List.append_assoc, List.singleton_append]

section
variable (h : Reachable (fun _ _ => True) (.tree t))
include h

theorem step_complete (hp : p ∈ t.walk) (hc : c ∈ p.children) : step p c.scope.name.toList = some c := by
  obtain ⟨s, hs, rfl⟩ := List.mem_map.mp hc
  have hfound : p.scope.scope? s.name = some s := find?_of_nodup (distinct_scopes h _ (mem_walk.mp hp).2) hs
  rw [step, String.ofList_toList, Place.child?]
  exact congrArg (Option.map p.enter) hfound

theorem steps_complete (hq : q ∈ t.walk) : (q.path.map String.toList).foldlM step t.rootPlace = some q := by
  replace hq := mem_walk_iff_holds.mp hq
  induction hq with
  | root => rfl
  | @child p c hplace hmem ih =>
    have hstep := step_complete h (mem_walk_iff_holds.mpr hplace) hmem
    rw [Place.path_of_mem_children hmem, List.map_append, List.foldlM_append, ih, List.map_singleton]
    simp [hstep]

/-- What is found at a path is the place whose own path is spelled between the slashes. -/
theorem placeAt?_eq_some {path : String} :
    t.placeAt? path = some q ↔ q ∈ t.walk ∧ q.path.map String.toList = Text.pieces (· == '/') path.toList := by
  rw [placeAt?_eq]
  constructor
  · intro hfound
    exact steps_sound (mem_walk_iff_holds.mpr .root) hfound
  · rintro ⟨hq, hpath⟩
    rw [← hpath]
    exact steps_complete h hq

theorem placeAt?_fullName (hp : p ∈ t.walk) : t.placeAt? p.fullName = some p ↔ p.Plain := by
  rw [placeAt?_eq_some h, Place.pieces_fullName, Place.plain_iff_whole, ← Text.flatMap_pieces_eq_iff]
  exact ⟨fun hfound => hfound.2.symm, fun hplain => ⟨hp, hplain.symm⟩⟩

theorem plain_of_placeAt? {path : String} (hfound : t.placeAt? path = some q) : q.Plain := by
  rw [Place.plain_iff_whole, ((placeAt?_eq_some h).mp hfound).2]
  exact fun _ => Text.whole_of_mem_pieces

/-! ### Variables -/

variable {v : Variable}

/-- A variable that is found is in the scope that the front of the path spells, and its name is the rest. -/
theorem variableAt?_sound {path : String} (hfound : t.variableAt? path = some v) :
    ∃ q ∈ t.walk, v ∈ q.scope.vars ∧ q.Plain ∧ '/' ∉ v.name.toList ∧ (v.name = "" → q.path = []) := by
  rw [variableAt?] at hfound
  obtain ⟨q, hq, hvar⟩ := Option.bind_eq_some_iff.mp hfound
  obtain ⟨hmem, hpath⟩ := (placeAt?_eq_some h).mp hq
  set trimmed := path.toList.reverse.dropWhile (· == '/') with htrimmed
  have hname : v.name.toList = (trimmed.takeWhile (· != '/')).reverse := by
    have hnamed : v.name = String.ofList (trimmed.takeWhile (· != '/')).reverse := by
      simpa using List.find?_some hvar
    rw [hnamed, String.toList_ofList]
  refine ⟨q, hmem, List.mem_of_find?_eq_some hvar, plain_of_placeAt? h hq, ?_, fun hempty => ?_⟩
  · rw [hname, List.mem_reverse]
    intro hslash
    simpa using List.mem_takeWhile_imp hslash
  · -- what is trimmed does not begin with a slash
    have hnil : trimmed = [] := by
      cases hfirst : trimmed with
      | nil => rfl
      | cons c rest =>
        have hc := List.head?_dropWhile_not (· == '/') path.toList.reverse
        rw [← htrimmed, hfirst] at hc
        rw [hempty, hfirst, List.takeWhile_cons_of_pos (by simpa using hc)] at hname
        simp at hname
    rw [hnil] at hpath
    exact List.map_eq_nil_iff.mp hpath

theorem scope_of_reachable (hp : p ∈ t.walk) (hv : v ∈ p.scope.vars) : v.scope = p.scope.id := by
  cases h with
  | build _ hbuilt => exact scope_eq hbuilt hp hv v.self_mem_nested

theorem variableAt?_fullName (hp : p ∈ t.walk) (hv : v ∈ p.scope.vars)
    (hdistinct : (p.scope.vars.map Variable.name).Nodup) (hplain : p.Plain) (hslash : '/' ∉ v.name.toList)
    (hempty : v.name = "" → p.path = []) : t.variableAt? (p.fullName ++ "/" ++ v.name) = some v := by
  have hfound : p.scope.var? v.name = some v := find?_of_nodup hdistinct hv
  by_cases hname : v.name = ""
  · have hroot : t.placeAt? "" = some p := (placeAt?_eq_some h).mpr ⟨hp, by rw [hempty hname]; rfl⟩
    have hfull : p.fullName = "/" := by rw [Place.fullName, Frame.fullName, ← Place.path, hempty hname]; rfl
    have hslashes : t.variableAt? ("/" ++ "/" ++ "") = (t.placeAt? "").bind fun p => p.scope.var? "" := rfl
    rw [hname] at hfound
    rw [hname, hfull, hslashes, hroot]
    exact hfound
  · have hwhole : Text.Whole (· == '/') v.name.toList := by
      refine ⟨fun hnil => hname (String.toList_eq_nil_iff.mp hnil), fun c hc => ?_⟩
      simpa using fun heq : c = '/' => hslash (heq ▸ hc)
    have hpath : p.fullName ++ "/" ++ v.name = String.ofList (p.fullName.toList ++ '/' :: v.name.toList) := by
      apply String.toList_inj.mp
      simp
    have hscope : t.placeAt? (String.ofList (p.fullName.toList ++ ['/'])) = some p := by
      have hpieces : Text.pieces (· == '/') (p.fullName.toList ++ ['/']) =
          Text.pieces (· == '/') p.fullName.toList := by
        rw [Text.pieces_append_cons rfl]
        exact List.append_nil _
      rw [placeAt?_eq, String.toList_ofList, hpieces, ← placeAt?_eq]
      exact (placeAt?_fullName h hp).mpr hplain
    rw [hpath, variableAt?_slash _ hwhole, hscope, Option.bind_some, String.ofList_toList]
    exact hfound

/-- A scope is found by its full name exactly if all names on its path are plain, and then no other such scope
has that full name. A variable, of which its scope has but one of the name, is found behind it exactly if its
own name has no slash either, and is not empty except in the root. -/
theorem found_by_fullName (hp : p ∈ t.walk) :
    (t.placeAt? p.fullName = some p ↔ p.Plain) ∧
    (∀ q ∈ t.walk, p.Plain → q.Plain → p.fullName = q.fullName → p = q) ∧
    ∀ v ∈ p.scope.vars, (p.scope.vars.map Variable.name).Nodup →
      (t.variableAt? (p.fullName ++ "/" ++ v.name) = some v ↔
        p.Plain ∧ '/' ∉ v.name.toList ∧ (v.name = "" → p.path = [])) := by
  refine ⟨placeAt?_fullName h hp, fun q hq hplain hplain' heq => ?_, fun v hv hdistinct => ⟨fun hfound => ?_, ?_⟩⟩
  · have hfound := (placeAt?_fullName h hp).mpr hplain
    have hfound' := (placeAt?_fullName h hq).mpr hplain'
    rw [heq, hfound'] at hfound
    exact (Option.some.inj hfound).symm
  · -- what is found has the number of the scope that it is found in
    obtain ⟨q, hq, hvq, hplain, hslash, hempty⟩ := variableAt?_sound h hfound
    have hsame : q = p := eq_of_id h hq hp ((scope_of_reachable h hq hvq).symm.trans (scope_of_reachable h hp hv))
    subst hsame
    exact ⟨hplain, hslash, hempty⟩
  · rintro ⟨hplain, hslash, hempty⟩
    exact variableAt?_fullName h hp hv hdistinct hplain hslash hempty

end

theorem found_by_fullName_redeclared :
    ∃ t, (redeclared.build 0).1 = .ok t ∧ ∃ p ∈ t.walk, p.fullName = "/inner" ∧ t.placeAt? p.fullName = some p ∧
      ∃ v ∈ p.scope.vars, t.variableAt? (p.fullName ++ "/" ++ v.name) = some v := by
  have hbuilt : ∃ t, (redeclared.build 0).1 = .ok t ∧ ∃ p ∈ t.walk, p.fullName = "/inner" ∧ p.Plain ∧
      (p.scope.vars.map Variable.name).Nodup ∧ ∃ v ∈ p.scope.vars, '/' ∉ v.name.toList ∧ v.name ≠ "" :=
    ⟨_, rfl, _, .tail _ (.head _), by decide, by decide, by decide, _, .head _, by decide⟩
  obtain ⟨t, ht, p, hp, hname, hplain, hdistinct, v, hv, hslash, hne⟩ := hbuilt
  obtain ⟨hscope, -, hvars⟩ := found_by_fullName (.build reachable_redeclared ht) hp
  refine ⟨t, ht, p, hp, hname, hscope.mpr hplain, v, hv, ?_⟩
  exact (hvars v hv hdistinct).mpr ⟨hplain, hslash, fun hempty => absurd hempty hne⟩

/-- A root with the scope `a/b`, and before it those given. -/
def slashedBehind (scopes : List ScopeDraft) : ScopeDraft :=
  (ScopeDraft.Operation.run ((scopes ++ [ScopeDraft.new "a/b"]).map .addScope) (.new "")).2

/-- The scope `a` with the scope `b` in it. -/
def bInA : ScopeDraft := (ScopeDraft.Operation.run ([ScopeDraft.new "b"].map .addScope) (.new "a")).2

theorem reachable_bInA : Reachable (fun _ _ => True) (.scope bInA) :=
  reachable_addScopes "a" (List.forall_mem_singleton.mpr (.newScope "b"))

theorem reachable_slashedBehind {scopes : List ScopeDraft}
    (h : ∀ s ∈ scopes, Reachable (fun _ _ => True) (.scope s)) :
    Reachable (fun _ _ => True) (.scope (slashedBehind scopes)) :=
  reachable_addScopes "" (List.forall_mem_append.mpr ⟨h, List.forall_mem_singleton.mpr (.newScope "a/b")⟩)

/-- A scope with a slash in its name is not found, and another can have its full name. -/
theorem fullName_not_found :
    (Reachable (fun _ _ => True) (.scope (slashedBehind [])) ∧
      ∃ t, ((slashedBehind []).build 0).1 = .ok t ∧
        ∃ p ∈ t.walk, p.fullName = "/a/b" ∧ t.placeAt? p.fullName = none) ∧
    Reachable (fun _ _ => True) (.scope (slashedBehind [bInA])) ∧
      ∃ t, ((slashedBehind [bInA]).build 0).1 = .ok t ∧
        ∃ p ∈ t.walk, ∃ q ∈ t.walk, p.scope.id ≠ q.scope.id ∧ p.fullName = q.fullName := by
  have hnone : ∀ s ∈ ([] : List ScopeDraft), Reachable (fun _ _ => True) (.scope s) := fun _ hs => by cases hs
  have hone : ∀ s ∈ [bInA], Reachable (fun _ _ => True) (.scope s) := List.forall_mem_singleton.mpr reachable_bInA
  refine ⟨⟨reachable_slashedBehind hnone, _, rfl, _, .tail _ (.head _), ?_, ?_⟩,
    reachable_slashedBehind hone, _, rfl, _, .tail _ (.tail _ (.head _)), _,
    .tail _ (.tail _ (.tail _ (.head _))), ?_, ?_⟩
  all_goals decide +kernel

end NamespaceTree
end SciArchive
