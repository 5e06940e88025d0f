import SciArchive.Proofs.Pieces
import SciArchive.Proofs.Rebuilding
import SciArchive.Proofs.ScopeNumbers

/-! Shapes as text. The text of a variable's shape brings the shape back exactly when each of its words is
legible, which names need not be where dimensions are declared. -/
namespace SciArchive

/-! ### Numbers -/

namespace Text

theorem digitsFrom?_eq {cs : List Char} (h : ∀ c ∈ cs, c.isDigit = true) (acc : Nat) :
    digitsFrom? acc cs = some (Nat.ofDigitChars 10 cs acc) := by
  induction cs generalizing acc with
  | nil => rfl
  | cons c cs ih =>
    obtain ⟨hc, hcs⟩ := List.forall_mem_cons.mp h
    have hdigit : digit? c = some (c.toNat - '0'.toNat) := if_pos hc
    simp only [digitsFrom?, hdigit]
    exact ih hcs _

theorem isBlank_of_isDigit {c : Char} (h : c.isDigit = true) : isBlank c = false := by
  have hrange : 48 ≤ c.toNat ∧ c.toNat ≤ 57 := by
    simpa [Char.isDigit, UInt32.le_iff_toNat_le] using h
  have houtside : ∀ r ∈ blankRanges, 57 < r.1 ∨ r.2 < 48 := by decide
  rw [isBlank, List.any_eq_false]
  intro r hr
  have hr := houtside r hr
  simp only [decide_eq_true_eq]
  omega

theorem isDigit_of_mem_repr {n : Nat} {c : Char} (h : c ∈ n.repr.toList) : c.isDigit = true := by
  rw [Nat.toList_repr] at h
  exact Nat.isDigit_of_mem_toDigits (by decide) (by decide) h

theorem repr_ne_nil (n : Nat) : n.repr.toList ≠ [] := by
  rw [Nat.toList_repr]
  exact Nat.toDigits_ne_nil

theorem natural?_repr {n : Nat} (h : n < UInt64.size) : natural? n.repr.toList = some n := by
  have hdigits : digits? n.repr.toList = some n := by
    have hread := digitsFrom?_eq (fun _ => isDigit_of_mem_repr (n := n)) 0
    rw [Nat.toList_repr, Nat.ofDigitChars_toDigits (by decide) (by decide), ← Nat.toList_repr] at hread
    rw [digits?.eq_def]
    split
    · rename_i hnil
      exact absurd hnil (repr_ne_nil n)
    · exact hread
  rw [natural?, hdigits]
  · simp [Option.filter, h]
  · intro rest hplus
    have hdigit : '+'.isDigit = true := isDigit_of_mem_repr (n := n) (hplus ▸ List.mem_cons_self)
    exact absurd hdigit (by decide)

end Text

/-! ### Words -/

namespace DimSpec

/-- Read back as it is written: a length fits a word, and a name is one word that looks like no other. -/
def Legible : DimSpec → Prop
  | shared name => Text.Whole Text.isBlank name.toList ∧ '/' ∉ name.toList ∧ '*' ∉ name.toList ∧
      ∀ c ∈ name.toList.head?, ¬ (c.isDigit ∨ c = '-' ∨ c = '+')
  | fixed n => n < UInt64.size
  | varying => True

instance : DecidablePred Legible
  | shared name => decidable_of_iff
      (Text.Whole Text.isBlank name.toList ∧ '/' ∉ name.toList ∧ '*' ∉ name.toList ∧
        name.toList.head?.all (fun c => !(c.isDigit || c == '-' || c == '+')) = true)
      (by simp [Legible, Option.all_eq_true, and_assoc])
  | fixed n => inferInstanceAs (Decidable (n < UInt64.size))
  | varying => inferInstanceAs (Decidable True)

/-- A word that is no star is read by its first character. -/
theorem ofWord?_cons {c : Char} {rest : List Char} (h : c :: rest ≠ ['*']) :
    ofWord? (c :: rest) =
      if c.isDigit ∨ c = '-' ∨ c = '+' then (Text.natural? (c :: rest)).map fixed
      else if '/' ∈ c :: rest ∨ '*' ∈ c :: rest then none
      else some (shared (String.ofList (c :: rest))) := by
  rw [ofWord?]
  rintro rfl rfl
  exact h rfl

theorem whole_render {spec : DimSpec} (h : spec.Legible) : Text.Whole Text.isBlank spec.render.toList := by
  cases spec with
  | shared name => exact h.1
  | fixed n => exact ⟨Text.repr_ne_nil n, fun c hc => Text.isBlank_of_isDigit (Text.isDigit_of_mem_repr hc)⟩
  | varying => decide

theorem ofWord?_render {spec : DimSpec} (h : spec.Legible) : ofWord? spec.render.toList = some spec := by
  cases spec with
  | shared name =>
    obtain ⟨⟨hne, -⟩, hslash, hstar, hfirst⟩ := h
    obtain ⟨c, rest, hword⟩ := List.exists_cons_of_ne_nil hne
    have hread : String.ofList (c :: rest) = name := by rw [← hword, String.ofList_toList]
    rw [hword] at hslash hstar hfirst
    have hne : c :: rest ≠ ['*'] := fun heq => hstar (heq ▸ List.mem_cons_self)
    rw [render, hword, ofWord?_cons hne, if_neg (hfirst c rfl), if_neg (not_or.mpr ⟨hslash, hstar⟩), hread]
  | fixed n =>
    obtain ⟨c, rest, hword⟩ := List.exists_cons_of_ne_nil (Text.repr_ne_nil n)
    have hdigit : c.isDigit = true := Text.isDigit_of_mem_repr (n := n) (hword ▸ List.mem_cons_self)
    have hne : c :: rest ≠ ['*'] := by
      rintro heq
      cases heq
      exact absurd hdigit (by decide)
    rw [render, hword, ofWord?_cons hne, if_pos (.inl hdigit), ← hword, Text.natural?_repr h]
    rfl
  | varying => rfl

/-- What a word is read as is legible. -/
theorem legible_of_ofWord? {word : List Char} {spec : DimSpec} (hword : Text.Whole Text.isBlank word)
    (h : ofWord? word = some spec) : spec.Legible := by
  obtain ⟨c, rest, rfl⟩ := List.exists_cons_of_ne_nil hword.1
  by_cases hstar : c :: rest = ['*']
  · cases hstar
    cases h
    trivial
  · rw [ofWord?_cons hstar] at h
    split at h
    · obtain ⟨n, hn, rfl⟩ := Option.map_eq_some_iff.mp h
      exact of_decide_eq_true (Option.filter_eq_some_iff.mp hn).2
    · rename_i hfirst
      split at h
      · cases h
      · rename_i hplain
        cases h
        obtain ⟨hslash, hstar⟩ := not_or.mp hplain
        rw [Legible, String.toList_ofList]
        exact ⟨hword, hslash, hstar, fun _ hc => Option.some.inj hc ▸ hfirst⟩

/-! ### Shapes -/

theorem parse_eq_ok {text : String} {specs : List DimSpec} :
    parse text = .ok specs ↔
      List.Forall₂ (fun word spec => ofWord? word = some spec) (Text.words text.toList) specs := by
  rw [parse, mapM_eq_ok]
  refine iff_of_eq (congrArg (List.Forall₂ · _ _) ?_)
  funext word spec
  cases ofWord? word <;> simp

theorem legible_of_parse {text : String} {specs : List DimSpec} (h : parse text = .ok specs) :
    ∀ spec ∈ specs, spec.Legible := by
  intro spec hspec
  obtain ⟨word, hword, hread⟩ := forall₂_mem_right (parse_eq_ok.mp h) hspec
  exact legible_of_ofWord? (Text.whole_of_mem_pieces hword) hread

/-- Legible words joined by spaces are read back. -/
theorem parse_render {specs : List DimSpec} (h : ∀ spec ∈ specs, spec.Legible) :
    parse (String.intercalate " " (specs.map render)) = .ok specs := by
  have hwhole : ∀ word ∈ specs.map fun spec => spec.render.toList, Text.Whole Text.isBlank word :=
    List.forall_mem_map.mpr fun spec hspec => whole_render (h spec hspec)
  rw [parse_eq_ok, String.toList_intercalate, List.map_map, Text.words_eq]
  have hwords : Text.pieces Text.isBlank (" ".toList.intercalate (specs.map (String.toList ∘ render))) =
      specs.map fun spec => spec.render.toList :=
    (Text.pieces_intercalate (by decide) _).trans (Text.flatMap_pieces_eq_iff.mpr hwhole)
  rw [hwords, List.forall₂_map_left_iff, List.forall₂_same]
  exact fun spec hspec => ofWord?_render (h spec hspec)

end DimSpec

/-! ### Texts of shapes -/

namespace Variable

theorem shapeText_eq (v : Variable) :
    v.shapeText = String.intercalate " " ((v.dimensions.map DimSpec.ofDimension).map DimSpec.render) := by
  rw [shapeText, List.map_map]
  refine congrArg _ (List.map_congr_left fun dim _ => ?_)
  rw [Function.comp, DimSpec.ofDimension]
  cases dim.sharedName? with
  | some name => rfl
  | none => cases dim.length <;> rfl

end Variable

namespace Reachable

variable {t : NamespaceTree} {p : Place} {v m : Variable} (h : Reachable (fun _ _ => True) (.tree t))
  (hp : p ∈ t.walk)
include h hp

theorem shared_frames : Frame.Shared p.frames := by
  intro f hf
  obtain ⟨s, hs, rfl⟩ := List.mem_map.mp hf
  obtain ⟨q, hq, rfl⟩ := NamespaceTree.exists_place_of_mem_chain hp hs
  have hshared := ((h.all ScopeDraft.kept_shared) q hq).1
  exact List.forall_mem_map.mp hshared

theorem exists_shape (hv : v ∈ p.scope.vars) (hm : m ∈ v.nested) :
    ∃ specs, Frame.shape p.frames specs = .ok m.dimensions := by
  cases h with
  | build _ hbuilt =>
    obtain ⟨n, hn⟩ := NamespaceTree.exists_builtAt hbuilt hp hv hm
    cases hn with
    | intro _ _ _ _ _ hdims _ => exact ⟨n.shape, mapM_eq_ok.mpr (hdims.imp fun _ _ => Place.Resolves.dimension)⟩

/-- The text of a shape, read at the variable's scope, gives the shape back exactly when all its words are
legible. It does so whenever any text gives the shape. -/
theorem makeDimensions_shapeText (hv : v ∈ p.scope.vars) (hm : m ∈ v.nested) :
    (p.makeDimensions m.shapeText = .ok m.dimensions ↔
      ∀ dim ∈ m.dimensions, (DimSpec.ofDimension dim).Legible) ∧
    ((∃ text, p.makeDimensions text = .ok m.dimensions) →
      p.makeDimensions m.shapeText = .ok m.dimensions) := by
  have hframes := shared_frames h hp
  obtain ⟨specs, hspecs⟩ := exists_shape h hp hv hm
  have hrebuilt : (∀ dim ∈ m.dimensions, (DimSpec.ofDimension dim).Legible) →
      p.makeDimensions m.shapeText = .ok m.dimensions := by
    intro hlegible
    rw [Place.makeDimensions, Variable.shapeText_eq, DimSpec.parse_render (List.forall_mem_map.mpr hlegible)]
    exact Frame.shape_ofDimension hframes hspecs
  have hread : ∀ text, p.makeDimensions text = .ok m.dimensions →
      ∀ dim ∈ m.dimensions, (DimSpec.ofDimension dim).Legible := by
    intro text htext
    rw [Place.makeDimensions] at htext
    cases hparse : DimSpec.parse text with
    | error e => simp [hparse, Except.bind] at htext
    | ok words =>
      rw [hparse] at htext
      have hwords := Frame.map_ofDimension_of_shape hframes htext
      exact List.forall_mem_map.mp (hwords ▸ DimSpec.legible_of_parse hparse)
  exact ⟨⟨hread m.shapeText, hrebuilt⟩, fun ⟨text, htext⟩ => hrebuilt (hread text htext)⟩

end Reachable

/-- The root declares `name`, and a variable in it has that dimension between a star and a length. -/
def shapedBy (name : String) : ScopeDraft :=
  (ScopeDraft.Operation.run [.addDimension (.ofName name 2),
    .addVariable ((VariableDraft.Operation.setShape [.varying, .shared name, .fixed 4]).apply (.new "v" .int)).2]
    .root).2

theorem reachable_shapedBy (name : String) : Reachable (fun _ _ => True) (.scope (shapedBy name)) := by
  have hv : Reachable (fun _ _ => True)
      (.var ((VariableDraft.Operation.setShape [.varying, .shared name, .fixed 4]).apply (.new "v" .int)).2) :=
    .editVariable _ (.newVariable "v" .int) fun _ hm => by cases hm
  refine .run (.newScope "") (by simp [ScopeDraft.Operation.scopes]) ?_ fun _ _ _ => trivial
  simpa [ScopeDraft.Operation.vars] using hv

theorem Reachable.makeDimensions_shapeText_shapedBy :
    ∃ t, ((shapedBy "x").build 0).1 = .ok t ∧ ∃ v ∈ t.root.vars,
      t.rootPlace.makeDimensions v.shapeText = .ok v.dimensions := by
  have hbuilt : ∃ t, ((shapedBy "x").build 0).1 = .ok t ∧ ∃ v ∈ t.root.vars,
      ∀ dim ∈ v.dimensions, (DimSpec.ofDimension dim).Legible := ⟨_, rfl, _, List.mem_cons_self, by decide +kernel⟩
  obtain ⟨t, ht, v, hv, hlegible⟩ := hbuilt
  have hrebuilt := makeDimensions_shapeText (.build (reachable_shapedBy "x") ht)
    (NamespaceTree.mem_walk_iff_holds.mpr .root) hv v.self_mem_nested
  exact ⟨t, ht, v, hv, hrebuilt.1.mpr hlegible⟩

/-- A name with a blank is two words in the text of a shape, and neither is declared. -/
theorem shapeText_not_rebuilt :
    Reachable (fun _ _ => True) (.scope (shapedBy "a b")) ∧
    ∃ t, ((shapedBy "a b").build 0).1 = .ok t ∧ ∃ v ∈ t.root.vars,
      t.rootPlace.makeDimensions v.shapeText = .error (.unknownDimension "a" "/") := by
  exact ⟨reachable_shapedBy "a b", _, rfl, _, List.mem_cons_self, by decide +kernel⟩

end SciArchive
