import SciArchive.Proofs.ShapeTexts

/-! Which texts are shapes. The words of a text are the stretches between its blanks; a text is read word by
word, each as what it spells, and the first that spells nothing is reported. -/
namespace SciArchive

namespace Text

/-! ### Words in a text -/

/-- The text is made of the words, in this order: blanks are passed over, and a word ends at a blank or where
the text ends. -/
inductive HoldsWords : List Char → List (List Char) → Prop
  | nil : HoldsWords [] []
  | blank {c : Char} {cs : List Char} {words : List (List Char)} (blank : isBlank c = true)
      (behind : HoldsWords cs words) : HoldsWords (c :: cs) words
  | word {word cs : List Char} {words : List (List Char)} (whole : Whole isBlank word)
      (ends : ∀ c ∈ cs.head?, isBlank c = true) (behind : HoldsWords cs words) :
      HoldsWords (word ++ cs) (word :: words)

theorem exists_holdsWords (cs : List Char) : ∃ ws, HoldsWords cs ws := by
  induction cs with
  | nil => exact ⟨[], .nil⟩
  | cons c cs ih =>
    obtain ⟨ws, hws⟩ := ih
    by_cases hc : isBlank c = true
    · exact ⟨ws, .blank hc hws⟩
    · have hplain : isBlank c = false := by simpa using hc
      have hwhole : Whole isBlank [c] := ⟨List.cons_ne_nil c [], List.forall_mem_singleton.mpr hplain⟩
      cases hws with
      | nil => exact ⟨[[c]], .word hwhole (by simp) .nil⟩
      | blank hblank hbehind => exact ⟨[c] :: ws, .word hwhole (by simpa using hblank) (.blank hblank hbehind)⟩
      | @word w cs ws hw hends hbehind =>
        have hlonger : Whole isBlank (c :: w) := ⟨List.cons_ne_nil c w, List.forall_mem_cons.mpr ⟨hplain, hw.2⟩⟩
        exact ⟨(c :: w) :: ws, .word hlonger hends hbehind⟩

theorem pieces_cons {c : Char} (hc : isBlank c = true) (cs : List Char) :
    pieces isBlank (c :: cs) = pieces isBlank cs :=
  pieces_append_cons hc [] cs

theorem holdsWords_iff {cs : List Char} {ws : List (List Char)} : HoldsWords cs ws ↔ words cs = ws := by
  have heq : ∀ {cs ws}, HoldsWords cs ws → words cs = ws := by
    intro cs ws h
    rw [words_eq]
    induction h with
    | nil => rfl
    | blank hblank _ ih => rw [pieces_cons hblank, ih]
    | @word w cs ws hw hends _ ih =>
      cases cs with
      | nil =>
        rw [List.append_nil, pieces_of_whole hw, ← ih]
        rfl
      | cons c cs =>
        have hc : isBlank c = true := hends c rfl
        rw [pieces_append_cons hc, pieces_of_whole hw, ← ih, pieces_cons hc]
        rfl
  obtain ⟨found, hfound⟩ := exists_holdsWords cs
  refine ⟨heq, fun h => ?_⟩
  rw [← h, heq hfound]
  exact hfound

/-! ### Numerals -/

theorem digitsFrom?_eq_some {cs : List Char} {acc n : Nat} :
    digitsFrom? acc cs = some n ↔ (∀ c ∈ cs, c.isDigit = true) ∧ Nat.ofDigitChars 10 cs acc = n := by
  induction cs generalizing acc with
  | nil => simp [digitsFrom?]
  | cons c cs ih =>
    by_cases hc : c.isDigit = true
    · have hdigit : digit? c = some (c.toNat - '0'.toNat) := if_pos hc
      simp only [digitsFrom?, hdigit, ih, List.forall_mem_cons, hc, true_and]
      rfl
    · have hdigit : digit? c = none := if_neg hc
      simp [digitsFrom?, hdigit, hc]

theorem digits?_eq_some {cs : List Char} {n : Nat} :
    digits? cs = some n ↔ cs ≠ [] ∧ (∀ c ∈ cs, c.isDigit = true) ∧ Nat.ofDigitChars 10 cs 0 = n := by
  cases cs with
  | nil => simp [digits?]
  | cons c cs =>
    rw [digits?, digitsFrom?_eq_some]
    · simp
    · exact List.cons_ne_nil c cs

/-- Digits with or without a plus sign in front, below the bound of a machine word. -/
def Numeral (cs : List Char) (n : Nat) : Prop :=
  ∃ sign digits, cs = sign ++ digits ∧ (sign = [] ∨ sign = ['+']) ∧ digits ≠ [] ∧
    (∀ c ∈ digits, c.isDigit = true) ∧ Nat.ofDigitChars 10 digits 0 = n ∧ n < UInt64.size

theorem natural?_eq_some_iff {cs : List Char} {n : Nat} : natural? cs = some n ↔ Numeral cs n := by
  rw [natural?.eq_def, Option.filter_eq_some_iff, decide_eq_true_iff]
  constructor
  · rintro ⟨hread, hlt⟩
    split at hread
    · rename_i rest
      obtain ⟨hne, hdigits, hvalue⟩ := digits?_eq_some.mp hread
      exact ⟨['+'], rest, rfl, .inr rfl, hne, hdigits, hvalue, hlt⟩
    · obtain ⟨hne, hdigits, hvalue⟩ := digits?_eq_some.mp hread
      exact ⟨[], cs, rfl, .inl rfl, hne, hdigits, hvalue, hlt⟩
  · rintro ⟨sign, digits, rfl, rfl | rfl, hne, hdigits, hvalue, hlt⟩
    · refine ⟨?_, hlt⟩
      split
      · rename_i rest hplus
        rw [List.nil_append] at hplus
        have hdigit : '+'.isDigit = true := hdigits '+' (hplus ▸ List.mem_cons_self)
        exact absurd hdigit (by decide)
      · exact digits?_eq_some.mpr ⟨hne, hdigits, hvalue⟩
    · exact ⟨digits?_eq_some.mpr ⟨hne, hdigits, hvalue⟩, hlt⟩

theorem Numeral.first {c : Char} {cs : List Char} {n : Nat} (h : Numeral (c :: cs) n) :
    c.isDigit = true ∨ c = '-' ∨ c = '+' := by
  obtain ⟨sign, digits, hsplit, rfl | rfl, -, hdigits, -⟩ := h
  · rw [List.nil_append] at hsplit
    exact .inl (hdigits c (hsplit ▸ List.mem_cons_self))
  · exact .inr (.inr (List.cons_eq_cons.mp hsplit).1)

end Text

namespace DimSpec

/-! ### Words of a shape -/

/-- What one word of a shape stands for: a star, a numeral, or a name, which neither begins like a numeral nor
holds a slash or a star. -/
inductive Spells : List Char → DimSpec → Prop
  | star : Spells ['*'] .varying
  | length {word : List Char} {n : Nat} (numeral : Text.Numeral word n) : Spells word (.fixed n)
  | name {c : Char} {cs : List Char} (first : ¬ (c.isDigit = true ∨ c = '-' ∨ c = '+')) (slash : '/' ∉ c :: cs)
      (star : '*' ∉ c :: cs) : Spells (c :: cs) (.shared (String.ofList (c :: cs)))

theorem not_spells_nil (spec : DimSpec) : ¬ Spells [] spec := by
  intro h
  cases h with
  | length hnumeral =>
    obtain ⟨sign, digits, hsplit, -, hne, -⟩ := hnumeral
    exact hne (List.append_eq_nil_iff.mp hsplit.symm).2

theorem ofWord?_eq_some {word : List Char} {spec : DimSpec} : ofWord? word = some spec ↔ Spells word spec := by
  constructor
  · intro h
    cases word with
    | nil => cases h
    | cons c cs =>
      by_cases hstar : c :: cs = ['*']
      · cases hstar
        cases h
        exact .star
      · rw [ofWord?_cons hstar] at h
        split_ifs at h with hfirst hplain
        · obtain ⟨n, hn, rfl⟩ := Option.map_eq_some_iff.mp h
          exact .length (Text.natural?_eq_some_iff.mp hn)
        · cases h
          obtain ⟨hslash, hstar⟩ := not_or.mp hplain
          exact .name hfirst hslash hstar
  · intro h
    cases h with
    | star => rfl
    | length hnumeral =>
      cases word with
      | nil => exact absurd (.length hnumeral) (not_spells_nil _)
      | cons c cs =>
        have hstar : c :: cs ≠ ['*'] := by
          rintro heq
          cases heq
          exact absurd hnumeral.first (by decide)
        rw [ofWord?_cons hstar, if_pos hnumeral.first, Text.natural?_eq_some_iff.mpr hnumeral]
        rfl
    | @name c cs hfirst hslash hnostar =>
      have hstar : c :: cs ≠ ['*'] := fun heq => hnostar (heq ▸ List.mem_cons_self)
      rw [ofWord?_cons hstar, if_neg hfirst, if_neg (not_or.mpr ⟨hslash, hnostar⟩)]

theorem ofWord?_eq_none {word : List Char} : ofWord? word = none ↔ ¬ ∃ spec, Spells word spec := by
  simp only [← ofWord?_eq_some, Option.eq_none_iff_forall_ne_some, ne_eq, not_exists]

/-! ### Shapes -/

/-- A text that is no shape is refused for the first of its words that spells nothing. -/
theorem parse_eq_error {text : String} {e : Fault} :
    parse text = .error e ↔ ∃ front word back, Text.words text.toList = front ++ word :: back ∧
      (∀ w ∈ front, ∃ spec, Spells w spec) ∧ (¬ ∃ spec, Spells word spec) ∧
      e = .malformedDimension (String.ofList word) text := by
  rw [parse, mapM_eq_error, FirstFails]
  refine exists_congr fun front => exists_congr fun word => exists_congr fun back =>
    and_congr_right fun _ => and_congr ?_ ?_
  · refine forall₂_congr fun w _ => ?_
    simp only [← ofWord?_eq_some]
    cases ofWord? w <;> simp
  · rw [← ofWord?_eq_none]
    cases ofWord? word <;> simp [eq_comm]

/-- Shapes one behind the other make one shape. -/
theorem parse_append {text other : String} {specs others : List DimSpec} (h : parse text = .ok specs)
    (hother : parse other = .ok others) : parse (text ++ " " ++ other) = .ok (specs ++ others) := by
  have hwords : Text.words (text ++ " " ++ other).toList = Text.words text.toList ++ Text.words other.toList := by
    rw [String.toList_append, String.toList_append, List.append_assoc]
    exact Text.pieces_append_cons (by decide) _ _
  rw [parse_eq_ok] at h hother ⊢
  rw [hwords]
  exact List.rel_append h hother

/-- A text is a shape if each of its words spells something, and then it is that, word by word; else the first
word that spells nothing is reported with the whole text. Shapes with a space between them are the one shape
behind the other, and a shape that is written out is read back. -/
theorem parse_spelled (text : String) :
    (∀ specs, parse text = .ok specs ↔
      ∃ words, Text.HoldsWords text.toList words ∧ List.Forall₂ Spells words specs) ∧
    (∀ e, parse text = .error e ↔ ∃ front word back, Text.HoldsWords text.toList (front ++ word :: back) ∧
      (∀ w ∈ front, ∃ spec, Spells w spec) ∧ (¬ ∃ spec, Spells word spec) ∧
      e = .malformedDimension (String.ofList word) text) ∧
    (∀ other specs others, parse text = .ok specs → parse other = .ok others →
      parse (text ++ " " ++ other) = .ok (specs ++ others)) ∧
    ∀ specs, parse text = .ok specs → parse (String.intercalate " " (specs.map render)) = .ok specs := by
  refine ⟨fun specs => ?_, fun e => ?_, fun other specs others => parse_append,
    fun specs h => parse_render (legible_of_parse h)⟩
  · simp only [parse_eq_ok, ofWord?_eq_some, Text.holdsWords_iff, exists_eq_left']
  · simp only [parse_eq_error, Text.holdsWords_iff]

/-- A length with a sign and a zero in front of it, a name, and a star behind both. -/
theorem parse_spelled_signed : parse " +05\tx" = .ok [.fixed 5, .shared "x"] ∧ parse "*" = .ok [.varying] ∧
    parse (" +05\tx" ++ " " ++ "*") = .ok ([.fixed 5, .shared "x"] ++ [.varying]) ∧
    parse (String.intercalate " " ([.fixed 5, .shared "x"].map render)) = .ok [.fixed 5, .shared "x"] := by
  have hlengths : parse " +05\tx" = .ok [.fixed 5, .shared "x"] := by decide +kernel
  have hstar : parse "*" = .ok [.varying] := by decide +kernel
  obtain ⟨-, -, happend, hwritten⟩ := parse_spelled " +05\tx"
  exact ⟨hlengths, hstar, happend _ _ _ hlengths hstar, hwritten _ hlengths⟩

example : parse "x -0 a/b" = .error (.malformedDimension "-0" "x -0 a/b") := by decide +kernel

end DimSpec
end SciArchive
