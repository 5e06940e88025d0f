import Mathlib.Tactic.SplitIfs
import SciArchive.Text.Utf8

/-! Reading back what was written: the bytes of a text decode to that text, and no other bytes do. -/
namespace SciArchive.Utf8

theorem toNat_ofNat_byte {n : Nat} (h : n < 256) : (UInt8.ofNat n).toNat = n :=
  UInt8.toNat_ofNat_of_lt' h

/-- A tail byte in the range asked for adds its six bits. -/
theorem continued_tail {n : Nat} {low high : UInt8} {code v : Nat} {rest : List UInt8} (hv : v < 64)
    (hlow : low.toNat ≤ v + 128) (hhigh : v + 128 ≤ high.toNat) :
    continued (n + 1) low high code (UInt8.ofNat (v + 128) :: rest) =
      continued n 0x80 0xBF (code * 64 + v) rest := by
  have hb : (UInt8.ofNat (v + 128)).toNat = v + 128 := toNat_ofNat_byte (by omega)
  have hin : low ≤ UInt8.ofNat (v + 128) ∧ UInt8.ofNat (v + 128) ≤ high := by
    simp only [UInt8.le_iff_toNat_le, hb]
    exact ⟨hlow, hhigh⟩
  rw [continued, if_pos hin, hb, Nat.add_sub_cancel]

/-- A tail byte without a narrower range. -/
theorem continued_any {n code v : Nat} {rest : List UInt8} (hv : v < 64) :
    continued (n + 1) 0x80 0xBF code (UInt8.ofNat (v + 128) :: rest) =
      continued n 0x80 0xBF (code * 64 + v) rest :=
  continued_tail hv (Nat.le_add_left _ _) (Nat.le_of_lt_succ (Nat.add_lt_add_right hv 128))

@[simp] theorem continued_zero (low high : UInt8) (code : Nat) (rest : List UInt8) :
    continued 0 low high code rest = (some code, rest) := by
  rw [continued]

/-- The first byte of a longer form by its number; `lead?` in natural numbers. -/
theorem lead?_ofNat {n : Nat} (h : n < 256) :
    lead? (UInt8.ofNat n) =
      if n < 0x80 then some ⟨0, 0x80, 0xBF, n⟩
      else if n < 0xC2 then none
      else if n < 0xE0 then some ⟨1, 0x80, 0xBF, n - 0xC0⟩
      else if n = 0xE0 then some ⟨2, 0xA0, 0xBF, 0⟩
      else if n = 0xED then some ⟨2, 0x80, 0x9F, 0x0D⟩
      else if n < 0xF0 then some ⟨2, 0x80, 0xBF, n - 0xE0⟩
      else if n = 0xF0 then some ⟨3, 0x90, 0xBF, 0⟩
      else if n < 0xF4 then some ⟨3, 0x80, 0xBF, n - 0xF0⟩
      else if n = 0xF4 then some ⟨3, 0x80, 0x8F, 4⟩
      else none := by
  have hn := toNat_ofNat_byte h
  simp only [lead?, UInt8.lt_iff_toNat_lt, ← UInt8.toNat_inj, hn, UInt8.reduceToNat]

theorem valid_range (c : Char) :
    c.val.toNat < 0xD800 ∨ 0xE000 ≤ c.val.toNat ∧ c.val.toNat < 0x110000 := by
  rcases c.valid with h | ⟨h, h'⟩
  · exact Or.inl h
  · exact Or.inr ⟨Nat.succ_le_of_lt h, h'⟩

/-- Forms of three bytes: the second byte avoids overlong forms and surrogates. -/
theorem lead?_three {n x : Nat} (hn : 0xE0 ≤ n ∧ n < 0xF0) (hx : x < 64)
    (hlow : n = 0xE0 → 32 ≤ x) (hhigh : n = 0xED → x < 32) :
    ∃ low high : UInt8, lead? (UInt8.ofNat n) = some ⟨2, low, high, n - 0xE0⟩ ∧
      low.toNat ≤ x + 128 ∧ x + 128 ≤ high.toNat := by
  have hl := lead?_ofNat (n := n) (by omega)
  rw [if_neg (by omega), if_neg (by omega), if_neg (by omega)] at hl
  by_cases hE0 : n = 0xE0
  · subst hE0
    exact ⟨0xA0, 0xBF, hl, by simp only [UInt8.reduceToNat]; omega,
      by simp only [UInt8.reduceToNat]; omega⟩
  rw [if_neg hE0] at hl
  by_cases hED : n = 0xED
  · subst hED
    exact ⟨0x80, 0x9F, hl, by simp only [UInt8.reduceToNat]; omega,
      by simp only [UInt8.reduceToNat]; omega⟩
  rw [if_neg hED, if_pos hn.2] at hl
  exact ⟨0x80, 0xBF, hl, by simp only [UInt8.reduceToNat]; omega,
    by simp only [UInt8.reduceToNat]; omega⟩

/-- Forms of four bytes: the second byte avoids overlong forms and codes past the last character. -/
theorem lead?_four {n x : Nat} (hn : 0xF0 ≤ n ∧ n ≤ 0xF4) (hx : x < 64)
    (hlow : n = 0xF0 → 16 ≤ x) (hhigh : n = 0xF4 → x < 16) :
    ∃ low high : UInt8, lead? (UInt8.ofNat n) = some ⟨3, low, high, n - 0xF0⟩ ∧
      low.toNat ≤ x + 128 ∧ x + 128 ≤ high.toNat := by
  have hl := lead?_ofNat (n := n) (by omega)
  rw [if_neg (by omega), if_neg (by omega), if_neg (by omega), if_neg (by omega), if_neg (by omega),
    if_neg (by omega)] at hl
  by_cases hF0 : n = 0xF0
  · subst hF0
    exact ⟨0x90, 0xBF, hl, by simp only [UInt8.reduceToNat]; omega,
      by simp only [UInt8.reduceToNat]; omega⟩
  rw [if_neg hF0] at hl
  by_cases hF4 : n = 0xF4
  · subst hF4
    exact ⟨0x80, 0x8F, hl, by simp only [UInt8.reduceToNat]; omega,
      by simp only [UInt8.reduceToNat]; omega⟩
  rw [if_pos (by omega)] at hl
  exact ⟨0x80, 0xBF, hl, by simp only [UInt8.reduceToNat]; omega,
    by simp only [UInt8.reduceToNat]; omega⟩

/-- Each character is read back from the front of its bytes. -/
theorem front_encodeChar (c : Char) (rest : List UInt8) :
    ∃ b tail, String.utf8EncodeChar c = b :: tail ∧ front b (tail ++ rest) = (some c, rest) := by
  have hc := valid_range c
  have hmk : Char.ofNat c.val.toNat = c := Char.ofNat_toNat c
  generalize hv : c.val.toNat = v at hc hmk
  have h₀ : v % 64 < 64 := Nat.mod_lt v (by decide)
  have h₁ : v / 64 % 64 < 64 := Nat.mod_lt _ (by decide)
  have h₂ : v / 4096 % 64 < 64 := Nat.mod_lt _ (by decide)
  simp only [String.utf8EncodeChar, hv]
  by_cases hone : v ≤ 0x7F
  · have hl := lead?_ofNat (n := v) (by omega)
    rw [if_pos (by omega)] at hl
    refine ⟨_, _, if_pos hone, ?_⟩
    simp only [front, hl, List.nil_append, continued_zero, Option.map_some, hmk]
  rw [if_neg hone]
  by_cases htwo : v ≤ 0x7FF
  · have hl := lead?_ofNat (n := v / 64 % 32 + 192) (by omega)
    rw [if_neg (by omega), if_neg (by omega), if_pos (by omega)] at hl
    have hcode : (v / 64 % 32 + 192 - 0xC0) * 64 + v % 64 = v := by omega
    refine ⟨_, _, if_pos htwo, ?_⟩
    simp only [front, hl, List.cons_append, List.nil_append, continued_any h₀, continued_zero, hcode,
      Option.map_some, hmk]
  rw [if_neg htwo]
  by_cases hthree : v ≤ 0xFFFF
  · obtain ⟨low, high, hl, hlow, hhigh⟩ := lead?_three (n := v / 4096 % 16 + 224) (x := v / 64 % 64)
      (by omega) h₁ (by omega) (by omega)
    have hcode : ((v / 4096 % 16 + 224 - 0xE0) * 64 + v / 64 % 64) * 64 + v % 64 = v := by omega
    refine ⟨_, _, if_pos hthree, ?_⟩
    simp only [front, hl, List.cons_append, List.nil_append, continued_tail h₁ hlow hhigh,
      continued_any h₀, continued_zero, hcode, Option.map_some, hmk]
  rw [if_neg hthree]
  obtain ⟨low, high, hl, hlow, hhigh⟩ := lead?_four (n := v / 262144 % 8 + 240) (x := v / 4096 % 64)
    (by omega) h₂ (by omega) (by omega)
  have hcode : (((v / 262144 % 8 + 240 - 0xF0) * 64 + v / 4096 % 64) * 64 + v / 64 % 64) * 64 +
      v % 64 = v := by
    omega
  refine ⟨_, _, rfl, ?_⟩
  simp only [front, hl, List.cons_append, List.nil_append, continued_tail h₂ hlow hhigh,
    continued_any h₁, continued_any h₀, continued_zero, hcode, Option.map_some, hmk]

theorem decode?_encode (text : List Char) : decode? (encode text) = some text := by
  induction text with
  | nil => rw [encode, List.flatMap_nil, decode?]
  | cons c text ih =>
    obtain ⟨b, tail, hbytes, hfront⟩ := front_encodeChar c (encode text)
    have hcons : encode (c :: text) = b :: (tail ++ encode text) := by
      rw [encode, List.flatMap_cons, hbytes, List.cons_append]; rfl
    rw [hcons, decode?]
    simp only [hfront, ih, Option.map_some]

/-- Every text is read back from its bytes. -/
@[simp] theorem toString?_ofString (s : String) : toString? (ofString s) = some s := by
  rw [toString?, ofString, decode?_encode, Option.map_some, String.ofList_toList]

theorem length_encode_le (text : List Char) : (encode text).length ≤ 4 * text.length := by
  induction text with
  | nil => exact Nat.le_refl 0
  | cons c text ih =>
    have hc : c.utf8Size ≤ 4 := Char.utf8Size_le_four c
    simp only [encode, List.flatMap_cons, List.length_append, String.length_utf8EncodeChar,
      List.length_cons] at ih ⊢
    omega

/-! ### One form for each text -/

/-- A tail byte that is taken in lies in the range asked for. -/
theorem continued_some {n : Nat} {low high : UInt8} {code c : Nat} {rest left : List UInt8}
    (hlow : 128 ≤ low.toNat) (hhigh : high.toNat < 192)
    (h : continued (n + 1) low high code rest = (some c, left)) :
    ∃ v tail, rest = UInt8.ofNat (v + 128) :: tail ∧ v < 64 ∧ low.toNat ≤ v + 128 ∧
      v + 128 ≤ high.toNat ∧ continued n 0x80 0xBF (code * 64 + v) tail = (some c, left) := by
  cases rest with
  | nil => simp [continued] at h
  | cons b tail =>
    rw [continued] at h
    split at h
    · rename_i hin
      obtain ⟨hl, hh⟩ := hin
      rw [UInt8.le_iff_toNat_le] at hl hh
      have hb : UInt8.ofNat (b.toNat - 128 + 128) = b := by
        rw [Nat.sub_add_cancel (by omega), UInt8.ofNat_toNat]
      have hcode : b.toNat - (0x80 : UInt8).toNat = b.toNat - 128 := rfl
      exact ⟨b.toNat - 128, tail, by rw [hb], by omega, by omega, by omega, h⟩
    · simp at h

/-- The forms that a first byte can announce. -/
theorem lead?_some {b : UInt8} {l : Lead} (h : lead? b = some l) :
    128 ≤ l.low.toNat ∧ l.high.toNat < 192 ∧
      (l.more = 0 ∧ b.toNat < 0x80 ∧ l.bits = b.toNat ∨
        l.more = 1 ∧ 0xC2 ≤ b.toNat ∧ b.toNat < 0xE0 ∧ l.bits = b.toNat - 0xC0 ∨
        l.more = 2 ∧ 0xE0 ≤ b.toNat ∧ b.toNat < 0xF0 ∧ l.bits = b.toNat - 0xE0 ∧
          (b.toNat = 0xE0 → 0xA0 ≤ l.low.toNat) ∧ (b.toNat = 0xED → l.high.toNat < 0xA0) ∨
        l.more = 3 ∧ 0xF0 ≤ b.toNat ∧ b.toNat ≤ 0xF4 ∧ l.bits = b.toNat - 0xF0 ∧
          (b.toNat = 0xF0 → 0x90 ≤ l.low.toNat) ∧ (b.toNat = 0xF4 → l.high.toNat < 0x90)) := by
  have hb := lead?_ofNat b.toNat_lt
  rw [UInt8.ofNat_toNat, h] at hb
  repeat' split at hb
  all_goals cases hb
  all_goals simp only [UInt8.reduceToNat, true_and, and_true]; omega

theorem toNat_char {n : Nat} (h : n < 0xD800 ∨ 0xE000 ≤ n ∧ n < 0x110000) :
    (Char.ofNat n).val.toNat = n := by
  have hvalid : n.isValidChar := h.imp_right fun h => ⟨Nat.lt_of_succ_le h.1, h.2⟩
  rw [Char.ofNat, dif_pos hvalid]
  rfl

/-- The four forms that a character is written in. -/
theorem encodeChar_one {n : Nat} (hn : n < 0x80) :
    String.utf8EncodeChar (Char.ofNat n) = [UInt8.ofNat n] := by
  have hcode := toNat_char (n := n) (by omega)
  simp only [String.utf8EncodeChar, hcode, if_pos (show n ≤ 0x7F by omega)]

theorem encodeChar_two {n v : Nat} (hn : 0xC2 ≤ n ∧ n < 0xE0) (hv : v < 64) :
    String.utf8EncodeChar (Char.ofNat ((n - 0xC0) * 64 + v)) =
      [UInt8.ofNat n, UInt8.ofNat (v + 128)] := by
  generalize hk : (n - 0xC0) * 64 + v = k
  have hcode := toNat_char (n := k) (by omega)
  have hlead : k / 64 % 32 + 192 = n := by omega
  have htail : k % 64 = v := by omega
  simp only [String.utf8EncodeChar, hcode, if_neg (show ¬ k ≤ 0x7F by omega),
    if_pos (show k ≤ 0x7FF by omega), hlead, htail]

theorem encodeChar_three {n v w : Nat} (hn : 0xE0 ≤ n ∧ n < 0xF0) (hv : v < 64) (hw : w < 64)
    (hlow : n = 0xE0 → 32 ≤ v) (hhigh : n = 0xED → v < 32) :
    String.utf8EncodeChar (Char.ofNat (((n - 0xE0) * 64 + v) * 64 + w)) =
      [UInt8.ofNat n, UInt8.ofNat (v + 128), UInt8.ofNat (w + 128)] := by
  generalize hk : ((n - 0xE0) * 64 + v) * 64 + w = k
  have hcode := toNat_char (n := k) (by omega)
  have hlead : k / 4096 % 16 + 224 = n := by omega
  have hsecond : k / 64 % 64 = v := by omega
  have htail : k % 64 = w := by omega
  simp only [String.utf8EncodeChar, hcode, if_neg (show ¬ k ≤ 0x7F by omega),
    if_neg (show ¬ k ≤ 0x7FF by omega), if_pos (show k ≤ 0xFFFF by omega), hlead, hsecond, htail]

theorem encodeChar_four {n v w x : Nat} (hn : 0xF0 ≤ n ∧ n ≤ 0xF4) (hv : v < 64) (hw : w < 64)
    (hx : x < 64) (hlow : n = 0xF0 → 16 ≤ v) (hhigh : n = 0xF4 → v < 16) :
    String.utf8EncodeChar (Char.ofNat ((((n - 0xF0) * 64 + v) * 64 + w) * 64 + x)) =
      [UInt8.ofNat n, UInt8.ofNat (v + 128), UInt8.ofNat (w + 128), UInt8.ofNat (x + 128)] := by
  generalize hk : (((n - 0xF0) * 64 + v) * 64 + w) * 64 + x = k
  have hcode := toNat_char (n := k) (by omega)
  have hlead : k / 262144 % 8 + 240 = n := by omega
  have hsecond : k / 4096 % 64 = v := by omega
  have hthird : k / 64 % 64 = w := by omega
  have htail : k % 64 = x := by omega
  simp only [String.utf8EncodeChar, hcode, if_neg (show ¬ k ≤ 0x7F by omega),
    if_neg (show ¬ k ≤ 0x7FF by omega), if_neg (show ¬ k ≤ 0xFFFF by omega), hlead, hsecond, hthird,
    htail]

/-- A character that is read is written with the bytes that it was read from. -/
theorem front_some {b : UInt8} {rest left : List UInt8} {c : Char}
    (h : front b rest = (some c, left)) : String.utf8EncodeChar c ++ left = b :: rest := by
  have hb : UInt8.ofNat b.toNat = b := UInt8.ofNat_toNat
  cases hl : lead? b with
  | none => simp [front, hl] at h
  | some l =>
    obtain ⟨code, hread, rfl⟩ :
        ∃ code, continued l.more l.low l.high l.bits rest = (some code, left) ∧ Char.ofNat code = c := by
      simp only [front, hl, Prod.mk.injEq, Option.map_eq_some_iff] at h
      obtain ⟨⟨code, hcode, hc⟩, hleft⟩ := h
      exact ⟨code, Prod.ext hcode hleft, hc⟩
    obtain ⟨hlow, hhigh, hform⟩ := lead?_some hl
    rcases hform with ⟨hmore, hn, hbits⟩ | ⟨hmore, hn, hn', hbits⟩ |
      ⟨hmore, hn, hn', hbits, hfirst, hlast⟩ | ⟨hmore, hn, hn', hbits, hfirst, hlast⟩ <;>
      rw [hmore, hbits] at hread
    · rw [continued_zero] at hread
      cases hread
      rw [encodeChar_one hn, hb]
      rfl
    · obtain ⟨v, tail, rfl, hv, -, -, hread⟩ := continued_some hlow hhigh hread
      rw [continued_zero] at hread
      cases hread
      rw [encodeChar_two ⟨hn, hn'⟩ hv, hb]
      rfl
    · obtain ⟨v, tail, rfl, hv, hv', hv'', hread⟩ := continued_some hlow hhigh hread
      obtain ⟨w, tail, rfl, hw, -, -, hread⟩ := continued_some (by decide) (by decide) hread
      rw [continued_zero] at hread
      cases hread
      rw [encodeChar_three ⟨hn, hn'⟩ hv hw (by omega) (by omega), hb]
      rfl
    · obtain ⟨v, tail, rfl, hv, hv', hv'', hread⟩ := continued_some hlow hhigh hread
      obtain ⟨w, tail, rfl, hw, -, -, hread⟩ := continued_some (by decide) (by decide) hread
      obtain ⟨x, tail, rfl, hx, -, -, hread⟩ := continued_some (by decide) (by decide) hread
      rw [continued_zero] at hread
      cases hread
      rw [encodeChar_four ⟨hn, hn'⟩ hv hw hx (by omega) (by omega), hb]
      rfl

theorem encode_decode? {bytes : List UInt8} {text : List Char} (h : decode? bytes = some text) :
    encode text = bytes := by
  fun_induction decode? bytes generalizing text with
  | case1 =>
    cases h
    rfl
  | case2 => cases h
  | case3 b rest c hc ih =>
    obtain ⟨tail, htail, rfl⟩ := Option.map_eq_some_iff.mp h
    have hfront := front_some (Prod.ext hc rfl)
    rw [encode, List.flatMap_cons, ← encode, ih htail, hfront]

/-- A text that is read has the bytes that it was read from. -/
theorem ofString_of_toString? {bytes : List UInt8} {s : String} (h : toString? bytes = some s) :
    ofString s = bytes := by
  obtain ⟨text, htext, rfl⟩ := Option.map_eq_some_iff.mp h
  rw [ofString, String.toList_ofList, encode_decode? htext]

/-! ### Line feeds -/

@[simp] theorem encode_append (front back : List Char) : encode (front ++ back) = encode front ++ encode back := by
  simp [encode]

@[simp] theorem encode_nil : encode [] = [] := rfl

@[simp] theorem encode_lineFeed (behind : List Char) : encode ('\n' :: behind) = 0x0A :: encode behind := rfl

/-- The byte of a line feed is part of no other character. -/
theorem lineFeed_mem_encodeChar {c : Char} (h : 0x0A ∈ String.utf8EncodeChar c) : c = '\n' := by
  have hbyte : ∀ n, (0x0A : UInt8) = UInt8.ofNat n → n % 256 = 10 := by
    intro n hn
    simpa using (congrArg UInt8.toNat hn).symm
  simp only [String.utf8EncodeChar] at h
  split_ifs at h <;> simp only [List.mem_cons, List.not_mem_nil, or_false] at h
  · have hcode : c.val.toNat = '\n'.val.toNat := by
      have := hbyte _ h
      simp only [Char.reduceVal, UInt32.reduceToNat]
      omega
    exact Char.toNat_inj.mp hcode
  · rcases h with h | h <;> have := hbyte _ h <;> omega
  · rcases h with h | h | h <;> have := hbyte _ h <;> omega
  · rcases h with h | h | h | h <;> have := hbyte _ h <;> omega

theorem lineFeed_not_mem_encode {cs : List Char} (h : '\n' ∉ cs) : 0x0A ∉ encode cs := by
  intro hmem
  obtain ⟨c, hc, hbyte⟩ := List.mem_flatMap.mp hmem
  exact h (lineFeed_mem_encodeChar hbyte ▸ hc)

end SciArchive.Utf8
