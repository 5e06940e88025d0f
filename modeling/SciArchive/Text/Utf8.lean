/-! Characters in bytes. `decode?` reads a well-formed text and nothing else; `decodeLossy` reads any
bytes and puts one replacement character for each longest stretch that could have begun a character. -/
namespace SciArchive.Utf8

/-- What a first byte announces: how many bytes follow, the range of the next one, and its own bits. -/
structure Lead where
  more : Nat
  low : UInt8
  high : UInt8
  bits : Nat

/-- Ranges of the second byte exclude overlong forms, surrogates and codes past the last character. -/
def lead? (b : UInt8) : Option Lead :=
  if b < 0x80 then some ⟨0, 0x80, 0xBF, b.toNat⟩
  else if b < 0xC2 then none
  else if b < 0xE0 then some ⟨1, 0x80, 0xBF, b.toNat - 0xC0⟩
  else if b = 0xE0 then some ⟨2, 0xA0, 0xBF, 0⟩
  else if b = 0xED then some ⟨2, 0x80, 0x9F, 0x0D⟩
  else if b < 0xF0 then some ⟨2, 0x80, 0xBF, b.toNat - 0xE0⟩
  else if b = 0xF0 then some ⟨3, 0x90, 0xBF, 0⟩
  else if b < 0xF4 then some ⟨3, 0x80, 0xBF, b.toNat - 0xF0⟩
  else if b = 0xF4 then some ⟨3, 0x80, 0x8F, 4⟩
  else none

/-- Take in the announced bytes; stops in front of the first that does not fit. -/
def continued : Nat → UInt8 → UInt8 → Nat → List UInt8 → Option Nat × List UInt8
  | 0, _, _, code, rest => (some code, rest)
  | _ + 1, _, _, _, [] => (none, [])
  | n + 1, low, high, code, b :: rest =>
    if low ≤ b ∧ b ≤ high then continued n 0x80 0xBF (code * 64 + (b.toNat - 0x80)) rest
    else (none, b :: rest)

/-- The character that `b` begins, none if the stretch is ill-formed, and the bytes behind it. -/
def front (b : UInt8) (rest : List UInt8) : Option Char × List UInt8 :=
  match lead? b with
  | none => (none, rest)
  | some l => let r := continued l.more l.low l.high l.bits rest; (r.1.map Char.ofNat, r.2)

theorem continued_length_le (n : Nat) (low high : UInt8) (code : Nat) (rest : List UInt8) :
    (continued n low high code rest).2.length ≤ rest.length := by
  fun_induction continued n low high code rest with
  | case1 => exact Nat.le_refl _
  | case2 => exact Nat.le_refl _
  | case3 n low high code b rest h ih => exact Nat.le_succ_of_le ih
  | case4 => exact Nat.le_refl _

theorem front_length_le (b : UInt8) (rest : List UInt8) :
    (front b rest).2.length ≤ rest.length := by
  unfold front
  split
  · exact Nat.le_refl _
  · exact continued_length_le _ _ _ _ _

/-- The characters of a well-formed text. -/
def decode? : List UInt8 → Option (List Char)
  | [] => some []
  | b :: rest =>
    match (front b rest).1 with
    | none => none
    | some c => (decode? (front b rest).2).map (c :: ·)
termination_by bytes => bytes.length
decreasing_by exact Nat.lt_succ_of_le (front_length_le b rest)

def replacement : Char := Char.ofNat 0xFFFD

def decodeLossy : List UInt8 → List Char
  | [] => []
  | b :: rest => (front b rest).1.getD replacement :: decodeLossy (front b rest).2
termination_by bytes => bytes.length
decreasing_by exact Nat.lt_succ_of_le (front_length_le b rest)

def encode (text : List Char) : List UInt8 := text.flatMap String.utf8EncodeChar

def ofString (s : String) : List UInt8 := encode s.toList

def toString? (bytes : List UInt8) : Option String := (decode? bytes).map String.ofList

end SciArchive.Utf8
