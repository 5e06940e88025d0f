/-! Decimal integers in text: an optional sign and one or more ASCII digits, leading zeros allowed. -/
namespace SciArchive.Text

def digit? (c : Char) : Option Nat := if c.isDigit then some (c.toNat - '0'.toNat) else none

/-- The number that the digits `cs` continue, `acc` being read already. -/
def digitsFrom? (acc : Nat) : List Char → Option Nat
  | [] => some acc
  | c :: cs =>
    match digit? c with
    | none => none
    | some d => digitsFrom? (10 * acc + d) cs

/-- One or more digits and nothing else. -/
def digits? : List Char → Option Nat
  | [] => none
  | cs => digitsFrom? 0 cs

/-- Digits with an optional plus sign, below `2 ^ 64`. -/
def natural? (cs : List Char) : Option Nat :=
  let n := match cs with
    | '+' :: rest => digits? rest
    | _ => digits? cs
  n.filter (· < UInt64.size)

/-- Digits with an optional sign, in the range of a signed word of `bits` bits. -/
def integer? (bits : Nat) (cs : List Char) : Option Int :=
  let n := match cs with
    | '+' :: rest => (digits? rest).map Int.ofNat
    | '-' :: rest => (digits? rest).map fun n => -(n : Int)
    | _ => (digits? cs).map Int.ofNat
  let bound : Int := Nat.pow 2 (bits - 1)
  n.filter fun n => decide (-bound ≤ n ∧ n < bound)

/-- Equal but for the case of ASCII letters. -/
def equalIgnoringCase (a b : String) : Bool :=
  a.toList.map Char.toLower == b.toList.map Char.toLower

end SciArchive.Text
