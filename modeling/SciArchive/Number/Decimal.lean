import SciArchive.Number.Format
import SciArchive.Text.Numeral

/-! Reading decimal text into a floating-point word: an optional sign, then digits with an optional point
and an optional exponent, or the names of infinity and of no number in any case. -/
namespace SciArchive

/-- The number `digits * 10 ^ power`, up to its sign, or a name. -/
inductive DecimalText where
  | nan
  | infinite
  | number (digits : Nat) (power : Int)
  deriving DecidableEq, Repr

namespace DecimalText

def exponent? : List Char → Option Int
  | '+' :: cs => (Text.digits? cs).map Int.ofNat
  | '-' :: cs => (Text.digits? cs).map fun n => -(n : Int)
  | cs => (Text.digits? cs).map Int.ofNat

/-- What follows the digits: nothing, or a letter `e` with an exponent. -/
def tail? : List Char → Option Int
  | [] => some 0
  | c :: cs => if c = 'e' ∨ c = 'E' then exponent? cs else none

/-- At least one digit must stand before or behind the point. -/
def number? (cs : List Char) : Option DecimalText :=
  let whole := cs.takeWhile Char.isDigit
  let rest := cs.dropWhile Char.isDigit
  let part := match rest with
    | '.' :: after => (after.takeWhile Char.isDigit, after.dropWhile Char.isDigit)
    | _ => ([], rest)
  match Text.digits? (whole ++ part.1), tail? part.2 with
  | some digits, some power => some (.number digits (power - part.1.length))
  | _, _ => none

/-- The text behind the sign. -/
def unsigned? (cs : List Char) : Option DecimalText :=
  let name := String.ofList (cs.map Char.toLower)
  if name = "nan" then some .nan
  else if name = "inf" ∨ name = "infinity" then some .infinite
  else number? cs

/-- The word nearest to the number. Powers that put it beyond all words, or below the half of the
smallest, are not formed. -/
def toWord (f : FloatFormat) (negative : Bool) : DecimalText → Nat
  | nan => f.quiet
  | infinite => (if negative then f.signUnit else 0) + f.infinity
  | number digits power =>
    let sign := if negative then f.signUnit else 0
    if digits = 0 then sign
    else
      let length : Int := digits.repr.length
      if 400 < length + power then sign + f.infinity
      else if length + power < -400 then sign
      else f.ofRatio negative (digits * Nat.pow 10 power.toNat) (Nat.pow 10 (-power).toNat)

end DecimalText

namespace FloatFormat

def ofText? (f : FloatFormat) (cs : List Char) : Option Nat :=
  let read (negative : Bool) (cs : List Char) :=
    (DecimalText.unsigned? cs).map (DecimalText.toWord f negative)
  match cs with
  | '-' :: rest => read true rest
  | '+' :: rest => read false rest
  | _ => read false cs

end FloatFormat
end SciArchive
