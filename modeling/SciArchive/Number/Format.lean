/-! Binary floating-point words: what number a word stands for, which word is nearest to a ratio, and
when two words stand for equal numbers. All arithmetic is exact, on natural numbers. -/
namespace SciArchive

/-- Widths of the stored fraction and of the exponent, in bits. -/
structure FloatFormat where
  fraction : Nat
  exponent : Nat
  deriving DecidableEq, Repr

/-- What a word stands for; a finite one is `significand * 2 ^ power`, up to its sign. -/
inductive Unpacked where
  | nan
  | infinite (negative : Bool)
  | finite (negative : Bool) (significand : Nat) (power : Int)
  deriving DecidableEq, Repr

namespace FloatFormat

def single : FloatFormat := ⟨23, 8⟩
def double : FloatFormat := ⟨52, 11⟩

/-- One past the largest magnitude field. -/
def signUnit (f : FloatFormat) : Nat := Nat.pow 2 (f.fraction + f.exponent)

def infinity (f : FloatFormat) : Nat := (Nat.pow 2 f.exponent - 1) * Nat.pow 2 f.fraction

/-- A quiet word that is no number. -/
def quiet (f : FloatFormat) : Nat := f.infinity + Nat.pow 2 (f.fraction - 1)

/-- The power of the last place of the smallest numbers. -/
def leastPower (f : FloatFormat) : Int := 2 - Nat.pow 2 (f.exponent - 1) - f.fraction

def isNegative (f : FloatFormat) (word : Nat) : Bool := decide (f.signUnit ≤ word)

def magnitude (f : FloatFormat) (word : Nat) : Nat := word % f.signUnit

def isNaN (f : FloatFormat) (word : Nat) : Bool := decide (f.infinity < f.magnitude word)

def unpack (f : FloatFormat) (word : Nat) : Unpacked :=
  let size := f.magnitude word
  if f.infinity < size then .nan
  else if size = f.infinity then .infinite (f.isNegative word)
  else
    let field := size / Nat.pow 2 f.fraction
    let fraction := size % Nat.pow 2 f.fraction
    if field = 0 then .finite (f.isNegative word) fraction f.leastPower
    else .finite (f.isNegative word) (Nat.pow 2 f.fraction + fraction) (f.leastPower + (field - 1))

/-- Equality of numbers: nothing equals a NaN, and both zeros are equal. -/
def same (f : FloatFormat) (a b : Nat) : Bool :=
  !f.isNaN a && !f.isNaN b && (a == b || (f.magnitude a == 0 && f.magnitude b == 0))

/-- `num / den` to the nearest whole number, a half to the even one. -/
def roundDiv (num den : Nat) : Nat :=
  let q := num / den
  let twice := 2 * (num % den)
  if den < twice ∨ (twice = den ∧ q % 2 = 1) then q + 1 else q

/-- The greatest `k` with `2 ^ k ≤ num / den`. -/
def floorLog2 (num den : Nat) : Int :=
  let k : Int := (num.log2 : Int) - den.log2
  if den <<< k.toNat ≤ num <<< (-k).toNat then k else k - 1

/-- The word nearest to `num / den`, a tie to the even word; past the largest number, infinity. The
sum of exponent field and significand carries into the next exponent by itself. -/
def ofRatio (f : FloatFormat) (negative : Bool) (num den : Nat) : Nat :=
  let size :=
    if num = 0 then 0
    else
      let power := max (floorLog2 num den - f.fraction) f.leastPower
      let significand := roundDiv (num <<< (-power).toNat) (den <<< power.toNat)
      (power - f.leastPower).toNat * Nat.pow 2 f.fraction + significand
  (if negative then f.signUnit else 0) + min size f.infinity

def ofInt (f : FloatFormat) (n : Int) : Nat := f.ofRatio (decide (n < 0)) n.natAbs 1

/-- The word of format `g` nearest to the number of a word of format `f`. -/
def convert (f g : FloatFormat) (word : Nat) : Nat :=
  match f.unpack word with
  | .nan => g.quiet
  | .infinite negative => (if negative then g.signUnit else 0) + g.infinity
  | .finite negative significand power =>
    g.ofRatio negative (significand <<< power.toNat) (1 <<< (-power).toNat)

end FloatFormat
end SciArchive
