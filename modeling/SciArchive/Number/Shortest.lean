import SciArchive.Number.Format

/-! The decimal text of a floating-point word: the fewest digits that read back to it, the nearest to it
among those, laid out without an exponent. -/
namespace SciArchive

/-- The number `digits * 10 ^ power`. -/
structure ShortDecimal where
  digits : Nat
  power : Int
  deriving DecidableEq, Repr

namespace ShortDecimal

/-- A fraction of natural numbers, the denominator positive. -/
structure Ratio where
  num : Nat
  den : Nat

/-- `n * 2 ^ p2 * 10 ^ p10`. -/
def Ratio.scaled (n : Nat) (p2 p10 : Int) : Ratio :=
  ⟨n * Nat.pow 2 p2.toNat * Nat.pow 10 p10.toNat, Nat.pow 2 (-p2).toNat * Nat.pow 10 (-p10).toNat⟩

/-- The greatest `k` with `10 ^ k ≤ num / den`, searched down from `top`. -/
def floorLog10 (r : Ratio) : Nat → Int → Int
  | 0, top => top
  | steps + 1, top =>
    if Nat.pow 10 top.toNat * r.den ≤ r.num * Nat.pow 10 (-top).toNat then top
    else floorLog10 r steps (top - 1)

/-- The reals nearest to the number `significand * 2 ^ power`: in quarters of its last place, how far
they reach down, and whether the ends belong to them. -/
structure Reach where
  significand : Nat
  power : Int
  down : Nat
  closed : Bool

/-- Below a power of two the words lie twice as close. -/
def Reach.of (f : FloatFormat) (significand : Nat) (power : Int) : Reach :=
  ⟨significand, power, if significand = Nat.pow 2 f.fraction then 1 else 2, significand % 2 == 0⟩

/-- Whether `digits * 10 ^ p` lies in the reach; both sides are scaled to whole numbers. -/
def Reach.contains (r : Reach) (digits : Nat) (p : Int) : Bool :=
  let point := digits * 4 * Nat.pow 10 p.toNat * Nat.pow 2 (-r.power).toNat
  let scale := Nat.pow 2 r.power.toNat * Nat.pow 10 (-p).toNat
  let low := (4 * r.significand - r.down) * scale
  let high := (4 * r.significand + 2) * scale
  if r.closed then decide (low ≤ point ∧ point ≤ high) else decide (low < point ∧ point < high)

/-- The neighbours of the number on the grid `10 ^ p`: the one below or the one above if only that is
in reach, the nearer one if both are, the upper one if they are equally near. -/
def onGrid? (r : Reach) (p : Int) : Option Nat :=
  let v := Ratio.scaled r.significand r.power (-p)
  let below := v.num / v.den
  let low := r.contains below p
  let high := r.contains (below + 1) p
  if low ∧ (!high ∨ 2 * (v.num % v.den) < v.den) then some below
  else if high then some (below + 1)
  else none

/-- The coarsest grid from `10 ^ p` on with a hit, in at most `steps` refinements. -/
def search (r : Reach) : Nat → Int → ShortDecimal
  | 0, p => ⟨(onGrid? r p).getD 0, p⟩
  | steps + 1, p =>
    match onGrid? r p with
    | some digits => ⟨digits, p⟩
    | none => search r steps (p - 1)

/-- The fewest digits that read back to a positive number of format `f`. The first grid is one coarser
than the number, since the next power of ten above it may be in reach. -/
def of (f : FloatFormat) (significand : Nat) (power : Int) : ShortDecimal :=
  let r := Ratio.scaled significand power 0
  search (Reach.of f significand power) 20 (floorLog10 r 800 400 + 1)

/-- Positional notation, with a point only in front of digits that are not all there. -/
def text (d : ShortDecimal) : List Char :=
  let digits := d.digits.repr.toList
  if 0 ≤ d.power then digits ++ List.replicate d.power.toNat '0'
  else
    let places := (-d.power).toNat
    if places < digits.length then
      digits.take (digits.length - places) ++ '.' :: digits.drop (digits.length - places)
    else '0' :: '.' :: List.replicate (places - digits.length) '0' ++ digits

end ShortDecimal

namespace FloatFormat

/-- The text of a word; a negative zero keeps its sign. -/
def text (f : FloatFormat) (word : Nat) : String :=
  let signed (negative : Bool) (cs : List Char) :=
    String.ofList (if negative then '-' :: cs else cs)
  match f.unpack word with
  | .nan => "NaN"
  | .infinite negative => signed negative ['i', 'n', 'f']
  | .finite negative 0 _ => signed negative ['0']
  | .finite negative significand power => signed negative (ShortDecimal.of f significand power).text

end FloatFormat
end SciArchive
