/-! Blank characters, trimming and words. The table is the White_Space property. -/
namespace SciArchive.Text

/-- Inclusive ranges of code points. -/
def blankRanges : List (Nat × Nat) :=
  [(0x09, 0x0D), (0x20, 0x20), (0x85, 0x85), (0xA0, 0xA0), (0x1680, 0x1680), (0x2000, 0x200A),
   (0x2028, 0x2029), (0x202F, 0x202F), (0x205F, 0x205F), (0x3000, 0x3000)]

def isBlank (c : Char) : Bool :=
  blankRanges.any fun r => decide (r.1 ≤ c.toNat ∧ c.toNat ≤ r.2)

/-- Drop what satisfies `p` from the end. -/
def dropEnd (p : Char → Bool) (cs : List Char) : List Char := (cs.reverse.dropWhile p).reverse

def trim (cs : List Char) : List Char := dropEnd isBlank (cs.dropWhile isBlank)

def isAllBlank (cs : List Char) : Bool := cs.all isBlank

/-- The stretches between blanks, in order; none is empty. -/
def words (cs : List Char) : List (List Char) :=
  (cs.splitOnP isBlank).filter fun w => !w.isEmpty

example : (blankRanges.map fun r => r.2 - r.1 + 1).sum = 25 := rfl

end SciArchive.Text
