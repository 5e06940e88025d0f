/-! Reading an open file from place to place. Bytes are fetched ahead of their use, and what was fetched
stays as it was when the file is written anew. -/
namespace SciArchive

/-- A place in a file: `rest` are the bytes from `offset` on, of which the first `held` were fetched, or
all if they are fewer. -/
structure Cursor where
  content : List UInt8
  rest : List UInt8
  offset : Nat := 0
  held : Nat := 0
  deriving DecidableEq, Repr

namespace Cursor

/-- How many bytes are fetched at once. -/
def chunk : Nat := 8192

def new (content : List UInt8) : Cursor := { content, rest := content }

/-- Go to an offset. What was fetched is given up. -/
def seek (c : Cursor) (offset : Nat) : Cursor :=
  { c with rest := c.content.drop offset, offset, held := 0 }

/-- Use the next `n` bytes, for which `more` are fetched. -/
def advance (c : Cursor) (n more : Nat) : Cursor :=
  { c with rest := c.rest.drop n, offset := c.offset + n, held := c.held + more - n }

/-- Pass over a line of `n` bytes. Chunks are fetched up to its end. -/
def passLine (c : Cursor) (n : Nat) : Cursor :=
  c.advance n ((n - c.held + (chunk - 1)) / chunk * chunk)

/-- The next `n` bytes, or those that are left. What is missing of a chunk or more is fetched alone, and
less as the beginning of a chunk. -/
def take (c : Cursor) (n : Nat) : List UInt8 × Cursor :=
  let bytes := c.rest.take n
  let missing := n - c.held
  (bytes, c.advance bytes.length (if missing = 0 then 0 else max missing chunk))

/-- The same place after the file may have been written anew. -/
def refresh (c : Cursor) (content : List UInt8) : Cursor :=
  let kept := c.rest.take c.held
  { c with content, rest := kept ++ content.drop (c.offset + kept.length), held := kept.length }

@[simp] theorem advance_rest (c : Cursor) (n more : Nat) : (c.advance n more).rest = c.rest.drop n := rfl

@[simp] theorem passLine_rest (c : Cursor) (n : Nat) : (c.passLine n).rest = c.rest.drop n := rfl

@[simp] theorem take_bytes (c : Cursor) (n : Nat) : (c.take n).1 = c.rest.take n := rfl

@[simp] theorem take_rest (c : Cursor) (n : Nat) : (c.take n).2.rest = c.rest.drop n := by
  simp only [take, advance_rest, List.length_take]
  rcases Nat.le_total n c.rest.length with h | h
  · rw [Nat.min_eq_left h]
  · rw [Nat.min_eq_right h, List.drop_length, List.drop_eq_nil_of_le h]

end Cursor
end SciArchive
