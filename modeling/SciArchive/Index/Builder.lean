import SciArchive.Index.Basic

/-! Building an index from the keys of records met in file order. -/
namespace SciArchive

/-- `current` is the key of the record met last. -/
structure IndexBuilder where
  entries : List IndexEntry := []
  current : Option String := none
  violations : UInt64 := 0
  deriving DecidableEq, Repr

namespace IndexBuilder

def has (b : IndexBuilder) (key : String) : Bool := b.entries.any fun e => e.key = key

/-- Change the entry of `key`. -/
def update (b : IndexBuilder) (key : String) (f : IndexEntry → IndexEntry) : IndexBuilder :=
  { b with entries := b.entries.map fun e => if e.key = key then f e else e }

/-- Meet a record of `key` at `offset`. Records of one key should be adjacent: a key that returns
after another one is a violation, and its entry is no longer contiguous. -/
def observe (b : IndexBuilder) (key : String) (offset : UInt64) : IndexBuilder :=
  if b.current = some key then b.update key fun e => { e with count := e.count + 1 }
  else if b.has key then
    { b.update key fun e => { e with count := e.count + 1, contiguous := false } with
      current := some key, violations := b.violations + 1 }
  else
    { b with entries := b.entries ++ [IndexEntry.first key offset], current := some key }

/-- Note where the catalog describes `key`; a key without records takes no note. -/
def annotate (b : IndexBuilder) (key : String) (offset : UInt64) : Bool × IndexBuilder :=
  (b.has key, b.update key fun e => { e with catalogOffset := some offset })

def finish (b : IndexBuilder) : SecondaryIndex := ⟨b.entries, b.violations⟩

end IndexBuilder
end SciArchive
