import SciArchive.Index.Entry

/-! An index from keys to the places of their records, in the order in which keys were first seen, and
its file form: a mark, a version, the number of entries, and each entry behind its length. -/
namespace SciArchive

/-- `violations` counts how often a key came back after another one; of a loaded index, the entries
that are not contiguous. -/
structure SecondaryIndex where
  entries : List IndexEntry
  violations : UInt64
  deriving DecidableEq, Repr

namespace SecondaryIndex

def get? (ix : SecondaryIndex) (key : String) : Option IndexEntry :=
  ix.entries.find? fun e => e.key = key

def keys (ix : SecondaryIndex) : List String := ix.entries.map IndexEntry.key

/-- The letters `CDMRIDX`. -/
def mark : List UInt8 := [0x43, 0x44, 0x4D, 0x52, 0x49, 0x44, 0x58]

def version : UInt8 := 1

def encodeEntry (e : IndexEntry) : List UInt8 :=
  Varint.encode (UInt64.ofNat e.encode.length) ++ e.encode

def toBytes (ix : SecondaryIndex) : List UInt8 :=
  mark ++ [version] ++ Varint.encode (UInt64.ofNat ix.entries.length)
    ++ ix.entries.flatMap encodeEntry

/-- An index of given entries, as a reader of the file sees it. -/
def ofEntries (entries : List IndexEntry) : SecondaryIndex :=
  ⟨entries, UInt64.ofNat (entries.countP fun e => !e.contiguous)⟩

/-- Read `n` more entries behind those in `seen`; no key may return. -/
def takeEntries (seen : List IndexEntry) :
    Nat → List UInt8 → Except IndexFlaw (List IndexEntry × List UInt8)
  | 0, bytes => .ok (seen, bytes)
  | n + 1, bytes =>
    match IndexEntry.takeBytes bytes .entryPastFile with
    | .error e => .error e
    | .ok (body, rest) =>
      match IndexEntry.decode body with
      | .error e => .error e
      | .ok entry =>
        if seen.any fun e => e.key = entry.key then .error (.duplicateKey entry.key)
        else takeEntries (seen ++ [entry]) n rest

def ofBytes (bytes : List UInt8) : Except IndexFlaw SecondaryIndex :=
  if !mark.isPrefixOf bytes then .error .badMagic
  else
    match bytes.drop mark.length with
    | [] => .error .missingVersion
    | v :: rest =>
      if v ≠ version then .error (.unsupportedVersion v)
      else
        match Varint.take rest with
        | .error e => .error e
        | .ok (count, rest) =>
          match takeEntries [] count.toNat rest with
          | .error e => .error e
          | .ok (entries, []) => .ok (ofEntries entries)
          | .ok (_, rest) => .error (.trailingBytes rest.length)

end SecondaryIndex
end SciArchive
