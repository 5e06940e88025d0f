import SciArchive.Index.Varint
import SciArchive.Text.Utf8

/-! One entry of an index and its written form: a run of tagged fields, each a word or a counted string
of bytes. A field that the reader does not know is passed over. -/
namespace SciArchive

/-- Where the records of one key lie. -/
structure IndexEntry where
  key : String
  offset : UInt64
  count : UInt64
  catalogOffset : Option UInt64 := none
  contiguous : Bool := true
  deriving DecidableEq, Repr

namespace IndexEntry

/-- The entry of a key seen once. -/
def first (key : String) (offset : UInt64) : IndexEntry := ⟨key, offset, 1, none, true⟩

/-! ### Tagged fields -/

inductive Payload where
  | word (value : UInt64)
  | bytes (value : List UInt8)
  deriving DecidableEq, Repr

/-- A field number with its payload. -/
structure TaggedField where
  number : UInt64
  payload : Payload
  deriving DecidableEq, Repr

def Payload.wire : Payload → UInt64
  | word _ => 0
  | bytes _ => 2

def Payload.encode : Payload → List UInt8
  | word value => Varint.encode value
  | bytes value => Varint.encode (UInt64.ofNat value.length) ++ value

def TaggedField.encode (f : TaggedField) : List UInt8 :=
  Varint.encode ((f.number <<< 3) ||| f.payload.wire) ++ f.payload.encode

/-- Bytes behind their count. -/
def takeBytes (bytes : List UInt8) (short : IndexFlaw) :
    Except IndexFlaw (List UInt8 × List UInt8) :=
  match Varint.take bytes with
  | .error e => .error e
  | .ok (n, rest) =>
    if n.toNat ≤ rest.length then .ok (rest.take n.toNat, rest.drop n.toNat) else .error short

def takeField (bytes : List UInt8) : Except IndexFlaw (TaggedField × List UInt8) :=
  match Varint.take bytes with
  | .error e => .error e
  | .ok (tag, rest) =>
    let number := tag >>> 3
    let wire := tag &&& 7
    if wire = 0 then (Varint.take rest).map fun r => (⟨number, .word r.1⟩, r.2)
    else if wire = 2 then
      (takeBytes rest .lengthPastEntry).map fun r => (⟨number, .bytes r.1⟩, r.2)
    else .error (.unknownWire wire number)

theorem takeBytes_length {bytes taken rest : List UInt8} {short : IndexFlaw}
    (h : takeBytes bytes short = .ok (taken, rest)) : rest.length < bytes.length := by
  unfold takeBytes at h
  split at h
  · cases h
  · rename_i n after hn
    split at h
    · cases h
      have := Varint.take_length hn
      simp only [List.length_drop]
      omega
    · cases h

theorem takeField_length {bytes rest : List UInt8} {f : TaggedField}
    (h : takeField bytes = .ok (f, rest)) : rest.length < bytes.length := by
  unfold takeField at h
  split at h
  · cases h
  · rename_i tag after htag
    have shorter := Varint.take_length htag
    simp only at h
    split at h
    · cases hw : Varint.take after with
      | error e => simp [hw, Except.map] at h
      | ok r =>
        simp only [hw, Except.map, Except.ok.injEq, Prod.mk.injEq] at h
        have := @Varint.take_length after r.2 r.1 hw
        rw [← h.2]
        omega
    · split at h
      · cases hw : takeBytes after .lengthPastEntry with
        | error e => simp [hw, Except.map] at h
        | ok r =>
          simp only [hw, Except.map, Except.ok.injEq, Prod.mk.injEq] at h
          have := @takeBytes_length after r.1 r.2 _ hw
          rw [← h.2]
          omega
      · cases h

/-! ### Entries -/

/-- The fields that stand for an entry, in written order. -/
def fields (e : IndexEntry) : List TaggedField :=
  [⟨1, .bytes (Utf8.ofString e.key)⟩, ⟨2, .word e.offset⟩, ⟨3, .word e.count⟩]
    ++ (e.catalogOffset.map fun c => ⟨4, .word c⟩).toList
    ++ (if e.contiguous then [] else [⟨5, .word 1⟩])

def encode (e : IndexEntry) : List UInt8 := e.fields.flatMap TaggedField.encode

/-- What the fields read so far tell; a later field overrides an earlier one. -/
structure Draft where
  key : Option String := none
  offset : Option UInt64 := none
  count : Option UInt64 := none
  catalogOffset : Option UInt64 := none
  contiguous : Bool := true

def Draft.add (d : Draft) (f : TaggedField) : Except IndexFlaw Draft :=
  match f.payload with
  | .bytes value =>
    if f.number = 1 then
      match Utf8.toString? value with
      | none => .error .keyNotText
      | some key => .ok { d with key := some key }
    else .ok d
  | .word value =>
    if f.number = 2 then .ok { d with offset := some value }
    else if f.number = 3 then .ok { d with count := some value }
    else if f.number = 4 then .ok { d with catalogOffset := some value }
    else if f.number = 5 then .ok { d with contiguous := value == 0 }
    else .ok d

/-- Key, offset and count are required. -/
def Draft.finish (d : Draft) : Except IndexFlaw IndexEntry :=
  match d.key, d.offset, d.count with
  | none, _, _ => .error (.missingPart "key")
  | _, none, _ => .error (.missingPart "offset")
  | _, _, none => .error (.missingPart "count")
  | some key, some offset, some count => .ok ⟨key, offset, count, d.catalogOffset, d.contiguous⟩

def Draft.read (d : Draft) (bytes : List UInt8) : Except IndexFlaw Draft :=
  if bytes = [] then .ok d
  else
    match _h : takeField bytes with
    | .error e => .error e
    | .ok (f, rest) =>
      match d.add f with
      | .error e => .error e
      | .ok d => d.read rest
termination_by bytes.length
decreasing_by exact takeField_length _h

def decode (bytes : List UInt8) : Except IndexFlaw IndexEntry :=
  (Draft.read {} bytes).bind Draft.finish

end IndexEntry
end SciArchive
