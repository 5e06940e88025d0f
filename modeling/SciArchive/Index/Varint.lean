import SciArchive.Fault

/-! Variable-length words: seven bits a byte, low bits first, the top bit of a byte telling that more
follow. `decode` also says where it stopped, in success and in failure. -/
namespace SciArchive.Varint

/-- The groups of `n`; all but the last carry the top bit. -/
def groups (n : Nat) : List UInt8 :=
  if n < 128 then [UInt8.ofNat n] else UInt8.ofNat (n % 128 + 128) :: groups (n / 128)

def encode (value : UInt64) : List UInt8 := groups value.toNat

/-- The bits below the top one. -/
def payload (b : UInt8) : UInt64 := (b &&& 0x7F).toUInt64

/-- Add the groups of `bytes` to `sum`, the first of them `shift` bits up. The shift is a word of 32 bits, which
wraps, and a payload is shifted by it modulo 64; only a group that would overflow where the word ends is refused. -/
def decodeFrom (sum : UInt64) (shift : UInt32) : List UInt8 → Except IndexFlaw UInt64 × List UInt8
  | [] => (.error .truncatedVarint, [])
  | b :: rest =>
    if 63 ≤ shift ∧ 1 < payload b then (.error .varintOverflow, rest)
    else
      let sum := sum ||| payload b <<< shift.toUInt64
      if b &&& 0x80 = 0 then (.ok sum, rest) else decodeFrom sum (shift + 7) rest

/-- Whether `decodeFrom` shifts a payload by as many bits as a word has or more. A build that checks its shifts
stops there. -/
def overruns (shift : UInt32) : List UInt8 → Bool
  | [] => false
  | b :: rest =>
    if 63 ≤ shift ∧ 1 < payload b then false
    else if 64 ≤ shift then true
    else b &&& 0x80 ≠ 0 && overruns (shift + 7) rest

/-- A word at the front, and the bytes behind the last one looked at. -/
def decode (bytes : List UInt8) : Except IndexFlaw UInt64 × List UInt8 := decodeFrom 0 0 bytes

/-- A word at the front with what follows it, or the reason why there is none. -/
def take (bytes : List UInt8) : Except IndexFlaw (UInt64 × List UInt8) :=
  (decode bytes).1.map fun value => (value, (decode bytes).2)

theorem decodeFrom_length (sum : UInt64) (shift : UInt32) (bytes : List UInt8) (value : UInt64)
    (h : (decodeFrom sum shift bytes).1 = .ok value) :
    (decodeFrom sum shift bytes).2.length < bytes.length := by
  fun_induction decodeFrom sum shift bytes with
  | case1 => simp at h
  | case2 => simp at h
  | case3 => simp
  | case4 sum shift b rest _ sum' _ ih => exact Nat.lt_succ_of_lt (ih h)

theorem take_length {bytes rest : List UInt8} {value : UInt64}
    (h : take bytes = .ok (value, rest)) : rest.length < bytes.length := by
  unfold take at h
  cases hd : (decode bytes).1 with
  | error e => simp [hd, Except.map] at h
  | ok v =>
    simp only [hd, Except.map, Except.ok.injEq, Prod.mk.injEq] at h
    rw [← h.2]
    exact decodeFrom_length 0 0 bytes v hd

end SciArchive.Varint
