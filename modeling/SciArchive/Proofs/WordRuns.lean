import SciArchive.Proofs.WordValues

/-! Words one behind the other. A word is written with a byte for each group of seven bits, and only the last of
them is without the top bit. So no written word begins another, and a run of words comes apart again wherever
it stands. -/
namespace SciArchive.Varint

/-! ### Groups of seven bits -/

/-- The groups of a number, the lowest first; zero has one. -/
def sevens (n : Nat) : List Nat := if n = 0 then [0] else Nat.digits 128 n

theorem map_payload_groups (n : Nat) : (groups n).map (fun b => (payload b).toNat) = sevens n := by
  fun_induction groups n with
  | case1 n hn =>
    have hpayload : (payload (UInt8.ofNat n)).toNat = n := (payload_group hn).1
    by_cases hzero : n = 0
    · simp [sevens, hzero, payload]
    · rw [List.map_singleton, hpayload, sevens, if_neg hzero, Nat.digits_of_lt 128 n hzero hn]
  | case2 n hn ih =>
    have hpayload : (payload (UInt8.ofNat (n % 128 + 128))).toNat = n % 128 :=
      (payload_group (Nat.mod_lt n (by decide))).2
    have hzero : n ≠ 0 := by omega
    have hhigh : n / 128 ≠ 0 := by omega
    rw [List.map_cons, ih, hpayload, sevens, sevens, if_neg hzero, if_neg hhigh,
      Nat.digits_def' (by decide) (Nat.pos_of_ne_zero hzero)]

theorem toNat_shiftRight_seven (value : UInt64) : (value >>> 7).toNat = value.toNat / 128 := by
  rw [UInt64.toNat_shiftRight]
  exact Nat.shiftRight_eq_div_pow value.toNat 7

theorem toUInt8_low (value : UInt64) : (value &&& 0x7F).toUInt8 = UInt8.ofNat (value.toNat % 128) := by
  have hmask : (0x7F : UInt64).toNat = 2 ^ 7 - 1 := rfl
  refine UInt8.toNat_inj.mp ?_
  rw [UInt64.toNat_toUInt8, UInt64.toNat_and, hmask, Nat.and_two_pow_sub_one_eq_mod, UInt8.toNat_ofNat']

theorem or_top (m : Nat) (h : m < 128) : UInt8.ofNat m ||| 0x80 = UInt8.ofNat (m + 128) := by
  revert m
  decide

/-- The word as a machine writes it: the low bits of what is left, with the top bit if more is left behind a
shift. -/
theorem encode_eq_shift (value : UInt64) :
    encode value =
      let low := (value &&& 0x7F).toUInt8
      if value >>> 7 = 0 then [low] else (low ||| 0x80) :: encode (value >>> 7) := by
  have hlow : value.toNat % 128 < 128 := Nat.mod_lt _ (by decide)
  have hrest : value >>> 7 = 0 ↔ value.toNat < 128 := by
    rw [← UInt64.toNat_inj, toNat_shiftRight_seven, UInt64.toNat_zero]
    omega
  simp only [hrest, toUInt8_low, or_top _ hlow, encode, toNat_shiftRight_seven]
  rw [groups]
  by_cases hlast : value.toNat < 128
  · rw [if_pos hlast, if_pos hlast, Nat.mod_eq_of_lt hlast]
  · rw [if_neg hlast, if_neg hlast]

/-! ### Words in place -/

theorem ended_encode (value : UInt64) : Ended (encode value) := (spelled_encode value).ends

/-- A word is read where it begins, and reading stops where it ends. -/
theorem decodeAt_encode (value : UInt64) (before after : List UInt8) :
    decodeAt (before ++ encode value ++ after) before.length =
      (.ok value, before.length + (encode value).length) := by
  have hspelled := spelled_encode value
  have hlies : LiesAt (encode value) (before ++ encode value ++ after) before.length := by
    refine ⟨hspelled.ends, ?_⟩
    rw [List.append_assoc, List.drop_left]
    exact List.prefix_append _ _
  exact decodeAt_eq_ok.mpr ⟨encode value, hlies, hspelled.fits, hspelled.value, rfl⟩

theorem encode_injective {value other : UInt64} (h : encode value = encode other) : value = other := by
  rw [← (spelled_encode value).value, h, (spelled_encode other).value]

/-- No written word begins another. -/
theorem encode_prefix_iff {value other : UInt64} : encode value <+: encode other ↔ value = other := by
  constructor
  · rintro ⟨rest, hrest⟩
    have hwhole : encode value ++ rest = encode other ++ [] := by rw [hrest, List.append_nil]
    exact encode_injective ((ended_encode value).append_inj (ended_encode other) hwhole).1
  · rintro rfl
    exact List.prefix_rfl

/-! ### Runs of words -/

theorem lt_of_decodeAt {bytes : List UInt8} {pos next : Nat} {value : UInt64}
    (h : decodeAt bytes pos = (.ok value, next)) : pos < next := by
  obtain ⟨word, ⟨⟨front, last, rfl, -, -⟩, -⟩, -, -, rfl⟩ := decodeAt_eq_ok.mp h
  simp

/-- Read word after word until the position has come to `stop`. -/
def decodeUpTo (bytes : List UInt8) (stop pos : Nat) : Except IndexFlaw (List UInt64) × Nat :=
  if pos < stop then
    match _h : decodeAt bytes pos with
    | (.error flaw, next) => (.error flaw, next)
    | (.ok value, next) =>
      let later := decodeUpTo bytes stop next
      (later.1.map (value :: ·), later.2)
  else (.ok [], pos)
termination_by stop - pos
decreasing_by
  have := lt_of_decodeAt _h
  omega

theorem decodeUpTo_cons {bytes : List UInt8} {stop pos next : Nat} {value : UInt64} (hpos : pos < stop)
    (h : decodeAt bytes pos = (.ok value, next)) :
    decodeUpTo bytes stop pos =
      ((decodeUpTo bytes stop next).1.map (value :: ·), (decodeUpTo bytes stop next).2) := by
  rw [decodeUpTo, if_pos hpos]
  split
  · rename_i hread
    rw [h] at hread
    cases hread
  · rename_i hread
    rw [h] at hread
    cases hread
    rfl

/-- A run of words is read back word by word. -/
theorem decodeUpTo_flatMap (values : List UInt64) (before after : List UInt8) :
    decodeUpTo (before ++ values.flatMap encode ++ after) (before.length + (values.flatMap encode).length)
      before.length = (.ok values, before.length + (values.flatMap encode).length) := by
  induction values generalizing before with
  | nil => rw [decodeUpTo]; simp
  | cons value values ih =>
    have hpos := List.length_pos_iff.mpr (encode_ne_nil value)
    have hfirst := decodeAt_encode value before (values.flatMap encode ++ after)
    have hlater := ih (before ++ encode value)
    simp only [List.flatMap_cons, List.length_append, List.append_assoc, Nat.add_assoc] at hfirst hlater ⊢
    rw [decodeUpTo_cons (by omega) hfirst, hlater]
    rfl

/-- A word has as many bytes as its number has groups of seven bits, ten at most, which are their payloads, and
the last alone is without the top bit. It is read back wherever it stands, no written word begins another, and a
run of words is read back as the same words. -/
theorem encode_selfDelimiting (value : UInt64) (before after : List UInt8) :
    let word := encode value
    (1 ≤ word.length ∧ word.length ≤ 10 ∧ word.length = (sevens value.toNat).length) ∧
    word.map (fun b => (payload b).toNat) = sevens value.toNat ∧ Ended word ∧
    decodeAt (before ++ word ++ after) before.length = (.ok value, before.length + word.length) ∧
    (∀ other, word <+: encode other ↔ value = other) ∧
    ∀ values : List UInt64,
      let run := values.flatMap encode
      decodeUpTo (before ++ run ++ after) (before.length + run.length) before.length =
        (.ok values, before.length + run.length) := by
  have hpayloads : (encode value).map (fun b => (payload b).toNat) = sevens value.toNat :=
    map_payload_groups value.toNat
  have hcount : (encode value).length = (sevens value.toNat).length := by
    rw [← hpayloads, List.length_map]
  have hpos := List.length_pos_iff.mpr (encode_ne_nil value)
  exact ⟨⟨hpos, length_encode_le value, hcount⟩, hpayloads, ended_encode value,
    decodeAt_encode value before after, fun _ => encode_prefix_iff,
    fun values => decodeUpTo_flatMap values before after⟩

example : (encode (2 ^ 64 - 1)).map UInt8.toNat = List.replicate 9 0xFF ++ [0x01] := by cbv

end SciArchive.Varint
