import SciArchive.Index.Entry
import SciArchive.Proofs.Outcomes
import SciArchive.Proofs.Varint
import Mathlib.Tactic.SplitIfs

/-! The grammar of tagged fields. A field is taken exactly where one is spelled, and the written form is one
way to spell it. -/
namespace SciArchive.IndexEntry

/-! ### Tags -/

/-- A tag gives back the field number and the wire type that it was made of. -/
theorem tag_parts (wire : UInt64) {number : UInt64} (hnumber : number.toNat < 2 ^ 61)
    (hwire : wire.toNat < 8) :
    ((number <<< 3) ||| wire) >>> 3 = number ∧ ((number <<< 3) ||| wire) &&& 7 = wire := by
  have hthree : (3 : UInt64).toNat % 64 = 3 := rfl
  have hseven : (7 : UInt64).toNat = 2 ^ 3 - 1 := rfl
  have htag : ((number <<< 3) ||| wire).toNat = 2 ^ 3 * number.toNat + wire.toNat := by
    rw [UInt64.toNat_or, UInt64.toNat_shiftLeft, hthree, Nat.shiftLeft_eq,
      Nat.mod_eq_of_lt (by omega), Nat.mul_comm, ← Nat.two_pow_add_eq_or_of_lt (i := 3) hwire]
  constructor
  · apply UInt64.toNat_inj.mp
    rw [UInt64.toNat_shiftRight, htag, hthree, Nat.shiftRight_eq_div_pow]
    omega
  · apply UInt64.toNat_inj.mp
    rw [UInt64.toNat_and, htag, hseven, Nat.and_two_pow_sub_one_eq_mod]
    omega

theorem tag_of_parts (tag : UInt64) : ((tag >>> 3) <<< 3) ||| (tag &&& 7) = tag := by
  have hthree : (3 : UInt64).toNat % 64 = 3 := rfl
  have hseven : (7 : UInt64).toNat = 2 ^ 3 - 1 := rfl
  have hlt := tag.toNat_lt
  have hmod : tag.toNat % 2 ^ 3 < 2 ^ 3 := Nat.mod_lt _ (by decide)
  apply UInt64.toNat_inj.mp
  rw [UInt64.toNat_or, UInt64.toNat_shiftLeft, UInt64.toNat_shiftRight, UInt64.toNat_and, hthree,
    hseven, Nat.shiftLeft_eq, Nat.shiftRight_eq_div_pow, Nat.and_two_pow_sub_one_eq_mod,
    Nat.mod_eq_of_lt (by omega), Nat.mul_comm, ← Nat.two_pow_add_eq_or_of_lt hmod]
  exact Nat.div_add_mod tag.toNat (2 ^ 3)

theorem toNat_number_lt (tag : UInt64) : (tag >>> 3).toNat < 2 ^ 61 := by
  have hthree : (3 : UInt64).toNat % 64 = 3 := rfl
  have hlt := tag.toNat_lt
  rw [UInt64.toNat_shiftRight, hthree, Nat.shiftRight_eq_div_pow]
  omega

/-! ### What fields are spelled like -/

/-- The sizes that the written form has room for. -/
def TaggedField.Fits (f : TaggedField) : Prop :=
  f.number.toNat < 2 ^ 61 ∧
    match f.payload with
    | .word _ => True
    | .bytes value => value.length < UInt64.size

/-- A word, or counted bytes. -/
def Payload.Spelled (bytes : List UInt8) : Payload → Prop
  | .word value => Varint.Spelled bytes value
  | .bytes value => ∃ count, bytes = count ++ value ∧ Varint.Spelled count (UInt64.ofNat value.length)

/-- A tag with the payload that it tells of. -/
structure TaggedField.Spelled (bytes : List UInt8) (f : TaggedField) : Prop where
  fits : f.Fits
  parts : ∃ tag payload, bytes = tag ++ payload ∧ Varint.Spelled tag ((f.number <<< 3) ||| f.payload.wire) ∧
    f.payload.Spelled payload

section
variable {bytes rest value word : List UInt8} {f : TaggedField}

theorem takeBytes_eq_ok {short : IndexFlaw} : takeBytes bytes short = .ok (value, rest) ↔
    value.length < UInt64.size ∧ ∃ word, bytes = word ++ rest ∧ (Payload.bytes value).Spelled word := by
  constructor
  · intro h
    rw [takeBytes] at h
    split at h
    · cases h
    · rename_i n after hn
      split_ifs at h with hle
      cases h
      obtain ⟨count, rfl, hcount⟩ := Varint.take_eq_ok_iff.mp hn
      have hlength : (after.take n.toNat).length = n.toNat := by simp [hle]
      have hsize : (after.take n.toNat).length < UInt64.size := Nat.lt_of_le_of_lt (Nat.le_of_eq hlength) n.toNat_lt
      refine ⟨hsize, count ++ after.take n.toNat, by simp, count, rfl, ?_⟩
      rwa [hlength, UInt64.ofNat_toNat]
  · rintro ⟨hsize, word, rfl, count, rfl, hcount⟩
    rw [List.append_assoc, takeBytes, hcount.take]
    simp [Varint.toNat_ofNat_word hsize]

/-- A field is taken exactly where one is spelled. -/
theorem takeField_eq_ok : takeField bytes = .ok (f, rest) ↔ ∃ word, bytes = word ++ rest ∧ f.Spelled word := by
  constructor
  · intro h
    rw [takeField] at h
    split at h
    · cases h
    · rename_i tag after htag
      have hnumber := toNat_number_lt tag
      obtain ⟨spelled, rfl, hspelled⟩ := Varint.take_eq_ok_iff.mp htag
      rw [← tag_of_parts tag] at hspelled
      simp only at h
      split_ifs at h with hwire hwire <;> rw [hwire] at hspelled
      · obtain ⟨⟨value, left⟩, hvalue, hf⟩ := map_eq_ok.mp h
        cases hf
        obtain ⟨payload, rfl, hpayload⟩ := Varint.take_eq_ok_iff.mp hvalue
        exact ⟨spelled ++ payload, by simp, ⟨hnumber, trivial⟩, spelled, payload, rfl, hspelled, hpayload⟩
      · obtain ⟨⟨value, left⟩, hvalue, hf⟩ := map_eq_ok.mp h
        cases hf
        obtain ⟨hsize, payload, rfl, hpayload⟩ := takeBytes_eq_ok.mp hvalue
        exact ⟨spelled ++ payload, by simp, ⟨hnumber, hsize⟩, spelled, payload, rfl, hspelled, hpayload⟩
  · obtain ⟨number, payload⟩ := f
    rintro ⟨word, rfl, ⟨hnumber, hsize⟩, tag, spelling, rfl, htag, hpayload⟩
    rw [List.append_assoc, takeField, htag.take]
    cases payload with
    | word value =>
      obtain ⟨hn, hw⟩ := tag_parts 0 hnumber (by decide)
      have hvalue : Varint.take (spelling ++ rest) = .ok (value, rest) := Varint.Spelled.take hpayload rest
      simp only [Payload.wire, hn, hw, if_pos, hvalue, Except.map]
    | bytes value =>
      obtain ⟨hn, hw⟩ := tag_parts 2 hnumber (by decide)
      have hne : ¬ (2 : UInt64) = 0 := by decide
      have hvalue : takeBytes (spelling ++ rest) .lengthPastEntry = .ok (value, rest) :=
        takeBytes_eq_ok.mpr ⟨hsize, spelling, rfl, hpayload⟩
      simp only [Payload.wire, hn, hw, if_neg hne, if_pos, hvalue, Except.map]

/-! ### The written form -/

theorem Payload.spelled_encode (p : Payload) : p.Spelled p.encode := by
  cases p with
  | word value => exact Varint.spelled_encode value
  | bytes value => exact ⟨_, rfl, Varint.spelled_encode _⟩

theorem TaggedField.spelled_encode (hf : f.Fits) : f.Spelled f.encode :=
  ⟨hf, _, _, rfl, Varint.spelled_encode _, f.payload.spelled_encode⟩

theorem takeBytes_counted (hlen : value.length < UInt64.size) (rest : List UInt8) (short : IndexFlaw) :
    takeBytes (Varint.encode (UInt64.ofNat value.length) ++ (value ++ rest)) short = .ok (value, rest) :=
  takeBytes_eq_ok.mpr ⟨hlen, _, (List.append_assoc ..).symm, (Payload.bytes value).spelled_encode⟩

theorem takeField_encode (hf : f.Fits) (rest : List UInt8) : takeField (f.encode ++ rest) = .ok (f, rest) :=
  takeField_eq_ok.mpr ⟨_, rfl, TaggedField.spelled_encode hf⟩

/-- No field is spelled with fewer bytes than it is written with. -/
theorem Payload.Spelled.length_le {p : Payload} (h : p.Spelled word) : p.encode.length ≤ word.length := by
  cases p with
  | word value => exact Varint.Spelled.length_le h
  | bytes value =>
    obtain ⟨count, rfl, hcount⟩ := h
    simpa [Payload.encode] using hcount.length_le

theorem TaggedField.Spelled.length_le (h : f.Spelled word) : f.encode.length ≤ word.length := by
  obtain ⟨-, tag, spelling, rfl, htag, hpayload⟩ := h
  simp only [TaggedField.encode, List.length_append]
  exact Nat.add_le_add htag.length_le hpayload.length_le

end
end SciArchive.IndexEntry
