import SciArchive.Index.Varint
import Mathlib.Algebra.Group.Nat.Defs
import Mathlib.Data.Nat.Digits.Defs
import Mathlib.Tactic.SplitIfs

/-! Reading back written words: a word is found again in front of whatever follows it, and none is
written with more bytes than it can be read from. What reading accepts is exactly what spells a word. -/
namespace SciArchive.Varint

theorem toNat_ofNat_word {n : Nat} (h : n < UInt64.size) : (UInt64.ofNat n).toNat = n :=
  UInt64.toNat_ofNat_of_lt' h

/-- The payload of a group, whether or not more follow. -/
theorem payload_group {m : Nat} (h : m < 128) :
    (payload (UInt8.ofNat m)).toNat = m ∧ (payload (UInt8.ofNat (m + 128))).toNat = m := by
  have hmask : (0x7F : UInt8).toNat = 2 ^ 7 - 1 := rfl
  simp only [payload, UInt8.toNat_toUInt64, UInt8.toNat_and, hmask, Nat.and_two_pow_sub_one_eq_mod,
    UInt8.toNat_ofNat']
  omega

/-- The top bit tells the last group from the others. -/
theorem more_group {m : Nat} (h : m < 128) :
    UInt8.ofNat m &&& 0x80 = 0 ∧ UInt8.ofNat (m + 128) &&& 0x80 ≠ 0 := by
  revert m
  decide

theorem toNat_shift {shift : Nat} (h : shift < 64) : (UInt64.ofNat shift).toNat % 64 = shift := by
  rw [toNat_ofNat_word (Nat.lt_trans h (by decide)), Nat.mod_eq_of_lt h]

/-- Where a payload goes does not depend on the width of the shift, as 64 divides both moduli. -/
theorem shiftLeft_ofNat (payload : UInt64) (shift : Nat) :
    payload <<< (UInt32.ofNat shift).toUInt64 = payload <<< UInt64.ofNat shift := by
  have hnarrow : (UInt32.ofNat shift).toUInt64.toNat % 64 = shift % 64 := by
    rw [UInt32.toNat_toUInt64, UInt32.toNat_ofNat']
    omega
  have hwide : (UInt64.ofNat shift).toNat % 64 = shift % 64 := by
    rw [UInt64.toNat_ofNat']
    omega
  rw [← UInt64.toNat_inj, UInt64.toNat_shiftLeft, UInt64.toNat_shiftLeft, hnarrow, hwide]

/-- The bits passed are compared as the word has them. -/
theorem le_ofNat_iff {bound : Nat} (h : bound < 2 ^ 32) (shift : Nat) :
    UInt32.ofNat bound ≤ UInt32.ofNat shift ↔ bound ≤ shift % 2 ^ 32 := by
  rw [UInt32.le_iff_toNat_le, UInt32.toNat_ofNat', UInt32.toNat_ofNat', Nat.mod_eq_of_lt h]

/-- One round, with the shift told by the number of bits passed. -/
theorem decodeFrom_cons (sum : UInt64) (shift : Nat) (b : UInt8) (rest : List UInt8) :
    decodeFrom sum (UInt32.ofNat shift) (b :: rest) =
      if 63 ≤ shift % 2 ^ 32 ∧ 1 < payload b then (.error .varintOverflow, rest)
      else if b &&& 0x80 = 0 then (.ok (sum ||| payload b <<< UInt64.ofNat shift), rest)
      else decodeFrom (sum ||| payload b <<< UInt64.ofNat shift) (UInt32.ofNat (shift + 7)) rest := by
  have hguard : 63 ≤ UInt32.ofNat shift ↔ 63 ≤ shift % 2 ^ 32 := le_ofNat_iff (by decide) shift
  have hnext : UInt32.ofNat (shift + 7) = UInt32.ofNat shift + 7 := UInt32.ofNat_add shift 7
  simp only [decodeFrom, hguard, hnext, shiftLeft_ofNat]

/-- A payload goes above the groups that were read before it. -/
theorem toNat_or_shift (payload : UInt64) {sum : UInt64} {shift : Nat} (hshift : shift < 64)
    (hsum : sum.toNat < 2 ^ shift) (hfit : payload.toNat * 2 ^ shift < 2 ^ 64) :
    (sum ||| payload <<< UInt64.ofNat shift).toNat = sum.toNat + payload.toNat * 2 ^ shift := by
  rw [UInt64.toNat_or, UInt64.toNat_shiftLeft, toNat_shift hshift, Nat.shiftLeft_eq, Nat.mod_eq_of_lt hfit,
    Nat.or_comm, Nat.mul_comm, ← Nat.two_pow_add_eq_or_of_lt hsum, Nat.add_comm]

/-- Where the word ends only its last bit may still be set. -/
theorem payload_fits (payload : UInt64) {shift : Nat} (hfit : payload.toNat * 2 ^ shift < 2 ^ 64) :
    ¬ (63 ≤ shift % 2 ^ 32 ∧ 1 < payload) := by
  rintro ⟨hshift, hlarge⟩
  have hpayload : 2 ≤ payload.toNat := UInt64.lt_iff_toNat_lt.mp hlarge
  have hpow : 2 ^ 63 ≤ 2 ^ shift :=
    Nat.pow_le_pow_right (by decide) (Nat.le_trans hshift (Nat.mod_le _ _))
  have := Nat.mul_le_mul hpayload hpow
  omega

/-- The groups of `n`, read on top of a sum below `2 ^ shift`, add `n` at that height. -/
theorem decodeFrom_groups (n : Nat) (sum : UInt64) (shift : Nat) (rest : List UInt8)
    (hshift : shift < 64)
    (hsum : sum.toNat < 2 ^ shift) (hfit : n * 2 ^ shift < 2 ^ 64) :
    ∃ word, decodeFrom sum (UInt32.ofNat shift) (groups n ++ rest) = (.ok word, rest) ∧
      word.toNat = sum.toNat + n * 2 ^ shift := by
  fun_induction groups n generalizing sum shift with
  | case1 n hn =>
    obtain ⟨hpay, -⟩ := payload_group hn
    have hword := toNat_or_shift (payload (UInt8.ofNat n)) hshift hsum (by rwa [hpay])
    rw [hpay] at hword
    refine ⟨_, ?_, hword⟩
    have hguard := payload_fits (payload (UInt8.ofNat n)) (by rwa [hpay])
    rw [List.cons_append, List.nil_append, decodeFrom_cons, if_neg hguard, if_pos (more_group hn).1]
  | case2 n hn ih =>
    have hm : n % 128 < 128 := Nat.mod_lt n (by decide)
    have hsplit : n % 128 * 2 ^ shift + n / 128 * 2 ^ (shift + 7) = n * 2 ^ shift := by
      rw [Nat.pow_add, ← Nat.mul_assoc, Nat.mul_right_comm, ← Nat.add_mul]
      congr 1
      omega
    obtain ⟨-, hpay⟩ := payload_group hm
    have hlow : n % 128 * 2 ^ shift < 2 ^ 64 := by omega
    have hguard := payload_fits (payload (UInt8.ofNat (n % 128 + 128))) (by rwa [hpay])
    have hsum' := toNat_or_shift (payload (UInt8.ofNat (n % 128 + 128))) hshift hsum (by rwa [hpay])
    rw [hpay] at hsum'
    have hnext : shift + 7 < 64 := by
      refine Nat.lt_of_not_le fun hge => ?_
      have hpow : 2 ^ 64 ≤ 2 ^ (shift + 7) := Nat.pow_le_pow_right (by decide) hge
      have := Nat.mul_le_mul (show 1 ≤ n / 128 by omega) hpow
      omega
    have hbelow : n % 128 * 2 ^ shift ≤ 127 * 2 ^ shift := Nat.mul_le_mul_right _ (by omega)
    have hpow : 2 ^ (shift + 7) = 128 * 2 ^ shift := by rw [Nat.pow_add, Nat.mul_comm]
    obtain ⟨word, hword, hvalue⟩ := ih _ (shift + 7) hnext (by rw [hsum']; omega) (by omega)
    refine ⟨word, ?_, by rw [hvalue, hsum', ← hsplit, Nat.add_assoc]⟩
    rwa [List.cons_append, decodeFrom_cons, if_neg hguard, if_neg (more_group hm).2]

/-- A written word is read back, and what follows it is left. -/
@[simp] theorem take_encode (value : UInt64) (rest : List UInt8) :
    take (encode value ++ rest) = .ok (value, rest) := by
  obtain ⟨word, hword, hvalue⟩ := decodeFrom_groups value.toNat 0 0 rest (by decide) (by decide)
    (by rw [Nat.pow_zero, Nat.mul_one]; exact value.toNat_lt)
  have hread : decodeFrom 0 0 (groups value.toNat ++ rest) = (.ok word, rest) := hword
  have heq : word = value := UInt64.toNat_inj.mp (by simpa using hvalue)
  subst heq
  simp only [take, decode, encode, hread, Except.map]

theorem length_groups_le (n k : Nat) (h : n < 128 ^ (k + 1)) : (groups n).length ≤ k + 1 := by
  fun_induction groups n generalizing k with
  | case1 => exact Nat.succ_le_succ (Nat.zero_le k)
  | case2 n hn ih =>
    cases k with
    | zero => omega
    | succ k =>
      have := ih k (Nat.div_lt_of_lt_mul (by rwa [Nat.pow_succ, Nat.mul_comm] at h))
      simp only [List.length_cons]
      omega

/-- A word takes ten bytes at most. -/
theorem length_encode_le (value : UInt64) : (encode value).length ≤ 10 :=
  length_groups_le value.toNat 9 (Nat.lt_of_lt_of_le value.toNat_lt (by decide))

theorem encode_ne_nil (value : UInt64) : encode value ≠ [] := by
  rw [encode, groups]
  split <;> exact List.cons_ne_nil _ _

/-! ### What words are spelled like -/

/-- The payloads side by side, the first of them behind `k` others. Places count modulo the word. -/
def joined (k : Nat) : List UInt8 → UInt64
  | [] => 0
  | b :: bytes => payload b <<< UInt64.ofNat (7 * k) ||| joined (k + 1) bytes

/-- A payload is one at most wherever the count of the bits passed stands at 63 or more, `k` bytes being in front.
The count wraps after 32 bits. -/
def Guarded (k : Nat) (bytes : List UInt8) : Prop :=
  ∀ i (h : i < bytes.length), 63 ≤ 7 * (k + i) % 2 ^ 32 → payload bytes[i] ≤ 1

theorem guarded_nil (k : Nat) : Guarded k [] := fun i h => absurd h (Nat.not_lt_zero i)

theorem guarded_cons {k : Nat} {b : UInt8} {bytes : List UInt8} :
    Guarded k (b :: bytes) ↔ ¬ (63 ≤ 7 * k % 2 ^ 32 ∧ 1 < payload b) ∧ Guarded (k + 1) bytes := by
  have hnext : ∀ i, k + (i + 1) = k + 1 + i := by omega
  have hfirst : (63 ≤ 7 * k % 2 ^ 32 → payload b ≤ 1) ↔ ¬ (63 ≤ 7 * k % 2 ^ 32 ∧ 1 < payload b) := by
    rw [not_and, UInt64.not_lt]
  rw [← hfirst]
  constructor
  · intro h
    refine ⟨h 0 (Nat.succ_pos _), fun i hi hcount => ?_⟩
    exact h (i + 1) (Nat.succ_lt_succ hi) (by rwa [hnext])
  · rintro ⟨hhead, htail⟩ i hi hcount
    cases i with
    | zero => exact hhead hcount
    | succ i => exact htail i (Nat.lt_of_succ_lt_succ hi) (by rwa [← hnext])

/-- The bytes are a word and nothing else: they end with the first that has no top bit, the payloads are guarded
from the tenth byte on, and they make up the value. -/
structure Spelled (bytes : List UInt8) (value : UInt64) : Prop where
  ends : ∃ front last, bytes = front ++ [last] ∧ (∀ b ∈ front, b &&& 0x80 ≠ 0) ∧ last &&& 0x80 = 0
  fits : Guarded 0 bytes
  value : joined 0 bytes = value

/-- Reading behind `k` groups takes the bytes up to the first without a top bit. -/
theorem decodeFrom_eq_ok {sum value : UInt64} {k : Nat} {bytes rest : List UInt8} :
    decodeFrom sum (UInt32.ofNat (7 * k)) bytes = (.ok value, rest) ↔
      ∃ front last, bytes = front ++ last :: rest ∧ (∀ b ∈ front, b &&& 0x80 ≠ 0) ∧ last &&& 0x80 = 0 ∧
        Guarded k (front ++ [last]) ∧ sum ||| joined k (front ++ [last]) = value := by
  induction bytes generalizing sum k with
  | nil => simp [decodeFrom]
  | cons b bytes ih =>
    rw [decodeFrom_cons]
    constructor
    · intro h
      split_ifs at h with hover hlast
      · cases h
      · rw [Prod.mk.injEq, Except.ok.injEq] at h
        obtain ⟨rfl, rfl⟩ := h
        exact ⟨[], b, rfl, by simp, hlast, guarded_cons.mpr ⟨hover, guarded_nil _⟩, by simp [joined]⟩
      · obtain ⟨front, last, rfl, hmore, hend, hfits, hvalue⟩ := (ih (k := k + 1)).mp h
        refine ⟨b :: front, last, rfl, List.forall_mem_cons.mpr ⟨hlast, hmore⟩, hend, ?_, ?_⟩
        · exact guarded_cons.mpr ⟨hover, hfits⟩
        · rw [List.cons_append, joined, ← UInt64.or_assoc, hvalue]
    · rintro ⟨front, last, hsplit, hmore, hend, hfits, hvalue⟩
      cases front with
      | nil =>
        cases hsplit
        rw [List.nil_append, guarded_cons] at hfits
        rw [if_neg hfits.1, if_pos hend]
        simpa [joined] using hvalue
      | cons c front =>
        cases hsplit
        rw [List.cons_append, guarded_cons] at hfits
        rw [List.forall_mem_cons] at hmore
        rw [if_neg hfits.1, if_neg hmore.1]
        refine (ih (k := k + 1)).mpr ⟨front, last, rfl, hmore.2, hend, hfits.2, ?_⟩
        rw [List.cons_append, joined, ← UInt64.or_assoc] at hvalue
        exact hvalue

theorem take_eq_ok {bytes rest : List UInt8} {value : UInt64} :
    take bytes = .ok (value, rest) ↔ decodeFrom 0 0 bytes = (.ok value, rest) := by
  rw [take, decode]
  generalize decodeFrom 0 0 bytes = read
  obtain ⟨found, left⟩ := read
  cases found <;> simp [Except.map]

theorem take_eq_ok_iff {bytes rest : List UInt8} {value : UInt64} :
    take bytes = .ok (value, rest) ↔ ∃ word, bytes = word ++ rest ∧ Spelled word value := by
  have hread : decodeFrom 0 0 bytes = (.ok value, rest) ↔ _ := decodeFrom_eq_ok (k := 0)
  rw [take_eq_ok, hread]
  constructor
  · rintro ⟨front, last, rfl, hmore, hlast, hfits, hvalue⟩
    exact ⟨front ++ [last], by simp, ⟨front, last, rfl, hmore, hlast⟩, hfits, by simpa using hvalue⟩
  · rintro ⟨word, rfl, ⟨front, last, rfl, hmore, hlast⟩, hfits, hvalue⟩
    exact ⟨front, last, by simp, hmore, hlast, hfits, by simpa using hvalue⟩

theorem Spelled.take {word : List UInt8} {value : UInt64} (h : Spelled word value) (rest : List UInt8) :
    take (word ++ rest) = .ok (value, rest) :=
  take_eq_ok_iff.mpr ⟨word, rfl, h⟩

/-- A word is found in front of whatever is put behind it. -/
theorem take_append {bytes rest : List UInt8} {value : UInt64} (h : take bytes = .ok (value, rest))
    (extra : List UInt8) : take (bytes ++ extra) = .ok (value, rest ++ extra) := by
  obtain ⟨word, rfl, hword⟩ := take_eq_ok_iff.mp h
  rw [List.append_assoc, hword.take]

theorem spelled_encode (value : UInt64) : Spelled (encode value) value := by
  obtain ⟨word, hword, hspelled⟩ := take_eq_ok_iff.mp (take_encode value [])
  simp only [List.append_nil] at hword
  exact hword ▸ hspelled

/-! ### Their values -/

theorem payload_lt (b : UInt8) : (payload b).toNat < 2 ^ 7 := by
  have hmask : (0x7F : UInt8).toNat = 2 ^ 7 - 1 := rfl
  rw [payload, UInt8.toNat_toUInt64, UInt8.toNat_and, hmask, Nat.and_two_pow_sub_one_eq_mod]
  exact Nat.mod_lt _ (by decide)

theorem toNat_shift_lt (b : UInt8) (shift : Nat) : (payload b <<< UInt64.ofNat shift).toNat < 2 ^ (shift + 7) := by
  by_cases hshift : shift < 64
  · rw [UInt64.toNat_shiftLeft, toNat_shift hshift, Nat.shiftLeft_eq, Nat.pow_add, Nat.mul_comm]
    exact Nat.lt_of_le_of_lt (Nat.mod_le _ _) (Nat.mul_lt_mul_of_pos_left (payload_lt b) (Nat.two_pow_pos shift))
  · exact Nat.lt_of_lt_of_le (UInt64.toNat_lt _) (Nat.pow_le_pow_right (by decide) (by omega))

theorem toNat_joined_lt (k : Nat) (bytes : List UInt8) :
    (joined k bytes).toNat < 2 ^ (7 * (k + bytes.length)) := by
  induction bytes generalizing k with
  | nil => simp [joined]
  | cons b bytes ih =>
    have hrest := ih (k + 1)
    rw [Nat.add_assoc, Nat.add_comm 1] at hrest
    have hle : 7 * k + 7 ≤ 7 * (k + (bytes.length + 1)) := by omega
    rw [joined, UInt64.toNat_or, List.length_cons]
    exact Nat.or_lt_two_pow (Nat.lt_of_lt_of_le (toNat_shift_lt b _) (Nat.pow_le_pow_right (by decide) hle)) hrest

/-- No word is spelled with fewer bytes than it is written with. -/
theorem Spelled.length_le {bytes : List UInt8} {value : UInt64} (h : Spelled bytes value) :
    (encode value).length ≤ bytes.length := by
  obtain ⟨front, last, rfl, -, -⟩ := h.ends
  have hlt := toNat_joined_lt 0 (front ++ [last])
  rw [h.value, Nat.zero_add, Nat.pow_mul] at hlt
  have hle := length_groups_le value.toNat front.length (by simpa using hlt)
  simpa [encode] using hle

/-- From the tenth byte on only the last bit of a word is still to come. -/
theorem fits_cons {k : Nat} {b : UInt8} {bytes : List UInt8} :
    (∀ c ∈ (b :: bytes).drop (9 - k), payload c ≤ 1) ↔
      ¬ (63 ≤ 7 * k ∧ 1 < payload b) ∧ ∀ c ∈ bytes.drop (9 - (k + 1)), payload c ≤ 1 := by
  by_cases hk : 9 ≤ k
  · have hzero : 9 - k = 0 ∧ 9 - (k + 1) = 0 := by omega
    have hguard : ¬ (63 ≤ 7 * k ∧ 1 < payload b) ↔ payload b ≤ 1 := by
      rw [← UInt64.not_lt, and_iff_right (by omega)]
    rw [hzero.1, hzero.2, hguard]
    exact List.forall_mem_cons
  · have hsucc : 9 - k = 9 - (k + 1) + 1 := by omega
    have hguard : ¬ (63 ≤ 7 * k ∧ 1 < payload b) := fun h => by omega
    rw [hsucc, List.drop_succ_cons, and_iff_right hguard]

theorem toNat_joined {k : Nat} {bytes : List UInt8} (hlength : k + bytes.length ≤ 10)
    (hfits : ∀ b ∈ bytes.drop (9 - k), payload b ≤ 1) :
    (joined k bytes).toNat = 2 ^ (7 * k) * Nat.ofDigits 128 (bytes.map fun b => (payload b).toNat) := by
  induction bytes generalizing k with
  | nil => simp [joined]
  | cons b bytes ih =>
    rw [List.length_cons] at hlength
    obtain ⟨hfit, hfits⟩ := fits_cons.mp hfits
    have hshift : 7 * k < 64 := by omega
    have hpayload := payload_lt b
    have hbelow : (payload b).toNat * 2 ^ (7 * k) < 2 ^ (7 * (k + 1)) := by
      rw [Nat.mul_add, Nat.pow_add, Nat.mul_comm (2 ^ (7 * k))]
      exact Nat.mul_lt_mul_of_pos_right hpayload (Nat.two_pow_pos _)
    have hword : (payload b).toNat * 2 ^ (7 * k) < 2 ^ 64 := by
      by_cases hk : k = 9
      · have hone : (payload b).toNat ≤ 1 := by
          refine UInt64.le_iff_toNat_le.mp (UInt64.not_lt.mp fun hlarge => hfit ⟨by omega, hlarge⟩)
        rw [hk]
        omega
      · exact Nat.lt_of_lt_of_le hbelow (Nat.pow_le_pow_right (by decide) (by omega))
    rw [joined, UInt64.toNat_or, UInt64.toNat_shiftLeft, toNat_shift hshift, Nat.shiftLeft_eq, Nat.mod_eq_of_lt hword,
      ih (by omega) hfits, Nat.or_comm, ← Nat.two_pow_add_eq_or_of_lt hbelow, List.map_cons, Nat.ofDigits_cons]
    ring

end SciArchive.Varint
