import SciArchive.Proofs.Varint

/-! What words are worth. Reading at a position gives the exact value of the word that lies there, if that fits
a machine word, as long as no byte behind the tenth carries a payload; such a payload is put in a place of its
own modulo the machine word, and a value that is too large is then given as a small one. A build that checks its
shifts stops in front of such a byte. -/
namespace SciArchive.Varint

/-! ### Words and their exact values -/

/-- A word and nothing else: of its bytes only the last is without the top bit. -/
def Ended (word : List UInt8) : Prop :=
  ∃ front last, word = front ++ [last] ∧ (∀ b ∈ front, b &&& 0x80 ≠ 0) ∧ last &&& 0x80 = 0

/-- The bytes from a position up to the first without the top bit. -/
def LiesAt (word bytes : List UInt8) (pos : Nat) : Prop := Ended word ∧ word <+: bytes.drop pos

/-- The payloads as digits to the base 128, the first of them the lowest; no machine word bounds the sum. -/
def exact (word : List UInt8) : Nat := Nat.ofDigits 128 (word.map fun b => (payload b).toNat)

theorem exact_cons (b : UInt8) (word : List UInt8) :
    exact (b :: word) = (payload b).toNat + 128 * exact word := by
  simp [exact, Nat.ofDigits_cons]

theorem exact_append (front back : List UInt8) :
    exact (front ++ back) = exact front + 128 ^ front.length * exact back := by
  rw [exact, exact, exact, List.map_append, Nat.ofDigits_append, List.length_map]

theorem exact_lt (word : List UInt8) : exact word < 128 ^ word.length := by
  have hdigits : ∀ d ∈ word.map fun b => (payload b).toNat, d < 128 :=
    List.forall_mem_map.mpr fun b _ => payload_lt b
  have hlt := Nat.ofDigits_lt_base_pow_length (by decide) hdigits
  rwa [List.length_map] at hlt

theorem payload_eq_zero {b : UInt8} : payload b = 0 ↔ (payload b).toNat = 0 :=
  UInt64.toNat_inj.symm

theorem payload_le_one {b : UInt8} : payload b ≤ 1 ↔ (payload b).toNat ≤ 1 :=
  UInt64.le_iff_toNat_le

theorem exact_eq_zero {word : List UInt8} : exact word = 0 ↔ ∀ b ∈ word, payload b = 0 := by
  induction word with
  | nil => simp [exact]
  | cons b word ih =>
    rw [exact_cons, List.forall_mem_cons, ← ih, payload_eq_zero]
    omega

theorem exact_le_one {word : List UInt8} :
    exact word ≤ 1 ↔ (∀ b ∈ word, payload b ≤ 1) ∧ ∀ b ∈ word.drop 1, payload b = 0 := by
  cases word with
  | nil => simp [exact]
  | cons b word =>
    have hzero : (∀ c ∈ word, payload c = 0) → ∀ c ∈ word, payload c ≤ 1 := fun h c hc => by
      rw [h c hc]
      decide
    rw [exact_cons, List.forall_mem_cons, List.drop_succ_cons, List.drop_zero, payload_le_one, and_assoc,
      and_iff_right_of_imp hzero, ← exact_eq_zero]
    omega

/-- The exact value fits a machine word if the payload of the tenth byte is one at most and no byte behind
it has any. -/
theorem exact_lt_iff {word : List UInt8} :
    exact word < 2 ^ 64 ↔ (∀ b ∈ word.drop 9, payload b ≤ 1) ∧ ∀ b ∈ word.drop 10, payload b = 0 := by
  have hsplit : exact word = exact (word.take 9) + 2 ^ 63 * exact (word.drop 9) := by
    conv_lhs => rw [← List.take_append_drop 9 word, exact_append]
    by_cases hlength : 9 ≤ word.length
    · rw [List.length_take_of_le hlength]
      rfl
    · rw [List.drop_of_length_le (by omega)]
      rfl
  have hlow : exact (word.take 9) < 2 ^ 63 :=
    Nat.lt_of_lt_of_le (exact_lt _)
      (Nat.pow_le_pow_right (n := 128) (by decide) (List.length_take_le 9 word))
  have hdrop : word.drop 10 = (word.drop 9).drop 1 := by rw [List.drop_drop]
  rw [hdrop, ← exact_le_one, hsplit]
  omega

/-- Where no byte behind the tenth has a payload, the guard is about the tenth. -/
theorem guarded_iff {word : List UInt8} (hempty : ∀ b ∈ word.drop 10, payload b = 0) :
    Guarded 0 word ↔ ∀ b ∈ word.drop 9, payload b ≤ 1 := by
  constructor
  · intro h b hb
    obtain ⟨i, hi, rfl⟩ := List.mem_iff_getElem.mp hb
    rw [List.length_drop] at hi
    rw [List.getElem_drop]
    cases i with
    | zero => exact h 9 (by omega) (by decide)
    | succ i =>
      have hbehind : word[9 + (i + 1)] ∈ word.drop 10 :=
        List.mem_drop_iff_getElem.mpr ⟨i, by omega, by congr 1; omega⟩
      rw [hempty _ hbehind]
      decide
  · intro h i hi hcount
    have hpassed : 63 ≤ 7 * (0 + i) := Nat.le_trans hcount (Nat.mod_le _ _)
    exact h _ (List.mem_drop_iff_getElem.mpr ⟨i - 9, by omega, by congr 1; omega⟩)

/-- A word whose exact value fits a machine word is guarded. -/
theorem guarded_of_exact_lt {word : List UInt8} (h : exact word < 2 ^ 64) : Guarded 0 word :=
  (guarded_iff (exact_lt_iff.mp h).2).mpr (exact_lt_iff.mp h).1

/-! ### What is put together -/

theorem joined_append (k : Nat) (front back : List UInt8) :
    joined k (front ++ back) = joined k front ||| joined (k + front.length) back := by
  induction front generalizing k with
  | nil => simp [joined]
  | cons b front ih =>
    rw [List.cons_append, joined, joined, ih, UInt64.or_assoc, List.length_cons, Nat.add_right_comm,
      Nat.add_assoc k]

theorem joined_eq_zero {word : List UInt8} (h : ∀ b ∈ word, payload b = 0) (k : Nat) : joined k word = 0 := by
  induction word generalizing k with
  | nil => rfl
  | cons b word ih =>
    rw [List.forall_mem_cons] at h
    rw [joined, h.1, ih h.2]
    simp

/-- The payloads side by side are the exact value wherever this fits. -/
theorem toNat_joined_eq {word : List UInt8} (h : exact word < 2 ^ 64) : (joined 0 word).toNat = exact word := by
  obtain ⟨hfits, hempty⟩ := exact_lt_iff.mp h
  have htake : ∀ b ∈ (word.take 10).drop 9, payload b ≤ 1 := by
    rw [List.drop_take]
    exact fun b hb => hfits b (List.mem_of_mem_take hb)
  have hlength : 0 + (word.take 10).length ≤ 10 := by
    rw [Nat.zero_add]
    exact List.length_take_le 10 word
  have hlow := toNat_joined hlength htake
  rw [Nat.mul_zero, Nat.pow_zero, Nat.one_mul, ← exact] at hlow
  conv_lhs => rw [← List.take_append_drop 10 word, joined_append, joined_eq_zero hempty]
  conv_rhs => rw [← List.take_append_drop 10 word, exact_append, exact_eq_zero.mpr hempty]
  simpa using hlow

/-! ### Reading at a position -/

/-- What is read at a position, and the position behind the last byte looked at. -/
def decodeAt (bytes : List UInt8) (pos : Nat) : Except IndexFlaw UInt64 × Nat :=
  let rest := bytes.drop pos
  ((decode rest).1, pos + (rest.length - (decode rest).2.length))

theorem decodeFrom_suffix (sum : UInt64) (shift : UInt32) (bytes : List UInt8) :
    (decodeFrom sum shift bytes).2 <:+ bytes := by
  fun_induction decodeFrom sum shift bytes with
  | case1 => exact List.suffix_rfl
  | case2 => exact List.suffix_cons _ _
  | case3 => exact List.suffix_cons _ _
  | case4 sum shift b rest _ sum' _ ih => exact ih.trans (List.suffix_cons b rest)

/-- The position tells which bytes are left. -/
theorem drop_decodeAt (bytes : List UInt8) (pos : Nat) :
    bytes.drop (decodeAt bytes pos).2 = (decode (bytes.drop pos)).2 := by
  obtain ⟨seen, hseen⟩ := decodeFrom_suffix 0 0 (bytes.drop pos)
  have hlength := congrArg List.length hseen
  rw [List.length_append] at hlength
  have hstop : (decodeAt bytes pos).2 = pos + seen.length := by
    rw [decodeAt, decode, ← hlength, Nat.add_sub_cancel]
  calc bytes.drop (decodeAt bytes pos).2
    _ = (seen ++ (decode (bytes.drop pos)).2).drop seen.length := by rw [hstop, ← List.drop_drop, decode, hseen]
    _ = (decode (bytes.drop pos)).2 := List.drop_left

theorem Ended.append_inj {word other rest left : List UInt8} (hword : Ended word) (hother : Ended other)
    (h : word ++ rest = other ++ left) : word = other ∧ rest = left := by
  obtain ⟨front, last, rfl, hmore, hlast⟩ := hword
  obtain ⟨front', last', rfl, hmore', hlast'⟩ := hother
  induction front generalizing front' with
  | nil =>
    cases front' with
    | nil => simpa using h
    | cons b front' =>
      simp only [List.nil_append, List.cons_append, List.cons.injEq] at h
      exact absurd (h.1 ▸ hlast) (hmore' b List.mem_cons_self)
  | cons b front ih =>
    rw [List.forall_mem_cons] at hmore
    cases front' with
    | nil =>
      simp only [List.nil_append, List.cons_append, List.cons.injEq] at h
      exact absurd (h.1 ▸ hlast') hmore.1
    | cons c front' =>
      rw [List.forall_mem_cons] at hmore'
      simp only [List.cons_append, List.cons.injEq] at h
      obtain ⟨hfront, hrest⟩ := ih hmore.2 front' h.2 hmore'.2
      exact ⟨by rw [h.1, List.cons_append, List.cons_append, hfront], hrest⟩

theorem LiesAt.unique {word other bytes : List UInt8} {pos : Nat} (hword : LiesAt word bytes pos)
    (hother : LiesAt other bytes pos) : word = other := by
  obtain ⟨rest, hrest⟩ := hword.2
  obtain ⟨left, hleft⟩ := hother.2
  exact (hword.1.append_inj hother.1 (hrest.trans hleft.symm)).1

/-- A word is accepted if its payloads are guarded. -/
theorem decodeAt_eq_ok {bytes : List UInt8} {pos stop : Nat} {value : UInt64} :
    decodeAt bytes pos = (.ok value, stop) ↔ ∃ word, LiesAt word bytes pos ∧
      Guarded 0 word ∧ joined 0 word = value ∧ stop = pos + word.length := by
  have hread : ∀ rest, decode (bytes.drop pos) = (.ok value, rest) ↔ _ :=
    fun rest => decodeFrom_eq_ok (k := 0)
  constructor
  · intro h
    obtain ⟨rest, hrest⟩ : ∃ rest, (decode (bytes.drop pos)).2 = rest := ⟨_, rfl⟩
    simp only [decodeAt, Prod.mk.injEq, hrest] at h
    obtain ⟨front, last, hsplit, hmore, hlast, hfits, hvalue⟩ := (hread rest).mp (Prod.ext h.1 hrest)
    refine ⟨front ++ [last], ⟨⟨front, last, rfl, hmore, hlast⟩, ?_⟩, hfits, by simpa using hvalue, ?_⟩
    · rw [hsplit]
      exact ⟨_, List.append_assoc front [last] _⟩
    · have hlength := congrArg List.length hsplit
      simp only [List.length_append, List.length_cons, List.length_nil] at hlength ⊢
      omega
  · rintro ⟨word, ⟨⟨front, last, rfl, hmore, hlast⟩, rest, hrest⟩, hfits, hvalue, rfl⟩
    have hdecode : decode (bytes.drop pos) = (.ok value, rest) := by
      refine (hread rest).mpr ⟨front, last, ?_, hmore, hlast, hfits, by simpa using hvalue⟩
      rw [← hrest, List.append_assoc]
      rfl
    rw [decodeAt, hdecode, ← hrest, List.length_append, Nat.add_sub_cancel]

/-- Where no byte behind the tenth has a payload, a word is read exactly if its value fits a machine word. -/
theorem decodeAt_eq_ok_iff_exact {word bytes : List UInt8} {pos stop : Nat} {value : UInt64}
    (hword : LiesAt word bytes pos) (hempty : ∀ b ∈ word.drop 10, payload b = 0) :
    decodeAt bytes pos = (.ok value, stop) ↔
      exact word < 2 ^ 64 ∧ value.toNat = exact word ∧ stop = pos + word.length := by
  rw [decodeAt_eq_ok]
  constructor
  · rintro ⟨other, hother, hguarded, rfl, hstop⟩
    obtain rfl := hword.unique hother
    have hlt := exact_lt_iff.mpr ⟨(guarded_iff hempty).mp hguarded, hempty⟩
    exact ⟨hlt, toNat_joined_eq hlt, hstop⟩
  · rintro ⟨hlt, hvalue, hstop⟩
    refine ⟨word, hword, guarded_of_exact_lt hlt, ?_, hstop⟩
    exact UInt64.toNat_inj.mp ((toNat_joined_eq hlt).trans hvalue.symm)

/-! ### Builds that check their shifts -/

theorem overruns_cons (k : Nat) (b : UInt8) (rest : List UInt8) :
    overruns (UInt32.ofNat (7 * k)) (b :: rest) =
      if 63 ≤ 7 * k % 2 ^ 32 ∧ 1 < payload b then false
      else if 64 ≤ 7 * k % 2 ^ 32 then true
      else b &&& 0x80 ≠ 0 && overruns (UInt32.ofNat (7 * (k + 1))) rest := by
  have hguard : 63 ≤ UInt32.ofNat (7 * k) ↔ 63 ≤ 7 * k % 2 ^ 32 := le_ofNat_iff (by decide) _
  have hword : 64 ≤ UInt32.ofNat (7 * k) ↔ 64 ≤ 7 * k % 2 ^ 32 := le_ofNat_iff (by decide) _
  have hnext : UInt32.ofNat (7 * (k + 1)) = UInt32.ofNat (7 * k) + 7 := UInt32.ofNat_add (7 * k) 7
  simp only [overruns, hguard, hword, hnext]

/-- Among the words whose payloads are guarded, a build with checks stops at those of more than ten bytes. -/
theorem overruns_eq_false_iff {front : List UInt8} {last : UInt8} (rest : List UInt8) {k : Nat} (hk : k ≤ 10)
    (hmore : ∀ b ∈ front, b &&& 0x80 ≠ 0) (hlast : last &&& 0x80 = 0) (hguarded : Guarded k (front ++ [last])) :
    overruns (UInt32.ofNat (7 * k)) (front ++ last :: rest) = false ↔ k + front.length < 10 := by
  have hcount : 7 * k % 2 ^ 32 = 7 * k := Nat.mod_eq_of_lt (by omega)
  induction front generalizing k with
  | nil =>
    obtain ⟨hguard, -⟩ := guarded_cons.mp hguarded
    rw [List.nil_append, overruns_cons, if_neg hguard, hcount]
    simp [hlast]
    omega
  | cons b front ih =>
    rw [List.forall_mem_cons] at hmore
    obtain ⟨hguard, hbehind⟩ := guarded_cons.mp hguarded
    rw [List.cons_append, overruns_cons, if_neg hguard, hcount, List.length_cons]
    by_cases hten : k = 10
    · simp [hten]
    · have hlater := ih (k := k + 1) (by omega) hmore.2 hbehind (Nat.mod_eq_of_lt (by omega))
      rw [if_neg (by omega)]
      simp only [hmore.1, ne_eq, not_false_eq_true, decide_true, Bool.true_and, hlater]
      omega

/-- Where a build with checks does not stop, reading is exact. -/
theorem decodeAt_of_not_overruns {bytes : List UInt8} {pos : Nat}
    (h : overruns 0 (bytes.drop pos) = false) (value : UInt64) (stop : Nat) :
    decodeAt bytes pos = (.ok value, stop) ↔ ∃ word, LiesAt word bytes pos ∧
      exact word < 2 ^ 64 ∧ value.toNat = exact word ∧ stop = pos + word.length := by
  constructor
  · intro hread
    obtain ⟨word, hword, hguarded, -, -⟩ := decodeAt_eq_ok.mp hread
    obtain ⟨⟨front, last, rfl, hmore, hlast⟩, rest, hrest⟩ := id hword
    rw [← hrest, List.append_assoc] at h
    have hshort := (overruns_eq_false_iff rest (Nat.zero_le 10) hmore hlast hguarded).mp h
    have hempty : (front ++ [last]).drop 10 = [] := List.drop_of_length_le (by simp; omega)
    exact ⟨_, hword, (decodeAt_eq_ok_iff_exact hword (by simp [hempty])).mp hread⟩
  · rintro ⟨word, hword, hexact⟩
    exact (decodeAt_eq_ok_iff_exact hword (exact_lt_iff.mp hexact.1).2).mpr hexact

/-- Where no byte behind the tenth carries a payload, a word is read exactly if its value fits a machine word,
and as that value. In general it is enough that its payloads are guarded, and the value is then that of the
payloads side by side. On a failure the position has not passed the end. A build that checks its shifts stops at
no word of ten bytes or fewer whose value fits, and where it does not stop, reading is exact. -/
theorem decodeAt_exact (bytes : List UInt8) (pos : Nat) :
    (∀ word, LiesAt word bytes pos → (∀ b ∈ word.drop 10, payload b = 0) → ∀ value stop,
      (decodeAt bytes pos = (.ok value, stop) ↔
        exact word < 2 ^ 64 ∧ value.toNat = exact word ∧ stop = pos + word.length)) ∧
    (∀ value stop, decodeAt bytes pos = (.ok value, stop) ↔ ∃ word, LiesAt word bytes pos ∧
      Guarded 0 word ∧ joined 0 word = value ∧ stop = pos + word.length) ∧
    (∀ flaw stop, decodeAt bytes pos = (.error flaw, stop) →
      stop ≤ max pos bytes.length ∧ bytes.drop stop = (decode (bytes.drop pos)).2) ∧
    (∀ word, LiesAt word bytes pos → exact word < 2 ^ 64 →
      (overruns 0 (bytes.drop pos) = false ↔ word.length ≤ 10)) ∧
    (overruns 0 (bytes.drop pos) = false → ∀ value stop,
      (decodeAt bytes pos = (.ok value, stop) ↔ ∃ word, LiesAt word bytes pos ∧
        exact word < 2 ^ 64 ∧ value.toNat = exact word ∧ stop = pos + word.length)) := by
  refine ⟨fun word hword hempty value stop => decodeAt_eq_ok_iff_exact hword hempty, fun _ _ => decodeAt_eq_ok,
    fun flaw stop h => ?_, fun word hword hlt => ?_, decodeAt_of_not_overruns⟩
  · have hleft := drop_decodeAt bytes pos
    rw [h] at hleft
    refine ⟨?_, hleft⟩
    rw [decodeAt, Prod.mk.injEq] at h
    have hlength : (bytes.drop pos).length = bytes.length - pos := List.length_drop
    omega
  · have hguarded := guarded_of_exact_lt hlt
    obtain ⟨⟨front, last, rfl, hmore, hlast⟩, rest, hrest⟩ := hword
    have hstops := overruns_eq_false_iff rest (Nat.zero_le 10) hmore hlast hguarded
    rw [← hrest, List.append_assoc, List.length_append, List.length_singleton]
    exact hstops.trans (by omega)

/-- Eleven bytes with a payload in the first alone. -/
theorem decodeAt_exact_padded :
    decodeAt (0x07 :: 0x85 :: List.replicate 9 0x80 ++ [0x00, 0x07]) 1 = (.ok 5, 12) := by
  have hlies : LiesAt (0x85 :: List.replicate 9 0x80 ++ [0x00])
      (0x07 :: 0x85 :: List.replicate 9 0x80 ++ [0x00, 0x07]) 1 :=
    ⟨⟨0x85 :: List.replicate 9 0x80, 0x00, rfl, by decide +kernel, by decide⟩, [0x07], rfl⟩
  exact ((decodeAt_exact _ 1).1 _ hlies (by decide +kernel) 5 12).mpr (by decide)

/-- Ten groups without payload, and a payload in the eleventh. -/
def pastTenth : List UInt8 := List.replicate 10 0x80 ++ [0x01]

/-- The payload of the eleventh byte stands for `2 ^ 70`; it is put into the seventh bit, and no failure tells. A
build that checks its shifts stops. -/
theorem decodeAt_not_exact :
    decodeAt pastTenth 0 = (.ok 64, 11) ∧ overruns 0 pastTenth = true ∧
      LiesAt pastTenth pastTenth 0 ∧ exact pastTenth = 2 ^ 70 ∧
      ¬ ∃ word, LiesAt word pastTenth 0 ∧ exact word < 2 ^ 64 ∧ (64 : UInt64).toNat = exact word ∧
        11 = 0 + word.length := by
  have hlies : LiesAt pastTenth pastTenth 0 :=
    ⟨⟨List.replicate 10 0x80, 0x01, rfl, by decide +kernel, by decide⟩, List.prefix_rfl⟩
  have hexact : exact pastTenth = 2 ^ 70 := by decide
  refine ⟨by decide, by decide, hlies, hexact, ?_⟩
  rintro ⟨word, hword, hlt, -⟩
  obtain rfl := hlies.unique hword
  rw [hexact] at hlt
  omega

end SciArchive.Varint
