import SciArchive.Proofs.RecordSlices
import Mathlib.Data.List.TakeWhile
import Mathlib.Data.Nat.Digits.Lemmas

/-! Values of binary fields. Each element of a field is the number that its own bytes spell in the order of the
layout, and it is the same number when these bytes and the order are turned around. -/
namespace SciArchive

/-! ### Numbers in bytes -/

namespace ByteOrder

def swap : ByteOrder → ByteOrder
  | big => little
  | little => big

/-- The bytes from the lowest digit up. -/
def lowestFirst : ByteOrder → List UInt8 → List UInt8
  | big, bytes => bytes.reverse
  | little, bytes => bytes

/-- The number whose digits to the base 256 the bytes are. -/
def spelled (order : ByteOrder) (bytes : List UInt8) : Nat :=
  Nat.ofDigits 256 ((order.lowestFirst bytes).map UInt8.toNat)

theorem number_eq (order : ByteOrder) (bytes : List UInt8) : order.number bytes = order.spelled bytes := by
  have hfold : ∀ bytes : List UInt8, bytes.foldl (fun n b => 256 * n + b.toNat) 0 =
      Nat.ofDigits 256 (bytes.reverse.map UInt8.toNat) := by
    intro bytes
    rw [Nat.ofDigits_eq_foldr, List.foldr_map, List.foldr_reverse]
    congr 1
    funext n b
    exact Nat.add_comm _ _
  cases order with
  | big => exact hfold bytes
  | little =>
    have hlittle := hfold bytes.reverse
    rw [List.reverse_reverse] at hlittle
    exact hlittle

theorem spelled_lt (order : ByteOrder) (bytes : List UInt8) : order.spelled bytes < 256 ^ bytes.length := by
  have hlength : ((order.lowestFirst bytes).map UInt8.toNat).length = bytes.length := by
    cases order <;> simp [lowestFirst]
  rw [spelled, ← hlength]
  refine Nat.ofDigits_lt_base_pow_length (by decide) fun n hn => ?_
  obtain ⟨b, -, rfl⟩ := List.mem_map.mp hn
  exact b.toNat_lt

theorem number_reverse (order : ByteOrder) (bytes : List UInt8) :
    order.swap.number bytes.reverse = order.number bytes := by
  cases order <;> simp [number, swap]

end ByteOrder

/-- The number that a word of `bits` bits has in two's complement, where `n` is the one that it has without a
sign. -/
def twosComplement (bits n : Nat) : Int := if n < 2 ^ (bits - 1) then n else n - 2 ^ bits

theorem bmod_eq_twosComplement (bits : Nat) {n : Nat} (hbits : 0 < bits) (h : n < 2 ^ bits) :
    (n : Int).bmod (2 ^ bits) = twosComplement bits n := by
  obtain ⟨k, rfl⟩ := Nat.exists_eq_succ_of_ne_zero (Nat.ne_of_gt hbits)
  have hpow : 2 ^ (k + 1) = 2 * 2 ^ k := Nat.pow_succ'
  rw [Int.bmod_def, Int.emod_eq_of_lt (by omega) (by exact_mod_cast h), twosComplement, Nat.succ_sub_one]
  have hhalf : (n : Int) < (((2 ^ (k + 1) : Nat) : Int) + 1) / 2 ↔ n < 2 ^ k := by omega
  simp only [hhalf]
  push_cast
  rfl

namespace Value

/-- The value of an element whose bytes spell `n`. -/
inductive Stores (n : Nat) : DataType → Value → Prop
  | byte {v : Int8} (number : v.toInt = twosComplement 8 n) : Stores n .byte (.byte v)
  | ubyte {v : UInt8} (number : v.toNat = n) : Stores n .ubyte (.ubyte v)
  | short {v : Int16} (number : v.toInt = twosComplement 16 n) : Stores n .short (.short v)
  | ushort {v : UInt16} (number : v.toNat = n) : Stores n .ushort (.ushort v)
  | int {v : Int32} (number : v.toInt = twosComplement 32 n) : Stores n .int (.int v)
  | uint {v : UInt32} (number : v.toNat = n) : Stores n .uint (.uint v)
  | long {v : Int64} (number : v.toInt = twosComplement 64 n) : Stores n .long (.long v)
  | ulong {v : UInt64} (number : v.toNat = n) : Stores n .ulong (.ulong v)
  | float {bits : UInt32} (word : bits.toNat = n) : Stores n .float (.float bits)
  | double {bits : UInt64} (word : bits.toNat = n) : Stores n .double (.double bits)
  | char {c : Char} (code : c.toNat = n) : Stores n .char (.char c)

theorem stores_ofBytes (order : ByteOrder) {type : DataType} {bytes : List UInt8}
    (hsize : type.size = some bytes.length) : Stores (order.spelled bytes) type (ofBytes order type bytes) := by
  have hlt := order.spelled_lt bytes
  rw [ofBytes.eq_def, order.number_eq]
  generalize order.spelled bytes = n at hlt
  generalize bytes.length = width at hsize hlt
  cases type with
  | byte =>
    cases hsize
    refine .byte ?_
    rw [UInt8.toInt8_ofNat', Int8.toInt_ofNat']
    exact bmod_eq_twosComplement 8 (by decide) (by omega)
  | short =>
    cases hsize
    refine .short ?_
    rw [UInt16.toInt16_ofNat', Int16.toInt_ofNat']
    exact bmod_eq_twosComplement 16 (by decide) (by omega)
  | int =>
    cases hsize
    refine .int ?_
    rw [UInt32.toInt32_ofNat', Int32.toInt_ofNat']
    exact bmod_eq_twosComplement 32 (by decide) (by omega)
  | long =>
    cases hsize
    refine .long ?_
    rw [UInt64.toInt64_ofNat', Int64.toInt_ofNat']
    exact bmod_eq_twosComplement 64 (by decide) (by omega)
  | ubyte =>
    cases hsize
    exact .ubyte (UInt8.toNat_ofNat_of_lt hlt)
  | ushort =>
    cases hsize
    exact .ushort (UInt16.toNat_ofNat_of_lt hlt)
  | uint =>
    cases hsize
    exact .uint (UInt32.toNat_ofNat_of_lt hlt)
  | ulong =>
    cases hsize
    exact .ulong (UInt64.toNat_ofNat_of_lt hlt)
  | float =>
    cases hsize
    exact .float (UInt32.toNat_ofNat_of_lt hlt)
  | double =>
    cases hsize
    exact .double (UInt64.toNat_ofNat_of_lt hlt)
  | char =>
    cases hsize
    have hvalid : n.isValidChar := .inl (by omega)
    refine .char ?_
    rw [Char.ofNat, dif_pos hvalid]
    rfl
  | string => cases hsize
  | struct => cases hsize
  | sequence => cases hsize

theorem ofBytes_reverse (order : ByteOrder) (type : DataType) (bytes : List UInt8) :
    ofBytes order.swap type bytes.reverse = ofBytes order type bytes := by
  rw [ofBytes.eq_def, ofBytes.eq_def, order.number_reverse]

theorem elements_ofBytes (order : ByteOrder) {type : DataType} (hsized : type.size.isSome) (bytes : List UInt8) :
    (ofBytes order type bytes).elements = [ofBytes order type bytes] := by
  cases type with
  | string | struct | sequence => cases hsized
  | _ => rfl

end Value

/-! ### Values of a field -/

theorem Text.dropEnd_spec (p : Char → Bool) (cs : List Char) :
    ∃ filling, cs = dropEnd p cs ++ filling ∧ (∀ c ∈ filling, p c = true) ∧
      ∀ c ∈ (dropEnd p cs).getLast?, p c = false := by
  refine ⟨(cs.reverse.takeWhile p).reverse, ?_, fun c hc => ?_, fun c hc => ?_⟩
  · rw [dropEnd, ← List.reverse_append, List.takeWhile_append_dropWhile, List.reverse_reverse]
  · exact List.mem_takeWhile_imp (List.mem_reverse.mp hc)
  · rw [dropEnd, List.getLast?_reverse] at hc
    have hfirst := List.head?_dropWhile_not p cs.reverse
    rw [hc] at hfirst
    exact hfirst

namespace BinaryRecord

/-- Slices side by side are one slice. -/
theorem flatMap_slices (bytes : List UInt8) (offset width count : Nat) :
    ((List.range count).flatMap fun k => slice bytes (offset + k * width) width) =
      slice bytes offset (width * count) := by
  induction count with
  | zero => rw [Nat.mul_zero, slice, List.take_zero, List.range_zero, List.flatMap_nil]
  | succ n ih =>
    rw [List.range_succ, List.flatMap_append, ih, List.flatMap_singleton, Nat.mul_succ, slice, slice, slice,
      List.take_add, List.drop_drop, Nat.mul_comm n]

/-- Pieces of one width side by side are slices of the whole. -/
theorem slice_flatMap {piece : Nat → List UInt8} {width count k : Nat}
    (hwidth : ∀ i < count, (piece i).length = width) (hk : k < count) (behind : List UInt8) :
    slice ((List.range count).flatMap piece ++ behind) (k * width) width = piece k := by
  have hfront : ∀ n ≤ count, ((List.range n).flatMap piece).length = n * width := by
    intro n hn
    induction n with
    | zero => rw [List.range_zero, List.flatMap_nil, List.length_nil, Nat.zero_mul]
    | succ n ih =>
      rw [List.range_succ, List.flatMap_append, List.length_append, ih (by omega), List.flatMap_singleton,
        hwidth n (by omega), Nat.succ_mul]
  obtain ⟨later, rfl⟩ := Nat.exists_eq_add_of_lt hk
  rw [Nat.add_right_comm, List.range_add, List.range_succ, List.flatMap_append, List.flatMap_append,
    List.flatMap_singleton, List.append_assoc, List.append_assoc, slice, List.drop_left' (hfront k (by omega)),
    List.take_left' (hwidth k hk)]

end BinaryRecord

namespace Field

/-- What the bytes of a field say. -/
inductive Reads (f : Field) (order : ByteOrder) (raw : List UInt8) : Value → Prop
  | single {v : Value} (one : f.count = 1) (stored : Value.Stores (order.spelled raw) f.dataType v) :
    Reads f order raw v
  | text {s : String} {filling : List Char} (several : f.count ≠ 1) (type : f.dataType = .char)
    (split : Utf8.decodeLossy raw = s.toList ++ filling) (filled : ∀ c ∈ filling, c = '\x00' ∨ c = ' ')
    (trimmed : ∀ c ∈ s.toList.getLast?, c ≠ '\x00' ∧ c ≠ ' ') : Reads f order raw (.text s)
  | array {vs : List Value} (several : f.count ≠ 1) (type : f.dataType ≠ .char) (length : vs.length = f.count)
    (stored : ∀ (k : Nat) (hk : k < vs.length),
      Value.Stores (order.spelled (BinaryRecord.slice raw (k * f.width) f.width)) f.dataType vs[k]) :
    Reads f order raw (.array vs)

/-- The bytes of a record with those of each element of the field the other way round. -/
def turned (f : Field) (bytes : List UInt8) : List UInt8 :=
  bytes.take f.offset ++
    (((List.range f.count).flatMap fun k =>
      (BinaryRecord.slice bytes (f.offset + k * f.width) f.width).reverse) ++ bytes.drop (f.offset + f.size))

variable {f : Field} {bytes : List UInt8} (hword : f.InWord)
include hword

/-- Each element ends within its field. -/
theorem InWord.inside {k : Nat} (hk : k < f.count) : k * f.width + f.width ≤ f.size := by
  rw [hword.size_eq]
  exact BinaryRecord.mul_add_le hk f.width

theorem length_element (h : f.offset + f.size ≤ bytes.length) {k : Nat} (hk : k < f.count) :
    (BinaryRecord.slice bytes (f.offset + k * f.width) f.width).length = f.width := by
  have hinside := hword.inside hk
  exact BinaryRecord.length_slice (by omega)

theorem length_turned (h : f.offset + f.size ≤ bytes.length) : (f.turned bytes).length = bytes.length := by
  have hpieces : ((List.range f.count).flatMap fun k =>
      (BinaryRecord.slice bytes (f.offset + k * f.width) f.width).reverse).length = f.size := by
    rw [List.length_flatMap, List.map_congr_left (g := fun _ => f.width)]
    · rw [hword.size_eq, List.map_const', List.sum_replicate_nat, List.length_range, Nat.mul_comm]
    · intro k hk
      rw [List.length_reverse, length_element hword h (List.mem_range.mp hk)]
  rw [turned, List.length_append, List.length_append, hpieces, List.length_take, List.length_drop]
  omega

/-- Each element is the other way round, and at the same place. -/
theorem slice_turned (h : f.offset + f.size ≤ bytes.length) {k : Nat} (hk : k < f.count) :
    BinaryRecord.slice (f.turned bytes) (f.offset + k * f.width) f.width =
      (BinaryRecord.slice bytes (f.offset + k * f.width) f.width).reverse := by
  have hfront : (bytes.take f.offset).length = f.offset := by
    rw [List.length_take]
    omega
  have hwidth : ∀ i < f.count,
      (BinaryRecord.slice bytes (f.offset + i * f.width) f.width).reverse.length = f.width := by
    intro i hi
    rw [List.length_reverse, length_element hword h hi]
  rw [BinaryRecord.slice, turned, ← List.drop_drop, List.drop_left' hfront]
  exact BinaryRecord.slice_flatMap hwidth hk _

/-- Elements of one byte have no other way round. -/
theorem turned_eq_self (hwidth : f.width = 1) : f.turned bytes = bytes := by
  have hone : ∀ k, (BinaryRecord.slice bytes (f.offset + k * f.width) f.width).reverse =
      BinaryRecord.slice bytes (f.offset + k * f.width) f.width := by
    intro k
    rw [hwidth, BinaryRecord.slice, List.take_one]
    cases (bytes.drop (f.offset + k * 1)).head? <;> rfl
  have hsize : f.width * f.count = f.size := hword.size_eq.symm
  simp only [turned, hone]
  rw [BinaryRecord.flatMap_slices, hsize, BinaryRecord.slice, ← List.drop_drop, List.take_append_drop,
    List.take_append_drop]

end Field

/-- Whether a layout is accepted does not depend on its order. -/
theorem RecordLayout.make_order {order : ByteOrder} {fields : List Field} {size : Option Nat}
    {layout : RecordLayout} (h : make order fields size = .ok layout) (other : ByteOrder) :
    layout.order = order ∧ make other fields size = .ok { layout with order := other } := by
  rw [make] at h ⊢
  cases hflaw : fieldsFlaw? [] fields with
  | some flaw =>
    simp only [hflaw] at h
    cases h
  | none =>
    simp only [hflaw] at h ⊢
    split at h
    · cases h
    · rename_i hsize
      split at h
      · cases h
      · rename_i hfits
        cases h
        rw [if_neg hsize, if_neg hfits]
        exact ⟨rfl, rfl⟩

namespace BinaryRecord

variable {r : BinaryRecord} {f : Field}

theorem element_eq (r : BinaryRecord) (f : Field) (k : Nat) :
    r.element f k = .ofBytes r.layout.order f.dataType (slice r.bytes (f.offset + k * f.width) f.width) := rfl

section
variable (hword : f.InWord) (hsized : f.dataType.size.isSome) (hwithin : f.offset + f.size ≤ r.bytes.length)
include hword hsized hwithin

theorem stores_element {k : Nat} (hk : k < f.count) :
    Value.Stores (r.layout.order.spelled (slice (r.fieldBytes f) (k * f.width) f.width)) f.dataType
      (r.element f k) := by
  have hsize : f.dataType.size = some (slice r.bytes (f.offset + k * f.width) f.width).length := by
    rw [Field.length_element hword hwithin hk, Field.width]
    exact (Option.some_get hsized).symm.trans (by rw [Option.get_eq_getD])
  rw [fieldBytes, slice_slice (hword.inside hk), element_eq]
  exact Value.stores_ofBytes r.layout.order hsize

theorem reads_fieldValue (hcount : 0 < f.count) :
    f.Reads r.layout.order (r.fieldBytes f) (r.fieldValue f) := by
  rw [fieldValue]
  by_cases hone : f.count = 1
  · rw [if_pos hone]
    have hstored := stores_element hword hsized hwithin hcount
    have hsize : f.size = f.width := by rw [hword.size_eq, hone, Nat.mul_one]
    have hwhole : slice (r.fieldBytes f) (0 * f.width) f.width = r.fieldBytes f := by
      rw [fieldBytes, slice_slice (hword.inside hcount), Nat.zero_mul, Nat.add_zero, hsize]
    rw [hwhole] at hstored
    exact .single hone hstored
  · rw [if_neg hone]
    by_cases hchar : f.dataType = .char
    · rw [if_pos hchar]
      obtain ⟨filling, hsplit, hfilled, htrimmed⟩ :=
        Text.dropEnd_spec (fun c => c == '\x00' || c == ' ') (Utf8.decodeLossy (r.fieldBytes f))
      refine .text hone hchar ?_ (fun c hc => by simpa using hfilled c hc) fun c hc => ?_
      · rwa [String.toList_ofList]
      · rw [String.toList_ofList] at hc
        simpa using htrimmed c hc
    · rw [if_neg hchar]
      refine .array hone hchar (by rw [List.length_map, List.length_range]) fun k hk => ?_
      rw [List.length_map, List.length_range] at hk
      rw [List.getElem_map, List.getElem_range]
      exact stores_element hword hsized hwithin hk

end

/-- A typed read gives the first element of the value. Texts are not read so. -/
theorem head?_elements_fieldValue (hsized : f.dataType.size.isSome) (hcount : 0 < f.count)
    (htype : f.dataType ≠ .char) :
    (r.fieldValue f).elements.head? = some (r.element f 0) := by
  rw [fieldValue]
  by_cases hone : f.count = 1
  · rw [if_pos hone, element_eq, Value.elements_ofBytes _ hsized, List.head?_cons]
  · rw [if_neg hone, if_neg htype, Value.elements_array, List.head?_map, List.head?_range,
      if_neg (Nat.ne_of_gt hcount), Option.map_some]

theorem fieldValue_turned (hword : f.InWord) (hwithin : f.offset + f.size ≤ r.bytes.length)
    (hcount : 0 < f.count) :
    fieldValue ⟨{ r.layout with order := r.layout.order.swap }, f.turned r.bytes⟩ f = r.fieldValue f := by
  have helement : ∀ k < f.count,
      element ⟨{ r.layout with order := r.layout.order.swap }, f.turned r.bytes⟩ f k = r.element f k := by
    intro k hk
    rw [element_eq, element_eq, Field.slice_turned hword hwithin hk]
    exact Value.ofBytes_reverse _ _ _
  rw [fieldValue, fieldValue]
  by_cases hone : f.count = 1
  · rw [if_pos hone, if_pos hone, helement 0 hcount]
  · rw [if_neg hone, if_neg hone]
    by_cases hchar : f.dataType = .char
    · have hbytes : f.turned r.bytes = r.bytes := Field.turned_eq_self hword (by rw [Field.width, hchar]; rfl)
      rw [if_pos hchar, if_pos hchar, fieldBytes, fieldBytes, hbytes]
    · rw [if_neg hchar, if_neg hchar]
      exact congrArg Value.array (List.map_congr_left fun k hk => helement k (List.mem_range.mp hk))

/-- What a record says of a field that has the bytes `own` and the value `v`. Typed reads are of the numeric types.
No slice that is taken for them is out of range. -/
structure Says (r : BinaryRecord) (f : Field) (own : List UInt8) (v : Value) : Prop where
  raw : r.raw f.name = .ok own
  length : own.length = f.size
  value : r.value f.name = .ok v
  reads : f.Reads r.layout.order own v
  get : f.dataType.isNumeric = true → ∃ e, v.elements.head? = some e ∧ r.get f.dataType f.name = .ok e
  refuses : ∀ type : DataType, type.isNumeric = true → f.dataType ≠ type →
    r.get type f.name = .error (.typeMismatch f.name f.dataType type)
  value? : r.value? f.name = some (.ok v)
  get? : ∀ type : DataType, r.get? type f.name = some (r.get type f.name)

theorem says_of_sound (h : r.layout.Sound) (hwhole : r.bytes.length = r.layout.recordSize)
    (hf : f ∈ r.layout.fields) (hword : f.InWord) : r.Says f (r.fieldBytes f) (r.fieldValue f) := by
  have hsized := h.sized f hf
  have hcount := h.counted f hf
  have hwithin : f.offset + f.size ≤ r.bytes.length := hwhole ▸ h.offset_add_size_le hf hword
  have hvalue := value?_field h hwhole hf hword
  have hown : ∀ g ∈ r.layout.fields, g.name = f.name → g.InWord := fun g hg hname => by
    rwa [List.inj_on_of_nodup_map h.distinct hg hf hname]
  constructor
  case raw => rw [BinaryRecord.raw, raw?_field h hwhole hf hword, Option.getD_some]
  case length => exact length_slice hwithin
  case value => rw [BinaryRecord.value, hvalue, Option.getD_some]
  case reads => exact reads_fieldValue hword hsized hwithin hcount
  case get =>
    intro hnumeric
    have hchar : f.dataType ≠ .char := by
      rintro htype
      rw [htype] at hnumeric
      cases hnumeric
    refine ⟨r.element f 0, head?_elements_fieldValue hsized hcount hchar, ?_⟩
    rw [BinaryRecord.get, get?_field h hwhole hf hword, Option.getD_some]
  case refuses =>
    intro type _ hother
    rw [BinaryRecord.get, get?_other h hf hother, Option.getD_some]
  case value? => exact hvalue
  case get? => exact (checked_eq h hwhole hown).2.2

/-! ### Fields that leave the word -/

theorem front?_eq_none {order : ByteOrder} {type : DataType} {bytes : List UInt8}
    (hshort : bytes.length < type.size.getD 0) : front? order type bytes = none := by
  rw [front?, range?, if_neg (fun hin => Nat.not_le.mpr hshort hin.2), Option.map_none]

/-- Bytes that are too few for the elements do not fall into elements. -/
theorem elements?_eq_none {order : ByteOrder} {type : DataType} {count : Nat} {bytes : List UInt8}
    (hfew : bytes.length < type.size.getD 0 * count) : elements? order type count bytes = none := by
  have hnarrow : bytes.length / count < type.size.getD 0 := Nat.div_lt_of_lt_mul (by rwa [Nat.mul_comm] at hfew)
  have hfront : ∀ start, front? order type (slice bytes start (bytes.length / count)) = none := fun start =>
    front?_eq_none (Nat.lt_of_le_of_lt (List.length_take_le _ _) hnarrow)
  rw [elements?, pieces?]
  by_cases hshare : bytes.length / count = 0
  · rw [if_pos hshare, Option.bind_none]
  · have hone : 0 < bytes.length / (bytes.length / count) :=
      Nat.div_pos (Nat.div_le_self _ _) (Nat.pos_of_ne_zero hshare)
    obtain ⟨more, hmore⟩ := Nat.exists_eq_add_one.mpr hone
    rw [if_neg hshare, Option.bind_some, hmore, List.range_succ_eq_map, List.map_cons, List.mapM_cons, hfront]
    rfl

theorem length_range?_le {bytes taken : List UInt8} {start stop : Nat} (h : range? bytes start stop = some taken) :
    taken.length ≤ stop - start := by
  rw [range?] at h
  split at h
  · cases h
    exact List.length_take_le _ _
  · cases h

/-- Elements that take more bytes than a word can tell are several, and none of them is a character. -/
theorem several_of_wide (hcount : f.count < UInt64.size) (hwide : UInt64.size ≤ f.width * f.count) :
    f.count ≠ 1 ∧ f.dataType ≠ .char := by
  constructor
  · intro hone
    have hwidth := f.dataType.size_le
    have hword : 8 < UInt64.size := by decide
    rw [Field.width, hone] at hwide
    omega
  · intro hchar
    have hwidth : f.width = 1 := by rw [Field.width, hchar]; rfl
    rw [hwidth] at hwide
    omega

/-- The value of a field whose end a word cannot tell is never given: the program stops. -/
theorem value_outside (h : r.layout.Sound) (hf : f ∈ r.layout.fields) (hoffset : f.offset < UInt64.size)
    (hcount : f.count < UInt64.size) (hout : ¬ f.InWord) : r.value f.name = .error .crashed := by
  have hsize : f.size < UInt64.size := Nat.mod_lt _ (by decide)
  have hcrash : r.value? f.name = none := by
    simp only [value?, h.field_eq hf]
    by_cases hwraps : f.offset + f.size < UInt64.size
    · -- the product has wrapped: the field has fewer bytes than its elements need
      have hwide : UInt64.size ≤ f.width * f.count := by
        by_contra hsmall
        have hexact : f.size = f.width * f.count := wrap_of_lt (Nat.not_le.mp hsmall)
        exact hout (by rwa [Field.InWord, ← hexact])
      obtain ⟨hseveral, hchar⟩ := several_of_wide hcount hwide
      cases hrange : range? r.bytes f.offset f.stop with
      | none => rfl
      | some bytes =>
        have hlength := length_range?_le hrange
        rw [Field.stop, wrap_of_lt hwraps, Nat.add_sub_cancel_left] at hlength
        have hfew : bytes.length < f.width * f.count := by omega
        rw [Option.bind_some, if_neg hseveral, if_neg hchar, elements?_eq_none hfew, Option.map_none]
    · -- the sum has wrapped: the field ends in front of where it begins
      have hback : ¬ f.offset ≤ f.stop := by
        rw [Field.stop, wrap, Nat.mod_eq_sub_mod (Nat.not_lt.mp hwraps), Nat.mod_eq_of_lt (by omega)]
        omega
      rw [range?, if_neg (fun hin => hback hin.1), Option.bind_none]
  rw [value, hcrash, Option.getD_none]

/-- A record says of each field whose end a word can tell what its own bytes spell, and the record with these bytes
turned around says the same under the layout with the other order. A field whose end leaves the word is accepted
too if what is left of the sum lies in the record, and the program stops when its value is asked for. -/
theorem says_and_turned {order : ByteOrder} {fields : List Field} {size : Option Nat} {layout : RecordLayout}
    (hlayout : RecordLayout.make order fields size = .ok layout) {bytes : List UInt8}
    (hr : make layout bytes = .ok r) (hf : f ∈ fields) :
    (f.InWord → ∃ v, r.layout.order = order ∧ r.Says f (slice bytes f.offset f.size) v ∧
      ∃ swapped s, RecordLayout.make order.swap fields size = .ok swapped ∧
        make swapped (f.turned bytes) = .ok s ∧ s.value f.name = .ok v) ∧
    (¬ f.InWord → f.offset < UInt64.size → f.count < UInt64.size → r.value f.name = .error .crashed) := by
  obtain ⟨rfl, hsound⟩ := RecordLayout.sound_of_make hlayout
  obtain ⟨horder, hswapped⟩ := RecordLayout.make_order hlayout order.swap
  obtain ⟨rfl, hwhole⟩ := eq_of_make hr
  refine ⟨fun hword => ?_, fun hout hoffset hcount => value_outside hsound hf hoffset hcount hout⟩
  have hwithin : f.offset + f.size ≤ bytes.length := hwhole ▸ hsound.offset_add_size_le hf hword
  have hturned : (f.turned bytes).length = layout.recordSize := by
    rw [Field.length_turned hword hwithin, hwhole]
  have hvalue := fieldValue_turned (r := ⟨layout, bytes⟩) hword hwithin (hsound.counted f hf)
  have hsame : RecordLayout.Sound { layout with order := order.swap } :=
    ⟨hsound.sized, hsound.counted, hsound.distinct, hsound.within⟩
  subst horder
  refine ⟨fieldValue ⟨layout, bytes⟩ f, rfl, says_of_sound hsound hwhole hf hword, _, _, hswapped,
    if_pos hturned, ?_⟩
  rw [← hvalue]
  exact (says_of_sound (r := ⟨_, f.turned bytes⟩) hsame hturned hf hword).value

/-- Records of two numbers with a sign, a text of up to four characters and a number with a fraction. -/
def mixed : RecordLayout where
  fields := [{ name := "pair", dataType := .short, offset := 0, count := 2 },
    { name := "code", dataType := .char, offset := 4, count := 4 },
    { name := "level", dataType := .float, offset := 8 }]
  recordSize := 12
  order := .little

def mixedBytes : List UInt8 := [0xFE, 0xFF, 0x01, 0x02, 0x61, 0x62, 0x20, 0x00, 0x00, 0x00, 0xC0, 0x7F]

theorem says_and_turned_mixed :
    Says ⟨mixed, mixedBytes⟩ ⟨"pair", .short, 0, 2⟩ [0xFE, 0xFF, 0x01, 0x02] (.array [.short (-2), .short 513]) ∧
      ∃ swapped s, RecordLayout.make .big mixed.fields (some 12) = .ok swapped ∧
        make swapped [0xFF, 0xFE, 0x02, 0x01, 0x61, 0x62, 0x20, 0x00, 0x00, 0x00, 0xC0, 0x7F] = .ok s ∧
          s.value "pair" = .ok (.array [.short (-2), .short 513]) := by
  have hmake : RecordLayout.make .little mixed.fields (some 12) = .ok mixed := by rfl
  have hr : make mixed mixedBytes = .ok ⟨mixed, mixedBytes⟩ := by rfl
  have hvalue : value ⟨mixed, mixedBytes⟩ "pair" = .ok (.array [.short (-2), .short 513]) := by rfl
  obtain ⟨v, -, htold, hturned⟩ :=
    (says_and_turned hmake hr (f := ⟨"pair", .short, 0, 2⟩) (by decide)).1 (by decide)
  cases hvalue.symm.trans htold.value
  exact ⟨htold, hturned⟩

/-- Records of one byte, and a field that begins at the last place there is: its end is the first place. -/
def lastPlace : RecordLayout where
  fields := [{ name := "a", dataType := .ubyte, offset := UInt64.size - 1 }]
  recordSize := 1
  order := .big

theorem not_says_value :
    RecordLayout.make .big lastPlace.fields (some 1) = .ok lastPlace ∧
      make lastPlace [0] = .ok ⟨lastPlace, [0]⟩ ∧
      value ⟨lastPlace, [0]⟩ "a" = .error .crashed ∧
      ¬ ∃ v, value ⟨lastPlace, [0]⟩ "a" = .ok v := by
  have hcrash : value ⟨lastPlace, [0]⟩ "a" = .error .crashed := by rfl
  refine ⟨rfl, rfl, hcrash, ?_⟩
  rintro ⟨v, hv⟩
  rw [hcrash] at hv
  cases hv

example : value ⟨mixed, mixedBytes⟩ "code" = .ok (.text "ab") := by cbv

end BinaryRecord

end SciArchive
