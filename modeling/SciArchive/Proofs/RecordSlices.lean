import SciArchive.Proofs.BlockBounds
import Mathlib.Data.List.Nodup

/-! Where the fields of an accepted layout lie, if their ends are places that a word can tell. Both ways to the
bytes of a field take the same slice, and no slice is out of range. -/
namespace SciArchive

/-! ### Accepted layouts -/

theorem Field.width_le_size {f : Field} (hword : f.InWord) (h : 0 < f.count) : f.width ≤ f.size := by
  rw [hword.size_eq]
  exact Nat.le_mul_of_pos_right _ h

theorem DataType.size_pos {type : DataType} (h : type.size.isSome) : 0 < type.size.getD 0 := by
  cases type <;> simp_all [size]

theorem DataType.size_le (type : DataType) : type.size.getD 0 ≤ 8 := by cases type <;> decide

namespace RecordLayout

/-- Every field has a fixed size, elements and a name of its own, and its end as a word has it lies within the
record. -/
structure Sound (l : RecordLayout) : Prop where
  sized : ∀ f ∈ l.fields, f.dataType.size.isSome
  counted : ∀ f ∈ l.fields, 0 < f.count
  distinct : (l.fields.map Field.name).Nodup
  within : ∀ f ∈ l.fields, f.stop ≤ l.recordSize

theorem fieldFlaw?_eq_none {seen : List String} {f : Field} :
    fieldFlaw? seen f = none ↔ f.dataType.size.isSome ∧ 0 < f.count ∧ f.name ∉ seen := by
  rw [fieldFlaw?]
  by_cases hsize : f.dataType.size.isNone = true
  · simp_all
  · by_cases hcount : f.count = 0
    · simp_all
    · by_cases hseen : f.name ∈ seen
      · simp_all
      · simp_all [Option.isSome_iff_ne_none, Nat.pos_iff_ne_zero]

theorem fieldsFlaw?_eq_none {seen : List String} {fields : List Field} (h : fieldsFlaw? seen fields = none) :
    (∀ f ∈ fields, f.dataType.size.isSome ∧ 0 < f.count ∧ f.name ∉ seen) ∧
      (fields.map Field.name).Nodup := by
  induction fields generalizing seen with
  | nil => simp
  | cons f rest ih =>
    rw [fieldsFlaw?, Option.orElse_eq_or, Option.or_eq_none_iff] at h
    have hfirst := fieldFlaw?_eq_none.mp h.1
    have hrest := ih h.2
    constructor
    · intro g hg
      rcases List.mem_cons.mp hg with rfl | hg
      · exact hfirst
      · have hothers := hrest.1 g hg
        exact ⟨hothers.1, hothers.2.1, fun hseen => hothers.2.2 (List.mem_cons_of_mem _ hseen)⟩
    · rw [List.map_cons, List.nodup_cons]
      refine ⟨fun hname => ?_, hrest.2⟩
      rcases List.mem_map.mp hname with ⟨g, hg, hsame⟩
      exact (hrest.1 g hg).2.2 (hsame ▸ List.mem_cons_self)

theorem le_extent {fields : List Field} {f : Field} (h : f ∈ fields) : f.stop ≤ extent fields := by
  -- for any maximum so far, as the fields before have gone into it
  have hreach : ∀ (fields : List Field) (n : Nat),
      n ≤ fields.foldl (fun n f => max n f.stop) n ∧
        ∀ f ∈ fields, f.stop ≤ fields.foldl (fun n f => max n f.stop) n := by
    intro fields
    induction fields with
    | nil => simp
    | cons g rest ih =>
      intro n
      have hrest := ih (max n g.stop)
      simp only [List.foldl_cons, List.mem_cons, forall_eq_or_imp]
      exact ⟨by omega, by omega, hrest.2⟩
  exact (hreach fields 0).2 f h

theorem sound_of_make {order : ByteOrder} {fields : List Field} {size : Option Nat} {layout : RecordLayout}
    (h : make order fields size = .ok layout) : layout.fields = fields ∧ layout.Sound := by
  rw [make] at h
  split at h
  · cases h
  · rename_i hflaw
    have hfields := fieldsFlaw?_eq_none hflaw
    split at h
    · cases h
    · split at h
      · cases h
      · rename_i hfits
        cases h
        refine ⟨rfl, fun f hf => (hfields.1 f hf).1, fun f hf => (hfields.1 f hf).2.1, hfields.2,
          fun f hf => ?_⟩
        exact Nat.le_trans (le_extent hf) (Nat.not_lt.mp hfits)

theorem field_cases (l : RecordLayout) (name : String) :
    (∃ f, l.field name = .ok f ∧ f ∈ l.fields ∧ f.name = name) ∨
      l.field name = .error (.fieldNotFound name) ∧ ∀ f ∈ l.fields, f.name ≠ name := by
  cases hfind : l.field? name with
  | some f =>
    have hname := List.find?_some hfind
    exact Or.inl ⟨f, by simp [field, hfind], List.mem_of_find?_eq_some hfind, by simpa using hname⟩
  | none =>
    have hothers := List.find?_eq_none.mp hfind
    exact Or.inr ⟨by simp [field, hfind], by simpa using hothers⟩

/-- A name leads to its field, since no other field has it. -/
theorem Sound.field_eq {l : RecordLayout} (h : l.Sound) {f : Field} (hf : f ∈ l.fields) :
    l.field f.name = .ok f := by
  rcases field_cases l f.name with ⟨g, hg, hmem, hname⟩ | ⟨-, hnone⟩
  · rw [hg, List.inj_on_of_nodup_map h.distinct hmem hf hname]
  · exact absurd rfl (hnone f hf)

/-- A field whose end a word can tell lies in the record. -/
theorem Sound.offset_add_size_le {l : RecordLayout} (h : l.Sound) {f : Field} (hf : f ∈ l.fields)
    (hword : f.InWord) : f.offset + f.size ≤ l.recordSize := by
  rw [← hword.stop_eq]
  exact h.within f hf

end RecordLayout

/-! ### Checked slices -/

theorem mapM_some {α β : Type} {f : α → Option β} {g : α → β} {l : List α}
    (h : ∀ a ∈ l, f a = some (g a)) : l.mapM f = some (l.map g) := by
  induction l with
  | nil => rfl
  | cons a l ih =>
    have hrest := ih fun b hb => h b (List.mem_cons_of_mem _ hb)
    simp [List.mapM_cons, h a List.mem_cons_self, hrest]

namespace BinaryRecord

/-- The bytes of a field that lies in the record. -/
def fieldBytes (r : BinaryRecord) (f : Field) : List UInt8 := slice r.bytes f.offset f.size

/-- The element numbered `i` of such a field. -/
def element (r : BinaryRecord) (f : Field) (i : Nat) : Value :=
  .ofBytes r.layout.order f.dataType (slice r.bytes (f.offset + i * f.width) f.width)

/-- The value of such a field. -/
def fieldValue (r : BinaryRecord) (f : Field) : Value :=
  if f.count = 1 then r.element f 0
  else if f.dataType = .char then
    .text (String.ofList
      (Text.dropEnd (fun c => c == '\x00' || c == ' ') (Utf8.decodeLossy (r.fieldBytes f))))
  else .array ((List.range f.count).map (r.element f))

theorem range?_slice {bytes : List UInt8} {offset size : Nat} (h : offset + size ≤ bytes.length) :
    range? bytes offset (offset + size) = some (slice bytes offset size) := by
  rw [range?, if_pos ⟨Nat.le_add_right _ _, h⟩, Nat.add_sub_cancel_left]

theorem length_slice {bytes : List UInt8} {offset size : Nat} (h : offset + size ≤ bytes.length) :
    (slice bytes offset size).length = size := by
  rw [slice, List.length_take, List.length_drop]
  omega

/-- The front of a slice that is wide enough. -/
theorem front?_slice (order : ByteOrder) (type : DataType) {bytes : List UInt8} {offset size : Nat}
    (hwide : type.size.getD 0 ≤ size) (h : offset + size ≤ bytes.length) :
    front? order type (slice bytes offset size) =
      some (.ofBytes order type (slice bytes offset (type.size.getD 0))) := by
  have hlength : 0 + type.size.getD 0 ≤ (slice bytes offset size).length := by
    rw [length_slice h]
    omega
  have hfront := range?_slice hlength
  rw [Nat.zero_add] at hfront
  rw [front?, hfront, slice_slice (by omega), Option.map_some, Nat.add_zero]

theorem mul_add_le {i count : Nat} (h : i < count) (width : Nat) : i * width + width ≤ width * count := by
  rw [← Nat.succ_mul, Nat.mul_comm width]
  exact Nat.mul_le_mul_right _ h

/-- A slice of `count` elements falls into one piece for each. -/
theorem pieces?_slice {bytes : List UInt8} {offset width count : Nat} (hwidth : 0 < width)
    (h : offset + width * count ≤ bytes.length) :
    pieces? width (slice bytes offset (width * count)) =
      some ((List.range count).map fun i => slice bytes (offset + i * width) width) := by
  rw [pieces?, if_neg (Nat.ne_of_gt hwidth), length_slice h, Nat.mul_div_cancel_left _ hwidth]
  refine congrArg some (List.map_congr_left fun i hi => ?_)
  exact slice_slice (mul_add_le (List.mem_range.mp hi) width)

variable {r : BinaryRecord}

theorem eq_of_make {layout : RecordLayout} {bytes : List UInt8} (h : make layout bytes = .ok r) :
    r = ⟨layout, bytes⟩ ∧ bytes.length = layout.recordSize := by
  by_cases hlength : bytes.length = layout.recordSize
  · rw [make, if_pos hlength, Except.ok.injEq] at h
    exact ⟨h.symm, hlength⟩
  · rw [make, if_neg hlength] at h
    cases h

theorem whole_of_make {layout : RecordLayout} {bytes : List UInt8} (h : make layout bytes = .ok r) :
    r.layout = layout ∧ r.bytes.length = layout.recordSize := by
  obtain ⟨rfl, hlength⟩ := eq_of_make h
  exact ⟨rfl, hlength⟩

section
variable {f : Field} (h : r.layout.Sound) (hwhole : r.bytes.length = r.layout.recordSize)
  (hf : f ∈ r.layout.fields) (hword : f.InWord)
include h hwhole hf hword

theorem elements?_eq : elements? r.layout.order f.dataType f.count (r.fieldBytes f) =
    some ((List.range f.count).map (r.element f)) := by
  have hexact := hword.size_eq
  have hwithin : f.offset + f.width * f.count ≤ r.bytes.length := by
    rw [← hexact, hwhole]
    exact h.offset_add_size_le hf hword
  have hwidth : 0 < f.width := DataType.size_pos (h.sized f hf)
  have hshare : (r.fieldBytes f).length / f.count = f.width := by
    rw [fieldBytes, hexact, length_slice hwithin, Nat.mul_div_cancel _ (h.counted f hf)]
  rw [elements?, hshare, fieldBytes, hexact, pieces?_slice hwidth hwithin, Option.bind_some, List.mapM_map]
  refine mapM_some fun i hi => ?_
  have hinside := mul_add_le (List.mem_range.mp hi) f.width
  have hlast : f.offset + i * f.width + f.width ≤ r.bytes.length := by omega
  exact front?_slice r.layout.order f.dataType (Nat.le_refl f.width) hlast

theorem raw?_field : r.raw? f.name = some (.ok (r.fieldBytes f)) := by
  have hwithin : f.offset + f.size ≤ r.bytes.length := hwhole ▸ h.offset_add_size_le hf hword
  simp only [raw?, h.field_eq hf, hword.stop_eq, range?_slice hwithin, fieldBytes, Option.map_some]

theorem get?_field : r.get? f.dataType f.name = some (.ok (r.element f 0)) := by
  have hwithin : f.offset + f.size ≤ r.bytes.length := hwhole ▸ h.offset_add_size_le hf hword
  have hwidth := Field.width_le_size hword (h.counted f hf)
  have hwide : f.dataType.size.getD 0 ≤ r.bytes.length - f.offset := by
    rw [← Field.width]
    omega
  have htail : f.offset + (r.bytes.length - f.offset) = r.bytes.length := by omega
  have hfront := front?_slice r.layout.order f.dataType hwide (Nat.le_of_eq htail)
  have hrange := range?_slice (Nat.le_of_eq htail)
  rw [htail] at hrange
  simp [get?, h.field_eq hf, hrange, hfront, element, Field.width]

theorem value?_field : r.value? f.name = some (.ok (r.fieldValue f)) := by
  have hwithin : f.offset + f.size ≤ r.bytes.length := hwhole ▸ h.offset_add_size_le hf hword
  have hwidth := Field.width_le_size hword (h.counted f hf)
  simp only [value?, h.field_eq hf, hword.stop_eq, range?_slice hwithin, Option.bind_some, fieldValue]
  by_cases hone : f.count = 1
  · rw [if_pos hone, if_pos hone, front?_slice _ _ hwidth hwithin]
    simp [element, Field.width]
  · rw [if_neg hone, if_neg hone]
    by_cases hchar : f.dataType = .char
    · rw [if_pos hchar, if_pos hchar, fieldBytes]
    · have helements := elements?_eq h hwhole hf hword
      rw [fieldBytes] at helements
      rw [if_neg hchar, if_neg hchar, helements, Option.map_some]

end

theorem get?_other (h : r.layout.Sound) {f : Field} (hf : f ∈ r.layout.fields) {type : DataType}
    (hother : f.dataType ≠ type) : r.get? type f.name = some (.error (.typeMismatch f.name f.dataType type)) := by
  simp only [get?, h.field_eq hf, if_neg hother]

/-- No access to a whole record of a sound layout, by a name whose field ends at a place that a word can tell, takes
a slice out of range. -/
theorem checked_eq (h : r.layout.Sound) (hwhole : r.bytes.length = r.layout.recordSize) {name : String}
    (hword : ∀ f ∈ r.layout.fields, f.name = name → f.InWord) :
    r.raw? name = some (r.raw name) ∧ r.value? name = some (r.value name) ∧
      ∀ type, r.get? type name = some (r.get type name) := by
  rcases r.layout.field_cases name with ⟨f, -, hmem, rfl⟩ | ⟨hnone, -⟩
  · have hends := hword f hmem rfl
    refine ⟨?_, ?_, fun type => ?_⟩
    · rw [raw, raw?_field h hwhole hmem hends, Option.getD_some]
    · rw [value, value?_field h hwhole hmem hends, Option.getD_some]
    · by_cases htype : f.dataType = type
      · rw [← htype, get, get?_field h hwhole hmem hends, Option.getD_some]
      · rw [get, get?_other h hmem htype, Option.getD_some]
  · simp [raw, raw?, value, value?, get, get?, hnone]

end BinaryRecord

/-! ### Tables -/

namespace RecordTable

/-- As `record`, but none if the slice is out of range. -/
def record? (t : RecordTable) (i : Nat) : Option (Except Fault BinaryRecord) :=
  if i < t.length then
    (BinaryRecord.range? t.buffer (t.base i) (t.base i + t.layout.recordSize)).map fun bytes =>
      .ok ⟨t.layout, bytes⟩
  else some (.error (.recordOutOfBounds i t.length))

/-- Every access to a field of a record by its name fails so. -/
structure Fails (t : RecordTable) (i : Nat) (name : String) (e : Fault) : Prop where
  rawField : t.rawField i name = .error e
  raw : ((t.record i).bind fun r => r.raw name) = .error e
  value : ((t.record i).bind fun r => r.value name) = .error e
  read : ∀ type, t.read type i name = .error e

variable {t : RecordTable} {i : Nat}

theorem base_succ (t : RecordTable) (i : Nat) : t.base (i + 1) = t.base i + t.layout.recordSize :=
  Nat.succ_mul i _

/-- A record that the table counts ends within the buffer. -/
theorem base_succ_le (h : i < t.length) : t.base (i + 1) ≤ t.buffer.length := by
  have hwhole : t.length * t.layout.recordSize ≤ t.buffer.length := Nat.div_mul_le_self _ _
  exact Nat.le_trans (Nat.mul_le_mul_right _ h) hwhole

theorem record_eq (h : i < t.length) : t.record i = .ok (t.recordAt i) := if_pos h

theorem whole_of_record {r : BinaryRecord} (h : t.record i = .ok r) :
    r.layout = t.layout ∧ r.bytes.length = t.layout.recordSize := by
  by_cases hin : i < t.length
  · rw [record_eq hin, Except.ok.injEq] at h
    subst h
    have hend := base_succ_le hin
    rw [base_succ] at hend
    exact ⟨rfl, BinaryRecord.length_slice hend⟩
  · rw [record, if_neg hin] at h
    cases h

theorem record?_eq (t : RecordTable) (i : Nat) : t.record? i = some (t.record i) := by
  rw [record?, record]
  by_cases h : i < t.length
  · have hend := base_succ_le h
    rw [base_succ] at hend
    rw [if_pos h, if_pos h, BinaryRecord.range?_slice hend]
    rfl
  · rw [if_neg h, if_neg h]

/-- A place within the buffer is as it is told. -/
theorem place_eq {n : Nat} (h : n ≤ t.buffer.length) : t.place n = n := if_pos h

theorem rawField?_field (hsound : t.layout.Sound) (h : i < t.length) {f : Field} (hf : f ∈ t.layout.fields)
    (hword : f.InWord) :
    t.rawField? i f.name = some (.ok (BinaryRecord.slice t.buffer (t.base i + f.offset) f.size)) := by
  have hend := base_succ_le h
  have hwithin := hsound.offset_add_size_le hf hword
  rw [base_succ] at hend
  have hfits : t.base i + f.offset + f.size ≤ t.buffer.length := by omega
  have hstart : t.base i + f.offset ≤ t.buffer.length := by omega
  simp only [rawField?, if_pos h, hsound.field_eq hf, place_eq hstart, place_eq hfits,
    BinaryRecord.range?_slice hfits, Option.map_some]

theorem rawField?_eq (hsound : t.layout.Sound) (hword : ∀ f ∈ t.layout.fields, f.InWord) (i : Nat)
    (name : String) : t.rawField? i name = some (t.rawField i name) := by
  by_cases h : i < t.length
  · rcases t.layout.field_cases name with ⟨f, -, hmem, rfl⟩ | ⟨hnone, -⟩
    · rw [rawField, rawField?_field hsound h hmem (hword f hmem), Option.getD_some]
    · simp [rawField, rawField?, h, hnone]
  · simp [rawField, rawField?, h]

theorem fails_of_length_le (h : t.length ≤ i) (name : String) :
    t.Fails i name (.recordOutOfBounds i t.length) := by
  have hout : ¬ i < t.length := Nat.not_lt.mpr h
  have hrecord : t.record i = .error (.recordOutOfBounds i t.length) := if_neg hout
  refine ⟨?_, by rw [hrecord]; rfl, by rw [hrecord]; rfl, fun type => by rw [read, hrecord]; rfl⟩
  rw [rawField, rawField?, if_neg hout, Option.getD_some]

theorem fails_of_unknown (h : i < t.length) {name : String} (hnone : ∀ f ∈ t.layout.fields, f.name ≠ name) :
    t.Fails i name (.fieldNotFound name) := by
  have hfield : t.layout.field name = .error (.fieldNotFound name) := by
    rcases t.layout.field_cases name with ⟨f, -, hmem, hname⟩ | ⟨hf, -⟩
    · exact absurd hname (hnone f hmem)
    · exact hf
  have hlayout : (t.recordAt i).layout.field name = .error (.fieldNotFound name) := hfield
  constructor
  · simp [rawField, rawField?, h, hfield]
  · simp [record_eq h, Except.bind, BinaryRecord.raw, BinaryRecord.raw?, hlayout]
  · simp [record_eq h, Except.bind, BinaryRecord.value, BinaryRecord.value?, hlayout]
  · intro type
    simp [read, record_eq h, Except.bind, BinaryRecord.get, BinaryRecord.get?, hlayout]

/-- A field of a record has the same bytes both ways, and they lie in the record. -/
theorem slices_eq (hsound : t.layout.Sound) (h : i < t.length) {f : Field} (hf : f ∈ t.layout.fields)
    (hword : f.InWord) :
    t.rawField i f.name = .ok (BinaryRecord.slice t.buffer (t.base i + f.offset) f.size) ∧
      ((t.record i).bind fun r => r.raw f.name) =
        .ok (BinaryRecord.slice t.buffer (t.base i + f.offset) f.size) ∧
      t.base i + f.offset + f.size ≤ t.base (i + 1) ∧ t.base (i + 1) ≤ t.buffer.length := by
  have hwithin := hsound.offset_add_size_le hf hword
  have hwhole := (whole_of_record (record_eq h)).2
  have hraw := BinaryRecord.raw?_field (r := t.recordAt i) hsound hwhole hf hword
  have hslice : (t.recordAt i).fieldBytes f = BinaryRecord.slice t.buffer (t.base i + f.offset) f.size :=
    BinaryRecord.slice_slice hwithin
  refine ⟨?_, ?_, by rw [base_succ]; omega, base_succ_le h⟩
  · rw [rawField, rawField?_field hsound h hf hword, Option.getD_some]
  · rw [record_eq h, Except.bind, BinaryRecord.raw, hraw, Option.getD_some, hslice]

/-- Accesses to records of an accepted layout whose fields end at places that a word can tell. No slice is out of
range, neither of a table nor of a record, be it from the table or made of bytes. A field of a record that the table
counts has, both ways, its own bytes within the record; without the record every access fails for it, whatever the
field, and without the field every access fails for that. -/
theorem accesses_in_range {order : ByteOrder} {fields : List Field} {size : Option Nat}
    {layout : RecordLayout} (hmake : RecordLayout.make order fields size = .ok layout)
    (hword : ∀ f ∈ fields, f.InWord) (buffer : List UInt8) (i : Nat) (name : String) :
    let t : RecordTable := ⟨layout, buffer⟩
    (t.record? i = some (t.record i) ∧ t.rawField? i name = some (t.rawField i name) ∧
      ∀ r, t.record i = .ok r ∨ BinaryRecord.make layout buffer = .ok r →
        r.raw? name = some (r.raw name) ∧ r.value? name = some (r.value name) ∧
          ∀ type, r.get? type name = some (r.get type name)) ∧
    (i < buffer.length / layout.recordSize → ∀ f ∈ fields, f.name = name →
      let start := i * layout.recordSize + f.offset
      t.rawField i name = .ok (BinaryRecord.slice buffer start f.size) ∧
        ((t.record i).bind fun r => r.raw name) = .ok (BinaryRecord.slice buffer start f.size) ∧
        start + f.size ≤ (i + 1) * layout.recordSize ∧ (i + 1) * layout.recordSize ≤ buffer.length) ∧
    (i < buffer.length / layout.recordSize → (∀ f ∈ fields, f.name ≠ name) →
      t.Fails i name (.fieldNotFound name)) ∧
    (buffer.length / layout.recordSize ≤ i →
      t.Fails i name (.recordOutOfBounds i (buffer.length / layout.recordSize))) := by
  intro t
  rcases RecordLayout.sound_of_make hmake with ⟨rfl, hsound⟩
  refine ⟨⟨t.record?_eq i, rawField?_eq hsound hword i name, fun r hr => ?_⟩, ?_, ?_, ?_⟩
  · have hwhole : r.layout = layout ∧ r.bytes.length = layout.recordSize := by
      rcases hr with hr | hr
      · exact whole_of_record (t := t) hr
      · exact BinaryRecord.whole_of_make hr
    rcases hwhole with ⟨rfl, hwhole⟩
    exact BinaryRecord.checked_eq hsound hwhole fun f hf _ => hword f hf
  · rintro hin f hf rfl
    exact slices_eq (t := t) hsound hin hf (hword f hf)
  · intro hin hnone
    exact fails_of_unknown (t := t) hin hnone
  · intro hout
    exact fails_of_length_le (t := t) hout name

/-- Records of eight bytes: a number, two more that begin within it, and two bytes that no field has. -/
def crossing : RecordLayout where
  fields := [{ name := "a", dataType := .int, offset := 0 },
    { name := "b", dataType := .short, offset := 2, count := 2 }]
  recordSize := 8
  order := .little

/-- Two such records and a byte behind them. -/
def crossingBytes : List UInt8 := [0, 1, 2, 3, 4, 5, 6, 7, 8, 9, 10, 11, 12, 13, 14, 15, 16]

theorem accesses_in_range_crossing :
    rawField ⟨crossing, crossingBytes⟩ 1 "b" = .ok [10, 11, 12, 13] ∧
    ((record ⟨crossing, crossingBytes⟩ 1).bind fun r => r.raw "b") = .ok [10, 11, 12, 13] ∧
    Fails ⟨crossing, crossingBytes⟩ 1 "c" (.fieldNotFound "c") ∧
    Fails ⟨crossing, crossingBytes⟩ 2 "b" (.recordOutOfBounds 2 2) ∧
    Fails ⟨crossing, crossingBytes⟩ 2 "c" (.recordOutOfBounds 2 2) := by
  have hmake : RecordLayout.make .little crossing.fields (some 8) = .ok crossing := by rfl
  have hword : ∀ f ∈ crossing.fields, f.InWord := by decide
  have hone := accesses_in_range hmake hword crossingBytes 1
  have htwo := accesses_in_range hmake hword crossingBytes 2
  have hb := (hone "b").2.1 (by decide) ⟨"b", .short, 2, 2⟩ (by decide) rfl
  exact ⟨hb.1, hb.2.1, (hone "c").2.2.1 (by decide) (by decide), (htwo "b").2.2.2 (by decide),
    (htwo "c").2.2.2 (by decide)⟩

end RecordTable
end SciArchive
