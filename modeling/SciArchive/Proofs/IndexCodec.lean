import SciArchive.Index.Basic
import SciArchive.Proofs.FieldGrammar
import SciArchive.Proofs.Utf8

/-! The written form of an index is read back: first runs of tagged fields, then entries, then the whole
file. -/
namespace SciArchive

namespace IndexEntry

/-! ### Runs of fields -/

theorem Draft.read_nil (d : Draft) : d.read [] = .ok d := by
  rw [read, if_pos rfl]

theorem Draft.read_field {bytes rest : List UInt8} {f : TaggedField} (h : takeField bytes = .ok (f, rest))
    (d : Draft) : d.read bytes = (d.add f).bind fun d => d.read rest := by
  have hne : bytes ≠ [] := by
    rintro rfl
    cases h
  rw [read, if_neg hne]
  split
  · rename_i e he
    rw [h] at he
    cases he
  · rename_i g left hg
    rw [h] at hg
    cases hg
    cases d.add f <;> rfl

/-- Reading written fields adds them one after the other. -/
theorem Draft.read_fields {fields : List TaggedField} (hfits : ∀ f ∈ fields, f.Fits) (d : Draft) :
    d.read (fields.flatMap TaggedField.encode) = fields.foldlM Draft.add d := by
  induction fields generalizing d with
  | nil => exact read_nil d
  | cons f fields ih =>
    rw [List.forall_mem_cons] at hfits
    have htake := takeField_encode hfits.1 (fields.flatMap TaggedField.encode)
    rw [List.flatMap_cons, read_field htake, List.foldlM_cons]
    exact congrArg _ (funext (ih hfits.2))

/-! ### Entries -/

/-- The fields of an entry whose key is not too long have room. -/
theorem fits_fields {e : IndexEntry} (hkey : (Utf8.ofString e.key).length < UInt64.size) :
    ∀ f ∈ e.fields, f.Fits := by
  intro f hf
  simp only [fields, List.mem_append, List.mem_cons, List.not_mem_nil, or_false, Option.mem_toList,
    Option.map_eq_some_iff] at hf
  rcases hf with ((rfl | rfl | rfl) | ⟨c, -, rfl⟩) | hf
  · exact ⟨(by decide : (1 : UInt64).toNat < 2 ^ 61), hkey⟩
  · exact ⟨(by decide : (2 : UInt64).toNat < 2 ^ 61), trivial⟩
  · exact ⟨(by decide : (3 : UInt64).toNat < 2 ^ 61), trivial⟩
  · exact ⟨(by decide : (4 : UInt64).toNat < 2 ^ 61), trivial⟩
  · split at hf
    · cases hf
    · rw [List.mem_singleton.mp hf]
      exact ⟨(by decide : (5 : UInt64).toNat < 2 ^ 61), trivial⟩

/-- The fields of an entry tell the entry. -/
theorem foldlM_fields (e : IndexEntry) :
    (e.fields.foldlM Draft.add {}).bind Draft.finish = .ok e := by
  obtain ⟨key, offset, count, catalogOffset, contiguous⟩ := e
  cases catalogOffset <;> cases contiguous <;>
    simp [fields, Draft.add, Draft.finish, bind, Except.bind, pure, Except.pure]

theorem decode_encode {e : IndexEntry} (hkey : (Utf8.ofString e.key).length < UInt64.size) :
    decode e.encode = .ok e := by
  rw [decode, encode, Draft.read_fields (fits_fields hkey)]
  exact foldlM_fields e

/-- The bytes of the key are among those of the entry. -/
theorem length_key_le (e : IndexEntry) : (Utf8.ofString e.key).length ≤ e.encode.length := by
  simp only [encode, fields, List.cons_append, List.flatMap_cons, List.length_append,
    TaggedField.encode, Payload.encode]
  omega

/-- Every part of an entry besides its key takes twenty bytes at most. -/
theorem length_encode_le (e : IndexEntry) : e.encode.length ≤ (Utf8.ofString e.key).length + 100 := by
  have hword (number value : UInt64) : (TaggedField.encode ⟨number, .word value⟩).length ≤ 20 := by
    have htag := Varint.length_encode_le ((number <<< 3) ||| Payload.wire (.word value))
    have hvalue := Varint.length_encode_le value
    simp only [TaggedField.encode, Payload.encode, List.length_append]
    omega
  have hkey : (TaggedField.encode ⟨1, .bytes (Utf8.ofString e.key)⟩).length ≤
      (Utf8.ofString e.key).length + 20 := by
    have htag :=
      Varint.length_encode_le (((1 : UInt64) <<< 3) ||| Payload.wire (.bytes (Utf8.ofString e.key)))
    have hlen := Varint.length_encode_le (UInt64.ofNat (Utf8.ofString e.key).length)
    simp only [TaggedField.encode, Payload.encode, List.length_append]
    omega
  have hoffset := hword 2 e.offset
  have hcount := hword 3 e.count
  have hcatalog : ((e.catalogOffset.map fun c => TaggedField.mk 4 (.word c)).toList.flatMap
      TaggedField.encode).length ≤ 20 := by
    cases e.catalogOffset with
    | none => exact Nat.zero_le _
    | some c => simpa using hword 4 c
  have hflag : ((if e.contiguous then [] else [TaggedField.mk 5 (.word 1)]).flatMap
      TaggedField.encode).length ≤ 20 := by
    cases e.contiguous with
    | false => simpa using hword 5 1
    | true => exact Nat.zero_le _
  simp only [encode, fields, List.cons_append, List.nil_append, List.flatMap_cons,
    List.flatMap_append, List.length_append]
  omega

end IndexEntry

namespace SecondaryIndex

/-! ### Files -/

/-- What holds of every index that a builder or a reader makes: no key comes twice, and its sizes are
words. -/
structure Storable (ix : SecondaryIndex) : Prop where
  distinct : ix.keys.Nodup
  count_lt : ix.entries.length < UInt64.size
  entry_lt : ∀ e ∈ ix.entries, e.encode.length < UInt64.size

theorem get?_of_entries {ix other : SecondaryIndex} (h : ix.entries = other.entries) (key : String) :
    ix.get? key = other.get? key := by
  rw [get?, h, get?]

theorem toBytes_of_entries {ix other : SecondaryIndex} (h : ix.entries = other.entries) :
    ix.toBytes = other.toBytes := by
  rw [toBytes, h, toBytes]

@[simp] theorem entries_ofEntries (es : List IndexEntry) : (ofEntries es).entries = es := rfl

/-- A loaded index has room to count its scattered entries. -/
theorem violations_ofEntries {es : List IndexEntry} (h : es.length < UInt64.size) :
    (ofEntries es).violations.toNat = es.countP fun e => !e.contiguous :=
  Varint.toNat_ofNat_word (Nat.lt_of_le_of_lt List.countP_le_length h)

theorem takeEntries_encoded {es : List IndexEntry} (seen : List IndexEntry)
    (hdistinct : ((seen ++ es).map IndexEntry.key).Nodup)
    (hlt : ∀ e ∈ es, e.encode.length < UInt64.size) (rest : List UInt8) :
    takeEntries seen es.length (es.flatMap encodeEntry ++ rest) = .ok (seen ++ es, rest) := by
  induction es generalizing seen with
  | nil => simp [takeEntries]
  | cons e es ih =>
    have he := hlt e List.mem_cons_self
    have hkey := Nat.lt_of_le_of_lt e.length_key_le he
    have hnew : ¬ (seen.any fun s => s.key = e.key) = true := by
      simp only [List.any_eq_true, decide_eq_true_eq]
      rintro ⟨s, hs, hse⟩
      rw [List.map_append, List.map_cons] at hdistinct
      exact (List.nodup_append.mp hdistinct).2.2 s.key (List.mem_map_of_mem hs) e.key
        List.mem_cons_self hse
    have htail := ih (seen ++ [e]) (by simpa using hdistinct)
      (fun f hf => hlt f (List.mem_cons_of_mem _ hf))
    simp only [List.flatMap_cons, encodeEntry, List.append_assoc, List.length_cons, takeEntries,
      IndexEntry.takeBytes_counted he, IndexEntry.decode_encode hkey, if_neg hnew]
    simpa [encodeEntry] using htail

/-- An index is read back from its written form, but for the number of violations, which is not
kept. -/
theorem ofBytes_toBytes {ix : SecondaryIndex} (h : ix.Storable) :
    ofBytes ix.toBytes = .ok (ofEntries ix.entries) := by
  have hmark : mark.isPrefixOf ix.toBytes = true := by
    simp only [toBytes, List.append_assoc, List.isPrefixOf_iff_prefix]
    exact List.prefix_append _ _
  have hdrop : ix.toBytes.drop mark.length =
      version ::
        (Varint.encode (UInt64.ofNat ix.entries.length) ++ ix.entries.flatMap encodeEntry) := by
    simp only [toBytes, List.append_assoc, List.drop_left, List.cons_append, List.nil_append]
  have htake : takeEntries [] ix.entries.length (ix.entries.flatMap encodeEntry ++ []) =
      .ok (ix.entries, []) :=
    takeEntries_encoded [] h.distinct h.entry_lt []
  rw [List.append_nil] at htake
  simp only [ofBytes, hmark, hdrop, Varint.take_encode, Varint.toNat_ofNat_word h.count_lt, htake,
    Bool.not_true, Bool.false_eq_true, if_false, ne_eq, not_true_eq_false]

end SecondaryIndex
end SciArchive
