import SciArchive.Proofs.IndexReading

/-! The grammar of entries. Reading accepts exactly the runs of whole fields with the required ones among them,
the last field of a kind is the one that counts, and fields of other kinds do not count. -/
namespace SciArchive.IndexEntry

/-! ### Runs of fields -/

/-- Fields one behind the other, and nothing else. -/
def SpelledOut (fields : List TaggedField) (bytes : List UInt8) : Prop :=
  ∃ words, bytes = words.flatten ∧ List.Forall₂ (fun f word => f.Spelled word) fields words

section
variable {bytes : List UInt8} {fields : List TaggedField} {f : TaggedField}

/-- Reading fields adds them one after the other, however they are spelled. -/
theorem Draft.read_spelledOut (h : SpelledOut fields bytes) (d : Draft) :
    d.read bytes = fields.foldlM add d := by
  obtain ⟨words, rfl, hwords⟩ := h
  induction hwords generalizing d with
  | nil => exact read_nil d
  | @cons f word fields words hword _ ih =>
    have htake : takeField (word ++ words.flatten) = .ok (f, words.flatten) :=
      takeField_eq_ok.mpr ⟨word, rfl, hword⟩
    rw [List.flatten_cons, read_field htake, List.foldlM_cons]
    exact congrArg _ (funext ih)

/-- Whatever can be read is a run of fields. -/
theorem Draft.spelledOut_of_read {d d' : Draft} (h : d.read bytes = .ok d') : ∃ fields, SpelledOut fields bytes := by
  fun_induction Draft.read d bytes with
  | case1 => exact ⟨[], [], rfl, .nil⟩
  | case2 => cases h
  | case3 => cases h
  | case4 d bytes hne f rest htake next hadd ih =>
    obtain ⟨fields, words, hsplit, hwords⟩ := ih h
    obtain ⟨word, rfl, hword⟩ := takeField_eq_ok.mp htake
    exact ⟨f :: fields, word :: words, by rw [hsplit, List.flatten_cons], .cons hword hwords⟩

end

/-! ### What fields tell -/

namespace TaggedField

/-- The value of a word field with this number. -/
def word? (number : UInt64) (f : TaggedField) : Option UInt64 :=
  match f.payload with
  | .word value => if f.number = number then some value else none
  | .bytes _ => none

/-- The bytes of a key field. -/
def key? (f : TaggedField) : Option (List UInt8) :=
  match f.payload with
  | .word _ => none
  | .bytes value => if f.number = 1 then some value else none

/-- The field is one that a reader takes something from. -/
def isKnown (f : TaggedField) : Bool :=
  match f.payload with
  | .word _ => f.number = 2 ∨ f.number = 3 ∨ f.number = 4 ∨ f.number = 5
  | .bytes _ => f.number = 1

theorem word?_eq_some {number value : UInt64} {f : TaggedField} :
    f.word? number = some value ↔ f = ⟨number, .word value⟩ := by
  obtain ⟨n, payload⟩ := f
  cases payload <;> simp [word?]

theorem key?_eq_some {value : List UInt8} {f : TaggedField} : f.key? = some value ↔ f = ⟨1, .bytes value⟩ := by
  obtain ⟨n, payload⟩ := f
  cases payload <;> simp [key?]

end TaggedField

/-- The value of the last word field with this number. -/
def lastWord? (number : UInt64) (fields : List TaggedField) : Option UInt64 :=
  (fields.filterMap (TaggedField.word? number)).getLast?

def lastKey? (fields : List TaggedField) : Option (List UInt8) := (fields.filterMap TaggedField.key?).getLast?

/-- The draft holds what the last fields of each kind tell. -/
structure Draft.Holds (fields : List TaggedField) (d : Draft) : Prop where
  key : d.key.map Utf8.ofString = lastKey? fields
  offset : d.offset = lastWord? 2 fields
  count : d.count = lastWord? 3 fields
  catalogOffset : d.catalogOffset = lastWord? 4 fields
  contiguous : d.contiguous = ((lastWord? 5 fields).getD 0 == 0)

theorem lastWord?_snoc (number : UInt64) (fields : List TaggedField) (f : TaggedField) :
    lastWord? number (fields ++ [f]) = (f.word? number).or (lastWord? number fields) := by
  cases hf : f.word? number <;> simp [lastWord?, List.filterMap_append, hf]

theorem lastKey?_snoc (fields : List TaggedField) (f : TaggedField) :
    lastKey? (fields ++ [f]) = f.key?.or (lastKey? fields) := by
  cases hf : f.key? <;> simp [lastKey?, List.filterMap_append, hf]

theorem Draft.holds_nil : ({} : Draft).Holds [] where
  key := rfl
  offset := rfl
  count := rfl
  catalogOffset := rfl
  contiguous := rfl

theorem Draft.Holds.add {fields : List TaggedField} {d d' : Draft} (h : d.Holds fields) {f : TaggedField}
    (hadd : d.add f = .ok d') : d'.Holds (fields ++ [f]) := by
  obtain ⟨hkey, hoffset, hcount, hcatalog, hcontiguous⟩ := h
  obtain ⟨number, payload⟩ := f
  cases payload with
  | bytes value =>
    simp only [Draft.add] at hadd
    split at hadd
    · rename_i hnumber
      split at hadd
      · cases hadd
      · rename_i key hkeyText
        cases hadd
        constructor <;>
          simp_all [lastWord?_snoc, lastKey?_snoc, TaggedField.word?, TaggedField.key?,
            Utf8.ofString_of_toString? hkeyText]
    · cases hadd
      constructor <;> simp_all [lastWord?_snoc, lastKey?_snoc, TaggedField.word?, TaggedField.key?]
  | word value =>
    simp only [Draft.add] at hadd
    split_ifs at hadd <;> cases hadd <;> constructor <;>
      simp_all [lastWord?_snoc, lastKey?_snoc, TaggedField.word?, TaggedField.key?]

section
variable {front fields : List TaggedField} {f : TaggedField} {d d' : Draft} {e : IndexEntry}

theorem Draft.Holds.run (h : d.Holds front) (hrun : fields.foldlM Draft.add d = .ok d') :
    d'.Holds (front ++ fields) := by
  induction fields generalizing front d with
  | nil =>
    cases hrun
    simpa using h
  | cons f fields ih =>
    rw [List.foldlM_cons] at hrun
    obtain ⟨next, hadd, hrest⟩ := bind_eq_ok.mp hrun
    simpa using ih (h.add hadd) hrest

/-- The keys among the fields are texts. -/
def KeysAreText (fields : List TaggedField) : Prop :=
  ∀ value, ⟨1, .bytes value⟩ ∈ fields → ∃ key, Utf8.ofString key = value

theorem keysAreText_cons : KeysAreText (f :: fields) ↔ KeysAreText [f] ∧ KeysAreText fields := by
  simp [KeysAreText, or_imp, forall_and]

theorem Draft.add_isOk (d : Draft) : (∃ d', d.add f = .ok d') ↔ KeysAreText [f] := by
  obtain ⟨number, payload⟩ := f
  cases payload with
  | word value =>
    simp only [KeysAreText, Draft.add]
    split_ifs <;> simp
  | bytes value =>
    by_cases hnumber : number = 1
    · have htext : KeysAreText [⟨number, .bytes value⟩] ↔ ∃ key, Utf8.toString? value = some key := by
        simp only [KeysAreText, hnumber, List.mem_singleton, TaggedField.mk.injEq, Payload.bytes.injEq, true_and,
          forall_eq]
        refine exists_congr fun key => ⟨?_, Utf8.ofString_of_toString?⟩
        rintro rfl
        exact Utf8.toString?_ofString key
      rw [htext]
      cases hkey : Utf8.toString? value <;> simp [Draft.add, hnumber, hkey]
    · simp [Draft.add, KeysAreText, hnumber, eq_comm]

theorem Draft.run_isOk (d : Draft) : (∃ d', fields.foldlM add d = .ok d') ↔ KeysAreText fields := by
  induction fields generalizing d with
  | nil => simp [KeysAreText, pure, Except.pure]
  | cons f fields ih =>
    rw [keysAreText_cons, ← d.add_isOk, List.foldlM_cons]
    constructor
    · rintro ⟨d', h⟩
      obtain ⟨next, hadd, hrest⟩ := bind_eq_ok.mp h
      exact ⟨⟨next, hadd⟩, (ih next).mp ⟨d', hrest⟩⟩
    · rintro ⟨⟨next, hadd⟩, hfields⟩
      obtain ⟨d', hrest⟩ := (ih next).mpr hfields
      exact ⟨d', bind_eq_ok.mpr ⟨next, hadd, hrest⟩⟩

theorem Draft.finish_eq_ok : d.finish = .ok e ↔ d.key = some e.key ∧ d.offset = some e.offset ∧
    d.count = some e.count ∧ d.catalogOffset = e.catalogOffset ∧ d.contiguous = e.contiguous := by
  obtain ⟨key, offset, count, catalogOffset, contiguous⟩ := d
  obtain ⟨key', offset', count', catalogOffset', contiguous'⟩ := e
  cases key <;> cases offset <;> cases count <;> simp [finish]

/-- The last field of each kind tells this of the entry. -/
structure Tells (fields : List TaggedField) (e : IndexEntry) : Prop where
  key : lastKey? fields = some (Utf8.ofString e.key)
  offset : lastWord? 2 fields = some e.offset
  count : lastWord? 3 fields = some e.count
  catalogOffset : lastWord? 4 fields = e.catalogOffset
  contiguous : e.contiguous = ((lastWord? 5 fields).getD 0 == 0)

/-- What fields make, added one after the other. -/
def ofFields (fields : List TaggedField) : Except IndexFlaw IndexEntry :=
  (fields.foldlM Draft.add {}).bind Draft.finish

theorem ofString_inj {s t : String} : Utf8.ofString s = Utf8.ofString t ↔ s = t := by
  refine ⟨fun h => ?_, congrArg _⟩
  have hread := Utf8.toString?_ofString s
  rw [h, Utf8.toString?_ofString] at hread
  exact (Option.some.inj hread).symm

theorem Draft.Holds.finish_eq_ok (h : d.Holds fields) : d.finish = .ok e ↔ Tells fields e := by
  rw [Draft.finish_eq_ok]
  constructor
  · rintro ⟨hkey, hoffset, hcount, hcatalog, hcontiguous⟩
    refine ⟨?_, h.offset ▸ hoffset, h.count ▸ hcount, h.catalogOffset ▸ hcatalog, hcontiguous ▸ h.contiguous⟩
    rw [← h.key, hkey, Option.map_some]
  · rintro ⟨hkey, hoffset, hcount, hcatalog, hcontiguous⟩
    refine ⟨?_, h.offset.trans hoffset, h.count.trans hcount, h.catalogOffset.trans hcatalog,
      h.contiguous.trans hcontiguous.symm⟩
    obtain ⟨key, hfound, hbytes⟩ := Option.map_eq_some_iff.mp (h.key.trans hkey)
    rw [hfound, ofString_inj.mp hbytes]

theorem ofFields_eq_ok : ofFields fields = .ok e ↔ KeysAreText fields ∧ Tells fields e := by
  rw [ofFields, bind_eq_ok, ← Draft.run_isOk {}]
  constructor
  · rintro ⟨d, hrun, hfinish⟩
    exact ⟨⟨d, hrun⟩, (Draft.holds_nil.run hrun).finish_eq_ok.mp hfinish⟩
  · rintro ⟨⟨d, hrun⟩, htells⟩
    exact ⟨d, hrun, (Draft.holds_nil.run hrun).finish_eq_ok.mpr htells⟩

theorem ofFields_fields (e : IndexEntry) : ofFields e.fields = .ok e := foldlM_fields e

theorem ofFields_filter (fields : List TaggedField) :
    ofFields (fields.filter TaggedField.isKnown) = ofFields fields := by
  have hstep : (fun (d : Draft) (f : TaggedField) => if f.isKnown then d.add f else pure d) = Draft.add := by
    funext d f
    obtain ⟨number, payload⟩ := f
    cases payload with
    | bytes value => by_cases hnumber : number = 1 <;> simp [TaggedField.isKnown, Draft.add, hnumber, pure, Except.pure]
    | word value =>
      simp only [TaggedField.isKnown, Draft.add]
      split_ifs <;> simp_all [pure, Except.pure]
  rw [ofFields, List.foldlM_filter, hstep, ofFields]

theorem length_filterMap_le {α : Type} {g : TaggedField → Option α} {number : UInt64}
    (hg : ∀ {f a}, g f = some a → f.number = number) (fields : List TaggedField) :
    (fields.filterMap g).length ≤ (fields.map TaggedField.number).count number := by
  induction fields with
  | nil => simp
  | cons f fields ih =>
    cases hf : g f with
    | none =>
      rw [List.filterMap_cons_none hf, List.map_cons]
      exact Nat.le_trans ih (List.count_le_count_cons ..)
    | some a =>
      rw [List.filterMap_cons_some hf, List.map_cons, hg hf, List.count_cons_self]
      exact Nat.succ_le_succ ih

theorem nodup_numbers (e : IndexEntry) : (e.fields.map TaggedField.number).Nodup := by
  obtain ⟨key, offset, count, catalogOffset, contiguous⟩ := e
  cases catalogOffset <;> cases contiguous <;> simp [fields]

/-- Where no number comes twice, the order does not count. -/
theorem getLast?_filterMap_perm {α : Type} {g : TaggedField → Option α} {number : UInt64}
    (hg : ∀ {f a}, g f = some a → f.number = number) {known : List TaggedField} (h : known.Perm fields)
    (hdistinct : (fields.map TaggedField.number).Nodup) :
    (known.filterMap g).getLast? = (fields.filterMap g).getLast? := by
  have hperm := h.filterMap g
  have hone := Nat.le_trans (length_filterMap_le hg fields) (List.nodup_iff_count_le_one.mp hdistinct number)
  cases hfound : fields.filterMap g with
  | nil =>
    rw [hfound, List.perm_nil] at hperm
    rw [hperm]
  | cons a rest =>
    obtain rfl : rest = [] := by simpa [hfound] using hone
    rw [hfound, List.perm_singleton] at hperm
    rw [hperm]

theorem ofFields_perm {known : List TaggedField} (h : known.Perm e.fields) : ofFields known = .ok e := by
  obtain ⟨htext, hkey, hoffset, hcount, hcatalog, hcontiguous⟩ := ofFields_eq_ok.mp (ofFields_fields e)
  have hwords : ∀ number, lastWord? number known = lastWord? number e.fields := fun number =>
    getLast?_filterMap_perm (fun hf => by rw [TaggedField.word?_eq_some.mp hf]) h (nodup_numbers e)
  have hkeys : lastKey? known = lastKey? e.fields :=
    getLast?_filterMap_perm (fun hf => by rw [TaggedField.key?_eq_some.mp hf]) h (nodup_numbers e)
  rw [ofFields_eq_ok]
  refine ⟨fun value hvalue => htext value (h.subset hvalue), ?_⟩
  constructor <;> simp only [hwords, hkeys] <;> assumption

/-- What the bytes of an entry are read as is a matter of the fields that they spell. -/
theorem decode_spelledOut {bytes : List UInt8} (h : SpelledOut fields bytes) : decode bytes = ofFields fields := by
  rw [decode, Draft.read_spelledOut h, ofFields]

theorem spelledOut_encode (h : ∀ f ∈ fields, f.Fits) : SpelledOut fields (fields.flatMap TaggedField.encode) := by
  refine ⟨fields.map TaggedField.encode, by rw [List.flatMap_def], ?_⟩
  rw [List.forall₂_map_right_iff, List.forall₂_same]
  exact fun f hf => TaggedField.spelled_encode (h f hf)

theorem exists_getLast?_filterMap {α : Type} {g : TaggedField → Option α} :
    (∃ a, (fields.filterMap g).getLast? = some a) ↔ ∃ a, ∃ f ∈ fields, g f = some a := by
  constructor
  · rintro ⟨a, ha⟩
    exact ⟨a, List.mem_filterMap.mp (List.mem_of_getLast? ha)⟩
  · rintro ⟨a, f, hf, ha⟩
    have hmem : a ∈ fields.filterMap g := List.mem_filterMap.mpr ⟨f, hf, ha⟩
    exact ⟨_, List.getLast?_eq_some_getLast (List.ne_nil_of_mem hmem)⟩

theorem exists_lastWord? {number : UInt64} :
    (∃ value, lastWord? number fields = some value) ↔ ∃ value, ⟨number, .word value⟩ ∈ fields := by
  simp only [lastWord?, exists_getLast?_filterMap, TaggedField.word?_eq_some, exists_eq_right]

theorem exists_lastKey? : (∃ value, lastKey? fields = some value) ↔ ∃ value, ⟨1, .bytes value⟩ ∈ fields := by
  simp only [lastKey?, exists_getLast?_filterMap, TaggedField.key?_eq_some, exists_eq_right]

/-- Fields whose keys are texts tell an entry exactly if none is missing that is required. -/
theorem exists_tells (htext : KeysAreText fields) : (∃ e, Tells fields e) ↔
    (∃ value, ⟨1, .bytes value⟩ ∈ fields) ∧ (∃ value, ⟨2, .word value⟩ ∈ fields) ∧
      ∃ value, ⟨3, .word value⟩ ∈ fields := by
  rw [← exists_lastKey?, ← exists_lastWord?, ← exists_lastWord?]
  constructor
  · rintro ⟨e, h⟩
    exact ⟨⟨_, h.key⟩, ⟨_, h.offset⟩, _, h.count⟩
  · rintro ⟨⟨value, hkey⟩, ⟨offset, hoffset⟩, count, hcount⟩
    obtain ⟨f, hf, hvalue⟩ := List.mem_filterMap.mp (List.mem_of_getLast? hkey)
    obtain ⟨key, rfl⟩ := htext value (TaggedField.key?_eq_some.mp hvalue ▸ hf)
    exact ⟨⟨key, offset, count, lastWord? 4 fields, (lastWord? 5 fields).getD 0 == 0⟩, hkey, hoffset, hcount, rfl, rfl⟩

/-- Reading accepts exactly the runs of whole fields, however they are spelled, whose keys are texts and among
which key, offset and count occur. The last field of a kind tells its part of the entry, and only the known
fields count. So an entry is read from its fields in any order and with any unknown fields among them. -/
theorem decode_spelled (bytes : List UInt8) :
    ((∃ e, decode bytes = .ok e) ↔ ∃ fields, SpelledOut fields bytes ∧ KeysAreText fields ∧
      (∃ value, ⟨1, .bytes value⟩ ∈ fields) ∧ (∃ value, ⟨2, .word value⟩ ∈ fields) ∧
      ∃ value, ⟨3, .word value⟩ ∈ fields) ∧
    (∀ fields, SpelledOut fields bytes →
      (∀ e, decode bytes = .ok e → Tells fields e) ∧
      (∀ other spelling, SpelledOut other spelling →
        other.filter TaggedField.isKnown = fields.filter TaggedField.isKnown → decode spelling = decode bytes) ∧
      ∀ e : IndexEntry, (fields.filter TaggedField.isKnown).Perm e.fields → decode bytes = .ok e) ∧
    ∀ e : IndexEntry, (Utf8.ofString e.key).length < UInt64.size → SpelledOut e.fields e.encode := by
  refine ⟨?_, fun fields h => ⟨fun e he => ?_, fun other spelling hother hknown => ?_, fun e hperm => ?_⟩, ?_⟩
  · constructor
    · rintro ⟨e, he⟩
      obtain ⟨d, hread, -⟩ := bind_eq_ok.mp he
      obtain ⟨fields, hspelled⟩ := Draft.spelledOut_of_read hread
      obtain ⟨htext, htells⟩ := ofFields_eq_ok.mp (decode_spelledOut hspelled ▸ he)
      exact ⟨fields, hspelled, htext, (exists_tells htext).mp ⟨e, htells⟩⟩
    · rintro ⟨fields, hspelled, htext, hrequired⟩
      obtain ⟨e, htells⟩ := (exists_tells htext).mpr hrequired
      have hmade : ofFields fields = .ok e := ofFields_eq_ok.mpr ⟨htext, htells⟩
      exact ⟨e, (decode_spelledOut hspelled).trans hmade⟩
  · exact (ofFields_eq_ok.mp (decode_spelledOut h ▸ he)).2
  · rw [decode_spelledOut hother, decode_spelledOut h, ← ofFields_filter, hknown, ofFields_filter]
  · rw [decode_spelledOut h, ← ofFields_filter, ofFields_perm hperm]
  · exact fun e hkey => spelledOut_encode (fits_fields hkey)

/-- The fields of an entry out of order, a word and counted bytes that no reader knows among them. -/
def mixedFields : List TaggedField :=
  [⟨3, .word 1⟩, ⟨14, .word 12345⟩, ⟨1, .bytes [0x4B]⟩, ⟨4, .bytes []⟩, ⟨2, .word 9⟩]

theorem decode_spelled_mixedFields :
    SpelledOut mixedFields (mixedFields.flatMap TaggedField.encode) ∧
      decode (mixedFields.flatMap TaggedField.encode) = .ok (first "K" 9) := by
  have hfits : ∀ f ∈ mixedFields, f.Fits := by
    simp [mixedFields, TaggedField.Fits]
  have hspelled := spelledOut_encode hfits
  obtain ⟨-, hfields, -⟩ := decode_spelled (mixedFields.flatMap TaggedField.encode)
  exact ⟨hspelled, (hfields _ hspelled).2.2 (first "K" 9) (by decide +kernel)⟩

end
end SciArchive.IndexEntry
