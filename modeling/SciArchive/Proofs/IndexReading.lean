import SciArchive.Proofs.IndexCodec
import SciArchive.Proofs.Outcomes
import Mathlib.Data.List.Nodup
import Mathlib.Tactic.SplitIfs

/-! Reading an index from any bytes at all: what is read is well formed, it is written in no more bytes
than it was read from, and reading stops as soon as the bytes give out. -/
namespace SciArchive

namespace IndexEntry

/-! ### Sizes of what is read -/

/-- How many bytes the fields of a draft are written with. -/
def Draft.size (d : Draft) : Nat :=
  (d.key.elim 0 fun key => (TaggedField.encode ⟨1, .bytes (Utf8.ofString key)⟩).length) +
    (d.offset.elim 0 fun value => (TaggedField.encode ⟨2, .word value⟩).length) +
    (d.count.elim 0 fun value => (TaggedField.encode ⟨3, .word value⟩).length) +
    (d.catalogOffset.elim 0 fun value => (TaggedField.encode ⟨4, .word value⟩).length) +
    if d.contiguous then 0 else (TaggedField.encode ⟨5, .word 1⟩).length

/-- A flag that is set is written with one byte, however it was read. -/
theorem length_flag_le (value : UInt64) :
    (TaggedField.encode ⟨5, .word 1⟩).length ≤ (TaggedField.encode ⟨5, .word value⟩).length := by
  have hone : (Varint.encode 1).length ≤ 1 := Varint.length_groups_le 1 0 (by decide)
  have hpos := List.length_pos_iff.mpr (Varint.encode_ne_nil value)
  simp only [TaggedField.encode, Payload.encode, Payload.wire, List.length_append]
  omega

/-- A field makes a draft longer by no more than its own length. -/
theorem Draft.size_add {d d' : Draft} {f : TaggedField} (h : d.add f = .ok d') :
    d'.size ≤ d.size + f.encode.length := by
  obtain ⟨number, payload⟩ := f
  cases payload with
  | bytes value =>
    simp only [Draft.add] at h
    split at h
    · rename_i hnumber
      split at h
      · cases h
      · rename_i key hkey
        cases h
        rw [hnumber]
        simp only [Draft.size, Option.elim_some, Utf8.ofString_of_toString? hkey]
        omega
    · cases h
      exact Nat.le_add_right _ _
  | word value =>
    have hflag := length_flag_le value
    simp only [Draft.add] at h
    split_ifs at h with hnumber hnumber hnumber hnumber <;> cases h
    case pos | pos | pos =>
      simp only [Draft.size, hnumber, Option.elim_some]
      omega
    case pos =>
      simp only [Draft.size, hnumber]
      split <;> omega
    case neg => exact Nat.le_add_right _ _

theorem Draft.size_read {d d' : Draft} {bytes : List UInt8} (h : d.read bytes = .ok d') :
    d'.size ≤ d.size + bytes.length := by
  fun_induction Draft.read d bytes with
  | case1 d =>
    cases h
    exact Nat.le_add_right _ _
  | case2 => cases h
  | case3 => cases h
  | case4 d bytes hne f rest htake d₁ hadd ih =>
    obtain ⟨word, rfl, hword⟩ := takeField_eq_ok.mp htake
    have hfield := hword.length_le
    rw [List.length_append]
    have hsize := Draft.size_add hadd
    have hrest := ih h
    omega

theorem Draft.size_finish {d : Draft} {e : IndexEntry} (h : d.finish = .ok e) :
    e.encode.length = d.size := by
  obtain ⟨key, offset, count, catalogOffset, contiguous⟩ := d
  simp only [Draft.finish] at h
  split at h
  · cases h
  · cases h
  · cases h
  · cases h
    cases catalogOffset <;> cases contiguous <;> simp [encode, fields, Draft.size] <;> omega

/-- No entry is read from fewer bytes than it is written with. -/
theorem length_decode {body : List UInt8} {e : IndexEntry} (h : decode body = .ok e) :
    e.encode.length ≤ body.length := by
  obtain ⟨d, hread, hfinish⟩ := bind_eq_ok.mp h
  rw [Draft.size_finish hfinish]
  simpa [Draft.size] using Draft.size_read hread

end IndexEntry

namespace SecondaryIndex

open IndexEntry

/-! ### Rounds of reading -/

/-- One round of reading: an entry behind its length, whose key is not among those seen. -/
def takeEntry (seen : List IndexEntry) (bytes : List UInt8) :
    Except IndexFlaw (IndexEntry × List UInt8) :=
  match takeBytes bytes .entryPastFile with
  | .error e => .error e
  | .ok (body, rest) =>
    match decode body with
    | .error e => .error e
    | .ok entry =>
      if seen.any fun e => e.key = entry.key then .error (.duplicateKey entry.key)
      else .ok (entry, rest)

theorem takeEntries_succ (seen : List IndexEntry) (n : Nat) (bytes : List UInt8) :
    takeEntries seen (n + 1) bytes =
      (takeEntry seen bytes).bind fun r => takeEntries (seen ++ [r.1]) n r.2 := by
  rw [takeEntries, takeEntry]
  cases takeBytes bytes .entryPastFile with
  | error e => rfl
  | ok taken =>
    simp only
    cases decode taken.1 with
    | error e => rfl
    | ok entry =>
      simp only
      split <;> rfl

theorem takeEntries_succ_ok {seen es : List IndexEntry} {n : Nat} {bytes rest : List UInt8} :
    takeEntries seen (n + 1) bytes = .ok (es, rest) ↔
      ∃ entry left, takeEntry seen bytes = .ok (entry, left) ∧
        takeEntries (seen ++ [entry]) n left = .ok (es, rest) := by
  rw [takeEntries_succ, bind_eq_ok, Prod.exists]

/-- What a round that does not fail has read. -/
theorem takeEntry_ok {seen : List IndexEntry} {bytes rest : List UInt8} {entry : IndexEntry} :
    takeEntry seen bytes = .ok (entry, rest) ↔
      ∃ body, takeBytes bytes .entryPastFile = .ok (body, rest) ∧ decode body = .ok entry ∧
        ∀ e ∈ seen, e.key ≠ entry.key := by
  rw [takeEntry]
  cases htake : takeBytes bytes .entryPastFile with
  | error e => simp
  | ok taken =>
    obtain ⟨body, left⟩ := taken
    simp only
    cases hdecode : decode body with
    | error e =>
      refine ⟨nofun, ?_⟩
      rintro ⟨found, htaken, hfound, -⟩
      cases htaken
      rw [hdecode] at hfound
      cases hfound
    | ok found =>
      simp only [List.any_eq_true, decide_eq_true_eq]
      split
      · rename_i hold
        refine ⟨nofun, ?_⟩
        rintro ⟨_, htaken, hfound, hnew⟩
        cases htaken
        rw [hdecode] at hfound
        cases hfound
        obtain ⟨e, he, hkey⟩ := hold
        exact absurd hkey (hnew e he)
      · rename_i hnew
        constructor
        · intro h
          cases h
          exact ⟨body, rfl, hdecode, fun e he hkey => hnew ⟨e, he, hkey⟩⟩
        · rintro ⟨_, htaken, hfound, -⟩
          cases htaken
          rw [hdecode] at hfound
          cases hfound
          rfl

/-- Every round that does not fail uses up some bytes. -/
theorem takeEntry_length {seen : List IndexEntry} {bytes rest : List UInt8} {entry : IndexEntry}
    (h : takeEntry seen bytes = .ok (entry, rest)) : rest.length < bytes.length := by
  obtain ⟨body, htake, -, -⟩ := takeEntry_ok.mp h
  exact takeBytes_length htake

/-- What a run of rounds that do not fail has read. -/
theorem takeEntries_ok {seen es : List IndexEntry} {n : Nat} {bytes rest : List UInt8}
    (hseen : (seen.map IndexEntry.key).Nodup) (h : takeEntries seen n bytes = .ok (es, rest)) :
    ∃ new, es = seen ++ new ∧ new.length = n ∧ (es.map IndexEntry.key).Nodup ∧
      ∀ e ∈ new, e.encode.length < UInt64.size := by
  induction n generalizing seen bytes with
  | zero =>
    cases h
    exact ⟨[], (List.append_nil _).symm, rfl, hseen, nofun⟩
  | succ n ih =>
    obtain ⟨entry, left, hentry, hrest⟩ := takeEntries_succ_ok.mp h
    obtain ⟨body, htake, hdecode, hnew⟩ := takeEntry_ok.mp hentry
    have hseen' : ((seen ++ [entry]).map IndexEntry.key).Nodup := by
      rw [List.map_append, List.map_singleton, List.nodup_append]
      refine ⟨hseen, by simp, fun a ha b hb => ?_⟩
      obtain ⟨e, he, rfl⟩ := List.mem_map.mp ha
      rw [List.mem_singleton.mp hb]
      exact hnew e he
    obtain ⟨new, rfl, rfl, hnodup, hlt⟩ := ih hseen' hrest
    have hbody := (takeBytes_eq_ok.mp htake).1
    refine ⟨entry :: new, by simp, rfl, hnodup, fun e he => ?_⟩
    rcases List.mem_cons.mp he with rfl | he
    · exact Nat.lt_of_le_of_lt (length_decode hdecode) hbody
    · exact hlt e he

theorem takeEntries_all {es : List IndexEntry} {n : Nat} {bytes rest : List UInt8}
    (h : takeEntries [] n bytes = .ok (es, rest)) :
    es.length = n ∧ (es.map IndexEntry.key).Nodup ∧ ∀ e ∈ es, e.encode.length < UInt64.size := by
  have hnil : (([] : List IndexEntry).map IndexEntry.key).Nodup := List.nodup_nil
  obtain ⟨new, rfl, hnew⟩ := takeEntries_ok hnil h
  exact hnew

/-- No more rounds are gone through than there are bytes, and one that fails. -/
theorem takeEntries_of_short {seen : List IndexEntry} {m n : Nat} {bytes : List UInt8}
    (hm : bytes.length < m) (hn : bytes.length < n) :
    takeEntries seen m bytes = takeEntries seen n bytes := by
  induction m generalizing seen n bytes with
  | zero => cases hm
  | succ m ih =>
    cases n with
    | zero => cases hn
    | succ n =>
      rw [takeEntries_succ, takeEntries_succ]
      cases hentry : takeEntry seen bytes with
      | error e => rfl
      | ok r =>
        have hlt := takeEntry_length hentry
        exact ih (by omega) (by omega)

theorem takeEntries_min (seen : List IndexEntry) (n : Nat) (bytes : List UInt8) :
    takeEntries seen n bytes = takeEntries seen (min n (bytes.length + 1)) bytes := by
  by_cases hn : n ≤ bytes.length + 1
  · rw [Nat.min_eq_left hn]
  · rw [Nat.min_eq_right (by omega)]
    exact takeEntries_of_short (by omega) (Nat.lt_succ_self _)

/-! ### Files -/

/-- Reading a file is reading what stands behind its mark and its version. -/
theorem ofBytes_marked (behind : List UInt8) :
    ofBytes (mark ++ version :: behind) =
      (Varint.take behind).bind fun counted =>
        (takeEntries [] counted.1.toNat counted.2).bind fun read =>
          if read.2 = [] then .ok (ofEntries read.1) else .error (.trailingBytes read.2.length) := by
  have hmark : mark.isPrefixOf (mark ++ version :: behind) = true :=
    List.isPrefixOf_iff_prefix.mpr (List.prefix_append _ _)
  simp only [ofBytes, hmark, List.drop_left, Bool.not_true, Bool.false_eq_true, if_false, ne_eq,
    not_true_eq_false]
  cases Varint.take behind with
  | error e => rfl
  | ok counted =>
    obtain ⟨count, rest⟩ := counted
    simp only [Except.bind]
    cases takeEntries [] count.toNat rest with
    | error e => rfl
    | ok read =>
      obtain ⟨es, left⟩ := read
      cases left <;> rfl

/-- An index is read from a file that has the mark and the version. -/
theorem exists_behind {bytes : List UInt8} {ix : SecondaryIndex} (h : ofBytes bytes = .ok ix) :
    ∃ behind, bytes = mark ++ version :: behind := by
  rw [ofBytes] at h
  split at h
  · cases h
  · rename_i hmark
    obtain ⟨behind, rfl⟩ : mark <+: bytes := by simpa using hmark
    rw [List.drop_left] at h
    split at h
    · cases h
    · rename_i v behind
      split at h
      · cases h
      · rename_i hversion
        exact ⟨behind, by rw [Decidable.not_not.mp hversion]⟩

/-- What is declared in front of the entries is how many of them are read, and nothing is left behind
them. -/
theorem ofBytes_ok {bytes : List UInt8} {ix : SecondaryIndex} (h : ofBytes bytes = .ok ix) :
    ∃ behind count rest, bytes = mark ++ version :: behind ∧
      Varint.take behind = .ok (count, rest) ∧
      takeEntries [] count.toNat rest = .ok (ix.entries, []) ∧ ix = ofEntries ix.entries := by
  obtain ⟨behind, rfl⟩ := exists_behind h
  rw [ofBytes_marked, bind_eq_ok] at h
  obtain ⟨⟨count, rest⟩, hcount, h⟩ := h
  obtain ⟨⟨es, left⟩, hread, h⟩ := bind_eq_ok.mp h
  split at h
  · rename_i hleft
    cases h
    exact ⟨behind, count, rest, rfl, hcount, hleft ▸ hread, rfl⟩
  · cases h

theorem storable_ofBytes {bytes : List UInt8} {ix : SecondaryIndex} (h : ofBytes bytes = .ok ix) :
    ix.Storable := by
  obtain ⟨-, count, rest, -, -, hread, -⟩ := ofBytes_ok h
  obtain ⟨hlength, hdistinct, hlt⟩ := takeEntries_all hread
  exact ⟨hdistinct, hlength ▸ count.toNat_lt, hlt⟩

/-- In an index without double keys every entry is found by its key. -/
theorem get?_eq_some {ix : SecondaryIndex} (h : ix.keys.Nodup) {e : IndexEntry} (he : e ∈ ix.entries)
    (key : String) : ix.get? key = some e ↔ e.key = key := by
  constructor
  · intro hfound
    simpa using List.find?_some hfound
  · rintro rfl
    cases hfind : ix.get? e.key with
    | none => simpa using List.find?_eq_none.mp hfind e he
    | some found =>
      have hkey : found.key = e.key := by simpa using List.find?_some hfind
      rw [List.inj_on_of_nodup_map h (List.mem_of_find?_eq_some hfind) he hkey]

theorem get?_eq_none {ix : SecondaryIndex} {key : String} (h : key ∉ ix.keys) :
    ix.get? key = none := by
  rw [get?, List.find?_eq_none]
  intro e he hkey
  exact h (List.mem_map.mpr ⟨e, he, of_decide_eq_true hkey⟩)

/-- What holds of an index that was read from `bytes`. -/
structure ReadFrom (bytes : List UInt8) (ix : SecondaryIndex) : Prop where
  declared : ∃ behind count rest, bytes = mark ++ version :: behind ∧
    Varint.take behind = .ok (count, rest) ∧ ix.entries.length = count.toNat
  distinct : ix.keys.Nodup
  get?_iff : ∀ (i : Nat) (hi : i < ix.entries.length) (key : String),
    ix.get? key = some ix.entries[i] ↔ ix.entries[i].key = key
  get?_none : ∀ key, key ∉ ix.keys → ix.get? key = none
  violations : ix.violations.toNat = ix.entries.countP fun e => !e.contiguous
  again : ofBytes ix.toBytes = .ok ix

/-- Any bytes are no index, or an index is read from them that is well formed and is read again from
what it is written as. Entries are read in rounds that each use up some bytes, so that no more rounds
are gone through than there are bytes, and one. -/
theorem readFrom_ofBytes (bytes : List UInt8) :
    ((∃ flaw, ofBytes bytes = .error flaw) ∨ ∃ ix, ofBytes bytes = .ok ix ∧ ReadFrom bytes ix) ∧
      (∀ seen count before, takeEntries seen (count + 1) before =
        (takeEntry seen before).bind fun r => takeEntries (seen ++ [r.1]) count r.2) ∧
      (∀ seen before entry rest, takeEntry seen before = .ok (entry, rest) →
        rest.length < before.length) ∧
      ∀ seen count before,
        takeEntries seen count before = takeEntries seen (min count (before.length + 1)) before := by
  refine ⟨?_, takeEntries_succ, fun _ _ _ _ => takeEntry_length, takeEntries_min⟩
  cases h : ofBytes bytes with
  | error flaw => exact .inl ⟨flaw, rfl⟩
  | ok ix =>
    have hstorable := storable_ofBytes h
    obtain ⟨behind, count, rest, hbytes, hcount, hread, hix⟩ := ofBytes_ok h
    have hviolations := violations_ofEntries hstorable.count_lt
    rw [← hix] at hviolations
    have hagain := ofBytes_toBytes hstorable
    rw [← hix] at hagain
    exact .inr ⟨ix, rfl, ⟨behind, count, rest, hbytes, hcount, (takeEntries_all hread).1⟩,
      hstorable.distinct,
      fun i hi key => get?_eq_some hstorable.distinct (List.getElem_mem hi) key,
      fun key => get?_eq_none, hviolations, hagain⟩

/-- A count and an offset with a group too many, a key and a flag that are not what is written, and a
field that is not known: the index is read, and is written otherwise. -/
theorem readFrom_ofBytes_overlong :
    let bytes := mark ++ version :: [0x81, 0x00, 0x0F, 0x0A, 0x01, 0x41, 0x0A, 0x01, 0x42, 0x10, 0x85,
      0x00, 0x18, 0x01, 0x70, 0x39, 0x28, 0x07]
    ∃ ix, ofBytes bytes = .ok ix ∧ ReadFrom bytes ix ∧ ix.entries = [⟨"B", 5, 1, none, false⟩] ∧
      ix.toBytes ≠ bytes := by
  intro bytes
  have hok : ofBytes bytes = .ok ⟨[⟨"B", 5, 1, none, false⟩], 1⟩ := by decide +kernel
  rcases (readFrom_ofBytes bytes).1 with ⟨flaw, h⟩ | ⟨ix, h, hread⟩
  · rw [hok] at h
    cases h
  · rw [hok] at h
    cases h
    exact ⟨_, hok, hread, rfl, by decide +kernel⟩

end SecondaryIndex
end SciArchive
