import SciArchive.Archive.Station
import SciArchive.Proofs.Lines
import SciArchive.Proofs.Utf8
import Mathlib.Data.Nat.Digits.Defs

/-! The station of a line: what its first column alone gives is what the whole line gives, and it is
a short text. -/
namespace SciArchive

/-- A line that can be read has in its first field what its first column alone gives. -/
theorem TextLayout.get_first {l : TextLayout} {c : Column} {cs : List Column}
    (hc : l.columns = c :: cs)
    {line : String} {t : TextRecord} (h : l.readLine line = .ok t) :
    t.get c.name = l.readField line c.name := by
  have hcolumn : l.column? c.name = some c := by
    rw [column?, hc]
    exact List.find?_cons_of_pos (decide_eq_true rfl)
  rw [readLine, hc, List.mapM_cons] at h
  rw [readField, hcolumn]
  cases hv : c.read line.toList with
  | error e =>
    rw [hv] at h
    cases h
  | ok v =>
    rw [hv] at h
    cases hvs : cs.mapM (fun c => c.read line.toList) with
    | error e =>
      rw [hvs] at h
      cases h
    | ok vs =>
      rw [hvs] at h
      cases hcomputed : l.derived.mapM (computeField (v :: vs)) with
      | error e => simp [bind, Except.bind, pure, Except.pure, hcomputed] at h
      | ok computed =>
        simp only [bind, Except.bind, pure, Except.pure, hcomputed, Except.ok.injEq] at h
        rw [← h, TextRecord.get, names, hc]
        simp [hv]

namespace Station

/-- The column of the station, the first one in either file. -/
def idColumn : Column := ⟨keyField, .long, 0, 11, none⟩

/-- The text of a line's station, if its column can be read. -/
def idOf (line : String) : Except Fault String := (idColumn.read line.toList).map Value.render

theorem readField_catalog (line : String) :
    catalogLayout.readField line keyField = idColumn.read line.toList := by
  simp [TextLayout.readField, TextLayout.column?, catalogLayout, keyField, idColumn]

/-- A record has the key that its line has. -/
theorem key_of_parse {l : TextLayout} {cs : List Column} (hc : l.columns = idColumn :: cs)
    {line : Nat × String} {r : Nat × Record} (h : LineSource.parse l line = .ok r) :
    r.2.key keyField = idOf line.2 := by
  cases ht : l.readLine line.2 with
  | error e => simp [LineSource.parse, ht, Except.map] at h
  | ok t =>
    simp only [LineSource.parse, ht, Except.map, Except.ok.injEq] at h
    have hfirst := TextLayout.get_first hc ht
    have hcolumn : l.readField line.2 keyField = idColumn.read line.2.toList := by
      simp [TextLayout.readField, TextLayout.column?, hc, idColumn]
    rw [← h, Record.key, Record.value, idOf, ← hcolumn]
    exact congrArg _ hfirst

theorem key_of_data {line : Nat × String} {r : Nat × Record}
    (h : LineSource.parse dataLayout line = .ok r) :
    r.2.key keyField = idOf line.2 :=
  key_of_parse rfl h

theorem key_of_catalog {line : Nat × String} {r : Nat × Record}
    (h : LineSource.parse catalogLayout line = .ok r) : r.2.key keyField = idOf line.2 :=
  key_of_parse rfl h

theorem length_word_le (n : Int64) : (toString n.toInt).toList.length ≤ 20 := by
  have hlow : -(2 ^ 63) ≤ n.toInt := n.le_toInt
  have hhigh : n.toInt < 2 ^ 63 := n.toInt_lt
  have hdigits {m : Nat} (hm : m ≤ 2 ^ 63) : (Nat.repr m).toList.length ≤ 19 := by
    rw [String.length_toList]
    exact Nat.repr_length m 19 (by decide) (by omega)
  cases hn : n.toInt with
  | ofNat m =>
    have hm : m ≤ 2 ^ 63 := by
      rw [hn, Int.ofNat_eq_natCast] at hhigh
      omega
    exact Nat.le_succ_of_le (hdigits hm)
  | negSucc m =>
    have hm : m + 1 ≤ 2 ^ 63 := by
      rw [hn] at hlow
      omega
    have hsign : toString (Int.negSucc m) = "-" ++ Nat.repr (m + 1) := rfl
    have hshort := hdigits hm
    rw [hsign, String.toList_append, List.length_append]
    have : ("-" : String).toList.length = 1 := rfl
    omega

/-- The id of a station is a number of twenty characters at most. -/
theorem length_id_le {line key : String} (h : idOf line = .ok key) :
    (Utf8.ofString key).length ≤ 80 := by
  have hlong : ∃ n : Int64, toString n.toInt = key := by
    simp only [idOf, idColumn, Column.read, Column.cell, ColumnKind.read?] at h
    cases hn : Text.integer? 64 (Text.trim (Column.slice line.toList 0 11)) with
    | none => simp [hn, Except.map] at h
    | some n =>
      simp only [hn, Option.map_some, Except.map, Value.render, Except.ok.injEq] at h
      exact ⟨_, h⟩
  obtain ⟨n, rfl⟩ := hlong
  have hcharacters := length_word_le n
  have hbytes := Utf8.length_encode_le (toString n.toInt).toList
  rw [Utf8.ofString]
  omega

end Station
end SciArchive
