import SciArchive.Archive.Station
import SciArchive.Proofs.LineFields
import SciArchive.Proofs.ShapeTexts
import Mathlib.Algebra.Group.Nat.Defs

/-! Data lines written in their columns. What a station tells of a year is written with a fixed width for each
part, and reading the line gives it back, so two different years never read alike. -/
namespace SciArchive

/-! ### Numbers in columns -/

namespace Text

theorem digits?_of_digits {cs : List Char} (hne : cs ≠ []) (h : ∀ c ∈ cs, c.isDigit = true) :
    digits? cs = some (Nat.ofDigitChars 10 cs 0) := by
  cases cs with
  | nil => exact absurd rfl hne
  | cons c cs => exact digitsFrom?_eq h 0

theorem integer?_of_digits {bits : Nat} {cs : List Char} (hne : cs ≠ []) (h : ∀ c ∈ cs, c.isDigit = true)
    (hfits : Nat.ofDigitChars 10 cs 0 < 2 ^ (bits - 1)) :
    integer? bits cs = some (Nat.ofDigitChars 10 cs 0 : Int) := by
  have hread : (digits? cs).map Int.ofNat = some (Nat.ofDigitChars 10 cs 0 : Int) := by
    rw [digits?_of_digits hne h]
    rfl
  have hrange : -((2 ^ (bits - 1) : Nat) : Int) ≤ (Nat.ofDigitChars 10 cs 0 : Int) ∧
      (Nat.ofDigitChars 10 cs 0 : Int) < (2 ^ (bits - 1) : Nat) := by omega
  rw [integer?.eq_def]
  split
  · exact absurd (h '+' List.mem_cons_self) (by decide)
  · exact absurd (h '-' List.mem_cons_self) (by decide)
  · rw [hread]
    exact Option.filter_eq_some_iff.mpr ⟨rfl, decide_eq_true hrange⟩

theorem toList_repr_negSucc (n : Nat) : (Int.negSucc n).repr.toList = '-' :: (n + 1).repr.toList := by
  rw [Int.repr.eq_2, String.toList_append]
  rfl

theorem integer?_repr {bits : Nat} {v : Int} (hlow : -(2 ^ (bits - 1) : Nat) ≤ v)
    (hhigh : v < (2 ^ (bits - 1) : Nat)) : integer? bits v.repr.toList = some v := by
  cases v with
  | ofNat n =>
    have hread := integer?_of_digits (repr_ne_nil n) (fun c hc => isDigit_of_mem_repr hc)
      (by rw [Nat.toList_repr, Nat.ofDigitChars_ten_toDigits]; exact Int.ofNat_lt.mp hhigh)
    rwa [Nat.toList_repr, Nat.ofDigitChars_ten_toDigits, ← Nat.toList_repr] at hread
  | negSucc n =>
    have hdigits := digits?_of_digits (repr_ne_nil (n + 1)) fun c hc => isDigit_of_mem_repr hc
    rw [Nat.toList_repr, Nat.ofDigitChars_ten_toDigits, ← Nat.toList_repr] at hdigits
    rw [toList_repr_negSucc, integer?, hdigits]
    exact Option.filter_eq_some_iff.mpr ⟨rfl, decide_eq_true ⟨hlow, hhigh⟩⟩

theorem trim_of_ends {cs : List Char} (hfirst : ∀ c ∈ cs.head?, isBlank c = false)
    (hlast : ∀ c ∈ cs.getLast?, isBlank c = false) : trim cs = cs := by
  have hdrop : ∀ ds : List Char, (∀ c ∈ ds.head?, isBlank c = false) → ds.dropWhile isBlank = ds := by
    intro ds hds
    cases ds with
    | nil => rfl
    | cons d ds => rw [List.dropWhile_cons_of_neg (by simp [hds d rfl])]
  rw [trim, dropEnd, hdrop cs hfirst, hdrop cs.reverse (by rwa [List.head?_reverse]), List.reverse_reverse]

theorem trim_of_plain {cs : List Char} (h : ∀ c ∈ cs, isBlank c = false) : trim cs = cs :=
  trim_of_ends (fun c hc => h c (List.mem_of_mem_head? hc)) fun c hc => h c (List.mem_of_mem_getLast? hc)

theorem trim_spaces (k : Nat) (cs : List Char) : trim (List.replicate k ' ' ++ cs) = trim cs := by
  have hspaces : ∀ c ∈ List.replicate k ' ', isBlank c = true := by
    intro c hc
    rw [List.eq_of_mem_replicate hc]
    rfl
  rw [trim, List.dropWhile_append_of_pos hspaces, trim]

/-- A number filled up with zeros is read as it is. -/
theorem integer?_zeros {bits n : Nat} (h : n < 2 ^ (bits - 1)) (width : Nat) :
    integer? bits (trim (n.repr.toList.leftpad width '0')) = some (n : Int) := by
  have hvalue : Nat.ofDigitChars 10 (n.repr.toList.leftpad width '0') 0 = n := by
    rw [List.leftpad, Nat.ofDigitChars_append, Nat.ofDigitChars_replicate_zero, Nat.mul_zero, Nat.toList_repr,
      Nat.ofDigitChars_ten_toDigits]
  have hdigits : ∀ c ∈ n.repr.toList.leftpad width '0', c.isDigit = true := by
    intro c hc
    rcases List.mem_append.mp hc with hzero | hdigit
    · rw [List.eq_of_mem_replicate hzero]
      rfl
    · exact isDigit_of_mem_repr hdigit
  have hne : n.repr.toList.leftpad width '0' ≠ [] := List.append_ne_nil_of_right_ne_nil _ (repr_ne_nil n)
  rw [trim_of_plain fun c hc => isBlank_of_isDigit (hdigits c hc), integer?_of_digits hne hdigits (by rwa [hvalue]),
    hvalue]

/-- A number filled up with spaces is read as it is. -/
theorem integer?_spaces {bits : Nat} {v : Int} (hlow : -(2 ^ (bits - 1) : Nat) ≤ v)
    (hhigh : v < (2 ^ (bits - 1) : Nat)) (width : Nat) :
    integer? bits (trim (v.repr.toList.leftpad width ' ')) = some v := by
  have hplain : ∀ c ∈ v.repr.toList, isBlank c = false := by
    intro c hc
    cases v with
    | ofNat n => exact isBlank_of_isDigit (isDigit_of_mem_repr hc)
    | negSucc n =>
      rw [toList_repr_negSucc] at hc
      rcases List.mem_cons.mp hc with rfl | hdigit
      · decide
      · exact isBlank_of_isDigit (isDigit_of_mem_repr hdigit)
  rw [List.leftpad, trim_spaces, trim_of_plain hplain, integer?_repr hlow hhigh]

end Text

/-! ### Cells side by side -/

namespace Column

theorem slice_part (front mid back : List Char) {start stop : Nat} (hstart : start = front.length)
    (hstop : stop = front.length + mid.length) : slice (front ++ (mid ++ back)) start stop = mid := by
  rw [slice, hstart, hstop, List.drop_left, Nat.add_sub_cancel_left, List.take_left]

/-- A stretch of a part is the same stretch of the whole. -/
theorem slice_within (front mid back : List Char) {start stop : Nat} (h : stop ≤ mid.length) :
    slice (front ++ (mid ++ back)) (front.length + start) (front.length + stop) = slice mid start stop := by
  rw [slice, slice, List.drop_length_add_append, Nat.add_sub_add_left]
  by_cases hempty : stop ≤ start
  · rw [Nat.sub_eq_zero_of_le hempty, List.take_zero, List.take_zero]
  · rw [List.drop_append_of_le_length (by omega), List.take_append_of_le_length]
    rw [List.length_drop]
    omega

theorem cell_eq_ok {c : Column} {line : List Char} {start stop : Nat} {v : Value}
    (h : c.kind.read? (slice line start stop) = some v) : c.cell line start stop = .ok v := by
  simp [cell, h]

theorem read_part {name : String} {kind : ColumnKind} {start stop : Nat} {v : Value} (front mid back : List Char)
    (hstart : start = front.length) (hstop : stop = front.length + mid.length) (hread : kind.read? mid = some v) :
    read ⟨name, kind, start, stop, none⟩ (front ++ (mid ++ back)) = .ok v := by
  rw [read]
  exact cell_eq_ok (by rw [slice_part front mid back hstart hstop, hread])

/-- Parts of one width are read one after the other, each at the same place in it. -/
theorem cells_parts {α : Type} {c : Column} {text : α → List Char} {value : α → Value} {width start stop : Nat}
    (hstop : stop ≤ width) (front : List Char) {parts : List α} (hwidth : ∀ a ∈ parts, (text a).length = width)
    (hread : ∀ a ∈ parts, c.kind.read? (slice (text a) start stop) = some (value a)) :
    c.cells (front ++ parts.flatMap text) width parts.length (front.length + start) (front.length + stop) =
      .ok (parts.map value) := by
  induction parts generalizing front with
  | nil => rfl
  | cons a parts ih =>
    obtain ⟨hwidth, hwidths⟩ := List.forall_mem_cons.mp hwidth
    obtain ⟨hread, hreads⟩ := List.forall_mem_cons.mp hread
    have hcell : c.cell (front ++ (text a ++ parts.flatMap text)) (front.length + start) (front.length + stop) =
        .ok (value a) := by
      refine cell_eq_ok ?_
      rw [slice_within front (text a) _ (hwidth ▸ hstop)]
      exact hread
    have hrest := ih (front ++ text a) hwidths hreads
    rw [List.append_assoc, List.length_append, hwidth, Nat.add_right_comm, Nat.add_right_comm _ width] at hrest
    rw [List.flatMap_cons, List.length_cons, cells, hcell, hrest]
    rfl

end Column

theorem Value.sameAll_map_iff {α β : Type} {f : α → Value} {g : α → β}
    (h : ∀ a b, (f a).same (f b) = true ↔ g a = g b) {as bs : List α} :
    sameAll (as.map f) (bs.map f) = true ↔ as.map g = bs.map g := by
  induction as generalizing bs with
  | nil => cases bs <;> simp [sameAll]
  | cons a as ih => cases bs <;> simp [sameAll, h, ih]

/-! ### Years of stations -/

/-- The value of a month, of five characters at most, with its flags. -/
@[ext]
structure MonthValue where
  value : Int
  dm : Char
  qc : Char
  ds : Char
  width : value.repr.length ≤ 5

/-- What a station tells of a year. -/
@[ext]
structure StationYear where
  id : Nat
  year : Nat
  element : String
  months : List MonthValue
  id_lt : id < 10 ^ 11
  year_lt : year < 10 ^ 4
  element_length : element.length = 4
  element_first : ∀ c ∈ element.toList.head?, Text.isBlank c = false
  element_last : ∀ c ∈ element.toList.getLast?, Text.isBlank c = false
  months_length : months.length = 12

namespace MonthValue

/-- The value stands at the right of its five columns. -/
def text (m : MonthValue) : List Char := m.value.repr.toList.leftpad 5 ' ' ++ [m.dm, m.qc, m.ds]

variable (m : MonthValue)

theorem length_value : (m.value.repr.toList.leftpad 5 ' ').length = 5 := by
  rw [List.length_leftpad, String.length_toList, Nat.max_eq_left m.width]

theorem length_text : m.text.length = 8 := by
  rw [text, List.length_append, m.length_value]
  rfl

/-- What five characters can say. -/
theorem value_range : -10000 < m.value ∧ m.value < 100000 := by
  have hwidth := m.width
  rw [← String.length_toList] at hwidth
  cases hv : m.value with
  | ofNat n =>
    have hdigits : (Nat.toDigits 10 n).length ≤ 5 := by
      rw [hv] at hwidth
      rwa [← Nat.toList_repr]
    have hlt := (Nat.length_toDigits_le_iff (by decide) (by decide)).mp hdigits
    rw [Int.ofNat_eq_natCast]
    omega
  | negSucc n =>
    have hdigits : (Nat.toDigits 10 (n + 1)).length ≤ 4 := by
      rw [hv, Text.toList_repr_negSucc, List.length_cons] at hwidth
      rw [← Nat.toList_repr]
      omega
    have hlt := (Nat.length_toDigits_le_iff (by decide) (by decide)).mp hdigits
    omega

theorem toInt_value : (Int32.ofInt m.value).toInt = m.value := by
  have hrange := m.value_range
  exact Int32.toInt_ofInt_of_le (by omega) (by omega)

theorem read?_value : ColumnKind.int.read? (Column.slice m.text 0 5) = some (.int (Int32.ofInt m.value)) := by
  have hrange := m.value_range
  have hcut : Column.slice m.text 0 5 = m.value.repr.toList.leftpad 5 ' ' :=
    Column.slice_part [] _ _ rfl (by rw [m.length_value]; rfl)
  rw [ColumnKind.read?, hcut, Text.integer?_spaces (by omega) (by omega)]
  rfl

/-- The flags stand behind the value. -/
theorem drop_text (i : Nat) : m.text.drop (5 + i) = [m.dm, m.qc, m.ds].drop i := by
  rw [← List.drop_drop, text, List.drop_left' m.length_value]

theorem read?_flag {i : Nat} {flag : Char} (h : ([m.dm, m.qc, m.ds].drop i).head? = some flag) :
    ColumnKind.char.read? (Column.slice m.text (5 + i) (6 + i)) = some (.char flag) := by
  have hone : 6 + i - (5 + i) = 1 := by omega
  rw [ColumnKind.read?, Column.slice, hone, m.drop_text]
  obtain ⟨rest, hrest⟩ := List.head?_eq_some_iff.mp h
  rw [hrest]
  rfl

theorem eq_of_maps {ms ns : List MonthValue} (hvalue : ms.map value = ns.map value) (hdm : ms.map dm = ns.map dm)
    (hqc : ms.map qc = ns.map qc) (hds : ms.map ds = ns.map ds) : ms = ns := by
  have hlength : ms.length = ns.length := by simpa using congrArg List.length hvalue
  refine List.ext_getElem hlength fun i hi hi' => ?_
  have hpart : ∀ {α : Type} (part : MonthValue → α), ms.map part = ns.map part → part ms[i] = part ns[i] := by
    intro α part h
    have hparts := List.getElem_of_eq h (i := i) (by rwa [List.length_map])
    rwa [List.getElem_map, List.getElem_map] at hparts
  exact MonthValue.ext (hpart value hvalue) (hpart dm hdm) (hpart qc hqc) (hpart ds hds)

end MonthValue

/-! ### Lines -/

namespace StationYear

variable (y : StationYear)

def idText : List Char := y.id.repr.toList.leftpad 11 '0'

def yearText : List Char := y.year.repr.toList.leftpad 4 '0'

/-- Numbers are filled up with zeros; the months follow without a gap. -/
def line : String :=
  String.ofList (y.idText ++ (y.yearText ++ (y.element.toList ++ y.months.flatMap MonthValue.text)))

/-- The values of the columns, in the order of the layout. -/
def columns : List Value :=
  [.long (Int64.ofInt y.id), .int (Int32.ofInt y.year), .text y.element,
    .array (y.months.map fun m => .int (Int32.ofInt m.value)), .array (y.months.map fun m => .char m.dm),
    .array (y.months.map fun m => .char m.qc), .array (y.months.map fun m => .char m.ds)]

def time : String := y.year.repr ++ "-01-01T00:00:00Z"

/-- What the line reads as. -/
def record : TextRecord := ⟨Station.dataLayout.names.zip (y.columns ++ [.text y.time])⟩

theorem length_idText : y.idText.length = 11 := by
  have hdigits := (Nat.length_toDigits_le_iff (by decide) (by decide)).mpr y.id_lt
  rw [idText, List.length_leftpad, Nat.toList_repr, Nat.max_eq_left hdigits]

theorem length_yearText : y.yearText.length = 4 := by
  have hdigits := (Nat.length_toDigits_le_iff (by decide) (by decide)).mpr y.year_lt
  rw [yearText, List.length_leftpad, Nat.toList_repr, Nat.max_eq_left hdigits]

theorem length_elementText : y.element.toList.length = 4 := by
  rw [String.length_toList, y.element_length]

/-- What stands before the months. -/
theorem length_front : (y.idText ++ (y.yearText ++ y.element.toList)).length = 19 := by
  rw [List.length_append, List.length_append, y.length_idText, y.length_yearText, y.length_elementText]

theorem toList_line : y.line.toList =
    y.idText ++ (y.yearText ++ (y.element.toList ++ y.months.flatMap MonthValue.text)) := by
  rw [line, String.toList_ofList]

theorem read_id : Column.read ⟨"stnid", .long, 0, 11, none⟩ y.line.toList = .ok (.long (Int64.ofInt y.id)) := by
  have hlt := y.id_lt
  rw [y.toList_line, ← List.nil_append (y.idText ++ _)]
  refine Column.read_part [] y.idText _ rfl ?_ ?_
  · rw [y.length_idText, List.length_nil]
  · rw [ColumnKind.read?, idText, Text.integer?_zeros (by omega)]
    rfl

theorem read_year : Column.read ⟨"year", .int, 11, 15, none⟩ y.line.toList = .ok (.int (Int32.ofInt y.year)) := by
  have hlt := y.year_lt
  rw [y.toList_line]
  refine Column.read_part y.idText y.yearText _ y.length_idText.symm ?_ ?_
  · rw [y.length_idText, y.length_yearText]
  · rw [ColumnKind.read?, yearText, Text.integer?_zeros (by omega)]
    rfl

theorem read_element : Column.read ⟨"element", .text, 15, 19, none⟩ y.line.toList = .ok (.text y.element) := by
  have hfront : (y.idText ++ y.yearText).length = 15 := by
    rw [List.length_append, y.length_idText, y.length_yearText]
  rw [y.toList_line, ← List.append_assoc]
  refine Column.read_part _ y.element.toList _ hfront.symm ?_ ?_
  · rw [hfront, y.length_elementText]
  · rw [ColumnKind.read?, Text.trim_of_ends y.element_first y.element_last, String.ofList_toList]

/-- A column of the months is read in each of them. -/
theorem read_monthly (name : String) (kind : ColumnKind) (start stop : Nat) {value : MonthValue → Value}
    (hstop : stop ≤ 8) (hread : ∀ m : MonthValue, kind.read? (Column.slice m.text start stop) = some (value m)) :
    (Station.monthly name kind (19 + start) (19 + stop)).read y.line.toList = .ok (.array (y.months.map value)) := by
  have hcells := Column.cells_parts (c := Station.monthly name kind (19 + start) (19 + stop)) hstop
    (y.idText ++ (y.yearText ++ y.element.toList)) (fun m _ => MonthValue.length_text m)
    (fun m (_ : m ∈ y.months) => hread m)
  rw [y.length_front, y.months_length, List.append_assoc, List.append_assoc, ← y.toList_line] at hcells
  rw [Column.read, Station.monthly]
  exact map_eq_ok.mpr ⟨_, hcells, rfl⟩

theorem toInt_id : (Int64.ofInt y.id).toInt = y.id := by
  have hlt := y.id_lt
  exact Int64.toInt_ofInt_of_le (by omega) (by omega)

theorem toInt_year : (Int32.ofInt y.year).toInt = y.year := by
  have hlt := y.year_lt
  exact Int32.toInt_ofInt_of_le (by omega) (by omega)

theorem yearStart_year : Station.yearStart (.int (Int32.ofInt y.year)) = .ok (.text y.time) := by
  have hlt := y.year_lt
  have hmost : Int64.maxValue.toInt = 2 ^ 63 - 1 := rfl
  have hword : (Value.int (Int32.ofInt y.year)).toInteger? = some (y.year : Int) := by
    simp only [Value.toInteger?, Value.whole?, y.toInt_year, hmost, Option.filter_eq_some_iff, decide_eq_true_eq,
      true_and]
    omega
  rw [Station.yearStart, hword]
  rfl

theorem readLine_line : Station.dataLayout.readLine y.line = .ok y.record := by
  have hvalue := y.read_monthly "value" .int 0 5 (by decide) MonthValue.read?_value
  have hdm := y.read_monthly "dm" .char 5 6 (by decide) fun m => m.read?_flag (i := 0) rfl
  have hqc := y.read_monthly "qc" .char 6 7 (by decide) fun m => m.read?_flag (i := 1) rfl
  have hds := y.read_monthly "ds" .char 7 8 (by decide) fun m => m.read?_flag (i := 2) rfl
  have hcolumns : Station.dataLayout.columns.mapM (fun c => c.read y.line.toList) = .ok y.columns := by
    rw [mapM_eq_ok, Station.dataLayout]
    exact .cons y.read_id <| .cons y.read_year <| .cons y.read_element <| .cons hvalue <| .cons hdm <|
      .cons hqc <| .cons hds .nil
  have hcomputed : Station.dataLayout.derived.mapM (TextLayout.computeField y.columns) = .ok [.text y.time] :=
    mapM_eq_ok.mpr (.cons y.yearStart_year .nil)
  rw [TextLayout.readLine, hcolumns]
  simp only [hcomputed]
  rfl

/-- A record tells all that the year does, and nothing else. -/
structure ToldBy (r : TextRecord) : Prop where
  names : r.names = ["stnid", "year", "element", "value", "dm", "qc", "ds", "time"]
  id : ∃ n : Int64, r.get "stnid" = .ok (.long n) ∧ n.toInt = y.id
  year : ∃ n : Int32, r.get "year" = .ok (.int n) ∧ n.toInt = y.year
  element : r.get "element" = .ok (.text y.element)
  values : ∃ ns : List Int32, r.get "value" = .ok (.array (ns.map .int)) ∧
    ns.map Int32.toInt = y.months.map MonthValue.value
  dm : r.get "dm" = .ok (.array (y.months.map fun m => .char m.dm))
  qc : r.get "qc" = .ok (.array (y.months.map fun m => .char m.qc))
  ds : r.get "ds" = .ok (.array (y.months.map fun m => .char m.ds))
  time : r.get "time" = .ok (.text (y.year.repr ++ "-01-01T00:00:00Z"))

theorem toldBy_record : y.ToldBy y.record where
  names := rfl
  id := ⟨_, rfl, y.toInt_id⟩
  year := ⟨_, rfl, y.toInt_year⟩
  element := rfl
  values := by
    refine ⟨y.months.map fun m => Int32.ofInt m.value, by rw [List.map_map]; rfl, ?_⟩
    rw [List.map_map]
    exact List.map_congr_left fun m _ => m.toInt_value
  dm := rfl
  qc := rfl
  ds := rfl
  time := rfl

variable {y} {z : StationYear}

/-- No part of a year is lost: the id, the year and each value are numbers that their words hold. -/
theorem record_same_iff : y.record.same z.record = true ↔ y = z := by
  have hint : ∀ m n : MonthValue, (Value.int (Int32.ofInt m.value)).same (.int (Int32.ofInt n.value)) = true ↔
      m.value = n.value := by
    intro m n
    rw [Value.same, beq_iff_eq]
    exact ⟨fun h => by rw [← m.toInt_value, h, n.toInt_value], fun h => by rw [h]⟩
  have hchar : ∀ flag : MonthValue → Char, ∀ m n : MonthValue,
      (Value.char (flag m)).same (.char (flag n)) = true ↔ flag m = flag n := by
    intro flag m n
    rw [Value.same, beq_iff_eq]
  have hid : Int64.ofInt y.id = Int64.ofInt z.id ↔ y.id = z.id := by
    refine ⟨fun h => Int.ofNat_inj.mp ?_, fun h => by rw [h]⟩
    rw [← y.toInt_id, h, z.toInt_id]
  have hyear : Int32.ofInt y.year = Int32.ofInt z.year ↔ y.year = z.year := by
    refine ⟨fun h => Int.ofNat_inj.mp ?_, fun h => by rw [h]⟩
    rw [← y.toInt_year, h, z.toInt_year]
  simp only [TextRecord.same, record, columns, Station.dataLayout, TextLayout.names, Station.monthly,
    List.map_cons, List.map_nil, List.cons_append, List.nil_append, List.zip_cons_cons, List.zip_nil_right,
    TextRecord.sameFields, Value.same, Bool.and_eq_true, beq_iff_eq, true_and, and_true, hid, hyear,
    Value.sameAll_map_iff hint, Value.sameAll_map_iff (hchar MonthValue.dm),
    Value.sameAll_map_iff (hchar MonthValue.qc), Value.sameAll_map_iff (hchar MonthValue.ds)]
  constructor
  · rintro ⟨hid, hyear, helement, hvalue, hdm, hqc, hds, -⟩
    exact StationYear.ext hid hyear helement (MonthValue.eq_of_maps hvalue hdm hqc hds)
  · rintro rfl
    exact ⟨rfl, rfl, rfl, rfl, rfl, rfl, rfl, rfl⟩

/-- The line of a year reads as a record that tells all of it, and no other year has a line that reads the same. -/
theorem readLine_line_toldBy (y z : StationYear) : ∃ r s, Station.dataLayout.readLine y.line = .ok r ∧
    Station.dataLayout.readLine z.line = .ok s ∧ y.ToldBy r ∧ z.ToldBy s ∧ (r.same s = true ↔ y = z) :=
  ⟨y.record, z.record, y.readLine_line, z.readLine_line, y.toldBy_record, z.toldBy_record, record_same_iff⟩

/-- A year in which only the last month is known. -/
def onlyDecember : StationYear where
  id := 10160355000
  year := 932
  element := "TAVG"
  months := List.replicate 11 ⟨-9999, ' ', ' ', ' ', by decide⟩ ++ [⟨101, 'a', 'D', '1', by decide⟩]
  id_lt := by decide
  year_lt := by decide
  element_length := rfl
  element_first := by
    rintro c ⟨⟩
    rfl
  element_last := by
    rintro c ⟨⟩
    rfl
  months_length := rfl

example : onlyDecember.line.toList = "101603550000932TAVG".toList ++
    (List.replicate 11 "-9999   ".toList).flatten ++ "  101aD1".toList := by cbv

end StationYear
end SciArchive
