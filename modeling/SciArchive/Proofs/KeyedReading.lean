import SciArchive.Proofs.KeyedAccess

/-! Reading a station's records to the end: the data lines are the same with an index and without
one; of the catalog lines an index gives only the last. -/
namespace SciArchive.Station

variable {a : Contents} {path : String} {d : Disk} {l : Ledger} {r : Resource}

/-! ### Data lines -/

/-- Where all records can be read, a stream gives those that a filter keeps, by scan or by leap. -/
theorem Serves.readAll_eq {layout : TextLayout} {content : List UInt8} {keep : Record → Bool}
    {mine records : List (Nat × Record)} {stream : Stream}
    (h : Serves r layout content keep mine stream)
    (hopen : l.isClosed r = false)
    (hrecords : LineSource.recordsFrom layout content 0 = records.map .ok)
    (hmine : mine.map Prod.snd = (records.map Prod.snd).filter keep) :
    (stream.readAll l).1 = .ok ((records.map Prod.snd).filter keep) := by
  cases h with
  | scan file =>
    rw [Stream.readAll_scan hopen rfl rfl, LineSource.toCome_new, hrecords, scanned_ok]
  | leap file offset after hfrom =>
    have htoCome : ((LineSource.new content layout).seek offset).toCome =
        mine.map .ok ++ after.map .ok := by
      rw [← List.map_append]
      exact hfrom
    rw [Stream.readAll_keyed hopen rfl mine rfl htoCome (Nat.zero_add _), hmine]

theorem Survey.map_recordsOf (v : Survey a) (key : String) :
    (v.recordsOf key).map Prod.snd =
      (v.records.map Prod.snd).filter (Record.hasKey keyField key) := by
  rw [List.filter_map, recordsOf]
  exact congrArg _ (List.filter_congr fun r hr => (v.hasKey_eq hr).symm)

/-- Keyed reading of data lines, whatever the index is. -/
theorem Opening.readKeyed_data (o : Opening a path) (v : Survey a) (hlie : a.LieAt d path)
    (hopen : o.dataset.Unclosed l) (sequence : String)
    (hsequence : sequence ∈ [stationData, nestedData, allData])
    (key : String) :
    o.dataset.readKeyed d l sequence key =
      .ok ((v.records.map Prod.snd).filter (Record.hasKey keyField key)) := by
  obtain ⟨data, stream, hunclosed, hstream, hserves⟩ := o.keyedStream_data hlie hopen v hsequence key
  rw [Dataset.readKeyed, hstream]
  exact hserves.readAll_eq hunclosed v.data_eq (v.map_recordsOf key)

/-- Reading all lines of a file. -/
theorem readSequence_of_scan {s : Dataset} {sequence : String} {layout : TextLayout}
    {content : List UInt8} (hopen : l.isClosed r = false)
    (hcontent : d.bytes? r.path = some content)
    (hstream : s.stream d l sequence = Stream.scan d l r (.text layout) fun _ => true) :
    s.readSequence d l sequence =
      scanned (fun _ => true) (LineSource.recordsFrom layout content 0) := by
  obtain ⟨file, hscan⟩ := Stream.scan_file layout (fun _ => true) hopen hcontent
  rw [Dataset.readSequence, hstream, hscan, Except.bind, Stream.readAll_scan hopen rfl rfl,
    LineSource.toCome_new]

/-- Once an archive could be opened with an index, the same data lines are read for any key in all
openings of it, with an index that was built, with one that was loaded, and without one. Reading
them does not fail. -/
theorem readKeyed_data_same (indexed other : Opening a path)
    (hindexed : indexed.dataset.index?.isSome = true)
    (hlie : a.LieAt d path) (hopen : indexed.dataset.Unclosed l) (hopen' : other.dataset.Unclosed l)
    {sequence : String} (hsequence : sequence ∈ [stationData, nestedData, allData]) (key : String) :
    ∃ all, other.dataset.readSequence d l allData = .ok all ∧
      indexed.dataset.readKeyed d l sequence key = .ok (all.filter (Record.hasKey keyField key)) ∧
      other.dataset.readKeyed d l sequence key = .ok (all.filter (Record.hasKey keyField key)) := by
  obtain ⟨v⟩ := indexed.exists_survey hindexed
  refine ⟨v.records.map Prod.snd, ?_, indexed.readKeyed_data v hlie hopen sequence hsequence key,
    other.readKeyed_data v hlie hopen' sequence hsequence key⟩
  obtain ⟨data, hunclosed, hcontent, hstream⟩ := other.stream_data hlie hopen'
  rw [readSequence_of_scan hunclosed hcontent hstream, v.data_eq, scanned_ok,
    List.filter_eq_self.mpr fun _ _ => rfl]

/-! ### A small archive -/

/-- A column of bytes behind blanks. -/
def column (width : Nat) (bytes : List UInt8) : List UInt8 :=
  List.replicate (width - bytes.length) 0x20 ++ bytes

/-- A station id of one digit behind zeros. -/
def sampleId (digit : UInt8) : List UInt8 := List.replicate 10 0x30 ++ [digit]

/-- A data line of station 1 for the year 1961, all its values zero. -/
def sampleYear : List UInt8 :=
  sampleId 0x31 ++ [0x31, 0x39, 0x36, 0x31] ++ column 4 [] ++
    (List.replicate 12 (column 5 [0x30] ++ column 3 [])).flatten ++ [0x0A]

theorem length_sampleYear_lt : sampleYear.length < UInt64.size := by decide +kernel

/-- A catalog line with an id and a latitude, all its other numbers zero. -/
def sampleLine (digit latitude : UInt8) : List UInt8 :=
  sampleId digit ++ column 9 [latitude] ++ column 10 [0x30] ++ column 7 [0x30] ++ column 31 [] ++
    column 5 [0x30] ++ column 6 [0x30] ++ column 8 [0x30] ++ column 3 [0x30] ++ [0x0A]

/-- An archive whose catalog lists its station twice. -/
def listedTwice : Contents where
  data := sampleYear
  catalog := sampleLine 0x31 0x35 ++ sampleLine 0x31 0x36
  data_lt := length_sampleYear_lt
  catalog_lt := by decide +kernel

/-- The disk that holds an archive and nothing else. -/
def diskOf (a : Contents) : Disk :=
  { files := [(["a.dat"], ⟨0, a.data, .tick 0⟩), (["a.inv"], ⟨1, a.catalog, .tick 0⟩)], issued := 2 }

theorem lieAt_diskOf (a : Contents) : a.LieAt (diskOf a) "a.dat" := ⟨rfl, rfl⟩

/-- The archive opened with an index, which is built and written. -/
def listedTwiceBuilt : Opening listedTwice "a.dat" :=
  .ofOk {} (lieAt_diskOf _) (ownIndex_of_none (by decide +kernel)) (by decide +kernel)

theorem lieAt_listedTwiceBuilt : listedTwice.LieAt listedTwiceBuilt.after.1 "a.dat" :=
  ⟨by decide +kernel, by decide +kernel⟩

/-- The archive opened again with the index that was written. -/
def listedTwiceLoaded : Opening listedTwice "a.dat" :=
  .ofOk {} lieAt_listedTwiceBuilt (listedTwiceBuilt.ownIndex_after lieAt_listedTwiceBuilt)
    (by decide +kernel)

/-- The archive opened without an index. -/
def listedTwicePlain : Opening listedTwice "a.dat" :=
  .ofOk { policy := .disabled } (lieAt_diskOf _) (ownIndex_of_none (by decide +kernel))
    (by decide +kernel)

theorem readKeyed_data_same_listedTwice :
    ∃ all, listedTwicePlain.dataset.readSequence (diskOf listedTwice) {} allData = .ok all ∧
      listedTwiceLoaded.dataset.readKeyed (diskOf listedTwice) {} nestedData "1" =
        .ok (all.filter (Record.hasKey keyField "1")) ∧
      listedTwicePlain.dataset.readKeyed (diskOf listedTwice) {} nestedData "1" =
        .ok (all.filter (Record.hasKey keyField "1")) :=
  readKeyed_data_same listedTwiceLoaded listedTwicePlain
    (listedTwiceLoaded.index_isSome.mpr (by decide)) (lieAt_diskOf _) (fun _ _ => rfl)
    (fun _ _ => rfl) (by decide) "1"

/-! ### Catalog lines -/

/-- Where all lines of a catalog can be read, those that list a station are read as the records of
the station. -/
theorem map_parse_filter {lines : List (Nat × String)} {records : List (Nat × Record)}
    (hids : ∀ line ∈ lines, ∃ id, idOf line.2 = .ok id)
    (h : lines.map (LineSource.parse catalogLayout) = records.map .ok) (key : String) :
    (lines.filter fun line => listedAs line == key).map (LineSource.parse catalogLayout) =
      (records.filter fun r => Record.hasKey keyField key r.2).map .ok := by
  induction lines generalizing records with
  | nil =>
    cases records with
    | nil => rfl
    | cons r records => cases h
  | cons line lines ih =>
    cases records with
    | nil => cases h
    | cons r records =>
      obtain ⟨hline, hlines⟩ := List.cons.inj h
      obtain ⟨id, hid⟩ := hids line List.mem_cons_self
      have hrest := ih (fun other hother => hids other (List.mem_cons_of_mem _ hother)) hlines
      have hsame : Record.hasKey keyField key r.2 = (listedAs line == key) := by
        rw [Record.hasKey, key_of_catalog hline, listedAs, hid]
        rfl
      rw [List.filter_cons, List.filter_cons, hsame]
      split
      · rw [List.map_cons, List.map_cons, hline, hrest]
      · exact hrest

section
variable {index : Option SecondaryIndex} {records : List (Nat × Record)}

/-- The records that list a station are read in the lines that list it. -/
theorem Survey.map_linesFor (v : Survey a)
    (hrecords : LineSource.recordsFrom catalogLayout a.catalog 0 = records.map .ok) (key : String) :
    (v.linesFor key).map (LineSource.parse catalogLayout) =
      (records.filter fun r => Record.hasKey keyField key r.2).map .ok := by
  rw [LineSource.recordsFrom, List.drop_zero, v.catalog_eq, List.map_map] at hrecords
  exact map_parse_filter v.listed_ok hrecords key

/-- The line that an index notes is read as the last record of its station. -/
theorem Survey.parse_noted (v : Survey a)
    (hrecords : LineSource.recordsFrom catalogLayout a.catalog 0 = records.map .ok) {key : String}
    {line : Nat × String} (hnoted : v.noted? key = some line) :
    ∃ r, LineSource.parse catalogLayout line = .ok r ∧
      (records.filter fun r => Record.hasKey keyField key r.2).getLast? = some r := by
  have hlast : (v.linesFor key).getLast? = some line := by
    rw [noted?] at hnoted
    split at hnoted
    · cases hnoted
    · exact hnoted
  have hparse := congrArg List.getLast? (v.map_linesFor hrecords key)
  rw [List.getLast?_map, List.getLast?_map, hlast, Option.map_some] at hparse
  obtain ⟨r, hr, hline⟩ := Option.map_eq_some_iff.mp hparse.symm
  exact ⟨r, hline.symm, hr⟩

/-- Reading the catalog lines of a station: where there is an index and it notes a line, that line;
else all. -/
theorem readAll_stationLine (v : Survey a)
    (hindex : ∀ ix, index = some ix → ix.entries = v.index.entries)
    (hrecords : LineSource.recordsFrom catalogLayout a.catalog 0 = records.map .ok)
    (hopen : l.isClosed r = false) (hcontent : d.bytes? r.path = some a.catalog) (key : String) :
    ((Access.stationLine d l r index key).bind fun stream => (stream.readAll l).1) =
      .ok (if index.isSome = true ∧ v.recordsOf key ≠ [] then
          ((records.map Prod.snd).filter (Record.hasKey keyField key)).getLast?.toList
        else (records.map Prod.snd).filter (Record.hasKey keyField key)) := by
  have hfilter : (records.map Prod.snd).filter (Record.hasKey keyField key) =
      (records.filter fun r => Record.hasKey keyField key r.2).map Prod.snd := List.filter_map
  by_cases hscan : index.isSome = true → v.noted? key = none
  · obtain ⟨file, hstream⟩ := stationLine_scan v hindex hscan hopen hcontent
    rw [hstream]
    refine (Stream.readAll_scan hopen rfl rfl).trans ?_
    rw [LineSource.toCome_new, hrecords, scanned_ok]
    split
    · rename_i hnoted
      have hnone := hscan hnoted.1
      rw [Survey.noted?, if_neg hnoted.2, List.getLast?_eq_none_iff] at hnone
      have hlines := v.map_linesFor hrecords key
      rw [hnone] at hlines
      rw [hfilter, List.map_eq_nil_iff.mp hlines.symm]
      rfl
    · rfl
  · obtain ⟨hindexed, hnoted⟩ := Classical.not_imp.mp hscan
    obtain ⟨ix, rfl⟩ := Option.isSome_iff_exists.mp hindexed
    obtain ⟨line, hline⟩ := Option.ne_none_iff_exists'.mp hnoted
    obtain ⟨r, hparse, hlast⟩ := v.parse_noted hrecords hline
    obtain ⟨file, hstream⟩ := stationLine_leap v (hindex ix rfl) hline hopen hcontent
    have hdata := v.recordsOf_ne_nil_of_noted hline
    obtain ⟨before, after, hlisted, -, -⟩ := v.exists_noted hline
    have hcatalog := v.catalog_eq
    rw [hlisted, List.map_append, List.map_cons] at hcatalog
    obtain ⟨-, hfrom⟩ := LineSource.recordsFrom_leap catalogLayout hcatalog
    rw [hparse] at hfrom
    rw [hstream, if_pos ⟨hindexed, hdata⟩, hfilter, List.getLast?_map, hlast]
    exact Stream.readAll_keyed hopen rfl [r] rfl hfrom rfl

end

/-- Keyed reading of the catalog. -/
theorem Opening.readKeyed_catalog (o : Opening a path) (v : Survey a) (hlie : a.LieAt d path)
    (hopen : o.dataset.Unclosed l) {records : List (Nat × Record)}
    (hrecords : LineSource.recordsFrom catalogLayout a.catalog 0 = records.map .ok) (key : String) :
    o.dataset.readKeyed d l stations key =
      .ok (if o.dataset.index?.isSome = true ∧ v.recordsOf key ≠ [] then
          ((records.map Prod.snd).filter (Record.hasKey keyField key)).getLast?.toList
        else (records.map Prod.snd).filter (Record.hasKey keyField key)) := by
  obtain ⟨catalog, hunclosed, hcontent, hindex, hkeyed⟩ := o.keyedStream_catalog hlie hopen v key
  rw [Dataset.readKeyed, hkeyed]
  exact readAll_stationLine v hindex hrecords hunclosed hcontent key

theorem toList_getLast?_eq {α : Type} (items : List α) :
    items.getLast?.toList = items ↔ items.length ≤ 1 := by
  cases items using List.reverseRecOn with
  | nil => simp
  | append_singleton items last =>
    rw [List.getLast?_append, List.getLast?_singleton, Option.some_or, List.length_append]
    cases items with
    | nil => simp
    | cons i items => simp

/-- An index changes what is read of a catalog: of a station with data it gives the last line alone.
So the same lines are read with and without it exactly if the station has no data or is listed once
at most. -/
theorem readKeyed_catalog_last (indexed plain : Opening a path)
    (hindexed : indexed.dataset.index?.isSome = true)
    (hplain : plain.dataset.index? = none) (hlie : a.LieAt d path)
    (hopen : indexed.dataset.Unclosed l)
    (hopen' : plain.dataset.Unclosed l) {all : List Record}
    (hall : plain.dataset.readSequence d l stations = .ok all) (key : String) :
    ∃ lines listed, indexed.dataset.readKeyed d l allData key = .ok lines ∧
      listed = all.filter (Record.hasKey keyField key) ∧
      plain.dataset.readKeyed d l stations key = .ok listed ∧
      indexed.dataset.readKeyed d l stations key =
        .ok (if lines = [] then listed else listed.getLast?.toList) ∧
      (indexed.dataset.readKeyed d l stations key = plain.dataset.readKeyed d l stations key ↔
        lines = [] ∨ listed.length ≤ 1) := by
  obtain ⟨v⟩ := indexed.exists_survey hindexed
  obtain ⟨catalog, hunclosed, hcontent, hstream⟩ := plain.stream_catalog hlie hopen'
  rw [readSequence_of_scan hunclosed hcontent hstream] at hall
  obtain ⟨records, hrecords, rfl⟩ := scanned_all hall
  have hlines := indexed.readKeyed_data v hlie hopen allData (by simp) key
  rw [← v.map_recordsOf] at hlines
  have hlast := indexed.readKeyed_catalog v hlie hopen hrecords key
  have hlisted := plain.readKeyed_catalog v hlie hopen' hrecords key
  rw [hplain, if_neg (by simp)] at hlisted
  refine ⟨_, _, hlines, rfl, hlisted, ?_, ?_⟩
  · rw [hlast]
    by_cases hdata : v.recordsOf key = [] <;> simp [hindexed, hdata]
  · rw [hlast, hlisted]
    by_cases hdata : v.recordsOf key = []
    · simp [hdata]
    · rw [if_pos ⟨hindexed, hdata⟩, Except.ok.injEq, toList_getLast?_eq]
      simp [hdata]

theorem listedTwice_reads :
    (listedTwicePlain.dataset.readSequence (diskOf listedTwice) {} stations).toOption.isSome =
      true := by
  decide +kernel

theorem readKeyed_catalog_last_listedTwice :
    ∃ lines listed,
      listedTwiceLoaded.dataset.readKeyed (diskOf listedTwice) {} allData "1" = .ok lines ∧
      listed = (Option.get _ listedTwice_reads).filter (Record.hasKey keyField "1") ∧
      listedTwicePlain.dataset.readKeyed (diskOf listedTwice) {} stations "1" = .ok listed ∧
      listedTwiceLoaded.dataset.readKeyed (diskOf listedTwice) {} stations "1" =
        .ok (if lines = [] then listed else listed.getLast?.toList) ∧
      (listedTwiceLoaded.dataset.readKeyed (diskOf listedTwice) {} stations "1" =
          listedTwicePlain.dataset.readKeyed (diskOf listedTwice) {} stations "1" ↔
        lines = [] ∨ listed.length ≤ 1) :=
  readKeyed_catalog_last listedTwiceLoaded listedTwicePlain
    (listedTwiceLoaded.index_isSome.mpr (by decide)) rfl (lieAt_diskOf _) (fun _ _ => rfl)
    (fun _ _ => rfl) (eq_ok_get listedTwice_reads) "1"

/-- An index is not without effect on what is read of a catalog. -/
theorem readKeyed_catalog_differs :
    ¬ ∀ (a : Contents) (path : String) (indexed plain : Opening a path) (d : Disk) (l : Ledger)
        (all : List Record) (key : String), indexed.dataset.index?.isSome = true →
        plain.dataset.index? = none → a.LieAt d path →
        indexed.dataset.Unclosed l → plain.dataset.Unclosed l →
        plain.dataset.readSequence d l stations = .ok all →
        indexed.dataset.readKeyed d l stations key = plain.dataset.readKeyed d l stations key := by
  intro h
  have hsame := h listedTwice "a.dat" listedTwiceBuilt listedTwicePlain (diskOf listedTwice) {} _ "1"
    (listedTwiceBuilt.index_isSome.mpr (by decide)) rfl (lieAt_diskOf _) (fun _ _ => rfl)
    (fun _ _ => rfl) (eq_ok_get listedTwice_reads)
  have hone : (listedTwiceBuilt.dataset.readKeyed (diskOf listedTwice) {} stations "1").toOption.map
      List.length = some 1 := by decide +kernel
  have htwo : (listedTwicePlain.dataset.readKeyed (diskOf listedTwice) {} stations "1").toOption.map
      List.length = some 2 := by decide +kernel
  rw [hsame, htwo] at hone
  cases hone

end SciArchive.Station
