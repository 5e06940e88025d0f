import SciArchive.Proofs.Disk
import SciArchive.Proofs.IndexCache
import SciArchive.Proofs.IndexScan
import SciArchive.Proofs.StationLines

/-! The index of a station archive in terms of the lines of its two files. -/
namespace SciArchive.Station

open IndexBuilder (Event)

/-! ### Archives -/

/-- The contents of a data file and its catalog. The size of a file is a word. -/
structure Contents where
  data : List UInt8
  catalog : List UInt8
  data_lt : data.length < UInt64.size
  catalog_lt : catalog.length < UInt64.size

/-- The contents lie in the two files that a path stands for. -/
structure Contents.LieAt (a : Contents) (d : Disk) (path : String) : Prop where
  data : d.bytes? (companions path).1 = some a.data
  catalog : d.bytes? (companions path).2 = some a.catalog

/-- The station of a record. -/
def stationOf (r : Nat × Record) : String := IndexBuilder.textOf (r.2.key keyField)

/-- The station of a line of the catalog. -/
def listedAs (line : Nat × String) : String := IndexBuilder.textOf (idOf line.2)

/-- What a build of the index meets: data lines that can all be read, then lines of the catalog of
which the id can be read. -/
structure Survey (a : Contents) where
  records : List (Nat × Record)
  listed : List (Nat × String)
  data_eq : LineSource.recordsFrom dataLayout a.data 0 = records.map .ok
  records_ok : ∀ r ∈ records, ∃ id, r.2.key keyField = .ok id
  catalog_eq : LineSource.linesOf 0 a.catalog = listed.map .ok
  listed_ok : ∀ line ∈ listed, ∃ id, idOf line.2 = .ok id

namespace Survey

variable {a : Contents} (v : Survey a)

/-- The history of the builder. -/
def events : List Event :=
  v.records.map (fun r => .observe (stationOf r) (UInt64.ofNat r.1)) ++
    v.listed.map (fun line => .annotate (listedAs line) (UInt64.ofNat line.1))

def index : SecondaryIndex := (IndexBuilder.run v.events).finish

/-- The data lines of a station. -/
def recordsOf (key : String) : List (Nat × Record) := v.records.filter fun r => stationOf r == key

/-- The lines of the catalog that list a station. -/
def linesFor (key : String) : List (Nat × String) := v.listed.filter fun line => listedAs line == key

theorem records_unique {records : List (Nat × Record)}
    (h : LineSource.recordsFrom dataLayout a.data 0 = records.map .ok) : v.records = records :=
  Function.Injective.list_map (fun _ _ h => Except.ok.inj h) (v.data_eq.symm.trans h)

theorem listed_unique {lines : List (Nat × String)}
    (h : LineSource.linesOf 0 a.catalog = lines.map .ok) :
    v.listed = lines :=
  Function.Injective.list_map (fun _ _ h => Except.ok.inj h) (v.catalog_eq.symm.trans h)

/-- The contents alone decide what is met. -/
theorem eq_of_contents (v w : Survey a) : v = w := by
  have hrecords := v.records_unique w.data_eq
  have hlisted := v.listed_unique w.catalog_eq
  cases v
  cases w
  cases hrecords
  cases hlisted
  rfl

theorem offset_lt {r : Nat × Record} (h : r ∈ v.records) : r.1 < UInt64.size := by
  obtain ⟨before, after, hrecords⟩ := List.append_of_mem h
  have hlt := (LineSource.recordsFrom_record (hrecords ▸ v.data_eq)).1
  exact Nat.lt_trans hlt a.data_lt

theorem length_records_lt : v.records.length < UInt64.size := by
  have hle := LineSource.length_recordsFrom_le dataLayout a.data
  rw [v.data_eq, List.length_map] at hle
  exact Nat.lt_of_le_of_lt hle a.data_lt

theorem hasKey_eq {key : String} {r : Nat × Record} (h : r ∈ v.records) :
    Record.hasKey keyField key r.2 = (stationOf r == key) := by
  obtain ⟨id, hid⟩ := v.records_ok r h
  rw [Record.hasKey, stationOf, hid]
  rfl

theorem length_stationOf_le {r : Nat × Record} (h : r ∈ v.records) :
    (Utf8.ofString (stationOf r)).length ≤ 80 := by
  obtain ⟨id, hid⟩ := v.records_ok r h
  obtain ⟨lines, -, hlines⟩ := LineSource.exists_lines v.data_eq
  have hr : Except.ok r ∈ lines.map (LineSource.parse dataLayout) := hlines ▸ List.mem_map_of_mem h
  obtain ⟨line, -, hline⟩ := List.mem_map.mp hr
  rw [stationOf, hid]
  exact length_id_le ((key_of_data hline).symm.trans hid)

/-! ### What the index tells -/

@[simp] theorem observations_events :
    IndexBuilder.observations v.events = v.records.map fun r => (stationOf r, UInt64.ofNat r.1) := by
  have hnone : (v.listed.map fun line => Event.annotate (listedAs line)
      (UInt64.ofNat line.1)).filterMap Event.observation? = [] := by
    rw [List.filterMap_map]
    exact List.filterMap_eq_nil_iff.mpr fun line _ => rfl
  rw [events, IndexBuilder.observations, List.filterMap_append, hnone, List.append_nil,
    List.filterMap_map]
  exact congrFun List.filterMap_eq_map v.records

@[simp] theorem keysMet_events : IndexBuilder.keysMet v.events = v.records.map stationOf := by
  rw [IndexBuilder.keysMet, observations_events, List.map_map]
  rfl

theorem recordsOf_eq_nil {key : String} : v.recordsOf key = [] ↔ key ∉ v.records.map stationOf := by
  simp [recordsOf, List.filter_eq_nil_iff]

/-- The notes for a station come from the lines that list it. -/
theorem notes_listed (listed : List (Nat × String)) (key : String) :
    (listed.map fun line => Event.annotate (listedAs line) (UInt64.ofNat line.1)).filterMap
        (Event.note? key) =
      (listed.filter fun line => listedAs line == key).map fun line => UInt64.ofNat line.1 := by
  induction listed with
  | nil => rfl
  | cons line listed ih =>
    rw [List.map_cons, List.filterMap_cons, List.filter_cons, ih]
    by_cases hkey : listedAs line = key <;> simp [Event.note?, hkey]

/-- The last line that lists a station is noted, if there is data of the station. -/
theorem lastNote?_events {key : String} (h : key ∈ v.records.map stationOf) :
    IndexBuilder.lastNote? key v.events =
      (v.linesFor key).getLast?.map fun line => UInt64.ofNat line.1 := by
  let met := v.records.map fun r => Event.observe (stationOf r) (UInt64.ofNat r.1)
  have hdrop : met.dropWhile (fun e => !e.observes key) ≠ [] := by
    obtain ⟨r, hr, hkey⟩ := List.mem_map.mp h
    intro hnil
    have := List.dropWhile_eq_nil_iff.mp hnil _ (List.mem_map_of_mem hr)
    simp [Event.observes, hkey] at this
  have hmet : (met.dropWhile fun e => !e.observes key).filterMap (Event.note? key) = [] := by
    refine List.filterMap_eq_nil_iff.mpr fun e he => ?_
    obtain ⟨r, -, rfl⟩ := List.mem_map.mp ((List.dropWhile_sublist _).subset he)
    rfl
  rw [IndexBuilder.lastNote?, events, List.dropWhile_append, List.isEmpty_eq_false_iff.mpr hdrop,
    if_neg Bool.false_ne_true, List.filterMap_append, hmet, List.nil_append, notes_listed,
    List.getLast?_map, linesFor]

/-- The index has no entry of a station without data. -/
theorem get?_index_none {key : String} (h : v.recordsOf key = []) : v.index.get? key = none := by
  rw [index, IndexBuilder.get?_run, keysMet_events, if_neg (v.recordsOf_eq_nil.mp h)]

/-- The entry of a station with data. -/
theorem get?_index_some {key : String} (h : v.recordsOf key ≠ []) :
    ∃ e, v.index.get? key = some e ∧
      e.catalogOffset = ((v.linesFor key).getLast?.map fun line => UInt64.ofNat line.1) ∧
      (e.contiguous = true → ∃ before first mine after,
        v.records = before ++ first :: (mine ++ after) ∧ v.recordsOf key = first :: mine ∧
        e.offset = UInt64.ofNat first.1 ∧ e.count = UInt64.ofNat (mine.length + 1)) := by
  have hmet : key ∈ v.records.map stationOf := by simpa using mt v.recordsOf_eq_nil.mpr h
  refine ⟨IndexBuilder.summary v.events key, ?_, v.lastNote?_events hmet, fun hadjacent => ?_⟩
  · rw [index, IndexBuilder.get?_run, keysMet_events, if_pos hmet]
  have hadjacent : IndexBuilder.adjacent key (v.records.map stationOf) = true := by
    rw [← keysMet_events]
    exact hadjacent
  obtain ⟨before, first, mine, after, hrecords, hbefore, hmine, hafter⟩ :=
    IndexBuilder.exists_stretch hmet hadjacent
  have hfilter : v.recordsOf key = first :: mine := by
    have hnone : before.filter (stationOf · == key) = [] :=
      List.filter_eq_nil_iff.mpr fun r hr => by simpa using hbefore r hr
    have hall : (first :: mine).filter (stationOf · == key) = first :: mine :=
      List.filter_eq_self.mpr fun r hr => by simpa using hmine r hr
    have hrest : after.filter (stationOf · == key) = [] :=
      List.filter_eq_nil_iff.mpr fun r hr => by simpa using hafter r hr
    rw [recordsOf, hrecords, List.filter_append, List.filter_append, hnone, hall, hrest,
      List.nil_append, List.append_nil]
  refine ⟨before, first, mine, after, ?_, hfilter, ?_, ?_⟩
  · rw [hrecords, List.append_assoc]
    rfl
  · have hlookup : (IndexBuilder.observations v.events).lookup key = some (UInt64.ofNat first.1) := by
      have hnone : (before.map fun r => (stationOf r, UInt64.ofNat r.1)).lookup key = none := by
        refine List.lookup_eq_none_iff.mpr fun o ho => ?_
        obtain ⟨r, hr, rfl⟩ := List.mem_map.mp ho
        exact bne_iff_ne.mpr (hbefore r hr).symm
      rw [observations_events, hrecords, List.append_assoc, List.map_append, List.lookup_append,
        hnone]
      simp [hmine first List.mem_cons_self]
    rw [IndexBuilder.summary, hlookup]
    rfl
  · have hcount : (IndexBuilder.keysMet v.events).count key = mine.length + 1 := by
      rw [keysMet_events, List.count, List.countP_map, List.countP_eq_length_filter]
      exact congrArg List.length hfilter
    rw [IndexBuilder.summary, hcount]

/-- The line of the catalog that the index notes for a station: the last one that lists it, if there
is data. -/
def noted? (key : String) : Option (Nat × String) :=
  if v.recordsOf key = [] then none else (v.linesFor key).getLast?

theorem catalogOffset_index (key : String) :
    (v.index.get? key).bind IndexEntry.catalogOffset =
      (v.noted? key).map fun line => UInt64.ofNat line.1 := by
  by_cases hdata : v.recordsOf key = []
  · rw [v.get?_index_none hdata, noted?, if_pos hdata]
    rfl
  · obtain ⟨e, he, hoffset, -⟩ := v.get?_index_some hdata
    rw [he, noted?, if_neg hdata]
    exact hoffset

/-- A noted line is among the lines of the catalog, and none behind it lists the station. -/
theorem exists_noted {key : String} {line : Nat × String} (h : v.noted? key = some line) :
    ∃ before after, v.listed = before ++ line :: after ∧ listedAs line = key ∧
      ∀ other ∈ after, listedAs other ≠ key := by
  rw [noted?] at h
  split at h
  · cases h
  rw [linesFor, List.getLast?_eq_head?_reverse, ← List.filter_reverse, List.head?_filter,
    List.find?_eq_some_iff_append] at h
  obtain ⟨hkey, after, before, hreverse, hafter⟩ := h
  refine ⟨before.reverse, after.reverse, ?_, beq_iff_eq.mp hkey, fun other hother => ?_⟩
  · rw [← List.reverse_reverse v.listed, hreverse]
    simp
  · simpa using hafter other (List.mem_reverse.mp hother)

/-- The last line of the catalog that lists a station with data is noted. -/
theorem noted?_of_last {key : String} {line : Nat × String} {before after : List (Nat × String)}
    (hlisted : v.listed = before ++ line :: after) (hkey : listedAs line = key)
    (hafter : ∀ other ∈ after, listedAs other ≠ key) (hdata : v.recordsOf key ≠ []) :
    v.noted? key = some line := by
  have hnone : after.filter (fun other => listedAs other == key) = [] :=
    List.filter_eq_nil_iff.mpr fun other hother => by simpa using hafter other hother
  rw [noted?, if_neg hdata, linesFor, hlisted, List.filter_append,
    List.filter_cons_of_pos (by simpa using hkey), hnone, List.getLast?_append,
    List.getLast?_singleton, Option.some_or]

theorem recordsOf_ne_nil_of_noted {key : String} {line : Nat × String}
    (h : v.noted? key = some line) :
    v.recordsOf key ≠ [] := by
  intro hnil
  rw [noted?, if_pos hnil] at h
  cases h

/-- The index can be written and read back. -/
theorem storable : v.index.Storable := by
  refine IndexBuilder.storable_run ?_ fun key hkey => ?_
  · rw [keysMet_events, List.length_map]
    exact v.length_records_lt
  · rw [keysMet_events] at hkey
    obtain ⟨r, hr, rfl⟩ := List.mem_map.mp hkey
    exact Nat.lt_of_le_of_lt (Nat.add_le_add_right (v.length_stationOf_le hr) 100) (by decide)

end Survey

/-- What is built depends on the contents alone. -/
theorem Contents.LieAt.buildIndex_congr {a : Contents} {d d' : Disk} {path : String}
    (h : a.LieAt d path)
    (h' : a.LieAt d' path) :
    buildIndex d (companions path).1 (companions path).2 =
      buildIndex d' (companions path).1 (companions path).2 := by
  simp only [buildIndex, IndexBuilder.ofFile, Disk.read_of_bytes h.data, Disk.read_of_bytes h.catalog,
    Disk.read_of_bytes h'.data, Disk.read_of_bytes h'.catalog]

/-- An index that is built has met the lines of the archive. -/
theorem Contents.LieAt.survey {a : Contents} {d : Disk} {path : String} {ix : SecondaryIndex}
    (h : a.LieAt d path) (hbuild : buildIndex d (companions path).1 (companions path).2 = .ok ix) :
    ∃ v : Survey a, ix = v.index := by
  rw [buildIndex, IndexBuilder.ofFile, Disk.read_of_bytes h.data,
    Disk.read_of_bytes h.catalog] at hbuild
  simp only at hbuild
  cases hscan : IndexBuilder.scan (Record.key keyField) {} (.lines (.new a.data dataLayout)) with
  | mk answer b =>
    cases answer with
    | error e => simp [hscan] at hbuild
    | ok n =>
      simp only [hscan] at hbuild
      obtain ⟨records, hrecords, hkeys, hb⟩ := IndexBuilder.scanFrom_ok hscan
      cases hnotes : b.annotateFrom keyField (.new a.catalog catalogLayout) with
      | error e => simp [hnotes, Except.map] at hbuild
      | ok b' =>
        simp only [hnotes, Except.map, Except.ok.injEq] at hbuild
        obtain ⟨listed, hlisted, hids, hb'⟩ := IndexBuilder.annotateFrom_ok hnotes
        refine ⟨⟨records, listed, hrecords, hkeys, hlisted, fun line hline => ?_⟩, ?_⟩
        · obtain ⟨id, hid⟩ := hids line hline
          refine ⟨id.render, ?_⟩
          rw [idOf, ← readField_catalog]
          exact congrArg (Except.map Value.render) hid
        · have hline : (fun line => Event.annotate (listedAs line) (UInt64.ofNat line.1)) =
              IndexBuilder.noting catalogLayout keyField := by
            funext line
            rw [IndexBuilder.noting, readField_catalog]
            rfl
          rw [← hbuild, hb', hb, Survey.index, Survey.events, IndexBuilder.run, List.foldl_append,
            hline]
          rfl

end SciArchive.Station
