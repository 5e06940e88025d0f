import SciArchive.Archive.Dataset
import SciArchive.Proofs.IndexCache
import SciArchive.Proofs.StationIndex
import SciArchive.Proofs.Streams

/-! What keyed reading of a station archive gives, with an index and without one. -/
namespace SciArchive

namespace Dataset

/-- All records of a sequence. -/
def readSequence (s : Dataset) (d : Disk) (l : Ledger) (sequence : String) :
    Except Fault (List Record) :=
  (s.stream d l sequence).bind fun stream => (stream.readAll l).1

/-- All records of a sequence that belong to a key. -/
def readKeyed (s : Dataset) (d : Disk) (l : Ledger) (sequence key : String) :
    Except Fault (List Record) :=
  (s.keyedStream d l sequence key).bind fun stream => (stream.readAll l).1

/-- No resource of the dataset was closed. -/
def Unclosed (s : Dataset) (l : Ledger) : Prop := ∀ r ∈ s.resources, l.isClosed r = false

/-- What an opened archive is made of. -/
theorem openStations_ok {d : Disk} {l : Ledger} {path : String} {config : IndexConfig} {s : Dataset}
    {after : Disk × Ledger} (h : openStations d l path config = .ok (s, after)) :
    ∃ data catalog obtained,
      s.access = .stations data catalog (SecondaryIndex.Obtained.index? obtained) ∧
      s.resources = [data, catalog] ∧ s.closed = false ∧
      data.path = (Station.companions path).1 ∧ catalog.path = (Station.companions path).2 ∧
      SecondaryIndex.obtain d (Station.companions path).1 [(Station.companions path).2] config
        (Station.buildIndex d (Station.companions path).1 (Station.companions path).2) =
          (.ok obtained, after.1) := by
  have hpath {l : Ledger} {path : String} {r : Resource × Ledger}
      (h : Resource.openAt d l path = .ok r) : r.1.path = path := by
    rw [Resource.openAt] at h
    cases hentry : Resource.entry d path with
    | error e => simp [hentry, Except.map] at h
    | ok entry =>
      rw [hentry] at h
      cases h
      rfl
  unfold openStations at h
  extract_lets pair at h
  cases hdata : Resource.openAt d l pair.1 with
  | error e => simp only [hdata, reduceCtorEq] at h
  | ok data =>
    cases hcatalog : Resource.openAt d data.2 pair.2 with
    | error e => simp only [hdata, hcatalog, reduceCtorEq] at h
    | ok catalog =>
      simp only [hdata, hcatalog] at h
      split at h
      · cases h
      split at h
      · cases h
      rename_i obtained d' hobtained
      simp only [Except.ok.injEq, Prod.mk.injEq] at h
      obtain ⟨rfl, rfl⟩ := h
      exact ⟨data.1, catalog.1, obtained, rfl, rfl, rfl, hpath hdata, hpath hcatalog, hobtained⟩

end Dataset

namespace Station

/-! ### Openings -/

/-- An index file that can be read holds the index of the archive beside it. -/
def OwnIndex (d : Disk) (path : String) (config : IndexConfig) : Prop :=
  ∀ bytes ix, d.bytes? (config.indexPath (companions path).1) = some bytes →
    SecondaryIndex.ofBytes bytes = .ok ix →
    ∃ fresh, buildIndex d (companions path).1 (companions path).2 = .ok fresh ∧ bytes = fresh.toBytes

/-- An opening of an archive, with the disk and the ledger before and behind it. -/
structure Opening (a : Contents) (path : String) where
  disk : Disk
  ledger : Ledger
  config : IndexConfig
  dataset : Dataset
  after : Disk × Ledger
  lie : a.LieAt disk path
  own : OwnIndex disk path config
  opened : Dataset.openStations disk ledger path config = .ok (dataset, after)

variable {a : Contents} {path : String}

theorem eq_ok_get {α : Type} {x : Except Fault α} (h : x.toOption.isSome = true) :
    x = .ok (x.toOption.get h) := by
  cases x with
  | error e => cases h
  | ok y => rfl

/-- An opening with a new ledger. -/
def Opening.ofOk {d : Disk} (config : IndexConfig) (lie : a.LieAt d path)
    (own : OwnIndex d path config)
    (h : (Dataset.openStations d {} path config).toOption.isSome = true) : Opening a path :=
  let ofResult (result : Dataset × Disk × Ledger)
      (opened : Dataset.openStations d {} path config = .ok result) : Opening a path :=
    { disk := d, ledger := {}, config, dataset := result.1, after := result.2, lie, own, opened }
  ofResult _ (eq_ok_get h)

/-- Without an index file there is none of another archive. -/
theorem ownIndex_of_none {d : Disk} {config : IndexConfig}
    (h : d.bytes? (config.indexPath (companions path).1) = none) : OwnIndex d path config := by
  intro bytes ix hbytes
  rw [h] at hbytes
  cases hbytes

/-- An opening that does not write over the archive leaves its own index, or what was there. -/
theorem Opening.ownIndex_after (o : Opening a path) (hlie : a.LieAt o.after.1 path) :
    OwnIndex o.after.1 path o.config := by
  obtain ⟨data, catalog, obtained, -, -, -, -, -, hobtained⟩ := Dataset.openStations_ok o.opened
  have hheld := SecondaryIndex.bytes?_obtain o.disk (companions path).1 [(companions path).2] o.config
    (buildIndex o.disk (companions path).1 (companions path).2)
  rw [hobtained] at hheld
  intro bytes ix hbytes hix
  rw [hlie.buildIndex_congr o.lie]
  rcases hheld with hkept | ⟨fresh, hfresh, hwritten⟩
  · exact o.own bytes ix (hkept.symm.trans hbytes) hix
  · exact ⟨fresh, hfresh, Option.some.inj (hbytes.symm.trans hwritten)⟩

/-- The dataset of an opening has the two files of the archive, and an index, if it has one, with
the entries that a survey of the archive gives. -/
theorem Opening.access_eq (o : Opening a path) :
    ∃ data catalog index, o.dataset.access = .stations data catalog index ∧
      o.dataset.resources = [data, catalog] ∧ o.dataset.closed = false ∧
      data.path = (companions path).1 ∧ catalog.path = (companions path).2 ∧
      ∀ ix, index = some ix → ∃ v : Survey a, ix.entries = v.index.entries := by
  obtain ⟨data, catalog, obtained, haccess, hresources, hclosed, hdata, hcatalog, hobtained⟩ :=
    Dataset.openStations_ok o.opened
  refine ⟨data, catalog, obtained.index?, haccess, hresources, hclosed, hdata, hcatalog,
    fun ix hix => ?_⟩
  rcases SecondaryIndex.obtain_ok (congrArg Prod.fst hobtained) with
    ⟨-, hnone⟩ | ⟨-, found, hfound, hfrom⟩
  · rw [hnone] at hix
    cases hix
  · rw [hfound] at hix
    cases hix
    rcases hfrom with hbuilt | ⟨bytes, hbytes, hread⟩
    · obtain ⟨v, rfl⟩ := o.lie.survey hbuilt
      exact ⟨v, rfl⟩
    · obtain ⟨fresh, hfresh, rfl⟩ := o.own bytes ix hbytes hread
      obtain ⟨v, rfl⟩ := o.lie.survey hfresh
      rw [SecondaryIndex.ofBytes_toBytes v.storable] at hread
      cases hread
      exact ⟨v, rfl⟩

/-- There is an index unless none is wanted. -/
theorem Opening.index_isSome (o : Opening a path) :
    o.dataset.index?.isSome = true ↔ o.config.policy ≠ .disabled := by
  obtain ⟨data, catalog, obtained, haccess, -, -, -, -, hobtained⟩ := Dataset.openStations_ok o.opened
  have hindex : o.dataset.index? = obtained.index? := by rw [Dataset.index?, haccess]; rfl
  rw [hindex]
  rcases SecondaryIndex.obtain_ok (congrArg Prod.fst hobtained) with
    ⟨hpolicy, hnone⟩ | ⟨hpolicy, ix, hix, -⟩
  · simp [hpolicy, hnone]
  · simp [hpolicy, hix]

/-- An archive that was opened with an index can be surveyed. -/
theorem Opening.exists_survey (o : Opening a path) (h : o.dataset.index?.isSome = true) :
    Nonempty (Survey a) := by
  obtain ⟨data, catalog, index, haccess, -, -, -, -, hindex⟩ := o.access_eq
  rw [Dataset.index?, haccess] at h
  obtain ⟨ix, hix⟩ := Option.isSome_iff_exists.mp h
  obtain ⟨v, -⟩ := hindex ix hix
  exact ⟨v⟩

/-! ### Streams of one station -/

section
variable (v : Survey a) {d : Disk} {l : Ledger} {r : Resource} {index : Option SecondaryIndex}

/-- A stream of the records that `keep` accepts in a file, or of `mine`, which come one after the
other from an offset on. -/
inductive Serves (r : Resource) (layout : TextLayout) (content : List UInt8) (keep : Record → Bool)
    (mine : List (Nat × Record)) : Stream → Prop where
  | scan (file : Option Nat) :
      Serves r layout content keep mine
        { resource := r, file, feed := .scan (.lines (.new content layout)) keep }
  | leap (file : Option Nat) (offset : Nat) (after : List (Nat × Record))
      (h : LineSource.recordsFrom layout content offset = (mine ++ after).map .ok) :
      Serves r layout content keep mine
        { resource := r, file
          feed := .keyed (.lines ((LineSource.new content layout).seek offset)) offset mine.length }

/-- The data lines of a station, by scan or by leap. -/
theorem stationData_serves (hindex : ∀ ix, index = some ix → ix.entries = v.index.entries)
    (hopen : l.isClosed r = false) (hcontent : d.bytes? r.path = some a.data) (key : String) :
    ∃ stream, Access.stationData d l r index key = .ok stream ∧
      Serves r dataLayout a.data (Record.hasKey keyField key) (v.recordsOf key) stream := by
  have hscan : ∃ stream, Access.scanFor d l r dataLayout key = .ok stream ∧
      Serves r dataLayout a.data (Record.hasKey keyField key) (v.recordsOf key) stream := by
    obtain ⟨file, hstream⟩ := Stream.scan_file dataLayout (Record.hasKey keyField key) hopen hcontent
    exact ⟨_, hstream, .scan file⟩
  cases index with
  | none => exact hscan
  | some ix =>
    simp only [Access.stationData, SecondaryIndex.get?_of_entries (hindex ix rfl)]
    by_cases hmine : v.recordsOf key = []
    · obtain ⟨file, hstream⟩ := Stream.keyed_file dataLayout 0 hopen hcontent (Nat.zero_le _)
      rw [v.get?_index_none hmine, hmine]
      have hserves : Serves r dataLayout a.data (Record.hasKey keyField key) [] _ :=
        .leap file 0 v.records v.data_eq
      exact ⟨_, hstream, hserves⟩
    · obtain ⟨e, he, -, hleap⟩ := v.get?_index_some hmine
      rw [he]
      by_cases hcontiguous : e.contiguous = true
      · obtain ⟨before, first, mine, after, hrecords, hfilter, hoffset, hcount⟩ := hleap hcontiguous
        have hfirst : first ∈ v.records := by rw [hrecords]; simp
        have hlength : mine.length + 1 < UInt64.size := by
          refine Nat.lt_of_le_of_lt ?_ v.length_records_lt
          rw [← List.length_cons, ← hfilter]
          exact List.length_filter_le _ _
        obtain ⟨hlt, hfrom⟩ := LineSource.recordsFrom_record (hrecords ▸ v.data_eq)
        obtain ⟨file, hstream⟩ := Stream.keyed_file dataLayout (mine.length + 1) hopen hcontent hlt.le
        simp only [hcontiguous, if_true, hoffset, hcount, Varint.toNat_ofNat_word hlength,
          Varint.toNat_ofNat_word (v.offset_lt hfirst), hfilter]
        have hserves : Serves r dataLayout a.data (Record.hasKey keyField key) (first :: mine) _ :=
          .leap file first.1 after hfrom
        exact ⟨_, hstream, hserves⟩
      · simp only [hcontiguous]
        exact hscan

/-- Where nothing is noted, the catalog is scanned for a station. -/
theorem stationLine_scan {key : String}
    (hindex : ∀ ix, index = some ix → ix.entries = v.index.entries)
    (hnone : index.isSome = true → v.noted? key = none) (hopen : l.isClosed r = false)
    (hcontent : d.bytes? r.path = some a.catalog) :
    ∃ file, Access.stationLine d l r index key = .ok
      { resource := r, file
        feed := .scan (.lines (.new a.catalog catalogLayout)) (Record.hasKey keyField key) } := by
  have hoffset : (index.bind fun ix => ix.get? key).bind IndexEntry.catalogOffset = none := by
    cases index with
    | none => rfl
    | some ix =>
      rw [Option.bind_some, SecondaryIndex.get?_of_entries (hindex ix rfl), v.catalogOffset_index,
        hnone rfl]
      rfl
  simp only [Access.stationLine, hoffset]
  exact Stream.scan_file catalogLayout (Record.hasKey keyField key) hopen hcontent

/-- Where a line is noted, an index leads to it. -/
theorem stationLine_leap {key : String} {line : Nat × String} {ix : SecondaryIndex}
    (hindex : ix.entries = v.index.entries) (hnoted : v.noted? key = some line)
    (hopen : l.isClosed r = false) (hcontent : d.bytes? r.path = some a.catalog) :
    ∃ file, Access.stationLine d l r (some ix) key = .ok
      { resource := r, file
        feed :=
          .keyed (.lines ((LineSource.new a.catalog catalogLayout).seek line.1)) line.1 1 } := by
  obtain ⟨before, after, hlisted, -, -⟩ := v.exists_noted hnoted
  have hcatalog := v.catalog_eq
  rw [hlisted, List.map_append, List.map_cons] at hcatalog
  obtain ⟨hlt, -⟩ := LineSource.recordsFrom_leap catalogLayout hcatalog
  have hoffset : ((some ix).bind fun ix => ix.get? key).bind IndexEntry.catalogOffset =
      some (UInt64.ofNat line.1) := by
    rw [Option.bind_some, SecondaryIndex.get?_of_entries hindex, v.catalogOffset_index, hnoted]
    rfl
  simp only [Access.stationLine, hoffset, Varint.toNat_ofNat_word (Nat.lt_trans hlt a.catalog_lt)]
  exact Stream.keyed_file catalogLayout 1 hopen hcontent hlt.le

end

/-! ### Streams of an opening -/

section
variable {d : Disk} {l : Ledger} (o : Opening a path) (hlie : a.LieAt d path)
  (hopen : o.dataset.Unclosed l)
include hlie hopen

/-- Where the archive still lies on the disk and nothing was closed, an opening can read both files,
and its index has the entries of any survey. -/
theorem Opening.access_open :
    ∃ data catalog index, o.dataset.access = .stations data catalog index ∧
      o.dataset.closed = false ∧
      l.isClosed data = false ∧ d.bytes? data.path = some a.data ∧
      l.isClosed catalog = false ∧ d.bytes? catalog.path = some a.catalog ∧
      ∀ (v : Survey a) (ix : SecondaryIndex), index = some ix → ix.entries = v.index.entries := by
  obtain ⟨data, catalog, index, haccess, hresources, hclosed, hdata, hcatalog, hindex⟩ := o.access_eq
  refine ⟨data, catalog, index, haccess, hclosed, ?_, ?_, ?_, ?_, fun v ix hix => ?_⟩
  · exact hopen data (by simp [hresources])
  · rw [hdata]
    exact hlie.data
  · exact hopen catalog (by simp [hresources])
  · rw [hcatalog]
    exact hlie.catalog
  · obtain ⟨w, hw⟩ := hindex ix hix
    rw [hw, v.eq_of_contents w]

/-- The keyed stream of data lines. -/
theorem Opening.keyedStream_data (v : Survey a) {sequence : String}
    (hsequence : sequence ∈ [stationData, nestedData, allData]) (key : String) :
    ∃ data stream, l.isClosed data = false ∧ o.dataset.keyedStream d l sequence key = .ok stream ∧
      Serves data dataLayout a.data (Record.hasKey keyField key) (v.recordsOf key) stream := by
  obtain ⟨data, catalog, index, haccess, hclosed, hunclosed, hcontent, -, -, hindex⟩ :=
    o.access_open hlie hopen
  obtain ⟨stream, hstream, hserves⟩ := stationData_serves v (hindex v) hunclosed hcontent key
  refine ⟨data, stream, hunclosed, ?_, hserves⟩
  have hsequence : sequence = stationData ∨ sequence = nestedData ∨ sequence = allData := by
    simpa using hsequence
  rw [Dataset.keyedStream, Dataset.whenOpen, hclosed, haccess, if_neg Bool.false_ne_true, ← hstream]
  exact if_pos hsequence

/-- The keyed stream of catalog lines. -/
theorem Opening.keyedStream_catalog (v : Survey a) (key : String) :
    ∃ catalog, l.isClosed catalog = false ∧ d.bytes? catalog.path = some a.catalog ∧
      (∀ ix, o.dataset.index? = some ix → ix.entries = v.index.entries) ∧
      o.dataset.keyedStream d l stations key =
        Access.stationLine d l catalog o.dataset.index? key := by
  obtain ⟨data, catalog, index, haccess, hclosed, -, -, hunclosed, hcontent, hindex⟩ :=
    o.access_open hlie hopen
  have hsome : o.dataset.index? = index := by rw [Dataset.index?, haccess]; rfl
  have hdata : ¬ (stations = stationData ∨ stations = nestedData ∨ stations = allData) := by decide
  rw [hsome]
  refine ⟨catalog, hunclosed, hcontent, hindex v, ?_⟩
  simp only [Dataset.keyedStream, Dataset.whenOpen, hclosed, haccess, Bool.false_eq_true, if_false,
    Access.keyedStream, hdata, if_true]

/-- The stream of all data lines. -/
theorem Opening.stream_data :
    ∃ data, l.isClosed data = false ∧ d.bytes? data.path = some a.data ∧
      o.dataset.stream d l allData = Stream.scan d l data (.text dataLayout) fun _ => true := by
  obtain ⟨data, catalog, index, haccess, hclosed, hunclosed, hcontent, -, -, -⟩ :=
    o.access_open hlie hopen
  refine ⟨data, hunclosed, hcontent, ?_⟩
  simp only [Dataset.stream, Dataset.whenOpen, hclosed, haccess, Bool.false_eq_true, if_false,
    Access.stream, if_true]

/-- The stream of the whole catalog. -/
theorem Opening.stream_catalog :
    ∃ catalog, l.isClosed catalog = false ∧ d.bytes? catalog.path = some a.catalog ∧
      o.dataset.stream d l stations = Stream.scan d l catalog (.text catalogLayout) fun _ => true := by
  obtain ⟨data, catalog, index, haccess, hclosed, -, -, hunclosed, hcontent, -⟩ :=
    o.access_open hlie hopen
  have hdata : ¬ stations = allData := by decide
  refine ⟨catalog, hunclosed, hcontent, ?_⟩
  simp only [Dataset.stream, Dataset.whenOpen, hclosed, haccess, Bool.false_eq_true, if_false,
    Access.stream, hdata, if_true]

end

end Station
end SciArchive
