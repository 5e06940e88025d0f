import SciArchive.Proofs.KeyedReading
import SciArchive.Proofs.StreamCalls

/-! Runs of calls on the stream of one station, failures included: whose records they return. -/
namespace SciArchive.Station

variable {a : Contents} {path : String} {d : Disk} {l : Ledger} {r : Resource}

/-! ### Data lines -/

theorem key_of_hasKey {key : String} {r : Record} (h : Record.hasKey keyField key r = true) :
    r.key keyField = .ok key := by
  rw [Record.hasKey] at h
  cases hkey : r.key keyField with
  | error e => simp [hkey] at h
  | ok found => simpa [hkey] using h

/-- A stream of the records of a station returns nothing else. -/
theorem Serves.served {layout : TextLayout} {content : List UInt8} {keep : Record → Bool}
    {mine : List (Nat × Record)} {stream : Stream} (h : Serves r layout content keep mine stream)
    (hmine : ∀ r ∈ mine, keep r.2 = true) (calls : List (Ledger × Stream.Call)) :
    ∀ r ∈ stream.served calls, keep r = true := by
  cases h with
  | scan file => exact Stream.served_scan rfl rfl calls
  | leap file offset after hfrom =>
    intro r hr
    have hfirst := Stream.served_keyed rfl rfl rfl calls r hr
    rw [hfrom, readable_ok, List.map_append, List.take_append_of_le_length (by simp),
      List.take_of_length_le (by simp)] at hfirst
    obtain ⟨found, hfound, rfl⟩ := List.mem_map.mp hfirst
    exact hmine found hfound

/-! ### Catalog lines -/

/-- The last line that lists a station cannot be read, but a line behind it can. -/
def Contents.Strays (a : Contents) (key : String) : Prop :=
  ∃ before line after other, LineSource.linesOf 0 a.catalog = (before ++ line :: after).map .ok ∧
    listedAs line = key ∧ (∀ other ∈ after, listedAs other ≠ key) ∧
    (∃ e, LineSource.parse catalogLayout line = .error e) ∧
    other ∈ after ∧ ∃ r, LineSource.parse catalogLayout other = .ok r

/-- What is readable was read in a line. -/
theorem mem_readable {layout : TextLayout} {lines : List (Nat × String)} {r : Record}
    (h : r ∈ readable (lines.map (LineSource.parse layout))) :
    ∃ line ∈ lines, ∃ found, LineSource.parse layout line = .ok found ∧ found.2 = r := by
  obtain ⟨o, ho, hr⟩ := List.mem_filterMap.mp h
  obtain ⟨line, hline, rfl⟩ := List.mem_map.mp ho
  cases hparse : LineSource.parse layout line with
  | error e => simp [hparse, Except.toOption] at hr
  | ok found => exact ⟨line, hline, found, hparse, by simpa [hparse, Except.toOption] using hr⟩

/-- The records from the offset of a line of the catalog on. -/
theorem recordsFrom_listed {before after : List (Nat × String)} {line : Nat × String}
    (h : LineSource.linesOf 0 a.catalog = (before ++ line :: after).map .ok) :
    LineSource.recordsFrom catalogLayout a.catalog line.1 =
      LineSource.parse catalogLayout line :: after.map (LineSource.parse catalogLayout) := by
  rw [List.map_append, List.map_cons] at h
  obtain ⟨-, hfrom⟩ := LineSource.recordsFrom_leap catalogLayout h
  rw [hfrom, List.map_map]
  rfl

section
variable (v : Survey a) {key : String} {line : Nat × String} (hnoted : v.noted? key = some line)
  {stream : Stream}
  (hfeed : stream.feed =
    .keyed (.lines ((LineSource.new a.catalog catalogLayout).seek line.1)) line.1 1)
  (hpending : stream.pending = none) (htaken : stream.taken = 0)
include hnoted hfeed hpending htaken

/-- If the noted line cannot be read but one behind it can, the run that passes over the failures
between them returns a record of another station. -/
theorem exists_served_stray (hopen : l.isClosed stream.resource = false) (h : a.Strays key) :
    ∃ calls, ∃ r ∈ stream.served calls, r.key keyField ≠ .ok key := by
  obtain ⟨before, last, after, other, hcatalog, hkey, hafter, ⟨e, he⟩, hother, found, hfound⟩ := h
  have hdata := v.recordsOf_ne_nil_of_noted hnoted
  rw [v.noted?_of_last (v.listed_unique hcatalog) hkey hafter hdata] at hnoted
  obtain rfl := Option.some.inj hnoted
  have hfrom := recordsFrom_listed hcatalog
  rw [he] at hfrom
  obtain ⟨calls, hcalls⟩ := Stream.exists_served_keyed hopen hfeed hpending
  rw [htaken, LineSource.toCome_seek] at hcalls
  have hreadable : found.2 ∈ readable (after.map (LineSource.parse catalogLayout)) :=
    List.mem_filterMap.mpr ⟨_, List.mem_map_of_mem hother, by rw [hfound]; rfl⟩
  obtain ⟨r, rest, hbehind⟩ := List.exists_cons_of_ne_nil (List.ne_nil_of_mem hreadable)
  have hserved : stream.served calls = [r] := by
    rw [hcalls]
    refine (congrArg (fun outcomes => (readable outcomes).take 1) hfrom).trans ?_
    rw [readable_error, hbehind]
    rfl
  refine ⟨calls, r, by rw [hserved]; exact List.mem_singleton_self r, fun hsame => ?_⟩
  have hmem : r ∈ readable (after.map (LineSource.parse catalogLayout)) := by
    rw [hbehind]
    exact List.mem_cons_self
  obtain ⟨line, hline, first, hfirst, rfl⟩ := mem_readable hmem
  rw [key_of_catalog hfirst] at hsame
  refine hafter line hline ?_
  rw [listedAs, hsame]
  rfl

/-- Else whatever is called returns the record of the noted line, or nothing. -/
theorem served_noted (h : ¬ a.Strays key) (calls : List (Ledger × Stream.Call)) :
    ∀ r ∈ stream.served calls, r.key keyField = .ok key := by
  intro r hr
  obtain ⟨before, after, hlisted, hkey, hafter⟩ := v.exists_noted hnoted
  have hcatalog := hlisted ▸ v.catalog_eq
  have hfirst := Stream.served_keyed hfeed hpending htaken calls r hr
  rw [recordsFrom_listed hcatalog] at hfirst
  obtain ⟨id, hid⟩ := v.listed_ok line (by rw [hlisted]; simp)
  cases hparse : LineSource.parse catalogLayout line with
  | error e =>
    rw [hparse, readable_error] at hfirst
    obtain ⟨other, hother, found, hfound, -⟩ := mem_readable (List.mem_of_mem_take hfirst)
    refine absurd ?_ h
    exact ⟨before, line, after, other, hcatalog, hkey, hafter, ⟨e, hparse⟩, hother, found, hfound⟩
  | ok found =>
    rw [hparse, readable_found, List.take_succ_cons, List.take_zero, List.mem_singleton] at hfirst
    rw [hfirst, key_of_catalog hparse, hid, ← hkey, listedAs, hid]
    rfl

theorem served_noted_iff (hopen : l.isClosed stream.resource = false) :
    (∀ calls, ∀ r ∈ stream.served calls, r.key keyField = .ok key) ↔ ¬ a.Strays key := by
  constructor
  · intro hall hstrays
    obtain ⟨calls, r, hr, hother⟩ :=
      exists_served_stray v hnoted hfeed hpending htaken hopen hstrays
    exact hother (hall calls r hr)
  · exact served_noted v hnoted hfeed hpending htaken

end

/-! ### Any stream of one station -/

section
variable (o : Opening a path) (v : Survey a) (hlie : a.LieAt d path) (hopen : o.dataset.Unclosed l)
include v hlie hopen

theorem Opening.served_data {sequence : String}
    (hsequence : sequence ∈ [stationData, nestedData, allData]) (key : String) :
    ∃ stream, o.dataset.keyedStream d l sequence key = .ok stream ∧
      ∀ calls, ∀ r ∈ stream.served calls, r.key keyField = .ok key := by
  obtain ⟨data, stream, -, hstream, hserves⟩ := o.keyedStream_data hlie hopen v hsequence key
  have hmine : ∀ r ∈ v.recordsOf key, Record.hasKey keyField key r.2 = true := by
    intro r hr
    obtain ⟨hrecord, hkey⟩ := List.mem_filter.mp hr
    rw [v.hasKey_eq hrecord, hkey]
  exact ⟨stream, hstream, fun calls r hr => key_of_hasKey (hserves.served hmine calls r hr)⟩

theorem Opening.served_catalog (hindexed : o.dataset.index?.isSome = true) (key : String) :
    ∃ stream, o.dataset.keyedStream d l stations key = .ok stream ∧
      ((∀ calls, ∀ r ∈ stream.served calls, r.key keyField = .ok key) ↔
        v.recordsOf key = [] ∨ ¬ a.Strays key) := by
  obtain ⟨catalog, hunclosed, hcontent, hindex, hkeyed⟩ := o.keyedStream_catalog hlie hopen v key
  rw [hkeyed]
  cases hnoted : v.noted? key with
  | none =>
    obtain ⟨file, hstream⟩ := stationLine_scan v hindex (fun _ => hnoted) hunclosed hcontent
    have hstrays : v.recordsOf key = [] ∨ ¬ a.Strays key := by
      by_cases hdata : v.recordsOf key = []
      · exact .inl hdata
      · right
        rintro ⟨before, line, after, _, hlisted, hkey, hafter, -⟩
        rw [v.noted?_of_last (v.listed_unique hlisted) hkey hafter hdata] at hnoted
        cases hnoted
    refine ⟨_, hstream, iff_of_true (fun calls r hr => ?_) hstrays⟩
    exact key_of_hasKey (Stream.served_scan rfl rfl calls r hr)
  | some line =>
    obtain ⟨ix, hix⟩ := Option.isSome_iff_exists.mp hindexed
    obtain ⟨file, hstream⟩ := stationLine_leap v (hindex ix hix) hnoted hunclosed hcontent
    rw [hix]
    refine ⟨_, hstream, ?_⟩
    rw [or_iff_right (v.recordsOf_ne_nil_of_noted hnoted)]
    exact served_noted_iff v hnoted rfl rfl rfl hunclosed

end

/-- In any run of calls on the stream of one station, failures and new beginnings included, every
record that is returned is of that station, but for the catalog lines of a station with data of
which the last cannot be read while one behind it can. -/
theorem served_station_iff (o : Opening a path) (hindexed : o.dataset.index?.isSome = true)
    (hlie : a.LieAt d path) (hopen : o.dataset.Unclosed l) {sequence : String}
    (hsequence : sequence ∈ [stationData, nestedData, allData, stations]) (key : String) :
    ∃ stream lines, o.dataset.keyedStream d l sequence key = .ok stream ∧
      o.dataset.readKeyed d l allData key = .ok lines ∧
      ((∀ calls, ∀ r ∈ stream.served calls, r.key keyField = .ok key) ↔
        sequence ≠ stations ∨ lines = [] ∨ ¬ a.Strays key) := by
  obtain ⟨v⟩ := o.exists_survey hindexed
  have hlines := o.readKeyed_data v hlie hopen allData (by simp) key
  rw [← v.map_recordsOf] at hlines
  by_cases hcatalog : sequence = stations
  · subst hcatalog
    obtain ⟨stream, hstream, hserved⟩ := o.served_catalog v hlie hopen hindexed key
    refine ⟨stream, _, hstream, hlines, hserved.trans ?_⟩
    simp
  · have hdata : sequence ∈ [stationData, nestedData, allData] := by
      simp only [List.mem_cons, List.not_mem_nil, or_false] at hsequence ⊢
      tauto
    obtain ⟨stream, hstream, hserved⟩ := o.served_data v hlie hopen hdata key
    exact ⟨stream, _, hstream, hlines, iff_of_true hserved (.inl hcatalog)⟩

/-- An archive whose catalog lists station 1 with a latitude that is no number, and then station 2. -/
def misspelt : Contents where
  data := sampleYear
  catalog := sampleLine 0x31 0x78 ++ sampleLine 0x32 0x35
  data_lt := length_sampleYear_lt
  catalog_lt := by decide +kernel

def misspeltOpening : Opening misspelt "a.dat" :=
  .ofOk { policy := .rebuild, persist := false } (lieAt_diskOf _)
    (ownIndex_of_none (by decide +kernel)) (by decide +kernel)

theorem served_station_iff_misspelt :
    ∃ stream lines,
      misspeltOpening.dataset.keyedStream (diskOf misspelt) {} stations "1" = .ok stream ∧
      misspeltOpening.dataset.readKeyed (diskOf misspelt) {} allData "1" = .ok lines ∧
      ((∀ calls, ∀ r ∈ stream.served calls, r.key keyField = .ok "1") ↔
        stations ≠ stations ∨ lines = [] ∨ ¬ misspelt.Strays "1") :=
  served_station_iff misspeltOpening (misspeltOpening.index_isSome.mpr (by decide)) (lieAt_diskOf _)
    (fun _ _ => rfl) (by decide) "1"

theorem misspelt_streams :
    (misspeltOpening.dataset.keyedStream (diskOf misspelt) {} stations "1").toOption.isSome =
      true := by
  decide +kernel

/-- A reader that looks again behind a line that cannot be read is given the record of another
station. -/
theorem served_station_strays :
    ¬ ∀ (a : Contents) (path : String) (o : Opening a path) (d : Disk) (l : Ledger)
        (sequence key : String) (stream : Stream) (calls : List (Ledger × Stream.Call)),
        o.dataset.index?.isSome = true → a.LieAt d path → o.dataset.Unclosed l →
        sequence ∈ [stationData, nestedData, allData, stations] →
        o.dataset.keyedStream d l sequence key = .ok stream →
        ∀ r ∈ stream.served calls, r.key keyField = .ok key := by
  intro h
  have hkeys : ((Option.get _ misspelt_streams).served
      [({}, .hasNext), ({}, .hasNext), ({}, .next)]).map (fun r => (r.key keyField).toOption) =
        [some "2"] := by
    decide +kernel
  obtain ⟨r, hr, hkey⟩ := List.mem_map.mp (hkeys ▸ List.mem_singleton_self (some "2"))
  have hsame := h misspelt "a.dat" misspeltOpening (diskOf misspelt) {} stations "1" _ _
    (misspeltOpening.index_isSome.mpr (by decide)) (lieAt_diskOf _) (fun _ _ => rfl) (by decide)
    (eq_ok_get misspelt_streams) r hr
  rw [hsame] at hkey
  exact absurd hkey (by decide)

end SciArchive.Station
