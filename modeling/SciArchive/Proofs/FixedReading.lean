import SciArchive.Proofs.RecordSlices

/-! Reading binary records one by one gives the records of the table of the same bytes. A reader adds up sizes
and a table divides, so both leave out the bytes behind the last whole record. -/
namespace SciArchive

/-! ### The records of a table -/

namespace RecordTable

/-- A record with its offset, as a reader tells it; none behind the last. -/
def entry? (t : RecordTable) (i : Nat) : Option (Nat × Record) :=
  (t.record i).toOption.map fun r => (t.base i, .binary r)

def entries (t : RecordTable) : List (Nat × Record) :=
  (List.range t.length).map fun i => (t.base i, .binary (t.recordAt i))

variable {t : RecordTable}

@[simp] theorem length_entries (t : RecordTable) : t.entries.length = t.length := by simp [entries]

theorem getElem?_entries (t : RecordTable) (i : Nat) : t.entries[i]? = t.entry? i := by
  rw [entries, entry?, List.getElem?_map]
  by_cases h : i < t.length
  · rw [List.getElem?_range h, record_eq h]
    rfl
  · rw [List.getElem?_eq_none (by simpa using h), record, if_neg h]
    rfl

theorem map_snd_entries (t : RecordTable) : t.entries.map Prod.snd = t.records.map .binary := by
  simp [entries, records]

theorem base_le {i : Nat} (h : i ≤ t.length) : t.base i ≤ t.buffer.length :=
  Nat.le_trans (Nat.mul_le_mul_right _ h) (Nat.div_mul_le_self _ _)

end RecordTable

namespace FixedSource

/-! ### Readings -/

/-- All that is read until a reading finds nothing. -/
def readOut (s : FixedSource) : List (Nat × Record) :=
  match _found : s.read.1 with
  | none => []
  | some found => found :: readOut s.read.2
termination_by s.cursor.rest.length
decreasing_by exact Source.read_left (s := .fixed s) (congrArg Except.ok _found)

/-- What the reading behind `k` others finds. -/
def nth (s : FixedSource) : Nat → Option (Nat × Record)
  | 0 => s.read.1
  | k + 1 => s.read.2.nth k

theorem readOut_eq (s : FixedSource) : s.readOut = s.toCome := by
  fun_induction readOut s with
  | case1 s hnone =>
    rw [s.read_spec.1, List.head?_eq_none_iff] at hnone
    exact hnone.symm
  | case2 s found hfound ih =>
    rw [s.read_spec.1] at hfound
    rw [ih, s.read_spec.2]
    exact List.cons_head?_tail hfound

theorem nth_eq (s : FixedSource) (k : Nat) : s.nth k = s.toCome[k]? := by
  induction k generalizing s with
  | zero => rw [nth, s.read_spec.1, List.head?_eq_getElem?]
  | succ k ih => rw [nth, ih, s.read_spec.2, List.getElem?_tail]

/-! ### Places -/

inductive Call where
  | read
  | seek (offset : Nat)
  deriving DecidableEq, Repr

/-- A reader after a run of calls, the latest of which is the first. -/
def after (s : FixedSource) : List Call → FixedSource
  | [] => s
  | .read :: earlier => (s.after earlier).read.2
  | .seek offset :: earlier => (s.after earlier).seek offset

/-- No call changes what is read and how. -/
theorem after_same (s : FixedSource) (calls : List Call) :
    (s.after calls).layout = s.layout ∧ (s.after calls).cursor.content = s.cursor.content := by
  induction calls with
  | nil => exact ⟨rfl, rfl⟩
  | cons c earlier ih =>
    cases c with
    | read => simpa [after, read_snd, Cursor.take, Cursor.advance] using ih
    | seek offset => exact ih

/-- From the offset of a record on, the records of the table follow. -/
theorem recordsFrom_base (t : RecordTable) (i : Nat) :
    recordsFrom t.layout t.buffer (t.base i) = t.entries.drop i := by
  have hcount : (t.buffer.length - i * t.layout.recordSize) / t.layout.recordSize =
      t.buffer.length / t.layout.recordSize - i := by
    rw [Nat.mul_comm i]
    exact Nat.sub_mul_div _ _ _
  -- the reader counts records from the offset on, the table from the start of the buffer
  refine List.ext_getElem? fun k => ?_
  rw [recordsFrom, recordsOf, RecordTable.entries, List.getElem?_drop, List.getElem?_map, List.getElem?_map,
    List.length_drop]
  simp only [RecordTable.base, RecordTable.length, RecordTable.recordAt, hcount]
  by_cases hk : i + k < t.buffer.length / t.layout.recordSize
  · have hoffset : i * t.layout.recordSize + k * t.layout.recordSize = (i + k) * t.layout.recordSize :=
      (Nat.add_mul i k _).symm
    rw [List.getElem?_range (by omega), List.getElem?_range hk]
    simp only [Option.map_some, hoffset, BinaryRecord.slice, List.drop_drop]
  · rw [List.getElem?_eq_none (by simp only [List.length_range]; omega),
      List.getElem?_eq_none (by simp only [List.length_range]; omega)]
    rfl

theorem toCome_new (t : RecordTable) : (new t.buffer t.layout).toCome = t.entries := by
  have hall := recordsFrom_base t 0
  rwa [RecordTable.base, Nat.zero_mul, recordsFrom, List.drop_zero, List.drop_zero] at hall

/-- A leap to a record goes there from anywhere. -/
theorem toCome_seek_base (t : RecordTable) (calls : List Call) (i : Nat) :
    (((new t.buffer t.layout).after calls).seek (t.base i)).toCome = t.entries.drop i := by
  have hsame := (new t.buffer t.layout).after_same calls
  rw [← recordsFrom_base, toCome, recordsFrom]
  simp only [seek, Cursor.seek, hsame.1, hsame.2]
  rfl

end FixedSource

/-- A keyed stream that begins at a record and owes no more than there are gives those records, to the end
and in every run of calls. -/
theorem Stream.keyed_base {d : Disk} {l : Ledger} {r : Resource} {t : RecordTable} {i count : Nat}
    (hopen : l.isClosed r = false) (hcontent : d.bytes? r.path = some t.buffer) (h : i + count ≤ t.length) :
    ∃ s, keyed d l r (.binary t.layout) (t.base i) count = .ok s ∧
      (s.readAll l).1 = .ok (((t.records.drop i).take count).map .binary) ∧
      s.Replays t.buffer (((t.records.drop i).take count).map .binary) none := by
  have hoffset : t.base i ≤ t.buffer.length := t.base_le (by omega)
  obtain ⟨file, hkeyed⟩ := openAt_file hopen hcontent hoffset
    (fun content => .keyed ((Source.ofBytes content (.binary t.layout)).seek (t.base i)) (t.base i) count)
    (.keyed .folder (t.base i) count)
  have hbegins : keyed d l r (.binary t.layout) (t.base i) count = _ := hkeyed
  have hfresh := (fresh_keyed hcontent hbegins).2.1
  have hyields := Source.yields_seek (.binary t.layout) t.buffer (t.base i)
  have hfound : ((Layout.binary t.layout).recordsFrom t.buffer (t.base i)).take count =
      ((t.entries.drop i).take count).map .ok := by
    rw [Layout.recordsFrom, FixedSource.recordsFrom_base, List.map_take]
  have hlength : ((t.entries.drop i).take count).length = count := by
    rw [List.length_take, List.length_drop, RecordTable.length_entries]
    omega
  have hrecords : ((t.entries.drop i).take count).map Prod.snd =
      ((t.records.drop i).take count).map .binary := by
    rw [List.map_take, List.map_drop, RecordTable.map_snd_entries, List.map_take, List.map_drop]
  have hgives : Feed.Gives none none 0 (((t.records.drop i).take count).map .binary)
      (.keyed ((Source.ofBytes t.buffer (.binary t.layout)).seek (t.base i)) (t.base i) count) := by
    rw [← hrecords]
    exact Feed.gives_keyed hyields hfound (Nat.zero_le count) (by rw [if_neg (by omega)])
  have hread := readUpTo_of_gives (s := { resource := r, file, feed := _ }) hopen rfl hgives
  exact ⟨_, hbegins, readAll_of_readUpTo hopen rfl hread, hfresh.replays hgives⟩

/-- A reader of binary records and the table of the same bytes agree. A new reader finds the records of the
table, each with its offset, and nothing behind them however often it is asked; from the offset of any of them
on it goes on with that one, whatever was called before; and a keyed stream there gives the records it owes. -/
theorem FixedSource.reads_table (layout : RecordLayout) (content : List UInt8) :
    let t : RecordTable := ⟨layout, content⟩
    let s := new content layout
    (s.readOut.length = t.length ∧ ∀ i, s.readOut[i]? = t.entry? i) ∧
    (∀ k, s.nth k = t.entry? k) ∧
    (∀ calls i, i ≤ t.length → ∀ k, ((s.after calls).seek (t.base i)).nth k = t.entry? (i + k)) ∧
    ∀ (d : Disk) (l : Ledger) (r : Resource) (i count : Nat), l.isClosed r = false →
      d.bytes? r.path = some content → i + count ≤ t.length →
      ∃ stream, Stream.keyed d l r (.binary layout) (t.base i) count = .ok stream ∧
        (stream.readAll l).1 = .ok (((t.records.drop i).take count).map .binary) ∧
        stream.Replays content (((t.records.drop i).take count).map .binary) none := by
  intro t s
  have hall : s.toCome = t.entries := toCome_new t
  refine ⟨⟨?_, fun i => ?_⟩, fun k => ?_, fun calls i _ k => ?_, fun d l r i count hopen hcontent h => ?_⟩
  · rw [readOut_eq, hall, RecordTable.length_entries]
  · rw [readOut_eq, hall, RecordTable.getElem?_entries]
  · rw [nth_eq, hall, RecordTable.getElem?_entries]
  · rw [nth_eq, toCome_seek_base t calls i, List.getElem?_drop, RecordTable.getElem?_entries]
  · exact Stream.keyed_base (t := t) hopen hcontent h

/-- Back to the second record after a reading across both, and a keyed stream that begins there. -/
theorem FixedSource.reads_table_wordsAndByte :
    let s := ((new Stream.wordsAndByte Stream.shortWords).after [.read, .seek 1, .read, .read, .read]).seek 2
    s.nth 0 = some (2, .binary ⟨Stream.shortWords, [0, 2]⟩) ∧ s.nth 1 = none ∧
    ∃ stream, Stream.keyed (Stream.diskWith Stream.wordsAndByte) {} ⟨"a", 0⟩ (.binary Stream.shortWords) 2 1 =
        .ok stream ∧
      (stream.readAll {}).1 = .ok [.binary ⟨Stream.shortWords, [0, 2]⟩] ∧
      stream.Replays Stream.wordsAndByte [.binary ⟨Stream.shortWords, [0, 2]⟩] none := by
  have hreads := reads_table Stream.shortWords Stream.wordsAndByte
  have hseek := hreads.2.2.1 [.read, .seek 1, .read, .read, .read] 1 (by decide)
  exact ⟨hseek 0, hseek 1, hreads.2.2.2 (Stream.diskWith Stream.wordsAndByte) {} ⟨"a", 0⟩ 1 1 rfl rfl (by decide)⟩

end SciArchive
