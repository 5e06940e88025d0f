import SciArchive.Files.Cursor
import SciArchive.Record.Layout

/-! Files of blocks: a header that tells how many binary records follow it, and those records. A block
that the file cuts short ends the reading. -/
namespace SciArchive

/-- The header's size, where its count stands, a word of four bytes with the top byte first, and the
bytes that every header begins with. -/
structure BlockLayout where
  headerSize : Nat
  countOffset : Nat
  mark : Option (List UInt8) := none
  deriving DecidableEq, Repr

namespace BlockLayout

/-- The count ends at a place that a word can tell. For any other, a build with overflow checks stops. -/
def InWord (l : BlockLayout) : Prop := l.countOffset + 4 < UInt64.size

instance (l : BlockLayout) : Decidable l.InWord := inferInstanceAs (Decidable (_ < _))

/-- Count and mark must end within the header. -/
def check (l : BlockLayout) : Except Fault Unit :=
  if l.headerSize < wrap (l.countOffset + 4) then
    .error (.invalidLayout (.countOutsideHeader l.countOffset l.headerSize))
  else
    match l.mark with
    | none => .ok ()
    | some mark =>
      if l.headerSize < mark.length then
        .error (.invalidLayout (.markOutsideHeader mark.length l.headerSize))
      else .ok ()

def count (l : BlockLayout) (header : List UInt8) : Nat :=
  ByteOrder.big.number ((header.drop l.countOffset).take 4)

/-- What a header begins with instead of the mark. -/
def foreign? (l : BlockLayout) (header : List UInt8) : Option String :=
  match l.mark with
  | none => none
  | some mark =>
    if mark.isPrefixOf header then none
    else some (String.ofList (Utf8.decodeLossy (header.take mark.length)))

/-- The size of `count` records, if so many bytes are there. -/
def payload? (records : RecordLayout) (count available : Nat) : Option Nat :=
  if count * records.recordSize ≤ available then some (count * records.recordSize) else none

/-- The records of the next block that has any, none at the end, and where the cursor stands. Of the bytes
to come, the last `lost` are not counted on, and if their number is not known no block is read. A count that
does not lie in the header stops the program. -/
def nextBlock (l : BlockLayout) (records : RecordLayout) (lost : Except Fault Nat) (c : Cursor) :
    Except Fault (Option (List BinaryRecord)) × Cursor :=
  if l.headerSize = 0 ∨ c.rest.length < l.headerSize then (.ok none, (c.take l.headerSize).2)
  else
    let header := (c.take l.headerSize).1
    let after := (c.take l.headerSize).2
    match l.foreign? header with
    | some found => (.error (.unreadable "block header" found), after)
    | none =>
      if header.length < l.countOffset + 4 then (.error .crashed, after)
      else if l.count header = 0 then nextBlock l records lost after
      else
        match lost with
        | .error e => (.error e, after)
        | .ok lost =>
          match payload? records (l.count header) (after.rest.length - lost) with
          | none => (.ok none, after)
          | some size =>
            (.ok (some (RecordTable.records ⟨records, (after.take size).1⟩)), (after.take size).2)
termination_by c.rest.length
decreasing_by
  simp only [Cursor.take_rest, List.length_drop]
  omega

end BlockLayout

/-- A reader of blocks: the records of the current block not yet served, and where the bytes behind it
begin. `lost` tells how many of these the file at the path no longer has, if there is one. A `folder`
has no bytes to read. -/
structure BlockFeed where
  cursor : Cursor
  framing : BlockLayout
  records : RecordLayout
  folder : Bool := false
  lost : Except Fault Nat := .ok 0
  queue : List BinaryRecord := []
  finished : Bool := false
  deriving Repr

namespace BlockFeed

def new (content : List UInt8) (framing : BlockLayout) (records : RecordLayout) : BlockFeed :=
  { cursor := .new content, framing, records }

def ofFolder (framing : BlockLayout) (records : RecordLayout) : BlockFeed :=
  { cursor := .new [], framing, records, folder := true }

def rewind (b : BlockFeed) : BlockFeed :=
  { cursor := b.cursor.seek 0, framing := b.framing, records := b.records, folder := b.folder }

/-- The same reader after the file may have been written anew. `size` is that of the file now at its
path. -/
def refresh (b : BlockFeed) (content : List UInt8) (size : Except Fault Nat) : BlockFeed :=
  let cursor := b.cursor.refresh content
  { b with cursor, lost := size.map fun n => cursor.rest.length - (n - cursor.offset) }

/-- The next record. The end, and a failure, finish the reading. -/
def advance (b : BlockFeed) : Except Fault (Option BinaryRecord) × BlockFeed :=
  if b.finished then (.ok none, b)
  else if b.folder then (.error (.cannotRead .isDirectory), { b with finished := true })
  else
    match b.queue with
    | r :: queue => (.ok (some r), { b with queue })
    | [] =>
      let found := b.framing.nextBlock b.records b.lost b.cursor
      match found.1 with
      | .error e => (.error e, { b with cursor := found.2, finished := true })
      | .ok (some (r :: queue)) => (.ok (some r), { b with cursor := found.2, queue })
      | .ok _ => (.ok none, { b with cursor := found.2, finished := true })

/-- Bounds the number of records to come. -/
def left (b : BlockFeed) : Nat := b.cursor.rest.length + b.queue.length

end BlockFeed

theorem RecordTable.length_records_le (t : RecordTable) : t.records.length ≤ t.buffer.length := by
  simp only [records, List.length_map, List.length_range, length]
  exact Nat.div_le_self _ _

theorem BlockLayout.nextBlock_length (l : BlockLayout) (records : RecordLayout) (lost : Except Fault Nat)
    (c : Cursor) {block : List BinaryRecord} (h : (l.nextBlock records lost c).1 = .ok (some block)) :
    (l.nextBlock records lost c).2.rest.length + block.length ≤ c.rest.length := by
  fun_induction nextBlock l records lost c with
  | case1 => simp at h
  | case2 => simp at h
  | case3 => simp at h
  | case4 c _ _ after _ _ _ ih =>
    have := ih h
    simp only [after, Cursor.take_rest, List.length_drop] at *
    omega
  | case5 => simp at h
  | case6 => simp at h
  | case7 c _ _ after _ _ _ _ _ size _ =>
    simp only [Except.ok.injEq, Option.some.injEq] at h
    subst h
    have short := RecordTable.length_records_le ⟨records, (after.take size).1⟩
    simp only [after, Cursor.take_bytes, Cursor.take_rest, List.length_drop, List.length_take] at *
    omega

theorem BlockFeed.advance_left {b : BlockFeed} {r : BinaryRecord}
    (h : b.advance.1 = .ok (some r)) : b.advance.2.left < b.left := by
  unfold advance at h ⊢
  split at h
  · simp at h
  · rename_i hopen
    rw [if_neg hopen]
    split at h
    · simp at h
    · rename_i hfile
      rw [if_neg hfile]
      split at h
      · rename_i head queue hq
        simp [left, hq]
      · rename_i hq
        simp only at h ⊢
        split at h
        · simp at h
        · rename_i head queue hblock
          have := BlockLayout.nextBlock_length b.framing b.records b.lost b.cursor hblock
          simp only [left, hq, List.length_cons, List.length_nil] at this ⊢
          omega
        · simp at h

end SciArchive
