import SciArchive.Proofs.Feeds

/-! What reading a file of blocks to its end asks of the file, and what it comes to: block by block, as far
as headers are whole and marked and the records they announce are there. -/
namespace SciArchive

theorem RecordTable.records_nil (records : RecordLayout) : RecordTable.records ⟨records, []⟩ = [] := by
  simp [RecordTable.records, RecordTable.length]

theorem Cursor.take_offset {c : Cursor} {n : Nat} (h : n ≤ c.rest.length) :
    (c.take n).2.offset = c.offset + n := by
  simp [take, advance, Nat.min_eq_left h]

/-- What is asked of a file: the header at an offset, or so many bytes of records at once. -/
inductive BlockRequest where
  | header (offset : Nat)
  | data (offset size : Nat)
  deriving DecidableEq, Repr

/-- What reading to the end asks for, the records it gives, and the failure that ends it. -/
structure BlockReading where
  requests : List BlockRequest
  records : List BinaryRecord := []
  fault : Option Fault := none

/-- A reading behind a first part of requests and records. -/
def BlockReading.behind (asked : List BlockRequest) (block : List BinaryRecord) (later : BlockReading) :
    BlockReading :=
  { requests := asked ++ later.requests, records := block ++ later.records, fault := later.fault }

namespace BlockLayout

variable (l : BlockLayout) (records : RecordLayout)

/-! ### One block -/

/-- `nextBlock` with what it asks for. -/
def loggedBlock (lost : Except Fault Nat) (c : Cursor) :
    (Except Fault (Option (List BinaryRecord)) × Cursor) × List BlockRequest :=
  if l.headerSize = 0 ∨ c.rest.length < l.headerSize then
    ((.ok none, (c.take l.headerSize).2), [.header c.offset])
  else
    let header := (c.take l.headerSize).1
    let after := (c.take l.headerSize).2
    match l.foreign? header with
    | some found => ((.error (.unreadable "block header" found), after), [.header c.offset])
    | none =>
      if header.length < l.countOffset + 4 then ((.error .crashed, after), [.header c.offset])
      else if l.count header = 0 then
        let later := loggedBlock lost after
        (later.1, .header c.offset :: later.2)
      else
        match lost with
        | .error e => ((.error e, after), [.header c.offset])
        | .ok lost =>
          match payload? records (l.count header) (after.rest.length - lost) with
          | none => ((.ok none, after), [.header c.offset])
          | some size =>
            ((.ok (some (RecordTable.records ⟨records, (after.take size).1⟩)), (after.take size).2),
              [.header c.offset, .data after.offset size])
termination_by c.rest.length
decreasing_by
  simp only [Cursor.take_rest, List.length_drop]
  omega

theorem loggedBlock_fst (lost : Except Fault Nat) (c : Cursor) :
    (l.loggedBlock records lost c).1 = l.nextBlock records lost c := by
  fun_induction loggedBlock l records lost c <;> rw [nextBlock] <;> grind

/-! ### The whole file -/

/-- Reading the bytes from an offset on. A block that is not there to its end ends the reading. -/
def walk (offset : Nat) (rest : List UInt8) : BlockReading :=
  if l.headerSize = 0 ∨ rest.length < l.headerSize then { requests := [.header offset] }
  else
    let header := rest.take l.headerSize
    match l.foreign? header with
    | some found =>
      { requests := [.header offset], fault := some (.unreadable "block header" found) }
    | none =>
      if header.length < l.countOffset + 4 then { requests := [.header offset], fault := some .crashed }
      else
        let size := l.count header * records.recordSize
        if rest.length < l.headerSize + size then { requests := [.header offset] }
        else
          .behind (.header offset :: if l.count header = 0 then [] else [.data (offset + l.headerSize) size])
            (RecordTable.records ⟨records, (rest.drop l.headerSize).take size⟩)
            (walk (offset + (l.headerSize + size)) (rest.drop (l.headerSize + size)))
termination_by rest.length
decreasing_by
  simp only [List.length_drop]
  omega

variable {l records} {offset : Nat} {rest : List UInt8}

theorem walk_short (h : l.headerSize = 0 ∨ rest.length < l.headerSize) :
    l.walk records offset rest = { requests := [.header offset] } := by
  rw [walk, if_pos h]

section
variable (hlong : ¬ (l.headerSize = 0 ∨ rest.length < l.headerSize))
include hlong

theorem walk_foreign {found : String} (h : l.foreign? (rest.take l.headerSize) = some found) :
    l.walk records offset rest =
      { requests := [.header offset], fault := some (.unreadable "block header" found) } := by
  rw [walk, if_neg hlong]
  simp only [h]

variable (hmarked : l.foreign? (rest.take l.headerSize) = none)
include hmarked

theorem walk_outside (h : (rest.take l.headerSize).length < l.countOffset + 4) :
    l.walk records offset rest = { requests := [.header offset], fault := some .crashed } := by
  rw [walk, if_neg hlong]
  simp only [hmarked, if_pos h]

variable {size : Nat} (hinside : ¬ (rest.take l.headerSize).length < l.countOffset + 4)
  (hsize : size = l.count (rest.take l.headerSize) * records.recordSize)
include hinside hsize

theorem walk_cut (h : rest.length < l.headerSize + size) :
    l.walk records offset rest = { requests := [.header offset] } := by
  subst hsize
  rw [walk, if_neg hlong]
  simp only [hmarked, if_neg hinside, if_pos h]

theorem walk_whole (h : l.headerSize + size ≤ rest.length) :
    l.walk records offset rest =
      .behind (.header offset :: if l.count (rest.take l.headerSize) = 0 then []
          else [.data (offset + l.headerSize) size])
        (RecordTable.records ⟨records, (rest.drop l.headerSize).take size⟩)
        (l.walk records (offset + (l.headerSize + size)) (rest.drop (l.headerSize + size))) := by
  subst hsize
  rw [walk, if_neg hlong]
  simp only [hmarked, if_neg hinside, if_neg (Nat.not_lt_of_le h)]

end

theorem foreign?_eq_none {header : List UInt8} :
    l.foreign? header = none ↔ ∀ mark, l.mark = some mark → mark <+: header := by
  cases hmark : l.mark with
  | none => simp [foreign?, hmark]
  | some mark => simp [foreign?, hmark]

theorem payload?_eq_some {count available size : Nat} :
    payload? records count available = some size ↔ size = count * records.recordSize ∧ size ≤ available := by
  unfold payload?
  grind

theorem payload?_eq_none {count available : Nat} :
    payload? records count available = none ↔ available < count * records.recordSize := by
  unfold payload?
  grind

/-- Reading a block is the first step of reading the file. -/
theorem walk_eq_loggedBlock (records : RecordLayout) {lost : Except Fault Nat} (hlost : lost = .ok 0)
    (c : Cursor) :
    l.walk records c.offset c.rest =
      match l.loggedBlock records lost c with
      | ((.error e, _), asked) => { requests := asked, fault := some e }
      | ((.ok none, _), asked) => { requests := asked }
      | ((.ok (some block), after), asked) =>
        .behind asked block (l.walk records after.offset after.rest) := by
  fun_induction loggedBlock l records lost c with
  | case1 c hshort => exact walk_short hshort
  | case2 c hlong header after found hforeign => exact walk_foreign hlong hforeign
  | case3 c hlong header after hmarked houtside => exact walk_outside hlong hmarked houtside
  | case4 c hlong header after hmarked hinside hzero later ih =>
    have hoffset : after.offset = c.offset + l.headerSize := Cursor.take_offset (by omega)
    have hrest : after.rest = c.rest.drop l.headerSize := Cursor.take_rest c l.headerSize
    have hnone : l.count (c.rest.take l.headerSize) = 0 := hzero
    have hsize : 0 = l.count (c.rest.take l.headerSize) * records.recordSize := by rw [hnone, Nat.zero_mul]
    rw [walk_whole hlong hmarked hinside hsize (by omega), Nat.add_zero, ← hoffset, ← hrest, ih, if_pos hnone,
      List.take_zero, RecordTable.records_nil]
    simp only [later]
    rcases l.loggedBlock records lost after with ⟨⟨e | _ | block, behind⟩, asked⟩ <;> rfl
  | case5 _ _ _ _ _ _ _ _ hfailed => cases hfailed.symm.trans hlost
  | case6 c hlong header after hmarked hinside hcount lost hknown hcut =>
    cases hknown.symm.trans hlost
    have hrest : after.rest = c.rest.drop l.headerSize := Cursor.take_rest c l.headerSize
    have hshort : after.rest.length - 0 < l.count (c.rest.take l.headerSize) * records.recordSize :=
      payload?_eq_none.mp hcut
    rw [hrest, List.length_drop] at hshort
    exact walk_cut hlong hmarked hinside rfl (by omega)
  | case7 c hlong header after hmarked hinside hcount lost hknown size hfits =>
    cases hknown.symm.trans hlost
    have hoffset : after.offset = c.offset + l.headerSize := Cursor.take_offset (by omega)
    have hrest : after.rest = c.rest.drop l.headerSize := Cursor.take_rest c l.headerSize
    rw [payload?_eq_some] at hfits
    have hlength : size ≤ c.rest.length - l.headerSize := by
      rw [← List.length_drop, ← hrest]
      exact hfits.2
    have hbehind : (after.take size).2.offset = c.offset + (l.headerSize + size) := by
      rw [Cursor.take_offset hfits.2, hoffset, Nat.add_assoc]
    have hsome : ¬ l.count (c.rest.take l.headerSize) = 0 := hcount
    rw [walk_whole hlong hmarked hinside hfits.1 (by omega), if_neg hsome]
    simp only [hbehind, Cursor.take_rest, Cursor.take_bytes, hrest, hoffset, List.drop_drop]

/-- A block that is found has records. -/
theorem loggedBlock_ne_nil (hsize : 0 < records.recordSize) (lost : Except Fault Nat) (c : Cursor) :
    (l.loggedBlock records lost c).1.1 ≠ .ok (some []) := by
  fun_induction loggedBlock l records lost c with
  | case1 => simp
  | case2 => simp
  | case3 => simp
  | case4 c hlong header after hmarked hinside hzero later ih => exact ih
  | case5 => simp
  | case6 => simp
  | case7 c hlong header after hmarked hinside hcount lost _ size hfits =>
    rw [payload?_eq_some] at hfits
    have hlength : (after.rest.take size).length = l.count header * records.recordSize := by
      rw [List.length_take, hfits.1]
      omega
    simp only [RecordTable.records, RecordTable.length, Cursor.take_bytes, hlength,
      Nat.mul_div_cancel _ hsize]
    simpa using hcount

end BlockLayout

/-! ### Feeds -/

namespace BlockFeed

/-- What the next look asks for. -/
def requests (b : BlockFeed) : List BlockRequest :=
  if b.finished = true ∨ b.folder = true ∨ b.queue ≠ [] then []
  else (b.framing.loggedBlock b.records b.lost b.cursor).2

/-- Looking again and again until there is no more record. -/
def toEnd (b : BlockFeed) : BlockReading :=
  match _found : b.advance.1 with
  | .error e => { requests := b.requests, fault := some e }
  | .ok none => { requests := b.requests }
  | .ok (some r) => .behind b.requests [r] (toEnd b.advance.2)
termination_by b.left
decreasing_by exact advance_left _found

variable {b : BlockFeed}

theorem toEnd_eq :
    b.toEnd =
      match b.advance.1 with
      | .error e => { requests := b.requests, fault := some e }
      | .ok none => { requests := b.requests }
      | .ok (some r) => .behind b.requests [r] b.advance.2.toEnd := by
  rw [toEnd]
  split <;> rename_i hfound <;> rw [hfound]

section
variable (hopen : b.finished = false) (hfile : b.folder = false)
include hopen hfile

theorem advance_queue {r : BinaryRecord} {queue : List BinaryRecord} (hqueue : b.queue = r :: queue) :
    b.advance = (.ok (some r), { b with queue }) := by
  simp [advance, hopen, hfile, hqueue]

theorem advance_block (hqueue : b.queue = []) :
    b.advance =
      match (b.framing.loggedBlock b.records b.lost b.cursor).1 with
      | (.error e, cursor) => (.error e, { b with cursor, finished := true })
      | (.ok (some (r :: queue)), cursor) => (.ok (some r), { b with cursor, queue })
      | (.ok _, cursor) => (.ok none, { b with cursor, finished := true }) := by
  rw [BlockLayout.loggedBlock_fst]
  simp only [advance, hopen, hfile, hqueue]
  rcases b.framing.nextBlock b.records b.lost b.cursor with ⟨e | _ | _ | ⟨r, queue⟩, cursor⟩ <;> rfl

/-- Reading to the end is reading all of the file that is to come, what is queued first. -/
theorem toEnd_eq_walk (hsize : 0 < b.records.recordSize) (hlost : b.lost = .ok 0) :
    b.toEnd = .behind [] b.queue (b.framing.walk b.records b.cursor.offset b.cursor.rest) := by
  obtain ⟨n, hn⟩ : ∃ n, b.left = n := ⟨_, rfl⟩
  induction n using Nat.strongRecOn generalizing b with
  | ind n ih =>
  subst hn
  cases hqueue : b.queue with
  | cons r queue =>
    have hadvance := advance_queue hopen hfile hqueue
    have hless := advance_left (congrArg Prod.fst hadvance)
    rw [hadvance] at hless
    have hlater := ih _ hless (b := { b with queue }) hopen hfile hsize hlost rfl
    rw [toEnd_eq, hadvance, hlater]
    simp [requests, hqueue, BlockReading.behind]
  | nil =>
    have hrequests : b.requests = (b.framing.loggedBlock b.records b.lost b.cursor).2 := by
      simp [requests, hopen, hfile, hqueue]
    have hadvance := advance_block hopen hfile hqueue
    have hsome := b.framing.loggedBlock_ne_nil hsize b.lost b.cursor
    have hwalk := b.framing.walk_eq_loggedBlock b.records hlost b.cursor
    rcases hlogged : b.framing.loggedBlock b.records b.lost b.cursor with
      ⟨⟨e | _ | _ | ⟨r, queue⟩, cursor⟩, asked⟩
    · rw [hlogged] at hrequests hadvance hwalk
      rw [toEnd_eq, hadvance, hwalk, hrequests]
      rfl
    · rw [hlogged] at hrequests hadvance hwalk
      rw [toEnd_eq, hadvance, hwalk, hrequests]
      rfl
    · rw [hlogged] at hsome
      exact absurd rfl hsome
    · rw [hlogged] at hrequests hadvance hwalk
      have hless := advance_left (congrArg Prod.fst hadvance)
      rw [hadvance] at hless
      have hlater := ih _ hless (b := { b with cursor, queue }) hopen hfile hsize hlost rfl
      rw [toEnd_eq, hadvance, hwalk, hrequests, hlater]
      simp [BlockReading.behind]

end

end BlockFeed

/-- What a feed of blocks gives is what is read to the end. -/
theorem Feed.gives_blocks (b : BlockFeed) (taken : Nat) :
    Gives b.toEnd.fault none taken (b.toEnd.records.map .binary) (.blocks b) := by
  fun_induction BlockFeed.toEnd b generalizing taken with
  | case1 b e hfailed =>
    refine ends_blocks ?_
    rw [advance, hfailed]
    rfl
  | case2 b hnone =>
    refine ends_blocks ?_
    rw [advance, hnone]
    rfl
  | case3 b r hfound ih =>
    refine ⟨?_, ih (taken + 1)⟩
    rw [advance, hfound]
    rfl

end SciArchive
