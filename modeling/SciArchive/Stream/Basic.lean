import SciArchive.Files.Resource
import SciArchive.Record.Source
import SciArchive.Stream.Blocks

/-! Streams of records over a resource. A record is looked for by `hasNext` and taken by `next`; `reset`
begins again. Once the resource is closed every call fails. -/
namespace SciArchive

/-- Where the records of a stream come from: all that a source gives and `keep` accepts, as many as
`count` from `offset` on, or blocks. -/
inductive Feed where
  | scan (source : Source) (keep : Record → Bool)
  | keyed (source : Source) (offset count : Nat)
  | blocks (b : BlockFeed)

namespace Feed

/-- Look for the next record, `taken` having been taken. A keyed feed that ends early fails. -/
def advance (taken : Nat) : Feed → Except Fault (Option Record) × Feed
  | scan source keep =>
    let r := source.readKept keep
    (r.1.map (Option.map Prod.snd), scan r.2 keep)
  | keyed source offset count =>
    if count ≤ taken then (.ok none, keyed source offset count)
    else
      let r := source.read
      let answer := match r.1 with
        | .error e => .error e
        | .ok none => .error (.unexpectedEnd count taken)
        | .ok (some found) => .ok (some found.2)
      (answer, keyed r.2 offset count)
  | blocks b =>
    let r := b.advance
    (r.1.map (Option.map Record.binary), blocks r.2)

def rewind : Feed → Feed
  | scan source keep => scan (source.seek 0) keep
  | keyed source offset count => keyed (source.seek offset) offset count
  | blocks b => blocks b.rewind

/-- The same feed after its file may have been written anew. `size` is that of the file now at its path. -/
def refresh (content : List UInt8) (size : Except Fault Nat) : Feed → Feed
  | scan source keep => scan (source.refresh content) keep
  | keyed source offset count => keyed (source.refresh content) offset count
  | blocks b => blocks (b.refresh content size)

/-- Bounds the number of records to come. -/
def left : Feed → Nat
  | scan source _ => source.left
  | keyed source _ _ => source.left
  | blocks b => b.left

theorem advance_left {taken : Nat} {f : Feed} {r : Record}
    (h : (f.advance taken).1 = .ok (some r)) : (f.advance taken).2.left < f.left := by
  cases f with
  | scan source keep =>
    simp only [advance] at h ⊢
    cases hr : (source.readKept keep).1 with
    | error e => simp [hr, Except.map] at h
    | ok found =>
      cases found with
      | none => simp [hr, Except.map] at h
      | some found => exact Source.readKept_left hr
  | keyed source offset count =>
    simp only [advance] at h ⊢
    split at h
    · simp at h
    · rename_i hmore
      rw [if_neg hmore]
      cases hr : source.read.1 with
      | error e => simp [hr] at h
      | ok found =>
        cases found with
        | none => simp [hr] at h
        | some found => exact Source.read_left hr
  | blocks b =>
    simp only [advance] at h ⊢
    cases hr : b.advance.1 with
    | error e => simp [hr, Except.map] at h
    | ok found =>
      cases found with
      | none => simp [hr, Except.map] at h
      | some found => exact BlockFeed.advance_left hr

end Feed

/-- `file` is the number of the file that was opened, if it is no folder; `pending` is a record found and
not yet taken; `taken` counts those taken since the start. -/
structure Stream where
  resource : Resource
  file : Option Nat
  feed : Feed
  pending : Option Record := none
  taken : Nat := 0

namespace Stream

/-- The stream as it goes on from the file's present bytes. -/
def refresh (d : Disk) (s : Stream) : Stream :=
  match s.file.bind d.held? with
  | none => s
  | some content => { s with feed := s.feed.refresh content (s.resource.size d) }

/-- Fail if the resource is closed, changing nothing. -/
def whenOpen {α : Type} (l : Ledger) (s : Stream) (call : Except Fault α × Stream) :
    Except Fault α × Stream :=
  if l.isClosed s.resource then (.error (.resourceClosed s.resource.path), s) else call

/-- Whether there is another record. -/
def hasNext (l : Ledger) (s : Stream) : Except Fault Bool × Stream :=
  s.whenOpen l <|
    if s.pending.isSome then (.ok true, s)
    else
      let r := s.feed.advance s.taken
      match r.1 with
      | .error e => (.error e, { s with feed := r.2 })
      | .ok none => (.ok false, { s with feed := r.2 })
      | .ok (some found) => (.ok true, { s with feed := r.2, pending := some found })

/-- Take the record that was found. -/
def next (l : Ledger) (s : Stream) : Except Fault Record × Stream :=
  s.whenOpen l <|
    match s.pending with
    | none => (.error .noRecordReady, s)
    | some r => (.ok r, { s with pending := none, taken := s.taken + 1 })

def reset (l : Ledger) (s : Stream) : Except Fault Unit × Stream :=
  s.whenOpen l (.ok (), { s with feed := s.feed.rewind, pending := none, taken := 0 })

/-- Bounds the number of records to come, the pending one included. -/
def left (s : Stream) : Nat := s.feed.left + if s.pending.isSome then 1 else 0

theorem hasNext_left {l : Ledger} {s : Stream} (h : (s.hasNext l).1 = .ok true) :
    (s.hasNext l).2.left ≤ s.left ∧ (s.hasNext l).2.pending.isSome := by
  unfold hasNext whenOpen at h ⊢
  split at h
  · simp at h
  · rename_i hopen
    rw [if_neg hopen]
    split at h
    · rename_i hp
      rw [if_pos hp]
      exact ⟨Nat.le_refl _, hp⟩
    · rename_i hp
      rw [if_neg hp]
      simp only at h ⊢
      split at h
      · simp at h
      · simp at h
      · rename_i found hfound
        have := Feed.advance_left hfound
        simp only [left, hfound, hp] at *
        simp
        omega

theorem next_left {l : Ledger} {s : Stream} {r : Record} (h : (s.next l).1 = .ok r) :
    (s.next l).2.left < s.left := by
  unfold next whenOpen at h ⊢
  split at h
  · simp at h
  · rename_i hopen
    rw [if_neg hopen]
    split at h
    · simp at h
    · rename_i found hp
      simp [left, hp]

/-- All records to come. What was read before a failure is lost with it. -/
def readAll (l : Ledger) (s : Stream) : Except Fault (List Record) × Stream :=
  match _more : (s.hasNext l).1 with
  | .error e => (.error e, (s.hasNext l).2)
  | .ok false => (.ok [], (s.hasNext l).2)
  | .ok true =>
    match _taken : ((s.hasNext l).2.next l).1 with
    | .error e => (.error e, ((s.hasNext l).2.next l).2)
    | .ok r =>
      let rest := readAll l ((s.hasNext l).2.next l).2
      (rest.1.map (r :: ·), rest.2)
termination_by s.left
decreasing_by exact Nat.lt_of_lt_of_le (next_left _taken) (hasNext_left _more).1

/-- The records to come, `limit` at most, and the failure that cut them short. -/
def readUpTo (l : Ledger) (limit : Option Nat) (s : Stream) : List Record × Option Fault :=
  if limit = some 0 then ([], none)
  else
    match _more : (s.hasNext l).1 with
    | .error e => ([], some e)
    | .ok false => ([], none)
    | .ok true =>
      match _taken : ((s.hasNext l).2.next l).1 with
      | .error e => ([], some e)
      | .ok r =>
        let rest := readUpTo l (limit.map Nat.pred) ((s.hasNext l).2.next l).2
        (r :: rest.1, rest.2)
termination_by s.left
decreasing_by exact Nat.lt_of_lt_of_le (next_left _taken) (hasNext_left _more).1

/-! ### Opening -/

/-- A stream that begins at `offset` in the file of the resource, or in a folder that cannot be read. -/
def openAt (d : Disk) (l : Ledger) (r : Resource) (offset : Nat) (onFile : List UInt8 → Feed)
    (onFolder : Feed) : Except Fault Stream :=
  (r.reopen d l).bind fun e =>
    if e.reach < offset then .error (.cannotRead .offsetTooLarge)
    else
      match e with
      | .file f => .ok { resource := r, file := some f.number, feed := onFile f.bytes }
      | .folder _ => .ok { resource := r, file := none, feed := onFolder }

/-- All records that `keep` accepts. -/
def scan (d : Disk) (l : Ledger) (r : Resource) (layout : Layout) (keep : Record → Bool) :
    Except Fault Stream :=
  openAt d l r 0 (fun content => .scan (.ofBytes content layout) keep) (.scan .folder keep)

/-- The `count` records from `offset` on. -/
def keyed (d : Disk) (l : Ledger) (r : Resource) (layout : Layout) (offset count : Nat) :
    Except Fault Stream :=
  openAt d l r offset
    (fun content => .keyed ((Source.ofBytes content layout).seek offset) offset count)
    (.keyed .folder offset count)

def blocks (d : Disk) (l : Ledger) (r : Resource) (records : RecordLayout) (framing : BlockLayout) :
    Except Fault Stream :=
  framing.check.bind fun _ =>
    openAt d l r 0 (fun content => .blocks (.new content framing records))
      (.blocks (.ofFolder framing records))

end Stream
end SciArchive
