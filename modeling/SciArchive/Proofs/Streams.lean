import SciArchive.Proofs.Disk
import SciArchive.Proofs.Lines
import SciArchive.Stream.Basic

/-! Streams over files of lines: what reading to the end gives, and which records any run of calls can
serve. -/
namespace SciArchive

/-! ### Outcomes -/

/-- The records that `keep` accepts, up to the first failure. -/
def scanned (keep : Record → Bool) : List (Except Fault (Nat × Record)) → Except Fault (List Record)
  | [] => .ok []
  | .error e :: _ => .error e
  | .ok found :: later =>
    if keep found.2 then (scanned keep later).map (found.2 :: ·) else scanned keep later

/-- The records among outcomes; failures are passed over. -/
def readable (outcomes : List (Except Fault (Nat × Record))) : List Record :=
  outcomes.filterMap fun o => o.toOption.map Prod.snd

@[simp] theorem readable_error (e : Fault) (later : List (Except Fault (Nat × Record))) :
    readable (.error e :: later) = readable later := rfl

@[simp] theorem readable_found (found : Nat × Record) (later : List (Except Fault (Nat × Record))) :
    readable (.ok found :: later) = found.2 :: readable later := rfl

@[simp] theorem readable_ok (records : List (Nat × Record)) :
    readable (records.map .ok) = records.map Prod.snd := by
  induction records with
  | nil => rfl
  | cons r records ih => simp [ih]

@[simp] theorem readable_append (before after : List (Except Fault (Nat × Record))) :
    readable (before ++ after) = readable before ++ readable after :=
  List.filterMap_append

theorem scanned_ok (keep : Record → Bool) (records : List (Nat × Record)) :
    scanned keep (records.map .ok) = .ok ((records.map Prod.snd).filter keep) := by
  induction records with
  | nil => rfl
  | cons r records ih =>
    simp only [List.map_cons, scanned, ih, List.filter_cons]
    split <;> rfl

/-- A scan that keeps everything and succeeds met no failure. -/
theorem scanned_all {outcomes : List (Except Fault (Nat × Record))} {all : List Record}
    (h : scanned (fun _ => true) outcomes = .ok all) :
    ∃ records : List (Nat × Record), outcomes = records.map .ok ∧ all = records.map Prod.snd := by
  induction outcomes generalizing all with
  | nil => cases h; exact ⟨[], rfl, rfl⟩
  | cons o later ih =>
    cases o with
    | error e => cases h
    | ok found =>
      simp only [scanned, if_true] at h
      cases hlater : scanned (fun _ => true) later with
      | error e => simp [hlater, Except.map] at h
      | ok rest =>
        rw [hlater] at h
        cases h
        obtain ⟨records, houtcomes, hrest⟩ := ih hlater
        exact ⟨found :: records, by rw [houtcomes]; rfl, by rw [hrest]; rfl⟩

namespace Source

/-! ### Searching -/

variable {keep : Record → Bool} {s : Source}

theorem readKept_eq :
    s.readKept keep =
      match s.read.1 with
      | .error e => (.error e, s.read.2)
      | .ok none => (.ok none, s.read.2)
      | .ok (some found) =>
        if keep found.2 then (.ok (some found), s.read.2) else s.read.2.readKept keep := by
  rw [readKept]
  split <;> rename_i hread <;> rw [hread]

theorem keep_of_readKept {found : Nat × Record} (h : (s.readKept keep).1 = .ok (some found)) :
    keep found.2 = true := by
  fun_induction readKept keep s with
  | case1 => cases h
  | case2 => cases h
  | case3 s offset r hr hkeep => cases h; exact hkeep
  | case4 s offset r hr hkeep ih => exact ih h

end Source

/-- A keyed feed that has not given all takes the first of the outcomes to come. -/
theorem Feed.advance_keyed {source : LineSource} (taken offset count : Nat)
    {o : Except Fault (Nat × Record)}
    {later : List (Except Fault (Nat × Record))} (h : source.toCome = o :: later)
    (hmore : taken < count) :
    (Feed.keyed (.lines source) offset count).advance taken =
        (o.map fun found => some found.2, .keyed (.lines source.read.2) offset count) ∧
      source.read.2.toCome = later := by
  obtain ⟨hread, htail, -, -⟩ := source.read_spec
  rw [h] at hread htail
  refine ⟨?_, htail⟩
  rw [advance, if_neg (Nat.not_le_of_gt hmore)]
  simp only [Source.read, hread]
  cases o <;> rfl

namespace Stream

/-! ### Reading to the end -/

variable {l : Ledger} {s : Stream}

/-- Looking for a record in an open stream that has found none yet. -/
theorem hasNext_open (hopen : l.isClosed s.resource = false) (hpending : s.pending = none) :
    s.hasNext l =
      match s.feed.advance s.taken with
      | (.error e, feed) => (.error e, { s with feed })
      | (.ok none, feed) => (.ok false, { s with feed })
      | (.ok (some found), feed) => (.ok true, { s with feed, pending := some found }) := by
  rw [hasNext, whenOpen, hopen, if_neg Bool.false_ne_true, hpending]
  obtain ⟨answer, feed⟩ := s.feed.advance s.taken
  cases answer with
  | error e => rfl
  | ok found => cases found <;> rfl

theorem next_some {r : Record} (hopen : l.isClosed s.resource = false) (h : s.pending = some r) :
    s.next l = (.ok r, { s with pending := none, taken := s.taken + 1 }) := by
  rw [next, whenOpen, hopen, h, if_neg Bool.false_ne_true]

theorem readAll_eq :
    s.readAll l =
      match (s.hasNext l).1 with
      | .error e => (.error e, (s.hasNext l).2)
      | .ok false => (.ok [], (s.hasNext l).2)
      | .ok true =>
        match ((s.hasNext l).2.next l).1 with
        | .error e => (.error e, ((s.hasNext l).2.next l).2)
        | .ok r =>
          let rest := readAll l ((s.hasNext l).2.next l).2
          (rest.1.map (r :: ·), rest.2) := by
  rw [readAll]
  split
  · rename_i e hmore
    rw [hmore]
  · rename_i hmore
    rw [hmore]
  · rename_i hmore
    rw [hmore]
    split <;> rename_i htaken <;> rw [htaken]

section
variable {feed : Feed} (hopen : l.isClosed s.resource = false) (hpending : s.pending = none)
include hopen hpending

theorem readAll_error {e : Fault} (h : (s.feed.advance s.taken).1 = .error e) :
    (s.readAll l).1 = .error e := by
  have hadvance : s.feed.advance s.taken = (.error e, (s.feed.advance s.taken).2) := Prod.ext h rfl
  rw [readAll_eq, hasNext_open hopen hpending, hadvance]

theorem readAll_done (h : (s.feed.advance s.taken).1 = .ok none) : (s.readAll l).1 = .ok [] := by
  have hadvance : s.feed.advance s.taken = (.ok none, (s.feed.advance s.taken).2) := Prod.ext h rfl
  rw [readAll_eq, hasNext_open hopen hpending, hadvance]

/-- A record that is found is the first of those read. -/
theorem readAll_found {r : Record} (h : s.feed.advance s.taken = (.ok (some r), feed)) :
    (s.readAll l).1 =
      (readAll l { s with feed, pending := none, taken := s.taken + 1 }).1.map (r :: ·) := by
  have hnext := next_some (s := { s with feed, pending := some r }) hopen rfl
  rw [readAll_eq, hasNext_open hopen hpending, h]
  simp only [hnext]

/-- Feeds that give the same leave the same to be read. -/
theorem readAll_congr (h : s.feed.advance s.taken = feed.advance s.taken) :
    (s.readAll l).1 = (readAll l { s with feed }).1 := by
  have hnext : s.hasNext l = hasNext l { s with feed } := by
    rw [hasNext_open hopen hpending, hasNext_open (s := { s with feed }) hopen hpending, h]
  rw [readAll_eq, hnext, ← readAll_eq]

/-- Reading a scan of lines to its end. -/
theorem readAll_scan {source : LineSource} {keep : Record → Bool}
    (hfeed : s.feed = .scan (.lines source) keep) :
    (s.readAll l).1 = scanned keep source.toCome := by
  obtain ⟨outcomes, houtcomes⟩ : ∃ outcomes, source.toCome = outcomes := ⟨_, rfl⟩
  induction outcomes generalizing s source with
  | nil =>
    have hread : (Source.lines source).read.1 = .ok none := by
      rw [Source.read, source.read_spec.1, houtcomes, firstOutcome]
    rw [houtcomes]
    refine readAll_done hopen hpending ?_
    rw [hfeed, Feed.advance, Source.readKept_eq, hread]
    rfl
  | cons o later ih =>
    have hread : (Source.lines source).read.1 = o.map some := by
      rw [Source.read, source.read_spec.1, houtcomes, firstOutcome]
    have htail : source.read.2.toCome = later := by
      rw [source.read_spec.2.1, houtcomes, List.tail_cons]
    rw [houtcomes]
    cases o with
    | error e =>
      refine readAll_error hopen hpending ?_
      rw [hfeed, Feed.advance, Source.readKept_eq, hread]
      rfl
    | ok found =>
      by_cases hkeep : keep found.2 = true
      · have hadvance : s.feed.advance s.taken =
            (.ok (some found.2), .scan (.lines source.read.2) keep) := by
          rw [hfeed, Feed.advance, Source.readKept_eq, hread, Except.map]
          simp only [if_pos hkeep]
          rfl
        have hrest := ih hopen rfl rfl htail (s := { s with
          feed := .scan (.lines source.read.2) keep, pending := none, taken := s.taken + 1 })
        rw [scanned, if_pos hkeep, readAll_found hopen hpending hadvance, hrest, htail]
      · have hadvance : s.feed.advance s.taken =
            Feed.advance s.taken (.scan (.lines source.read.2) keep) := by
          rw [hfeed, Feed.advance, Source.readKept_eq, hread, Except.map]
          simp only [if_neg hkeep]
          rfl
        have hrest := ih hopen hpending rfl htail (s := { s with
          feed := .scan (.lines source.read.2) keep })
        rw [scanned, if_neg hkeep, readAll_congr hopen hpending hadvance, hrest, htail]

/-- Reading a keyed stream to its end, when the records that it still owes come without failure. -/
theorem readAll_keyed {source : LineSource} {offset count : Nat} (records : List (Nat × Record))
    {later : List (Except Fault (Nat × Record))}
    (hfeed : s.feed = .keyed (.lines source) offset count)
    (htoCome : source.toCome = records.map .ok ++ later) (hcount : s.taken + records.length = count) :
    (s.readAll l).1 = .ok (records.map Prod.snd) := by
  induction records generalizing s source with
  | nil =>
    refine readAll_done hopen hpending ?_
    have hdone : count ≤ s.taken := Nat.le_of_eq hcount.symm
    rw [hfeed, Feed.advance, if_pos hdone]
  | cons found records ih =>
    rw [List.length_cons] at hcount
    obtain ⟨hadvance, htail⟩ := Feed.advance_keyed s.taken offset count htoCome (by omega)
    rw [← hfeed] at hadvance
    have hrest := ih hopen rfl rfl htail (by rw [← hcount]; simp only; omega) (s := { s with
      feed := .keyed (.lines source.read.2) offset count, pending := none, taken := s.taken + 1 })
    rw [readAll_found hopen hpending hadvance, hrest]
    rfl

end

/-! ### Opening -/

section
variable {d : Disk} {r : Resource} {content : List UInt8} (layout : TextLayout) (keep : Record → Bool)
  {offset : Nat} (count : Nat) (hopen : l.isClosed r = false)
  (hcontent : d.bytes? r.path = some content)
include hopen hcontent

theorem openAt_file (hoffset : offset ≤ content.length) (onFile : List UInt8 → Feed)
    (onFolder : Feed) :
    ∃ file, openAt d l r offset onFile onFolder =
      .ok { resource := r, file, feed := onFile content } := by
  obtain ⟨f, hentry, rfl⟩ := Disk.entry_of_bytes hcontent
  have hreach : ¬ (DiskEntry.file f).reach < offset :=
    Nat.not_lt_of_le (Nat.le_trans hoffset (Nat.le_max_left _ _))
  refine ⟨some f.number, ?_⟩
  rw [openAt, Resource.reopen, Ledger.check, hopen, Resource.entry, hentry]
  exact if_neg hreach

/-- A scan begins with the first line of its file. -/
theorem scan_file :
    ∃ file, scan d l r (.text layout) keep = .ok
      { resource := r, file, feed := .scan (.lines (.new content layout)) keep } :=
  openAt_file hopen hcontent (Nat.zero_le _) _ _

/-- A keyed stream begins with the line at its offset. -/
theorem keyed_file (hoffset : offset ≤ content.length) :
    ∃ file, keyed d l r (.text layout) offset count = .ok
      { resource := r, file
        feed := .keyed (.lines ((LineSource.new content layout).seek offset)) offset count } :=
  openAt_file hopen hcontent hoffset _ _

end

end Stream
end SciArchive
