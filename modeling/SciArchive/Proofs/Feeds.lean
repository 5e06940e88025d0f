import Mathlib.Logic.Function.Iterate
import SciArchive.Proofs.Streams

/-! What a feed gives from one look to the next. At its end it answers the same again and again, and from
its start it gives the same again. -/
namespace SciArchive

/-! ### Binary records side by side -/

/-- What is made of all whole slices of some bytes: of the first, then of those behind it. -/
theorem BinaryRecord.map_slices {α : Type} (f : Nat → List UInt8 → α) {size : Nat} {bytes : List UInt8}
    (hsize : 0 < size) (hlong : size ≤ bytes.length) :
    ((List.range (bytes.length / size)).map fun i => f i (slice bytes (i * size) size)) =
      f 0 (bytes.take size) :: (List.range ((bytes.drop size).length / size)).map fun i =>
        f (i + 1) (slice (bytes.drop size) (i * size) size) := by
  have hcount : bytes.length / size = (bytes.drop size).length / size + 1 := by
    rw [List.length_drop, ← Nat.add_div_right _ hsize, Nat.sub_add_cancel hlong]
  rw [hcount, List.range_succ_eq_map, List.map_cons, List.map_map]
  congr 1
  · simp [slice]
  · refine List.map_congr_left fun i _ => ?_
    have hnext : (i + 1) * size = size + i * size := by
      rw [Nat.add_mul, Nat.one_mul, Nat.add_comm]
    simp [slice, hnext, List.drop_drop]

namespace FixedSource

/-- The whole records in bytes, each with its offset. -/
def recordsOf (layout : RecordLayout) (position : Nat) (bytes : List UInt8) : List (Nat × Record) :=
  (List.range (bytes.length / layout.recordSize)).map fun i =>
    (position + i * layout.recordSize,
      .binary ⟨layout, BinaryRecord.slice bytes (i * layout.recordSize) layout.recordSize⟩)

variable {layout : RecordLayout} {position : Nat} {bytes : List UInt8}

theorem recordsOf_short (h : layout.recordSize = 0 ∨ bytes.length < layout.recordSize) :
    recordsOf layout position bytes = [] := by
  have hnone : bytes.length / layout.recordSize = 0 := Nat.div_eq_zero_iff.mpr h
  rw [recordsOf, hnone, List.range_zero, List.map_nil]

theorem recordsOf_long (hsize : 0 < layout.recordSize) (hlong : layout.recordSize ≤ bytes.length) :
    recordsOf layout position bytes =
      (position, .binary ⟨layout, bytes.take layout.recordSize⟩) ::
        recordsOf layout (position + layout.recordSize) (bytes.drop layout.recordSize) := by
  have hslices := BinaryRecord.map_slices (fun i bytes =>
    (position + i * layout.recordSize, Record.binary ⟨layout, bytes⟩)) hsize hlong
  rw [recordsOf, hslices, recordsOf, Nat.zero_mul, Nat.add_zero]
  simp only [Nat.add_mul, Nat.one_mul, Nat.add_assoc, Nat.add_comm layout.recordSize]

/-- The records that a source still gives. -/
def toCome (s : FixedSource) : List (Nat × Record) := recordsOf s.layout s.position s.cursor.rest

theorem read_snd (s : FixedSource) :
    s.read.2 = { s with
      cursor := (s.cursor.take s.layout.recordSize).2
      position := s.position + (s.cursor.rest.take s.layout.recordSize).length } := by
  rw [read]
  split <;> rfl

/-- Taking a record gives the first of those to come and leaves the others. -/
theorem read_spec (s : FixedSource) :
    s.read.1 = s.toCome.head? ∧ s.read.2.toCome = s.toCome.tail := by
  have hrest : s.read.2.cursor.rest = s.cursor.rest.drop s.layout.recordSize := by
    rw [read_snd, Cursor.take_rest]
  have hlayout : s.read.2.layout = s.layout := by rw [read_snd]
  have hposition : s.read.2.position = s.position + min s.layout.recordSize s.cursor.rest.length := by
    rw [read_snd, List.length_take]
  by_cases hshort : s.layout.recordSize = 0 ∨ s.cursor.rest.length < s.layout.recordSize
  · have hnone : s.toCome = [] := recordsOf_short hshort
    have hafter : s.read.2.toCome = [] := by
      refine recordsOf_short ?_
      rw [hlayout, hrest, List.length_drop]
      omega
    have hread : s.read.1 = none := by
      have hcut : (s.cursor.take s.layout.recordSize).1 = [] ∨
          (s.cursor.take s.layout.recordSize).1.length < s.layout.recordSize := by
        rw [Cursor.take_bytes, List.length_take, List.take_eq_nil_iff]
        omega
      rw [read, if_pos hcut]
    rw [hread, hafter, hnone]
    exact ⟨rfl, rfl⟩
  · have hlong : 0 < s.layout.recordSize ∧ s.layout.recordSize ≤ s.cursor.rest.length := by omega
    have hread : s.read.1 =
        some (s.position, .binary ⟨s.layout, s.cursor.rest.take s.layout.recordSize⟩) := by
      have hwhole : ¬ ((s.cursor.take s.layout.recordSize).1 = [] ∨
          (s.cursor.take s.layout.recordSize).1.length < s.layout.recordSize) := by
        rw [Cursor.take_bytes, ← List.length_eq_zero_iff, List.length_take]
        omega
      rw [read, if_neg hwhole, Cursor.take_bytes]
    rw [toCome, toCome, recordsOf_long hlong.1 hlong.2, hread, hlayout, hrest, hposition,
      Nat.min_eq_left hlong.2]
    exact ⟨rfl, rfl⟩

/-- The records of a file from an offset on. -/
def recordsFrom (layout : RecordLayout) (content : List UInt8) (offset : Nat) : List (Nat × Record) :=
  recordsOf layout offset (content.drop offset)

end FixedSource

/-! ### Sources -/

/-- The records of a file from an offset on, and its failures. -/
def Layout.recordsFrom (content : List UInt8) (offset : Nat) : Layout → List (Except Fault (Nat × Record))
  | .text l => LineSource.recordsFrom l content offset
  | .binary l => (FixedSource.recordsFrom l content offset).map .ok

namespace Source

/-- What a source of a file still gives, failures included. -/
def Yields (outcomes : List (Except Fault (Nat × Record))) : Source → Prop
  | lines s => s.toCome = outcomes
  | fixed s => s.toCome.map .ok = outcomes
  | folder => False

theorem yields_seek (layout : Layout) (content : List UInt8) (offset : Nat) :
    ((ofBytes content layout).seek offset).Yields (layout.recordsFrom content offset) := by
  cases layout <;> rfl

/-- A reading gives the first outcome and leaves the others. -/
theorem Yields.read {outcomes : List (Except Fault (Nat × Record))} {s : Source}
    (h : s.Yields outcomes) : s.read.1 = firstOutcome outcomes ∧ s.read.2.Yields outcomes.tail := by
  cases s with
  | lines s =>
    obtain ⟨hread, htail, -, -⟩ := s.read_spec
    cases h
    exact ⟨hread, htail⟩
  | fixed s =>
    obtain ⟨hread, htail⟩ := s.read_spec
    cases h
    refine ⟨?_, by rw [← List.map_tail, ← htail]; rfl⟩
    rw [Source.read, hread]
    cases s.toCome <;> rfl
  | folder => exact h.elim

theorem seek_read (s : Source) (offset : Nat) : s.read.2.seek offset = s.seek offset := by
  cases s with
  | lines s =>
    obtain ⟨-, -, hlayout, hcontent⟩ := s.read_spec
    simp only [read, seek, LineSource.seek, Cursor.seek, hlayout, hcontent]
  | fixed s =>
    simp only [read, seek, FixedSource.seek, FixedSource.read_snd]
    rfl
  | folder => rfl

theorem seek_readKept (keep : Record → Bool) (s : Source) (offset : Nat) :
    (s.readKept keep).2.seek offset = s.seek offset := by
  fun_induction readKept keep s with
  | case1 s => exact s.seek_read offset
  | case2 s => exact s.seek_read offset
  | case3 s => exact s.seek_read offset
  | case4 s _ _ _ _ ih => exact ih.trans (s.seek_read offset)

/-- A source that has nothing more to give has nothing more to give later. -/
theorem read_done {s : Source} (h : s.read.1 = .ok none) : s.read.2.read.1 = .ok none := by
  cases s with
  | lines s =>
    obtain ⟨hread, htail, -, -⟩ := s.read_spec
    have hnone : s.toCome = [] := firstOutcome_none (hread.symm.trans h)
    rw [hnone] at htail
    exact s.read.2.read_spec.1.trans (congrArg firstOutcome htail)
  | fixed s =>
    obtain ⟨hread, htail⟩ := s.read_spec
    have hnone : s.toCome = [] := by
      rw [← List.head?_eq_none_iff, ← hread]
      exact Except.ok.inj h
    rw [hnone] at htail
    exact congrArg Except.ok (s.read.2.read_spec.1.trans (congrArg List.head? htail))
  | folder => cases h

theorem readKept_done {keep : Record → Bool} {s : Source} (h : (s.readKept keep).1 = .ok none) :
    ((s.readKept keep).2.readKept keep).1 = .ok none := by
  fun_induction readKept keep s with
  | case1 => cases h
  | case2 s hnone =>
    have hlater := read_done hnone
    rw [readKept_eq, hlater]
  | case3 => cases h
  | case4 s offset r hr hkeep ih => exact ih h

end Source

/-! ### Feeds -/

namespace BlockLayout

theorem nextBlock_content (l : BlockLayout) (records : RecordLayout) (lost : Except Fault Nat) (c : Cursor) :
    (l.nextBlock records lost c).2.content = c.content := by
  fun_induction nextBlock l records lost c with
  | case4 c _ _ _ _ _ _ ih => exact ih
  | _ => rfl

end BlockLayout

namespace BlockFeed

theorem advance_finished {b : BlockFeed} (h : b.finished = true) : b.advance = (.ok none, b) := by
  rw [advance, if_pos h]

/-- What is no record finishes the reading. -/
theorem finished_of_advance {b : BlockFeed} (h : ∀ r, b.advance.1 ≠ .ok (some r)) :
    b.advance.2.finished = true := by
  unfold advance at h ⊢
  grind

theorem rewind_advance (b : BlockFeed) : b.advance.2.rewind = b.rewind := by
  have hcontent := b.framing.nextBlock_content b.records b.lost b.cursor
  unfold advance
  grind [rewind, Cursor.seek]

end BlockFeed

namespace Feed

/-- A look takes nothing away that beginning again does not bring back. -/
theorem rewind_advance (taken : Nat) (f : Feed) : (f.advance taken).2.rewind = f.rewind := by
  cases f with
  | scan source keep => exact congrArg (scan · keep) (source.seek_readKept keep 0)
  | keyed source offset count =>
    rw [advance]
    split
    · rfl
    · exact congrArg (keyed · offset count) (source.seek_read offset)
  | blocks b => exact congrArg blocks b.rewind_advance

/-- A feed that has no more records has none later. -/
theorem advance_done {taken : Nat} {f : Feed} (h : (f.advance taken).1 = .ok none) :
    ((f.advance taken).2.advance taken).1 = .ok none := by
  cases f with
  | scan source keep =>
    have hnone : (source.readKept keep).1 = .ok none := by
      simp only [advance] at h
      cases hread : (source.readKept keep).1 with
      | error e => simp [hread, Except.map] at h
      | ok found => cases found <;> simp_all [Except.map]
    simp only [advance, Source.readKept_done hnone]
    rfl
  | keyed source offset count =>
    by_cases hall : count ≤ taken
    · simp only [advance, if_pos hall]
    · rw [advance, if_neg hall] at h
      cases hread : source.read.1 with
      | error e => simp [hread] at h
      | ok found => cases found <;> simp [hread] at h
  | blocks b =>
    have hstop : ∀ r, b.advance.1 ≠ .ok (some r) := by
      intro r hr
      simp [advance, hr, Except.map] at h
    have hlater := BlockFeed.advance_finished (BlockFeed.finished_of_advance hstop)
    simp only [advance, hlater]
    rfl

/-! ### Ends -/

/-- The answer of a feed that has no record to give: that there is none, or a failure. -/
def closing : Option Fault → Except Fault (Option Record)
  | none => .ok none
  | some e => .error e

theorem found_or_closing (answer : Except Fault (Option Record)) :
    (∃ r, answer = .ok (some r)) ∨ ∃ e, answer = closing e := by
  rcases answer with e | _ | r
  · exact .inr ⟨some e, rfl⟩
  · exact .inr ⟨none, rfl⟩
  · exact .inl ⟨r, rfl⟩

/-- A feed that has no record to give now closes with `first`, and with `later` from then on. -/
structure Ends (taken : Nat) (first later : Option Fault) (f : Feed) : Prop where
  now : (f.advance taken).1 = closing first
  then_on : ∀ n, (((fun g => (g.advance taken).2)^[n + 1] f).advance taken).1 = closing later

variable {taken : Nat} {first later : Option Fault} {f : Feed}

theorem Ends.next (h : f.Ends taken first later) : (f.advance taken).2.Ends taken later later :=
  ⟨h.then_on 0, fun n => h.then_on (n + 1)⟩

/-- A feed ends if what holds behind its first answer is kept. -/
theorem Ends.of_kept {I : Feed → Prop}
    (hkept : ∀ g, I g → (g.advance taken).1 = closing later ∧ I (g.advance taken).2)
    (hnow : (f.advance taken).1 = closing first) (hbehind : I (f.advance taken).2) :
    f.Ends taken first later := by
  refine ⟨hnow, fun n => ?_⟩
  have hall : I ((fun g => (g.advance taken).2)^[n] (f.advance taken).2) := by
    induction n with
    | zero => exact hbehind
    | succ n ih =>
      rw [Function.iterate_succ_apply']
      exact (hkept _ ih).2
  exact (hkept _ hall).1

theorem ends_none (h : (f.advance taken).1 = .ok none) : f.Ends taken none none :=
  .of_kept (I := fun g => (g.advance taken).1 = .ok none) (fun _ hg => ⟨hg, advance_done hg⟩) h
    (advance_done h)

/-- Blocks end with their first failure. -/
theorem ends_blocks {b : BlockFeed} (h : ((Feed.blocks b).advance taken).1 = closing first) :
    (Feed.blocks b).Ends taken first none := by
  have hstop : ∀ r, b.advance.1 ≠ .ok (some r) := by
    intro r hr
    rw [advance, hr] at h
    cases first <;> cases h
  have hfinished := BlockFeed.finished_of_advance hstop
  refine .of_kept (I := fun g => g = .blocks b.advance.2) ?_ h rfl
  rintro _ rfl
  rw [advance, BlockFeed.advance_finished hfinished]
  exact ⟨rfl, rfl⟩

/-- The records that a feed gives, `taken` having been taken before the first, and how it ends. -/
def Gives (first later : Option Fault) : Nat → List Record → Feed → Prop
  | taken, [], f => f.Ends taken first later
  | taken, r :: rest, f =>
    (f.advance taken).1 = .ok (some r) ∧ Gives first later (taken + 1) rest (f.advance taken).2

/-- Feeds that come to the same give the same. -/
theorem Gives.congr {g : Feed} {all : List Record} (heq : f.advance taken = g.advance taken)
    (h : g.Gives first later taken all) : f.Gives first later taken all := by
  cases all with
  | nil =>
    refine ⟨(congrArg Prod.fst heq).trans h.now, fun n => ?_⟩
    have hlater := h.then_on n
    rw [Function.iterate_succ_apply] at hlater ⊢
    rw [heq]
    exact hlater
  | cons r all =>
    have hgives := h
    rw [Gives, ← heq] at hgives
    exact hgives

/-- A scan of records that can all be read gives those that it keeps. -/
theorem gives_scan {source : Source} (keep : Record → Bool) {found : List (Nat × Record)}
    (hyields : source.Yields (found.map .ok)) (taken : Nat) :
    Gives none none taken ((found.map Prod.snd).filter keep) (.scan source keep) := by
  induction found generalizing source taken with
  | nil =>
    have hread := hyields.read.1
    refine ends_none ?_
    rw [advance, Source.readKept_eq, hread]
    rfl
  | cons r found ih =>
    obtain ⟨hread, hlater⟩ := hyields.read
    rw [List.map_cons, List.filter_cons]
    by_cases hkeep : keep r.2 = true
    · have hadvance : (Feed.scan source keep).advance taken =
          (.ok (some r.2), .scan source.read.2 keep) := by
        rw [advance, Source.readKept_eq, hread]
        simp only [List.map_cons, firstOutcome, Except.map, if_pos hkeep, Option.map_some]
      rw [if_pos hkeep, Gives, hadvance]
      exact ⟨rfl, ih hlater (taken + 1)⟩
    · have hadvance : (Feed.scan source keep).advance taken =
          (Feed.scan source.read.2 keep).advance taken := by
        rw [advance, Source.readKept_eq, hread]
        simp only [List.map_cons, firstOutcome, Except.map, if_neg hkeep]
        rfl
      rw [if_neg hkeep]
      exact (ih hlater taken).congr hadvance

section
variable {source : Source} {offset count : Nat} {outcomes : List (Except Fault (Nat × Record))}

/-- A keyed feed that owes no more has ended. -/
theorem ends_keyed (hall : count ≤ taken) : (Feed.keyed source offset count).Ends taken none none := by
  refine ends_none ?_
  rw [advance, if_pos hall]

/-- A keyed feed that owes more than its source has fails at the end. -/
theorem ends_keyed_early (hyields : source.Yields []) (hmore : taken < count) :
    (Feed.keyed source offset count).Ends taken (some (.unexpectedEnd count taken))
      (some (.unexpectedEnd count taken)) := by
  have hadvance : ∀ source : Source, source.Yields [] →
      (Feed.keyed source offset count).advance taken =
        (closing (some (.unexpectedEnd count taken)), .keyed source.read.2 offset count) := by
    intro source hyields
    rw [advance, if_neg (Nat.not_le_of_gt hmore)]
    simp only [hyields.read.1]
    rfl
  refine .of_kept (I := fun g => ∃ source : Source, source.Yields [] ∧ g = .keyed source offset count) ?_
    (congrArg Prod.fst (hadvance source hyields)) ?_
  · rintro _ ⟨source, hyields, rfl⟩
    rw [hadvance source hyields]
    exact ⟨rfl, _, hyields.read.2, rfl⟩
  · rw [hadvance source hyields]
    exact ⟨_, hyields.read.2, rfl⟩

/-- A keyed feed gives the first of its records, and fails if they are too few. -/
theorem gives_keyed {found : List (Nat × Record)} {ending : Option Fault} (hyields : source.Yields outcomes)
    (hfound : outcomes.take (count - taken) = found.map .ok) (hfew : taken ≤ count)
    (hending : ending = if taken + found.length < count
      then some (.unexpectedEnd count (taken + found.length)) else none) :
    Gives ending ending taken (found.map Prod.snd) (.keyed source offset count) := by
  induction found generalizing source outcomes taken with
  | nil =>
    rw [hending, List.length_nil, Nat.add_zero]
    by_cases hmore : taken < count
    · have hnone : outcomes = [] := by
        rcases List.take_eq_nil_iff.mp hfound with hall | hnone
        · omega
        · exact hnone
      rw [hnone] at hyields
      rw [if_pos hmore]
      exact ends_keyed_early hyields hmore
    · rw [if_neg hmore]
      exact ends_keyed (Nat.le_of_not_lt hmore)
  | cons r found ih =>
    have hmore : taken < count := by
      by_contra hall
      rw [Nat.sub_eq_zero_of_le (Nat.le_of_not_lt hall)] at hfound
      cases hfound
    have hcount : count - taken = (count - (taken + 1)) + 1 := by omega
    have hlength : taken + (r :: found).length = taken + 1 + found.length := by
      rw [List.length_cons]
      omega
    rw [hlength] at hending
    cases outcomes with
    | nil => simp at hfound
    | cons o later =>
      rw [hcount, List.take_succ_cons, List.map_cons, List.cons.injEq] at hfound
      obtain ⟨hread, hlater⟩ := hyields.read
      have hadvance : (Feed.keyed source offset count).advance taken =
          (.ok (some r.2), .keyed source.read.2 offset count) := by
        rw [advance, if_neg (Nat.not_le_of_gt hmore)]
        simp only [hread, hfound.1]
        rfl
      rw [List.map_cons, Gives, hadvance]
      exact ⟨rfl, ih hlater hfound.2 hmore hending⟩

end

end Feed

/-! ### Reading to the end -/

namespace Stream

variable {l : Ledger} {s : Stream} {all : List Record} {first later : Option Fault}

section
variable (hopen : l.isClosed s.resource = false)
include hopen

theorem hasNext_pending {r : Record} (h : s.pending = some r) : s.hasNext l = (.ok true, s) := by
  simp [hasNext, whenOpen, hopen, h]

theorem next_none (h : s.pending = none) : s.next l = (.error .noRecordReady, s) := by
  simp [next, whenOpen, hopen, h]

theorem reset_open :
    s.reset l = (.ok (), { s with feed := s.feed.rewind, pending := none, taken := 0 }) := by
  simp [reset, whenOpen, hopen]

variable (hpending : s.pending = none)
include hpending

theorem hasNext_found {r : Record} (h : (s.feed.advance s.taken).1 = .ok (some r)) :
    s.hasNext l =
      (.ok true, { s with feed := (s.feed.advance s.taken).2, pending := some r }) := by
  have hadvance : s.feed.advance s.taken = (.ok (some r), (s.feed.advance s.taken).2) := Prod.ext h rfl
  rw [hasNext_open hopen hpending, hadvance]

theorem hasNext_closing {e : Option Fault} (h : (s.feed.advance s.taken).1 = Feed.closing e) :
    s.hasNext l =
      (e.elim (.ok false) .error, { s with feed := (s.feed.advance s.taken).2 }) := by
  have hadvance : s.feed.advance s.taken = (Feed.closing e, (s.feed.advance s.taken).2) := Prod.ext h rfl
  rw [hasNext_open hopen hpending, hadvance]
  cases e <;> rfl

theorem readUpTo_closing (h : (s.feed.advance s.taken).1 = Feed.closing first) :
    s.readUpTo l none = ([], first) := by
  have hmore := congrArg Prod.fst (hasNext_closing hopen hpending h)
  rw [readUpTo]
  cases first <;> grind

theorem readUpTo_found {r : Record} (h : (s.feed.advance s.taken).1 = .ok (some r)) :
    s.readUpTo l none =
      let rest := readUpTo l none
        { s with feed := (s.feed.advance s.taken).2, pending := none, taken := s.taken + 1 }
      (r :: rest.1, rest.2) := by
  have hmore := hasNext_found hopen hpending h
  have hnext := next_some (s := { s with feed := (s.feed.advance s.taken).2, pending := some r }) hopen rfl
  rw [readUpTo]
  grind

/-- What a feed gives is what is read to the end. -/
theorem readUpTo_of_gives (h : s.feed.Gives first later s.taken all) :
    s.readUpTo l none = (all, first) := by
  induction all generalizing s with
  | nil => exact readUpTo_closing hopen hpending h.now
  | cons r all ih =>
    have hrest := ih hopen rfl h.2
      (s := { s with feed := (s.feed.advance s.taken).2, pending := none, taken := s.taken + 1 })
    rw [readUpTo_found hopen hpending h.1, hrest]

/-- What is read to the end is what the feed gives, if it ends as told wherever a run of looks may lead. -/
theorem gives_of_readUpTo {I : Feed → Prop} (hkept : ∀ taken f, I f → I (f.advance taken).2)
    (hends : ∀ taken f, I f → (f.advance taken).1 = Feed.closing first → f.Ends taken first later)
    (hI : I s.feed) (h : s.readUpTo l none = (all, first)) : s.feed.Gives first later s.taken all := by
  induction all generalizing s with
  | nil =>
    rcases Feed.found_or_closing (s.feed.advance s.taken).1 with ⟨r, hr⟩ | ⟨e, he⟩
    · rw [readUpTo_found hopen hpending hr] at h
      simp at h
    · rw [readUpTo_closing hopen hpending he, Prod.mk.injEq] at h
      exact hends _ _ hI (h.2 ▸ he)
  | cons r all ih =>
    rcases Feed.found_or_closing (s.feed.advance s.taken).1 with ⟨found, hr⟩ | ⟨e, he⟩
    · rw [readUpTo_found hopen hpending hr] at h
      simp only [Prod.mk.injEq, List.cons.injEq] at h
      obtain ⟨⟨rfl, hrest⟩, hfirst⟩ := h
      exact ⟨hr, ih hopen rfl (hkept _ _ hI) (Prod.ext hrest hfirst) (s := { s with
        feed := (s.feed.advance s.taken).2, pending := none, taken := s.taken + 1 })⟩
    · rw [readUpTo_closing hopen hpending he] at h
      cases h

/-- Both ways of reading to the end come to the same, but one keeps what came before a failure. -/
theorem readAll_of_readUpTo (h : s.readUpTo l none = (all, first)) :
    (s.readAll l).1 = first.elim (.ok all) .error := by
  induction all generalizing s with
  | nil =>
    rcases Feed.found_or_closing (s.feed.advance s.taken).1 with ⟨r, hr⟩ | ⟨e, he⟩
    · rw [readUpTo_found hopen hpending hr] at h
      simp at h
    · rw [readUpTo_closing hopen hpending he, Prod.mk.injEq] at h
      obtain ⟨-, rfl⟩ := h
      cases e with
      | none => exact readAll_done hopen hpending he
      | some e => exact readAll_error hopen hpending he
  | cons r all ih =>
    rcases Feed.found_or_closing (s.feed.advance s.taken).1 with ⟨found, hr⟩ | ⟨e, he⟩
    · rw [readUpTo_found hopen hpending hr] at h
      simp only [Prod.mk.injEq, List.cons.injEq] at h
      obtain ⟨⟨rfl, hrest⟩, hfirst⟩ := h
      have hlater := ih hopen rfl (Prod.ext hrest hfirst) (s := { s with
        feed := (s.feed.advance s.taken).2, pending := none, taken := s.taken + 1 })
      rw [readAll_found hopen hpending (Prod.ext hr rfl), hlater]
      cases first <;> rfl
    · rw [readUpTo_closing hopen hpending he] at h
      cases h

theorem readUpTo_of_readAll (h : (s.readAll l).1 = .ok all) : s.readUpTo l none = (all, none) := by
  have heq : s.readUpTo l none = ((s.readUpTo l none).1, (s.readUpTo l none).2) := rfl
  have hsame := readAll_of_readUpTo hopen hpending heq
  rw [h] at hsame
  cases hending : (s.readUpTo l none).2 with
  | some e => simp [hending] at hsame
  | none =>
    rw [hending, Option.elim_none, Except.ok.injEq] at hsame
    rw [heq, hending, hsame]

/-- What is read to the end without failure is what the feed gives. -/
theorem gives_of_readAll (h : (s.readAll l).1 = .ok all) : s.feed.Gives none none s.taken all :=
  gives_of_readUpTo hopen hpending (I := fun _ => True) (fun _ _ _ => trivial)
    (fun _ _ _ hnone => Feed.ends_none hnone) trivial (readUpTo_of_readAll hopen hpending h)

end

end Stream
end SciArchive
