import SciArchive.Proofs.Streams

/-! Runs of calls on a stream, failures and new beginnings included, and the records that they
return. -/
namespace SciArchive.Stream

/-! ### Calls -/

/-- What a reader of a stream can do. -/
inductive Call where
  | hasNext | next | reset
  deriving DecidableEq, Repr

/-- The record that a call returns, if it returns one, and the stream behind it. -/
def call (l : Ledger) (s : Stream) : Call → Option Record × Stream
  | .hasNext => (none, (s.hasNext l).2)
  | .next => ((s.next l).1.toOption, (s.next l).2)
  | .reset => (none, (s.reset l).2)

/-- The records that a run of calls returns. Resources may be closed meanwhile, so each call has its
own ledger. -/
def served : List (Ledger × Call) → Stream → List Record
  | [], _ => []
  | c :: calls, s => (s.call c.1 c.2).1.toList ++ served calls (s.call c.1 c.2).2

/-- All that a call can do to a stream. -/
inductive Step (s : Stream) : Option Record × Stream → Prop where
  | idle : Step s (none, s)
  | look (hpending : s.pending = none) :
      Step s (none, { s with
        feed := (s.feed.advance s.taken).2
        pending := (s.feed.advance s.taken).1.toOption.join })
  | take (r : Record) (hpending : s.pending = some r) :
      Step s (some r, { s with pending := none, taken := s.taken + 1 })
  | restart : Step s (none, { s with feed := s.feed.rewind, pending := none, taken := 0 })

/-- Looking for a record keeps the one that is found. -/
theorem hasNext_look {l : Ledger} {s : Stream} (hopen : l.isClosed s.resource = false)
    (hpending : s.pending = none) :
    (s.hasNext l).2 =
      { s with
        feed := (s.feed.advance s.taken).2
        pending := (s.feed.advance s.taken).1.toOption.join } := by
  rw [hasNext_open hopen hpending]
  obtain ⟨answer, feed⟩ := s.feed.advance s.taken
  obtain ⟨resource, file, _, pending, taken⟩ := s
  cases hpending
  cases answer with
  | error e => rfl
  | ok found => cases found <;> rfl

theorem call_step (l : Ledger) (s : Stream) (c : Call) : Step s (s.call l c) := by
  cases hclosed : l.isClosed s.resource with
  | true =>
    cases c <;> simp only [call, hasNext, next, reset, whenOpen, hclosed, if_true] <;> exact .idle
  | false =>
    cases c with
    | hasNext =>
      cases hpending : s.pending with
      | some r =>
        simp only [call, hasNext, whenOpen, hclosed, hpending, Option.isSome_some, if_true,
          Bool.false_eq_true, if_false]
        exact .idle
      | none =>
        rw [call, hasNext_look hclosed hpending]
        exact .look hpending
    | next =>
      cases hpending : s.pending with
      | none =>
        simp only [call, next, whenOpen, hclosed, hpending, Bool.false_eq_true, if_false]
        exact .idle
      | some r =>
        rw [call, next_some hclosed hpending]
        exact .take r hpending
    | reset =>
      simp only [call, reset, whenOpen, hclosed, Bool.false_eq_true, if_false]
      exact .restart

/-- What every step keeps holds for all that a run returns. -/
theorem served_of_step {P : Stream → Prop} {q : Record → Prop}
    (hstep : ∀ s out, P s → Step s out → P out.2 ∧ ∀ r, out.1 = some r → q r) {s : Stream} (h : P s)
    (calls : List (Ledger × Call)) : ∀ r ∈ served calls s, q r := by
  induction calls generalizing s with
  | nil => intro r hr; cases hr
  | cons c calls ih =>
    obtain ⟨hafter, hgiven⟩ := hstep s _ h (call_step c.1 s c.2)
    intro r hr
    rcases List.mem_append.mp hr with hr | hr
    · exact hgiven r (Option.mem_toList.mp hr)
    · exact ih hafter r hr

/-! ### Scans -/

/-- A scan that found a record found one that it keeps. -/
structure Sifts (keep : Record → Bool) (s : Stream) : Prop where
  feed : ∃ source, s.feed = .scan source keep
  pending : ∀ r, s.pending = some r → keep r = true

/-- What a scan comes to is kept. -/
theorem keep_of_advance {keep : Record → Bool} {source : Source} {taken : Nat} {r : Record}
    (h : ((Feed.scan source keep).advance taken).1.toOption.join = some r) : keep r = true := by
  simp only [Feed.advance] at h
  cases hanswer : (source.readKept keep).1 with
  | error e => simp [hanswer, Except.map, Except.toOption] at h
  | ok found =>
    cases found with
    | none => simp [hanswer, Except.map, Except.toOption] at h
    | some found =>
      simp only [hanswer, Except.map, Except.toOption, Option.map_some, Option.join_some,
        Option.some_inj] at h
      rw [← h]
      exact Source.keep_of_readKept hanswer

theorem Sifts.step {keep : Record → Bool} {s : Stream} {out : Option Record × Stream}
    (h : s.Sifts keep) (hstep : Step s out) :
    out.2.Sifts keep ∧ ∀ r, out.1 = some r → keep r = true := by
  obtain ⟨source, hfeed⟩ := h.feed
  cases hstep with
  | idle => exact ⟨h, by rintro r ⟨⟩⟩
  | look hpending =>
    rw [hfeed]
    refine ⟨?_, by rintro r ⟨⟩⟩
    exact { feed := ⟨(source.readKept keep).2, rfl⟩, pending := fun r hr => keep_of_advance hr }
  | take r hpending =>
    refine ⟨{ feed := ⟨source, hfeed⟩, pending := by rintro r ⟨⟩ }, ?_⟩
    rintro _ ⟨⟩
    exact h.pending r hpending
  | restart =>
    rw [hfeed]
    refine ⟨?_, by rintro r ⟨⟩⟩
    exact { feed := ⟨source.seek 0, rfl⟩, pending := by rintro r ⟨⟩ }

/-- A scan returns no record that it should pass over. -/
theorem served_scan {keep : Record → Bool} {s : Stream} {source : Source}
    (hfeed : s.feed = .scan source keep)
    (hpending : s.pending = none) (calls : List (Ledger × Call)) :
    ∀ r ∈ served calls s, keep r = true := by
  have hstart : s.Sifts keep := ⟨⟨source, hfeed⟩, fun r hr => by rw [hpending] at hr; cases hr⟩
  exact served_of_step (fun s out h hstep => h.step hstep) hstart calls

/-! ### Keyed streams -/

/-- A keyed stream has passed over the first of the outcomes from its offset on. The records among
them are those taken and the one that is pending, never more than it owes. -/
structure Stands (layout : TextLayout) (content : List UInt8) (offset count : Nat)
    (source : LineSource)
    (passed : List (Except Fault (Nat × Record))) (taken : List Record) (s : Stream) : Prop where
  feed : s.feed = .keyed (.lines source) offset count
  layout_eq : source.layout = layout
  content_eq : source.cursor.content = content
  outcomes : LineSource.recordsFrom layout content offset = passed ++ source.toCome
  found : readable passed = taken ++ s.pending.toList
  length_taken : taken.length = s.taken
  most : (readable passed).length ≤ count

variable {layout : TextLayout} {content : List UInt8} {offset count : Nat}

theorem Stands.start {s : Stream}
    (hfeed : s.feed = .keyed (.lines ((LineSource.new content layout).seek offset)) offset count)
    (hpending : s.pending = none) (htaken : s.taken = 0) :
    s.Stands layout content offset count ((LineSource.new content layout).seek offset) [] [] where
  feed := hfeed
  layout_eq := rfl
  content_eq := rfl
  outcomes := rfl
  found := by rw [hpending]; rfl
  length_taken := htaken.symm
  most := Nat.zero_le _

/-- What a look into the outcomes to come finds. -/
theorem Stands.look {source : LineSource} {passed : List (Except Fault (Nat × Record))}
    {taken : List Record} {s : Stream}
    (h : s.Stands layout content offset count source passed taken) (hpending : s.pending = none) :
    ∃ source passed,
      Stands layout content offset count source passed taken { s with
        feed := (s.feed.advance s.taken).2
        pending := (s.feed.advance s.taken).1.toOption.join } := by
  have hgiven : readable passed = taken := by simpa [hpending] using h.found
  by_cases hmore : s.taken < count
  · obtain ⟨hread, htail, hlayout, hcontent⟩ := source.read_spec
    cases houtcomes : source.toCome with
    | nil =>
      -- the file ends too early, and the failure leaves the stream where it was
      rw [houtcomes] at hread htail
      have hadvance : s.feed.advance s.taken =
          (.error (.unexpectedEnd count s.taken), .keyed (.lines source.read.2) offset count) := by
        rw [h.feed, Feed.advance, if_neg (Nat.not_le_of_gt hmore)]
        simp only [Source.read, hread, firstOutcome]
      rw [hadvance]
      refine ⟨source.read.2, passed, ?_⟩
      exact {
        feed := rfl
        layout_eq := hlayout.trans h.layout_eq
        content_eq := hcontent.trans h.content_eq
        outcomes := by rw [h.outcomes, houtcomes, htail]; rfl
        found := by rw [hgiven]; exact (List.append_nil taken).symm
        length_taken := h.length_taken
        most := h.most }
    | cons o later =>
      obtain ⟨hadvance, hlater⟩ := Feed.advance_keyed s.taken offset count houtcomes hmore
      have hcount : (readable (passed ++ [o])).length ≤ count := by
        rw [readable_append, hgiven, List.length_append, h.length_taken]
        cases o with
        | error e => exact Nat.le_of_lt hmore
        | ok found => exact hmore
      rw [h.feed, hadvance]
      refine ⟨source.read.2, passed ++ [o], ?_⟩
      exact {
        feed := rfl
        layout_eq := hlayout.trans h.layout_eq
        content_eq := hcontent.trans h.content_eq
        outcomes := by rw [h.outcomes, houtcomes, hlater, List.append_assoc]; rfl
        found := by rw [readable_append, hgiven]; cases o <;> rfl
        length_taken := h.length_taken
        most := hcount }
  · have hadvance : s.feed.advance s.taken = (.ok none, s.feed) := by
      rw [h.feed, Feed.advance, if_pos (Nat.le_of_not_lt hmore)]
    rw [hadvance]
    refine ⟨source, passed, { h with found := ?_ }⟩
    rw [hgiven]
    exact (List.append_nil taken).symm

/-- Taking the record that is pending. -/
theorem Stands.take {source : LineSource} {passed : List (Except Fault (Nat × Record))}
    {taken : List Record} {s : Stream} {r : Record}
    (h : s.Stands layout content offset count source passed taken) (hpending : s.pending = some r) :
    Stands layout content offset count source passed (taken ++ [r])
        { s with pending := none, taken := s.taken + 1 } ∧
      r ∈ (readable (LineSource.recordsFrom layout content offset)).take count := by
  have hfound : readable passed = taken ++ [r] := by rw [h.found, hpending]; rfl
  constructor
  · exact { h with
      found := by rw [hfound]; exact (List.append_nil _).symm
      length_taken := by rw [List.length_append, h.length_taken]; rfl }
  · rw [h.outcomes, readable_append, List.take_append, List.take_of_length_le h.most, hfound]
    exact List.mem_append_left _ (List.mem_append_right _ List.mem_cons_self)

/-- A stream that begins again has passed over nothing. -/
theorem Stands.restart {source : LineSource} {passed : List (Except Fault (Nat × Record))}
    {taken : List Record} {s : Stream}
    (h : s.Stands layout content offset count source passed taken) :
    Stands layout content offset count (source.seek offset) [] []
      { s with feed := s.feed.rewind, pending := none, taken := 0 } where
  feed := by rw [h.feed]; rfl
  layout_eq := h.layout_eq
  content_eq := h.content_eq
  outcomes := by rw [LineSource.toCome_seek, h.layout_eq, h.content_eq]; rfl
  found := rfl
  length_taken := rfl
  most := Nat.zero_le _

/-- Every step leaves a keyed stream somewhere in the same outcomes, and what it returns is one of
the first records among them. -/
theorem Stands.step {source : LineSource} {passed : List (Except Fault (Nat × Record))}
    {taken : List Record} {s : Stream} {out : Option Record × Stream}
    (h : s.Stands layout content offset count source passed taken) (hstep : Step s out) :
    (∃ source passed taken, out.2.Stands layout content offset count source passed taken) ∧
      ∀ r, out.1 = some r →
        r ∈ (readable (LineSource.recordsFrom layout content offset)).take count := by
  cases hstep with
  | idle => exact ⟨⟨source, passed, taken, h⟩, by rintro r ⟨⟩⟩
  | look hpending =>
    obtain ⟨source, passed, h⟩ := h.look hpending
    exact ⟨⟨source, passed, taken, h⟩, by rintro r ⟨⟩⟩
  | take r hpending =>
    obtain ⟨hafter, hfirst⟩ := h.take hpending
    refine ⟨⟨source, passed, taken ++ [r], hafter⟩, ?_⟩
    rintro _ ⟨⟩
    exact hfirst
  | restart => exact ⟨⟨source.seek offset, [], [], h.restart⟩, by rintro r ⟨⟩⟩

/-- Whatever is called, a keyed stream returns no record but the first ones from its offset on, as
many as it owes. -/
theorem served_keyed {s : Stream}
    (hfeed : s.feed = .keyed (.lines ((LineSource.new content layout).seek offset)) offset count)
    (hpending : s.pending = none) (htaken : s.taken = 0) (calls : List (Ledger × Call)) :
    ∀ r ∈ served calls s, r ∈ (readable (LineSource.recordsFrom layout content offset)).take count := by
  have hstart := Stands.start hfeed hpending htaken
  refine served_of_step
    (P := fun s => ∃ source passed taken, s.Stands layout content offset count source passed taken) ?_
    ⟨_, _, _, hstart⟩ calls
  rintro s out ⟨source, passed, taken, h⟩ hstep
  exact h.step hstep

/-- Looking and taking again and again, whatever fails, returns all records that a keyed stream
still owes, as far as there are any. -/
theorem exists_served_keyed {l : Ledger} {s : Stream} {source : LineSource}
    (hopen : l.isClosed s.resource = false) (hfeed : s.feed = .keyed (.lines source) offset count)
    (hpending : s.pending = none) :
    ∃ calls, served calls s = (readable source.toCome).take (count - s.taken) := by
  obtain ⟨outcomes, houtcomes⟩ : ∃ outcomes, source.toCome = outcomes := ⟨_, rfl⟩
  induction outcomes generalizing s source with
  | nil => exact ⟨[], by rw [houtcomes]; exact List.take_nil.symm⟩
  | cons o later ih =>
    by_cases hmore : s.taken < count
    · obtain ⟨hadvance, hlater⟩ := Feed.advance_keyed s.taken offset count houtcomes hmore
      have hlook := hasNext_look hopen hpending
      rw [hfeed, hadvance] at hlook
      rw [houtcomes]
      cases o with
      | error e =>
        obtain ⟨calls, hcalls⟩ := ih hopen rfl rfl hlater
          (s := { s with feed := .keyed (.lines source.read.2) offset count, pending := none })
        refine ⟨(l, .hasNext) :: calls, ?_⟩
        rw [hlater] at hcalls
        rw [served, call, hlook]
        exact hcalls
      | ok found =>
        obtain ⟨calls, hcalls⟩ := ih hopen rfl rfl hlater (s := { s with
          feed := .keyed (.lines source.read.2) offset count, pending := none, taken := s.taken + 1 })
        refine ⟨(l, .hasNext) :: (l, .next) :: calls, ?_⟩
        have hcount : count - s.taken = count - (s.taken + 1) + 1 := by omega
        rw [hlater] at hcalls
        have hnext := next_some hopen rfl (r := found.2) (s := { s with
          feed := .keyed (.lines source.read.2) offset count, pending := some found.2 })
        rw [served, call, hlook, served, call]
        refine (congrArg (fun out => out.1.toOption.toList ++ served calls out.2) hnext).trans ?_
        rw [hcount]
        exact congrArg (found.2 :: ·) hcalls
    · exact ⟨[], by rw [Nat.sub_eq_zero_of_le (Nat.le_of_not_lt hmore)]; exact List.take_zero.symm⟩

end SciArchive.Stream
