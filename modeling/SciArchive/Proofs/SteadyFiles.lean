import SciArchive.Proofs.Feeds

/-! Reading a file that is not written meanwhile. How much of it was fetched ahead makes no difference, since
the file still has the bytes that were fetched. -/
namespace SciArchive

/-! ### Cursors -/

namespace Cursor

/-- Both cursors stand at the same place of a file, whatever they have fetched. -/
structure Together (content : List UInt8) (c c' : Cursor) : Prop where
  contents : c.content = content ∧ c'.content = content
  offset : c'.offset = c.offset
  rest : c.rest = content.drop c.offset ∧ c'.rest = content.drop c.offset

variable {content : List UInt8} {c c' : Cursor}

theorem Together.rest_eq (h : c.Together content c') : c'.rest = c.rest := h.rest.2.trans h.rest.1.symm

theorem Together.right (h : c.Together content c') : c'.Together content c' where
  contents := ⟨h.contents.2, h.contents.2⟩
  offset := rfl
  rest := by
    rw [h.offset]
    exact ⟨h.rest.2, h.rest.2⟩

theorem Together.seek_eq (h : c.Together content c') (offset : Nat) : c'.seek offset = c.seek offset := by
  simp [seek, h.contents]

theorem together_seek (hcontent : c.content = content) (offset : Nat) :
    (c.seek offset).Together content (c.seek offset) := by
  constructor <;> simp [seek, hcontent]

theorem Together.advance (h : c.Together content c') (n more more' : Nat) :
    (c.advance n more).Together content (c'.advance n more') where
  contents := h.contents
  offset := congrArg (· + n) h.offset
  rest := by simp [Cursor.advance, h.rest, List.drop_drop]

theorem Together.passLine (h : c.Together content c') (n : Nat) :
    (c.passLine n).Together content (c'.passLine n) := h.advance n _ _

theorem Together.take (h : c.Together content c') (n : Nat) :
    (c'.take n).1 = (c.take n).1 ∧ (c.take n).2.Together content (c'.take n).2 := by
  have hbytes : (c'.take n).1 = (c.take n).1 := by rw [take_bytes, take_bytes, h.rest_eq]
  refine ⟨hbytes, ?_⟩
  simp only [Cursor.take, h.rest_eq]
  exact h.advance _ _ _

/-- What was fetched, followed by what the file has behind it, is what the file has. -/
theorem Together.refresh (h : c.Together content c) : c.Together content (c.refresh content) where
  contents := ⟨h.contents.1, rfl⟩
  offset := rfl
  rest := by
    refine ⟨h.rest.1, ?_⟩
    rw [Cursor.refresh, ← List.drop_drop, ← h.rest.1, List.length_take]
    rcases Nat.le_total c.held c.rest.length with hsome | hall
    · rw [Nat.min_eq_left hsome, List.take_append_drop]
    · rw [Nat.min_eq_right hall, List.take_of_length_le hall, List.drop_length, List.append_nil]

end Cursor

/-! ### Sources -/

variable {content : List UInt8}

namespace LineSource

theorem nextLine_nil {position : Nat} {c : Cursor} (h : c.rest = []) :
    nextLine position c = (.ok none, position, c) := by
  rw [nextLine]
  split
  · rfl
  · rename_i hrest
    cases hrest.symm.trans h

theorem nextLine_cons {position : Nat} {c : Cursor} {b : UInt8} {bs : List UInt8} (h : c.rest = b :: bs) :
    nextLine position c =
      let line := firstLine (b :: bs)
      let after := c.passLine line.length
      match Utf8.decode? line with
      | none => (.error .notText, position, after)
      | some cs =>
        let text := withoutLineEnd cs
        if isSkipped text then nextLine (position + line.length) after
        else (.ok (some (position, String.ofList text)), position + line.length, after) := by
  rw [nextLine]
  split
  · rename_i hrest
    cases hrest.symm.trans h
  · rename_i hrest
    cases hrest.symm.trans h
    rfl

theorem nextLine_together (position : Nat) {c c' : Cursor} (h : c.Together content c') :
    (nextLine position c').1 = (nextLine position c).1 ∧
      (nextLine position c').2.1 = (nextLine position c).2.1 ∧
      (nextLine position c).2.2.Together content (nextLine position c').2.2 := by
  revert c'
  fun_induction nextLine position c with
  | case1 position c hrest =>
    intro c' h
    rw [nextLine_nil (h.rest_eq.trans hrest)]
    exact ⟨rfl, rfl, h⟩
  | case2 position c b bs hrest line after =>
    rename_i hdecode
    intro c' h
    rw [nextLine_cons (h.rest_eq.trans hrest)]
    simp only [line] at hdecode
    simp only [hdecode]
    exact ⟨trivial, trivial, h.passLine _⟩
  | case3 position c b bs hrest line after cs hdecode text hskip =>
    rename_i ih
    intro c' h
    rw [nextLine_cons (h.rest_eq.trans hrest)]
    simp only [line] at hdecode
    simp only [text] at hskip
    simp only [hdecode, if_pos hskip]
    exact ih (h.passLine _)
  | case4 position c b bs hrest line after cs hdecode text =>
    rename_i hdata
    intro c' h
    rw [nextLine_cons (h.rest_eq.trans hrest)]
    simp only [line] at hdecode
    simp only [text] at hdata
    simp only [hdecode, if_neg hdata]
    exact ⟨rfl, rfl, h.passLine _⟩

theorem read_snd (s : LineSource) : s.read.2 = s.readLine.2 := by
  rw [read]
  split <;> rfl

end LineSource

namespace Source

/-- Both sources read the same file and have come to the same place. -/
inductive Together (content : List UInt8) : Source → Source → Prop
  | lines {c c' : Cursor} (layout : TextLayout) (position : Nat) (h : c.Together content c') :
      Together content (lines ⟨c, layout, position⟩) (lines ⟨c', layout, position⟩)
  | fixed {c c' : Cursor} (layout : RecordLayout) (position : Nat) (h : c.Together content c') :
      Together content (fixed ⟨c, layout, position⟩) (fixed ⟨c', layout, position⟩)

variable {s s' : Source}

theorem together_ofBytes (content : List UInt8) (layout : Layout) (offset : Nat) :
    ((ofBytes content layout).seek offset).Together content ((ofBytes content layout).seek offset) := by
  have hcursor := Cursor.together_seek (rfl : (Cursor.new content).content = content) offset
  cases layout with
  | text l => exact .lines l offset hcursor
  | binary l => exact .fixed l offset hcursor

theorem Together.right (h : s.Together content s') : s'.Together content s' := by
  cases h with
  | lines layout position h => exact .lines layout position h.right
  | fixed layout position h => exact .fixed layout position h.right

theorem Together.seek_eq (h : s.Together content s') (offset : Nat) : s'.seek offset = s.seek offset := by
  cases h with
  | lines layout position h => simp only [seek, LineSource.seek, h.seek_eq]
  | fixed layout position h => simp only [seek, FixedSource.seek, h.seek_eq]

theorem Together.refresh (h : s.Together content s) : s.Together content (s.refresh content) := by
  cases h with
  | lines layout position h => exact .lines layout position h.refresh
  | fixed layout position h => exact .fixed layout position h.refresh

theorem Together.read (h : s.Together content s') :
    s'.read.1 = s.read.1 ∧ s.read.2.Together content s'.read.2 := by
  cases h with
  | @lines c c' layout position h =>
    obtain ⟨hline, hposition, hcursor⟩ := LineSource.nextLine_together position h
    constructor
    · simp only [Source.read, LineSource.read, LineSource.readLine, hline]
      split <;> rfl
    · simp only [Source.read, LineSource.read_snd, LineSource.readLine, hposition]
      exact .lines layout _ hcursor
  | @fixed c c' layout position h =>
    obtain ⟨hbytes, hcursor⟩ := h.take layout.recordSize
    constructor
    · simp only [Source.read, FixedSource.read, hbytes]
      split <;> rfl
    · simp only [Source.read, FixedSource.read_snd, h.rest_eq]
      exact .fixed layout _ hcursor

theorem Together.readKept (h : s.Together content s') (keep : Record → Bool) :
    (s'.readKept keep).1 = (s.readKept keep).1 ∧
      (s.readKept keep).2.Together content (s'.readKept keep).2 := by
  revert s'
  fun_induction Source.readKept keep s with
  | case1 s e hread =>
    intro s' h
    obtain ⟨hanswer, hlater⟩ := h.read
    rw [readKept_eq, hanswer, hread]
    exact ⟨rfl, hlater⟩
  | case2 s hread =>
    intro s' h
    obtain ⟨hanswer, hlater⟩ := h.read
    rw [readKept_eq, hanswer, hread]
    exact ⟨rfl, hlater⟩
  | case3 s offset r hread hkeep =>
    intro s' h
    obtain ⟨hanswer, hlater⟩ := h.read
    rw [readKept_eq, hanswer, hread]
    simp only [if_pos hkeep]
    exact ⟨trivial, hlater⟩
  | case4 s offset r hread hkeep ih =>
    intro s' h
    obtain ⟨hanswer, hlater⟩ := h.read
    rw [readKept_eq, hanswer, hread]
    simp only [if_neg hkeep]
    exact ih hlater

end Source

/-! ### Feeds -/

theorem BlockLayout.nextBlock_together (l : BlockLayout) (records : RecordLayout) (lost : Except Fault Nat)
    {c c' : Cursor} (h : c.Together content c') :
    (l.nextBlock records lost c').1 = (l.nextBlock records lost c).1 ∧
      (l.nextBlock records lost c).2.Together content (l.nextBlock records lost c').2 := by
  revert c'
  fun_induction nextBlock l records lost c with
  | case1 c hshort =>
    intro c' h
    rw [nextBlock, h.rest_eq, if_pos hshort]
    exact ⟨rfl, (h.take _).2⟩
  | case2 c hlong header after found =>
    rename_i hforeign
    intro c' h
    obtain ⟨hheader, hafter⟩ := h.take l.headerSize
    rw [nextBlock, h.rest_eq, if_neg hlong]
    simp only [header] at hforeign
    simp only [hheader, hforeign]
    exact ⟨trivial, hafter⟩
  | case3 c hlong header after hmarked =>
    rename_i houtside
    intro c' h
    obtain ⟨hheader, hafter⟩ := h.take l.headerSize
    rw [nextBlock, h.rest_eq, if_neg hlong]
    simp only [header] at hmarked houtside
    simp only [hheader, hmarked, if_pos houtside]
    exact ⟨trivial, hafter⟩
  | case4 c hlong header after hmarked hinside hzero =>
    rename_i ih
    intro c' h
    obtain ⟨hheader, hafter⟩ := h.take l.headerSize
    rw [nextBlock, h.rest_eq, if_neg hlong]
    simp only [header] at hmarked hinside hzero
    simp only [hheader, hmarked, if_neg hinside, if_pos hzero]
    exact ih hafter
  | case5 c hlong header after hmarked hinside hcount e =>
    rename_i hlost
    intro c' h
    obtain ⟨hheader, hafter⟩ := h.take l.headerSize
    rw [nextBlock, h.rest_eq, if_neg hlong]
    simp only [header] at hmarked hinside hcount
    simp only [hheader, hmarked, if_neg hinside, if_neg hcount, hlost]
    exact ⟨trivial, hafter⟩
  | case6 c hlong header after hmarked hinside hcount known hlost =>
    rename_i hcut
    intro c' h
    obtain ⟨hheader, hafter⟩ := h.take l.headerSize
    rw [nextBlock, h.rest_eq, if_neg hlong]
    simp only [header, after] at hmarked hinside hcount hcut
    simp only [hheader, hmarked, if_neg hinside, if_neg hcount, hlost, hafter.rest_eq, hcut]
    exact ⟨trivial, hafter⟩
  | case7 c hlong header after hmarked hinside hcount known hlost size =>
    rename_i hfits
    intro c' h
    obtain ⟨hheader, hafter⟩ := h.take l.headerSize
    obtain ⟨hblock, hbehind⟩ := hafter.take size
    rw [nextBlock, h.rest_eq, if_neg hlong]
    simp only [header, after] at hmarked hinside hcount hfits
    simp only [hheader, hmarked, if_neg hinside, if_neg hcount, hlost, hafter.rest_eq, hfits, hblock]
    exact ⟨rfl, hbehind⟩

/-- A look moves the cursor of a reader of blocks only, and does so from the same place to the same place. -/
theorem BlockFeed.advance_together {b : BlockFeed} {c' : Cursor} (h : b.cursor.Together content c') :
    (advance { b with cursor := c' }).1 = b.advance.1 ∧
      ∃ c, b.advance.2.cursor.Together content c ∧
        (advance { b with cursor := c' }).2 = { b.advance.2 with cursor := c } := by
  obtain ⟨hanswer, hlater⟩ := b.framing.nextBlock_together b.records b.lost h
  by_cases hfinished : b.finished = true
  · simp only [advance, if_pos hfinished]
    exact ⟨trivial, c', h, rfl⟩
  · by_cases hfolder : b.folder = true
    · simp only [advance, if_neg hfinished, if_pos hfolder]
      exact ⟨trivial, c', h, rfl⟩
    · simp only [advance, if_neg hfinished, if_neg hfolder, hanswer]
      split
      · exact ⟨rfl, c', h, rfl⟩
      · split <;> exact ⟨rfl, _, hlater, rfl⟩

theorem BlockFeed.advance_lost (b : BlockFeed) : b.advance.2.lost = b.lost := by
  unfold advance
  grind

namespace Feed

/-- Both feeds read the same file and have come to the same place. -/
inductive Together (content : List UInt8) : Feed → Feed → Prop
  | scan {source source' : Source} (keep : Record → Bool) (h : source.Together content source') :
      Together content (scan source keep) (scan source' keep)
  | keyed {source source' : Source} (offset count : Nat) (h : source.Together content source') :
      Together content (keyed source offset count) (keyed source' offset count)
  | blocks {b b' : BlockFeed} (hlost : b.lost = .ok 0) (h : b.cursor.Together content b'.cursor)
      (hsame : b' = { b with cursor := b'.cursor }) : Together content (blocks b) (blocks b')

variable {f g : Feed} {taken : Nat} {first later : Option Fault} {all : List Record}

theorem Together.right (h : f.Together content g) : g.Together content g := by
  cases h with
  | scan keep h => exact .scan keep h.right
  | keyed offset count h => exact .keyed offset count h.right
  | blocks hlost h hsame =>
    rw [hsame]
    exact .blocks hlost h.right rfl

theorem Together.rewind_eq (h : f.Together content g) : g.rewind = f.rewind := by
  cases h with
  | scan keep h => exact congrArg (Feed.scan · keep) (h.seek_eq 0)
  | keyed offset count h => exact congrArg (Feed.keyed · offset count) (h.seek_eq offset)
  | blocks hlost h hsame =>
    rw [hsame]
    simp only [rewind, BlockFeed.rewind, h.seek_eq]

theorem Together.advance (h : f.Together content g) (taken : Nat) :
    (g.advance taken).1 = (f.advance taken).1 ∧ (f.advance taken).2.Together content (g.advance taken).2 := by
  cases h with
  | scan keep h =>
    obtain ⟨hanswer, hlater⟩ := h.readKept keep
    exact ⟨congrArg (Except.map (Option.map Prod.snd)) hanswer, .scan keep hlater⟩
  | keyed offset count h =>
    obtain ⟨hanswer, hlater⟩ := h.read
    by_cases hall : count ≤ taken
    · simp only [Feed.advance, if_pos hall]
      exact ⟨trivial, .keyed offset count h⟩
    · simp only [Feed.advance, if_neg hall, hanswer]
      exact ⟨trivial, .keyed offset count hlater⟩
  | @blocks b b' hlost h hsame =>
    obtain ⟨hanswer, hlater⟩ := BlockFeed.advance_together h
    rw [← hsame] at hanswer hlater
    refine ⟨congrArg (Except.map (Option.map Record.binary)) hanswer, ?_⟩
    obtain ⟨c, htogether, hafter⟩ := hlater
    rw [Feed.advance, Feed.advance, hafter]
    exact .blocks (b.advance_lost.trans hlost) htogether rfl

theorem Together.refresh (h : f.Together content f) :
    f.Together content (f.refresh content (.ok content.length)) := by
  cases f with
  | scan source keep => cases h with | scan _ h => exact .scan keep h.refresh
  | keyed source offset count => cases h with | keyed _ _ h => exact .keyed offset count h.refresh
  | blocks b =>
    cases h with | blocks hlost h _ =>
    have hlength := congrArg List.length h.refresh.rest.2
    have hnone : (b.refresh content (.ok content.length)).lost = b.lost := by
      rw [hlost]
      simp only [BlockFeed.refresh, Except.map, hlength, List.length_drop, Except.ok.injEq]
      exact Nat.sub_self _
    exact .blocks hlost h.refresh
      (congrArg (fun lost => { b with cursor := b.cursor.refresh content, lost }) hnone)

/-- What stands at the same place ends the same. -/
theorem Together.ends (h : f.Together content g) (hends : f.Ends taken first later) :
    g.Ends taken first later := by
  have hiterate : ∀ n, ((fun g => (g.advance taken).2)^[n] f).Together content
      ((fun g => (g.advance taken).2)^[n] g) := by
    intro n
    induction n with
    | zero => exact h
    | succ n ih =>
      rw [Function.iterate_succ_apply', Function.iterate_succ_apply']
      exact (ih.advance taken).2
  exact ⟨(h.advance taken).1.trans hends.now,
    fun n => ((hiterate (n + 1)).advance taken).1.trans (hends.then_on n)⟩

/-- And gives the same. -/
theorem Together.gives (h : f.Together content g) (hgives : f.Gives first later taken all) :
    g.Gives first later taken all := by
  induction all generalizing f g taken with
  | nil => exact h.ends hgives
  | cons r all ih =>
    obtain ⟨hanswer, hlater⟩ := h.advance taken
    exact ⟨hanswer.trans hgives.1, ih hlater hgives.2⟩

end Feed
end SciArchive
