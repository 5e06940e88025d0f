import SciArchive.Proofs.Outcomes
import SciArchive.Proofs.ShapeTexts
import SciArchive.Record.Columns
import Mathlib.Data.List.TakeWhile
import Mathlib.Tactic.SplitIfs

/-! Compact layouts of text lines: which texts are one, and how its columns share out a line. A text that is
one and the columns that it gives meet in a list of cells, the end and the kind of each column. -/
namespace SciArchive

theorem Text.natural?_eq_some {cs : List Char} (h : ∀ c ∈ cs, c.isDigit = true) {n : Nat} :
    natural? cs = some n ↔ cs ≠ [] ∧ Nat.ofDigitChars 10 cs 0 = n ∧ n < UInt64.size := by
  have hplus : ∀ rest, cs ≠ '+' :: rest := by
    rintro rest rfl
    exact absurd (h '+' List.mem_cons_self) (by decide)
  have hdigits : natural? cs = (digits? cs).filter (· < UInt64.size) := by
    rw [natural?.eq_def]
    split
    · exact absurd rfl (hplus _)
    · rfl
  rw [hdigits]
  cases cs with
  | nil => simp [digits?]
  | cons c cs =>
    have hvalue : digits? (c :: cs) = some (Nat.ofDigitChars 10 (c :: cs) 0) := digitsFrom?_eq h 0
    rw [hvalue, Option.filter_eq_some_iff]
    constructor
    · rintro ⟨hn, hlt⟩
      exact ⟨List.cons_ne_nil c cs, Option.some.inj hn, by simpa using hlt⟩
    · rintro ⟨-, rfl, hlt⟩
      exact ⟨rfl, by simpa using hlt⟩

namespace ColumnKind

/-- The letter of a kind; text has none. -/
def letters : ColumnKind → List Char
  | long => ['L']
  | int => ['i']
  | float => ['f']
  | double => ['d']
  | char => ['c']
  | text => []

theorem ofLetters?_eq_some {cs : List Char} {kind : ColumnKind} :
    ofLetters? cs = some kind ↔ cs = kind.letters := by
  constructor
  · intro h
    rw [ofLetters?.eq_def] at h
    split at h <;> cases h <;> rfl
  · rintro rfl
    cases kind <;> rfl

theorem takeWhile_letters (kind : ColumnKind) : kind.letters.takeWhile Char.isDigit = [] := by
  cases kind <;> rfl

theorem dropWhile_letters (kind : ColumnKind) : kind.letters.dropWhile Char.isDigit = kind.letters := by
  cases kind <;> rfl

end ColumnKind

namespace TextLayout

/-! ### Words -/

/-- A word of a compact layout: the end of a column in digits, and behind it the letter of its kind. -/
def Spells (word : List Char) (cell : Nat × ColumnKind) : Prop :=
  ∃ digits, word = digits ++ cell.2.letters ∧ digits ≠ [] ∧ (∀ c ∈ digits, c.isDigit = true) ∧
    Nat.ofDigitChars 10 digits 0 = cell.1 ∧ cell.1 < UInt64.size

theorem token_eq_ok {word : List Char} {cell : Nat × ColumnKind} : token word = .ok cell ↔ Spells word cell := by
  constructor
  · intro h
    have hdigits : ∀ c ∈ word.takeWhile Char.isDigit, c.isDigit = true := fun _ hc => List.mem_takeWhile_imp hc
    rw [token] at h
    split at h
    · cases h
    · rename_i stop hstop
      split at h
      · cases h
      · rename_i kind hkind
        cases h
        obtain ⟨hne, hvalue, hlt⟩ := (Text.natural?_eq_some hdigits).mp hstop
        rw [ColumnKind.ofLetters?_eq_some] at hkind
        exact ⟨_, hkind ▸ List.takeWhile_append_dropWhile.symm, hne, hdigits, hvalue, hlt⟩
  · rintro ⟨digits, rfl, hne, hdigits, hvalue, hlt⟩
    have hstop := (Text.natural?_eq_some hdigits).mpr ⟨hne, hvalue, hlt⟩
    rw [token, List.takeWhile_append_of_pos hdigits, List.dropWhile_append_of_pos hdigits,
      cell.2.takeWhile_letters, cell.2.dropWhile_letters, List.append_nil, hstop]
    simp [ColumnKind.ofLetters?_eq_some.mpr rfl]

theorem token_error {word : List Char} {e : Fault} (h : token word = .error e) :
    ∃ flaw, e = .invalidLayout flaw := by
  rw [token] at h
  split at h
  · cases h
    exact ⟨_, rfl⟩
  · split at h <;> cases h
    exact ⟨_, rfl⟩

/-! ### Columns one after the other -/

/-- Columns that follow each other from `start` on. -/
def columnsFrom : Nat → List (String × Nat × ColumnKind) → List Column
  | _, [] => []
  | start, (name, stop, kind) :: rest => ⟨name, kind, start, stop, none⟩ :: columnsFrom stop rest

def addAll (l : TextLayout) (cs : List Column) : Except Fault TextLayout :=
  cs.foldlM (fun l c => l.addColumn c.name c.kind c.start c.stop) l

theorem addColumn_eq_ok {l l' : TextLayout} {name : String} {kind : ColumnKind} {start stop : Nat} :
    l.addColumn name kind start stop = .ok l' ↔ start < stop ∧ name ∉ l.names ∧
      l' = { l with columns := l.columns ++ [⟨name, kind, start, stop, none⟩] } := by
  rw [addColumn]
  split_ifs with hrange hold
  · simp [Nat.not_lt.mpr hrange]
  · simp [hold]
  · simp [Nat.not_le.mp hrange, hold, eq_comm]

theorem addColumn_error {l : TextLayout} {name : String} {kind : ColumnKind} {start stop : Nat} {e : Fault}
    (h : l.addColumn name kind start stop = .error e) : ∃ flaw, e = .invalidLayout flaw := by
  rw [addColumn] at h
  split_ifs at h <;> cases h <;> exact ⟨_, rfl⟩

theorem addAll_cons_eq_ok {l l' : TextLayout} {c : Column} {cs : List Column} : l.addAll (c :: cs) = .ok l' ↔
    ∃ next, l.addColumn c.name c.kind c.start c.stop = .ok next ∧ next.addAll cs = .ok l' := by
  rw [addAll, List.foldlM_cons]
  exact bind_eq_ok

theorem addTokens_cons_eq_ok {l l' : TextLayout} {start : Nat} {word : List Char} {name : String}
    {rest : List (List Char × String)} : l.addTokens start ((word, name) :: rest) = .ok l' ↔
      ∃ cell next, Spells word cell ∧ l.addColumn name cell.2 start cell.1 = .ok next ∧
        next.addTokens cell.1 rest = .ok l' := by
  simp only [← token_eq_ok, addTokens]
  cases token word with
  | error e => simp
  | ok cell =>
    simp only [Except.ok.injEq]
    cases hadd : l.addColumn name cell.2 start cell.1 with
    | error e =>
      simp only [reduceCtorEq, false_iff]
      rintro ⟨_, next, rfl, hnext, -⟩
      rw [hadd] at hnext
      cases hnext
    | ok next =>
      constructor
      · exact fun h => ⟨cell, next, rfl, hadd, h⟩
      · rintro ⟨_, next', rfl, hnext, h⟩
        rw [hadd] at hnext
        cases hnext
        exact h

/-- Words that are added give the columns between their ends. -/
theorem addTokens_eq_ok {words : List (List Char)} {names : List String} {l l' : TextLayout} {start : Nat}
    (hcount : words.length = names.length) : l.addTokens start (words.zip names) = .ok l' ↔
      ∃ cells, List.Forall₂ Spells words cells ∧ l.addAll (columnsFrom start (names.zip cells)) = .ok l' := by
  induction words generalizing names l start with
  | nil =>
    rw [List.length_eq_zero_iff.mp hcount.symm]
    constructor
    · exact fun h => ⟨[], .nil, h⟩
    · rintro ⟨_, -, h⟩
      exact h
  | cons word words ih =>
    cases names with
    | nil => cases hcount
    | cons name names =>
      have hrest : words.length = names.length := Nat.succ.inj hcount
      rw [List.zip_cons_cons, addTokens_cons_eq_ok]
      constructor
      · rintro ⟨cell, next, hcell, hadd, h⟩
        obtain ⟨cells, hcells, hall⟩ := (ih hrest).mp h
        exact ⟨cell :: cells, .cons hcell hcells, addAll_cons_eq_ok.mpr ⟨next, hadd, hall⟩⟩
      · rintro ⟨_, hspelled, hall⟩
        obtain ⟨cell, cells, hcell, hcells, rfl⟩ := List.forall₂_cons_left_iff.mp hspelled
        obtain ⟨next, hadd, hall⟩ := addAll_cons_eq_ok.mp hall
        exact ⟨cell, next, hcell, hadd, (ih hrest).mpr ⟨cells, hcells, hall⟩⟩

theorem addTokens_error {words : List (List Char × String)} {l : TextLayout} {start : Nat} {e : Fault}
    (h : l.addTokens start words = .error e) : ∃ flaw, e = .invalidLayout flaw := by
  fun_induction addTokens l start words with
  | case1 => cases h
  | case2 l start word name rest e' htoken =>
    cases h
    exact token_error htoken
  | case3 l start word name rest stop kind htoken e' hadd =>
    cases h
    exact addColumn_error hadd
  | case4 l start word name rest stop kind htoken next hadd ih => exact ih h

/-- Columns are added if none is empty and all names are new; they then stand behind those that were there. -/
theorem addAll_eq_ok {cs : List Column} {l l' : TextLayout} (hcs : ∀ c ∈ cs, c.copies = none) :
    l.addAll cs = .ok l' ↔ (∀ c ∈ cs, c.start < c.stop) ∧ (∀ c ∈ cs, c.name ∉ l.names) ∧
      (cs.map Column.name).Nodup ∧ l' = { l with columns := l.columns ++ cs } := by
  induction cs generalizing l with
  | nil => simp [addAll, pure, Except.pure, eq_comm]
  | cons c cs ih =>
    rw [List.forall_mem_cons] at hcs
    have hplain : (⟨c.name, c.kind, c.start, c.stop, none⟩ : Column) = c := by rw [← hcs.1]
    have hnames : ∀ n, n ∈ names { l with columns := l.columns ++ [c] } ↔ n ∈ l.names ∨ n = c.name := by
      intro n
      simp only [names, List.map_append, List.map_cons, List.map_nil, List.mem_append, List.mem_singleton]
      exact or_right_comm
    simp only [addAll_cons_eq_ok, addColumn_eq_ok, ih hcs.2, hplain, List.forall_mem_cons, List.map_cons,
      List.nodup_cons]
    -- a name is new to the layout with one more column if it is new to both
    constructor
    · rintro ⟨_, ⟨hrange, hnew, rfl⟩, hranges, hothers, hnodup, rfl⟩
      simp only [hnames, not_or] at hothers
      refine ⟨⟨hrange, hranges⟩, ⟨hnew, fun d hd => (hothers d hd).1⟩, ⟨fun hmem => ?_, hnodup⟩, by simp⟩
      obtain ⟨d, hd, hsame⟩ := List.mem_map.mp hmem
      exact (hothers d hd).2 hsame
    · rintro ⟨⟨hrange, hranges⟩, ⟨hnew, hothers⟩, ⟨hdistinct, hnodup⟩, rfl⟩
      refine ⟨_, ⟨hrange, hnew, rfl⟩, hranges, fun d hd => ?_, hnodup, by simp⟩
      rw [hnames, not_or]
      exact ⟨hothers d hd, fun hsame => hdistinct (hsame ▸ List.mem_map_of_mem hd)⟩

theorem copies_columnsFrom {start : Nat} {cells : List (String × Nat × ColumnKind)} :
    ∀ c ∈ columnsFrom start cells, c.copies = none := by
  induction cells generalizing start with
  | nil => simp [columnsFrom]
  | cons cell cells ih => exact List.forall_mem_cons.mpr ⟨rfl, ih⟩

theorem names_columnsFrom (start : Nat) (cells : List (String × Nat × ColumnKind)) :
    (columnsFrom start cells).map Column.name = cells.map Prod.fst := by
  induction cells generalizing start with
  | nil => rfl
  | cons cell cells ih => rw [columnsFrom, List.map_cons, List.map_cons, ih]

/-! ### Tiles -/

/-- The columns follow each other without a gap from `start` up to `stop`, and none is empty. -/
inductive Tiles : Nat → List Column → Nat → Prop
  | nil {start : Nat} : Tiles start [] start
  | cons {c : Column} {cs : List Column} {stop : Nat} (range : c.start < c.stop) (rest : Tiles c.stop cs stop) :
      Tiles c.start (c :: cs) stop

/-- Where the last of some cells ends. -/
def lastEnd (start : Nat) (cells : List (Nat × ColumnKind)) : Nat :=
  (start :: cells.map Prod.fst).getLast (List.cons_ne_nil _ _)

theorem tiles_columnsFrom {start : Nat} {cells : List (String × Nat × ColumnKind)}
    (h : ∀ c ∈ columnsFrom start cells, c.start < c.stop) :
    Tiles start (columnsFrom start cells) (lastEnd start (cells.map Prod.snd)) := by
  induction cells generalizing start with
  | nil => exact .nil
  | cons cell cells ih =>
    rw [columnsFrom, List.forall_mem_cons] at h
    have hlast : lastEnd start ((cell :: cells).map Prod.snd) = lastEnd cell.2.1 (cells.map Prod.snd) :=
      List.getLast_cons_cons
    rw [hlast]
    exact Tiles.cons h.1 (ih h.2)

theorem ranges_columnsFrom {start : Nat} {cells : List (String × Nat × ColumnKind)} :
    (∀ c ∈ columnsFrom start cells, c.start < c.stop) ↔
      (start :: (cells.map Prod.snd).map Prod.fst).IsChain (· < ·) := by
  induction cells generalizing start with
  | nil => simp [columnsFrom]
  | cons cell cells ih =>
    rw [columnsFrom, List.forall_mem_cons, ih]
    exact List.isChain_cons_cons.symm

theorem slice_append (line : List Char) {start middle stop : Nat} (h : start ≤ middle) (h' : middle ≤ stop) :
    Column.slice line start middle ++ Column.slice line middle stop = Column.slice line start stop := by
  have hlength : stop - start = (middle - start) + (stop - middle) := by omega
  have hmiddle : middle = start + (middle - start) := by omega
  rw [Column.slice, Column.slice, Column.slice, hlength, List.take_add, List.drop_drop, ← hmiddle]

namespace Tiles

variable {start stop : Nat} {cs : List Column}

theorem le (h : Tiles start cs stop) : start ≤ stop := by
  induction h with
  | nil => exact Nat.le_refl _
  | cons range _ ih => exact Nat.le_trans (Nat.le_of_lt range) ih

theorem start_le (h : Tiles start cs stop) : ∀ c ∈ cs, start ≤ c.start := by
  induction h with
  | nil => simp
  | cons range _ ih =>
    exact List.forall_mem_cons.mpr ⟨Nat.le_refl _, fun c hc => Nat.le_trans (Nat.le_of_lt range) (ih c hc)⟩

/-- The columns cut out the whole stretch of a line. -/
theorem flatMap_slice (h : Tiles start cs stop) (line : List Char) :
    (cs.flatMap fun c => Column.slice line c.start c.stop) = Column.slice line start stop := by
  induction h with
  | nil => simp [Column.slice]
  | cons range rest ih => rw [List.flatMap_cons, ih, slice_append line (Nat.le_of_lt range) rest.le]

/-- Every place in the stretch is in one column. -/
theorem existsUnique (h : Tiles start cs stop) {i : Nat} (hstart : start ≤ i) (hstop : i < stop) :
    ∃! c, c ∈ cs ∧ c.start ≤ i ∧ i < c.stop := by
  induction h with
  | nil => exact absurd hstop (Nat.not_lt.mpr hstart)
  | @cons c cs stop range rest ih =>
    by_cases hi : i < c.stop
    · refine ⟨c, ⟨List.mem_cons_self, hstart, hi⟩, ?_⟩
      rintro d ⟨hd, hle, -⟩
      rcases List.mem_cons.mp hd with rfl | hd
      · rfl
      · exact absurd (Nat.le_trans (rest.start_le d hd) hle) (Nat.not_le.mpr hi)
    · obtain ⟨d, ⟨hd, hdi⟩, hunique⟩ := ih (Nat.not_lt.mp hi) hstop
      refine ⟨d, ⟨List.mem_cons_of_mem _ hd, hdi⟩, ?_⟩
      rintro d' ⟨hd', hle, hlt⟩
      rcases List.mem_cons.mp hd' with rfl | hd'
      · exact absurd hlt hi
      · exact hunique d' ⟨hd', hle, hlt⟩

end Tiles

/-! ### Whole layouts -/

/-- A text and names that are a compact layout with these cells. -/
structure Describes (layout : String) (names : List String) (cells : List (Nat × ColumnKind)) : Prop where
  words : List.Forall₂ Spells ((layout.toList.splitOn ',').map Text.trim) cells
  count : cells.length = names.length
  distinct : names.Nodup
  increasing : (0 :: cells.map Prod.fst).Pairwise (· < ·)

section
variable {layout : String} {names : List String} {l : TextLayout} {cells : List (Nat × ColumnKind)}

theorem map_fst_zip_cells (h : cells.length = names.length) : (names.zip cells).map Prod.fst = names :=
  List.map_fst_zip (Nat.le_of_eq h.symm)

theorem map_snd_zip_cells (h : cells.length = names.length) : (names.zip cells).map Prod.snd = cells :=
  List.map_snd_zip (Nat.le_of_eq h)

/-- The columns between the ends can be added exactly if the ends increase and no name comes twice. -/
theorem addAll_columnsFrom (hcount : cells.length = names.length) :
    addAll {} (columnsFrom 0 (names.zip cells)) = .ok l ↔ names.Nodup ∧
      (0 :: cells.map Prod.fst).Pairwise (· < ·) ∧ l = { columns := columnsFrom 0 (names.zip cells) } := by
  rw [addAll_eq_ok copies_columnsFrom, ranges_columnsFrom, names_columnsFrom, map_fst_zip_cells hcount,
    map_snd_zip_cells hcount, List.isChain_iff_pairwise]
  have hnew : ∀ c ∈ columnsFrom 0 (names.zip cells), c.name ∉ TextLayout.names {} :=
    fun _ _ => List.not_mem_nil
  constructor
  · rintro ⟨hincreasing, -, hnodup, hl⟩
    exact ⟨hnodup, hincreasing, hl⟩
  · rintro ⟨hnodup, hincreasing, hl⟩
    exact ⟨hincreasing, hnew, hnodup, hl⟩

/-- A compact layout is accepted with the cells that its text and names describe. -/
theorem ofCompact_eq_ok : ofCompact layout names = .ok l ↔
    ∃ cells, Describes layout names cells ∧ l = { columns := columnsFrom 0 (names.zip cells) } := by
  obtain ⟨words, hwords⟩ : ∃ words, words = (layout.toList.splitOn ',').map Text.trim := ⟨_, rfl⟩
  simp only [ofCompact, ← hwords]
  constructor
  · intro h
    split_ifs at h with hcount
    rw [ne_eq, not_not] at hcount
    obtain ⟨cells, hcells, hall⟩ := (addTokens_eq_ok hcount).mp h
    have hlength : cells.length = names.length := hcells.length_eq.symm.trans hcount
    obtain ⟨hnodup, hincreasing, hl⟩ := (addAll_columnsFrom hlength).mp hall
    exact ⟨cells, ⟨hwords ▸ hcells, hlength, hnodup, hincreasing⟩, hl⟩
  · rintro ⟨cells, hcells, hl⟩
    have hspelled : List.Forall₂ Spells words cells := hwords ▸ hcells.words
    have hcount : words.length = names.length := hspelled.length_eq.trans hcells.count
    rw [if_neg (not_not.mpr hcount), addTokens_eq_ok hcount]
    exact ⟨cells, hspelled, (addAll_columnsFrom hcells.count).mpr ⟨hcells.distinct, hcells.increasing, hl⟩⟩

theorem ofCompact_error {e : Fault} (h : ofCompact layout names = .error e) :
    ∃ flaw, e = .invalidLayout flaw := by
  rw [ofCompact] at h
  split_ifs at h
  · cases h
    exact ⟨_, rfl⟩
  · exact addTokens_error h

end

/-- When a compact layout is accepted, what its columns are then, and how they share out a line. -/
structure CompactlyRead (layout : String) (names : List String) : Prop where
  accepted : (∃ l, ofCompact layout names = .ok l) ↔ ∃ cells, Describes layout names cells
  refused : ∀ e, ofCompact layout names = .error e → ∃ flaw, e = .invalidLayout flaw
  added : ∀ cells, Describes layout names cells →
    ofCompact layout names = addAll {} (columnsFrom 0 (names.zip cells))
  raw : ∀ l, ofCompact layout names = .ok l → ∀ c ∈ l.columns, ∀ line,
    c.read line = c.cell line c.start c.stop
  whole : ∀ cells, Describes layout names cells → ∀ l, ofCompact layout names = .ok l → ∀ line : String,
    (l.columns.flatMap fun c => Column.slice line.toList c.start c.stop) = line.toList.take (lastEnd 0 cells)
  once : ∀ cells, Describes layout names cells → ∀ l, ofCompact layout names = .ok l →
    ∀ i < lastEnd 0 cells, ∃! c, c ∈ l.columns ∧ c.start ≤ i ∧ i < c.stop

/-- A compact layout is accepted exactly if it has a word for each name, the names differ and the words spell
ends that increase; all else is refused as no layout. The columns are those that are added one by one, each from
the end before it, and of every line they read what stands before the last end, each character once. -/
theorem ofCompact_compactlyRead (layout : String) (names : List String) : CompactlyRead layout names := by
  have hok : ∀ cells, Describes layout names cells →
      ofCompact layout names = .ok { columns := columnsFrom 0 (names.zip cells) } := fun cells hcells =>
    ofCompact_eq_ok.mpr ⟨cells, hcells, rfl⟩
  have htiles : ∀ cells, Describes layout names cells → ∀ l, ofCompact layout names = .ok l →
      Tiles 0 l.columns (lastEnd 0 cells) := by
    intro cells hcells l hl
    rw [hok cells hcells, Except.ok.injEq] at hl
    subst hl
    have hincreasing := hcells.increasing
    rw [← map_snd_zip_cells hcells.count, ← List.isChain_iff_pairwise, ← ranges_columnsFrom] at hincreasing
    have htiled := tiles_columnsFrom hincreasing
    rwa [map_snd_zip_cells hcells.count] at htiled
  refine ⟨⟨?_, ?_⟩, fun e => ofCompact_error, fun cells hcells => ?_, fun l hl c hc line => ?_,
    fun cells hcells l hl line => ?_, fun cells hcells l hl i hi => ?_⟩
  · rintro ⟨l, hl⟩
    obtain ⟨cells, hcells, -⟩ := ofCompact_eq_ok.mp hl
    exact ⟨cells, hcells⟩
  · rintro ⟨cells, hcells⟩
    exact ⟨_, hok cells hcells⟩
  · rw [hok cells hcells, eq_comm, addAll_columnsFrom hcells.count]
    exact ⟨hcells.distinct, hcells.increasing, rfl⟩
  · obtain ⟨cells, -, rfl⟩ := ofCompact_eq_ok.mp hl
    rw [Column.read, copies_columnsFrom c hc]
  · rw [(htiles cells hcells l hl).flatMap_slice, Column.slice, List.drop_zero, Nat.sub_zero]
  · exact (htiles cells hcells l hl).existsUnique (Nat.zero_le i) hi

/-- Blanks around the words, and a line that is not ASCII and ends inside the second column. -/
theorem ofCompact_compactlyRead_blanks :
    ∃ l, ofCompact " 2i,06 , 7c" ["n", "word", "mark"] = .ok l ∧
      (l.columns.map fun c => Column.slice "12äöü".toList c.start c.stop) = [['1', '2'], ['ä', 'ö', 'ü'], []] ∧
      (l.columns.flatMap fun c => Column.slice "12äöü".toList c.start c.stop) = "12äöü".toList.take 7 ∧
      ∀ i < 7, ∃! c, c ∈ l.columns ∧ c.start ≤ i ∧ i < c.stop := by
  have hcells : Describes " 2i,06 , 7c" ["n", "word", "mark"] [(2, .int), (6, .text), (7, .char)] := by
    refine ⟨?_, rfl, by decide, by decide⟩
    refine .cons ⟨['2'], rfl, by decide, by simp, rfl, by decide⟩ ?_
    refine .cons ⟨['0', '6'], rfl, by decide, by simp, rfl, by decide⟩ ?_
    exact .cons ⟨['7'], rfl, by decide, by simp, rfl, by decide⟩ .nil
  have hread := ofCompact_compactlyRead " 2i,06 , 7c" ["n", "word", "mark"]
  obtain ⟨l, hl, hslices⟩ : ∃ l, ofCompact " 2i,06 , 7c" ["n", "word", "mark"] = .ok l ∧
      (l.columns.map fun c => Column.slice "12äöü".toList c.start c.stop) = [['1', '2'], ['ä', 'ö', 'ü'], []] :=
    ⟨_, rfl, rfl⟩
  exact ⟨l, hl, hslices, hread.whole _ hcells l hl "12äöü", hread.once _ hcells l hl⟩

end TextLayout
end SciArchive
