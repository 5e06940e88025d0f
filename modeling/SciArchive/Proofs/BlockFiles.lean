import SciArchive.Proofs.BlockReading

/-! Files that are blocks side by side. Reading such a file gives the records of all its blocks, and reading
a first part of it those of the blocks that lie in that part. -/
namespace SciArchive

/-! ### Blocks -/

/-- A number in four bytes, the top byte first. -/
def countBytes (n : Nat) : List UInt8 :=
  [UInt8.ofNat (n >>> 24), UInt8.ofNat (n >>> 16), UInt8.ofNat (n >>> 8), UInt8.ofNat n]

theorem number_countBytes {n : Nat} (h : n < UInt32.size) :
    ByteOrder.big.number (countBytes n) = n := by
  rw [UInt32.size] at h
  simp only [ByteOrder.number, countBytes, List.foldl_cons, List.foldl_nil, UInt8.toNat_ofNat']
  omega

/-- A header with the mark and the count of the records behind it, and the bytes of these records. -/
structure Block (framing : BlockLayout) (layout : RecordLayout) where
  header : List UInt8
  contents : List (List UInt8)
  header_length : header.length = framing.headerSize
  marked : ∀ mark, framing.mark = some mark → mark <+: header
  counted : (header.drop framing.countOffset).take 4 = countBytes contents.length
  few : contents.length < UInt32.size
  record_length : ∀ bytes ∈ contents, bytes.length = layout.recordSize

namespace Block

variable {framing : BlockLayout} {layout : RecordLayout}

def bytes (b : Block framing layout) : List UInt8 := b.header ++ b.contents.flatten

def records (b : Block framing layout) : List BinaryRecord := b.contents.map fun bytes => ⟨layout, bytes⟩

/-- The blocks side by side. -/
def file (blocks : List (Block framing layout)) : List UInt8 := blocks.flatMap bytes

/-- The blocks that end within the first `n` bytes of their file. -/
def within (n : Nat) (blocks : List (Block framing layout)) : List (Block framing layout) :=
  (blocks.zipIdx.filter fun b => (file (blocks.take (b.2 + 1))).length ≤ n).map Prod.fst

theorem file_cons (b : Block framing layout) (blocks : List (Block framing layout)) :
    file (b :: blocks) = b.bytes ++ file blocks := rfl

theorem within_cons (n : Nat) (b : Block framing layout) (blocks : List (Block framing layout)) :
    within n (b :: blocks) =
      if b.bytes.length ≤ n then b :: within (n - b.bytes.length) blocks else [] := by
  have hend : ∀ i, (file ((b :: blocks).take (i + 1))).length =
      b.bytes.length + (file (blocks.take i)).length := by
    intro i
    rw [List.take_succ_cons, file_cons, List.length_append]
  have hfirst : (file ((b :: blocks).take (0 + 1))).length = b.bytes.length := by
    rw [hend, List.take_zero]
    rfl
  have hlater : within n (b :: blocks) =
      (if b.bytes.length ≤ n then [b] else []) ++ (blocks.zipIdx.filter fun c =>
        b.bytes.length + (file (blocks.take (c.2 + 1))).length ≤ n).map Prod.fst := by
    rw [within, List.zipIdx_cons, List.zipIdx_succ, List.filter_cons, List.filter_map]
    simp only [hfirst, decide_eq_true_eq]
    by_cases h : b.bytes.length ≤ n <;> simp [h, file_cons, Function.comp_def]
  rw [hlater]
  by_cases h : b.bytes.length ≤ n
  · have hshift : ∀ k, b.bytes.length + k ≤ n ↔ k ≤ n - b.bytes.length := by omega
    simp only [if_pos h, hshift]
    rfl
  · have hnone : ∀ k, ¬ b.bytes.length + k ≤ n := by omega
    simp [h, hnone]

theorem within_of_length_le {n : Nat} {blocks : List (Block framing layout)}
    (h : (file blocks).length ≤ n) : within n blocks = blocks := by
  induction blocks generalizing n with
  | nil => rfl
  | cons b blocks ih =>
    rw [file_cons, List.length_append] at h
    rw [within_cons, if_pos (by omega), ih (by omega)]

/-! ### Reading one block -/

theorem count_header (b : Block framing layout) : framing.count b.header = b.contents.length := by
  rw [BlockLayout.count, b.counted, number_countBytes b.few]

/-- The count lies in the header, as it is there. -/
theorem inside_header (b : Block framing layout) : framing.countOffset + 4 ≤ framing.headerSize := by
  have hfour := congrArg List.length b.counted
  rw [List.length_take, List.length_drop, b.header_length] at hfour
  simp only [countBytes, List.length_cons, List.length_nil] at hfour
  omega

theorem foreign_header (b : Block framing layout) : framing.foreign? b.header = none :=
  BlockLayout.foreign?_eq_none.mpr b.marked

theorem length_flatten (b : Block framing layout) :
    b.contents.flatten.length = b.contents.length * layout.recordSize := by
  have hlengths : b.contents.map List.length = b.contents.map fun _ => layout.recordSize :=
    List.map_congr_left b.record_length
  rw [List.length_flatten, hlengths, List.map_const', List.sum_replicate_nat]

theorem records_flatten (hsize : 0 < layout.recordSize) (contents : List (List UInt8))
    (hlengths : ∀ bytes ∈ contents, bytes.length = layout.recordSize) :
    RecordTable.records ⟨layout, contents.flatten⟩ = contents.map fun bytes => ⟨layout, bytes⟩ := by
  induction contents with
  | nil => exact RecordTable.records_nil layout
  | cons bytes contents ih =>
    rw [List.forall_mem_cons] at hlengths
    have hlong : layout.recordSize ≤ (bytes :: contents).flatten.length := by
      rw [List.flatten_cons, List.length_append, hlengths.1]
      exact Nat.le_add_right _ _
    have hslices := BinaryRecord.map_slices (fun _ bytes => (⟨layout, bytes⟩ : BinaryRecord)) hsize hlong
    have htake : (bytes :: contents).flatten.take layout.recordSize = bytes := by
      rw [List.flatten_cons, ← hlengths.1, List.take_left]
    have hdrop : (bytes :: contents).flatten.drop layout.recordSize = contents.flatten := by
      rw [List.flatten_cons, ← hlengths.1, List.drop_left]
    rw [htake, hdrop] at hslices
    rw [List.map_cons, ← ih hlengths.2]
    exact hslices

/-- A whole block gives all its records, and reading goes on behind it. -/
theorem walk_append (hsize : 0 < layout.recordSize) (b : Block framing layout) (offset : Nat)
    (more : List UInt8) :
    ∃ asked, framing.walk layout offset (b.bytes ++ more) =
      .behind asked b.records (framing.walk layout (offset + b.bytes.length) more) := by
  have hbytes : b.bytes ++ more = b.header ++ (b.contents.flatten ++ more) := List.append_assoc ..
  have htake : (b.bytes ++ more).take framing.headerSize = b.header := by
    rw [hbytes, ← b.header_length, List.take_left]
  have hdrop : (b.bytes ++ more).drop framing.headerSize = b.contents.flatten ++ more := by
    rw [hbytes, ← b.header_length, List.drop_left]
  have hlength : b.bytes.length = framing.headerSize + b.contents.length * layout.recordSize := by
    rw [bytes, List.length_append, b.header_length, length_flatten]
  have hcounted := b.inside_header
  have hlong : ¬ (framing.headerSize = 0 ∨ (b.bytes ++ more).length < framing.headerSize) := by
    rw [List.length_append]
    omega
  have hinside : ¬ b.header.length < framing.countOffset + 4 := by
    rw [b.header_length]
    omega
  have hwhole : framing.walk layout offset (b.bytes ++ more) = _ :=
    BlockLayout.walk_whole hlong (by rw [htake, b.foreign_header]) (by rwa [htake]) rfl
      (by rw [htake, b.count_header, List.length_append]; omega)
  rw [htake, b.count_header, ← hlength, List.drop_left, hdrop, ← length_flatten, List.take_left,
    records_flatten hsize b.contents b.record_length] at hwhole
  exact ⟨_, hwhole⟩

/-- A block that is cut short gives nothing, and reading ends. -/
theorem walk_take (b : Block framing layout) (offset : Nat) {n : Nat} (hcut : n < b.bytes.length) :
    framing.walk layout offset (b.bytes.take n) = { requests := [.header offset] } := by
  have hlength : b.bytes.length = framing.headerSize + b.contents.length * layout.recordSize := by
    rw [bytes, List.length_append, b.header_length, length_flatten]
  have hrest : (b.bytes.take n).length = n := by
    rw [List.length_take]
    omega
  by_cases hshort : n < framing.headerSize
  · exact BlockLayout.walk_short (.inr (by rwa [hrest]))
  · have htake : (b.bytes.take n).take framing.headerSize = b.header := by
      rw [List.take_take, Nat.min_eq_left (by omega), bytes, ← b.header_length, List.take_left]
    have hcounted := b.inside_header
    have hinside : ¬ b.header.length < framing.countOffset + 4 := by
      rw [b.header_length]
      omega
    refine BlockLayout.walk_cut (by rw [hrest]; omega) (by rw [htake, b.foreign_header]) (by rwa [htake]) rfl ?_
    rw [htake, b.count_header, hrest]
    omega

/-! ### Reading files -/

/-- The first part of a file gives the records of the blocks that lie in it. -/
theorem walk_file (hsize : 0 < layout.recordSize) (blocks : List (Block framing layout)) (offset n : Nat) :
    ∃ asked, framing.walk layout offset ((file blocks).take n) =
      { requests := asked, records := (within n blocks).flatMap records } := by
  induction blocks generalizing offset n with
  | nil =>
    have hempty : (file ([] : List (Block framing layout))).take n = [] := List.take_nil
    rw [hempty]
    exact ⟨_, BlockLayout.walk_short (Nat.eq_zero_or_pos framing.headerSize)⟩
  | cons b blocks ih =>
    rw [within_cons, file_cons]
    by_cases hwhole : b.bytes.length ≤ n
    · obtain ⟨asked, hfirst⟩ :=
        walk_append hsize b offset ((file blocks).take (n - b.bytes.length))
      obtain ⟨later, hlater⟩ := ih (offset + b.bytes.length) (n - b.bytes.length)
      rw [List.take_append, List.take_of_length_le hwhole, if_pos hwhole, hfirst, hlater]
      exact ⟨asked ++ later, rfl⟩
    · have hcut : n - b.bytes.length = 0 := by omega
      rw [List.take_append, hcut, List.take_zero, List.append_nil, if_neg hwhole]
      exact ⟨_, walk_take b offset (by omega)⟩

end Block

/-! ### Streams -/

theorem RecordLayout.recordSize_pos {order : ByteOrder} {fields : List Field} {size : Option Nat}
    {layout : RecordLayout} (h : RecordLayout.make order fields size = .ok layout) :
    0 < layout.recordSize := by
  unfold RecordLayout.make at h
  grind

namespace Stream

variable {d : Disk} {l : Ledger} {r : Resource} {framing : BlockLayout} {layout : RecordLayout}
  {content : List UInt8}

/-- A stream of blocks begins with its file. -/
theorem blocks_file (layout : RecordLayout) (hcheck : framing.check = .ok ()) (hopen : l.isClosed r = false)
    (hcontent : d.bytes? r.path = some content) :
    ∃ file, blocks d l r layout framing =
      .ok { resource := r, file, feed := .blocks (.new content framing layout) } := by
  rw [blocks, hcheck]
  exact openAt_file hopen hcontent (Nat.zero_le _) (fun content => .blocks (.new content framing layout))
    (.blocks (.ofFolder framing layout))

/-- Reading the stream of a file to its end is reading the file. -/
theorem readUpTo_blocks {s : Stream} (hsize : 0 < layout.recordSize)
    (hopen : l.isClosed s.resource = false) (hfeed : s.feed = .blocks (.new content framing layout))
    (hpending : s.pending = none) :
    s.readUpTo l none = ((framing.walk layout 0 content).records.map .binary,
      (framing.walk layout 0 content).fault) := by
  have hend := BlockFeed.toEnd_eq_walk (b := .new content framing layout) rfl rfl hsize rfl
  have hgives := Feed.gives_blocks (.new content framing layout) s.taken
  rw [← hfeed, hend] at hgives
  exact readUpTo_of_gives hopen hpending hgives

/-- Of the first part of a file of blocks, however it is cut, the records of the blocks that lie in that
part are read, and there is no failure. -/
theorem readUpTo_within {s : Stream} (hsize : 0 < layout.recordSize)
    (all : List (Block framing layout)) (n : Nat) (hopen : l.isClosed s.resource = false)
    (hfeed : s.feed = .blocks (.new ((Block.file all).take n) framing layout))
    (hpending : s.pending = none) :
    s.readUpTo l none = (((Block.within n all).flatMap Block.records).map .binary, none) := by
  obtain ⟨asked, hwalk⟩ := Block.walk_file hsize all 0 n
  rw [readUpTo_blocks hsize hopen hfeed hpending, hwalk]

/-- Of a file of blocks all records are read, and of a first part of it those of the blocks that lie in
that part. -/
theorem readAll_blocks {order : ByteOrder} {fields : List Field} {size : Option Nat}
    (hmake : RecordLayout.make order fields size = .ok layout) (hcheck : framing.check = .ok ())
    (hopen : l.isClosed r = false) (all : List (Block framing layout)) :
    (d.bytes? r.path = some (Block.file all) → ∃ s, blocks d l r layout framing = .ok s ∧
      (s.readAll l).1 = .ok ((all.flatMap Block.records).map .binary)) ∧
    ∀ n, d.bytes? r.path = some ((Block.file all).take n) → ∃ s, blocks d l r layout framing = .ok s ∧
      (s.readAll l).1 = .ok (((Block.within n all).flatMap Block.records).map .binary) := by
  have hsize := RecordLayout.recordSize_pos hmake
  have hpart : ∀ n, d.bytes? r.path = some ((Block.file all).take n) →
      ∃ s, blocks d l r layout framing = .ok s ∧
        (s.readAll l).1 = .ok (((Block.within n all).flatMap Block.records).map .binary) := by
    intro n hcontent
    obtain ⟨file, hblocks⟩ := blocks_file layout hcheck hopen hcontent
    have hread := readUpTo_within hsize all n hopen rfl rfl (s := {
      resource := r, file, feed := .blocks (.new ((Block.file all).take n) framing layout) })
    exact ⟨_, hblocks, readAll_of_readUpTo hopen rfl hread⟩
  refine ⟨fun hcontent => ?_, hpart⟩
  have hall := hpart (Block.file all).length
  rw [List.take_length, Block.within_of_length_le (Nat.le_refl _)] at hall
  exact hall hcontent

/-- A header of five bytes: a letter and the count. -/
def lettered : BlockLayout := ⟨5, 1, some [0x42]⟩

/-- Records of one short word. -/
def shortWords : RecordLayout :=
  { fields := [{ name := "v", dataType := .short, offset := 0 }], recordSize := 2, order := .big }

theorem make_shortWords : RecordLayout.make .big shortWords.fields none = .ok shortWords := by rfl

def noWords : Block lettered shortWords where
  header := [0x42, 0, 0, 0, 0]
  contents := []
  header_length := rfl
  marked := by rintro _ ⟨⟩; decide
  counted := rfl
  few := by decide
  record_length := by decide

def twoWords : Block lettered shortWords where
  header := [0x42, 0, 0, 0, 2]
  contents := [[0, 1], [0, 2]]
  header_length := rfl
  marked := by rintro _ ⟨⟩; decide
  counted := rfl
  few := by decide
  record_length := by decide

/-- A disk that holds one file. -/
def diskWith (content : List UInt8) : Disk := { files := [(["a"], ⟨0, content, .tick 0⟩)], issued := 1 }

/-- The last byte of the last record is missing. -/
theorem readAll_blocks_cut :
    (∃ s, blocks (diskWith (Block.file [twoWords, noWords, twoWords])) {} ⟨"a", 0⟩ shortWords lettered =
        .ok s ∧
      (s.readAll {}).1 = .ok (([[0, 1], [0, 2], [0, 1], [0, 2]].map fun bytes =>
        ⟨shortWords, bytes⟩).map .binary)) ∧
    ∃ s, blocks (diskWith ((Block.file [twoWords, noWords, twoWords]).take 22)) {} ⟨"a", 0⟩ shortWords
        lettered = .ok s ∧
      (s.readAll {}).1 = .ok (([[0, 1], [0, 2]].map fun bytes => ⟨shortWords, bytes⟩).map .binary) := by
  constructor
  · have hread := readAll_blocks (d := diskWith (Block.file [twoWords, noWords, twoWords])) (l := {})
      (r := ⟨"a", 0⟩) make_shortWords rfl rfl [twoWords, noWords, twoWords]
    exact hread.1 rfl
  · have hread := readAll_blocks (d := diskWith ((Block.file [twoWords, noWords, twoWords]).take 22))
      (l := {}) (r := ⟨"a", 0⟩) make_shortWords rfl rfl [twoWords, noWords, twoWords]
    exact hread.2 22 rfl

end Stream
end SciArchive
