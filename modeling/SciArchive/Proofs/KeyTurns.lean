import SciArchive.Proofs.IndexBuilder
import Mathlib.Algebra.BigOperators.Group.Finset.Basic
import Mathlib.Algebra.GroupWithZero.Nat
import Mathlib.Data.List.SplitBy

/-! The keys of a history in turn: a key has one turn for each stretch of its records. Adjacency, the
returns of a key and the violations that a builder counts are all told by the turns. -/
namespace SciArchive.IndexBuilder

/-- One key for each stretch of equal keys, every stretch as long as it can be. -/
def turns (keys : List String) : List String := (keys.splitBy (· == ·)).filterMap List.head?

/-- How often a key came back after another one: at each of its turns but the first. -/
def returns (key : String) (keys : List String) : Nat := (turns keys).count key - 1

/-! ### Turns -/

/-- The last stretch, and what lies before it. -/
theorem exists_last_stretch {keys : List String} {k : String} (h : keys.getLast? = some k) :
    ∃ before n, keys = before ++ List.replicate (n + 1) k ∧ before.getLast? ≠ some k := by
  induction keys using List.reverseRecOn with
  | nil => cases h
  | append_singleton keys last ih =>
    obtain rfl : last = k := by simpa using h
    by_cases hlast : keys.getLast? = some last
    · obtain ⟨before, n, hkeys, hne⟩ := ih hlast
      refine ⟨before, n + 1, ?_, hne⟩
      rw [hkeys, List.append_assoc, ← List.replicate_succ']
    · exact ⟨keys, 0, rfl, hlast⟩

/-- Behind another key a stretch stands by itself. -/
theorem turns_stretch {before : List String} {k : String} (h : before.getLast? ≠ some k) (n : Nat) :
    turns (before ++ List.replicate (n + 1) k) = turns before ++ [k] := by
  have hone : (List.replicate (n + 1) k).splitBy (· == ·) = [List.replicate (n + 1) k] :=
    List.splitBy_of_isChain (by simp) (List.isChain_replicate_of_rel _ (beq_self_eq_true k))
  have hsplit : (before ++ List.replicate (n + 1) k).splitBy (· == ·) =
      before.splitBy (· == ·) ++ (List.replicate (n + 1) k).splitBy (· == ·) := by
    refine List.splitBy_append fun x hx y hy => ?_
    obtain rfl := List.eq_of_mem_replicate (List.mem_of_mem_head? hy)
    rw [beq_eq_false_iff_ne]
    rintro rfl
    exact h hx
  rw [turns, hsplit, hone, List.filterMap_append, ← turns]
  rfl

theorem turns_snoc (keys : List String) (k : String) :
    turns (keys ++ [k]) = if keys.getLast? = some k then turns keys else turns keys ++ [k] := by
  split
  · rename_i h
    obtain ⟨before, n, rfl, hne⟩ := exists_last_stretch h
    rw [List.append_assoc, ← List.replicate_succ', turns_stretch hne, turns_stretch hne]
  · rename_i h
    exact turns_stretch h 0

example : turns ["A", "A", "B", "A"] = ["A", "B", "A"] := by decide +kernel

theorem length_turns (keys : List String) : (turns keys).length = (keys.splitBy (· == ·)).length :=
  List.filterMap_length_eq_length.mpr fun _ hs =>
    List.isSome_head?.mpr (List.ne_nil_of_mem_splitBy hs)

theorem mem_turns {keys : List String} {k : String} : k ∈ turns keys ↔ k ∈ keys := by
  induction keys using List.reverseRecOn with
  | nil => rfl
  | append_singleton keys last ih =>
    rw [turns_snoc]
    split
    · rename_i h
      have hlast := List.mem_of_getLast? h
      rw [ih, List.mem_append, List.mem_singleton]
      exact ⟨.inl, fun h => h.elim id fun hk => hk ▸ hlast⟩
    · rw [List.mem_append, List.mem_append, ih]

theorem length_turns_le (keys : List String) : (turns keys).length ≤ keys.length := by
  induction keys using List.reverseRecOn with
  | nil => exact Nat.le_refl 0
  | append_singleton keys k ih =>
    rw [turns_snoc]
    split <;> simp only [List.length_append, List.length_singleton] <;> omega

theorem count_turns_snoc (keys : List String) (key k : String) :
    (turns (keys ++ [k])).count key =
      (turns keys).count key + if k = key ∧ keys.getLast? ≠ some key then 1 else 0 := by
  rw [turns_snoc]
  by_cases hk : k = key
  · subst hk
    by_cases hlast : keys.getLast? = some k <;> simp [hlast]
  · split <;> simp [hk]

/-- Every distinct key has a turn. -/
theorem length_eraseDups_le (keys : List String) : keys.eraseDups.length ≤ (turns keys).length := by
  have hsub : keys.eraseDups ⊆ turns keys := fun k hk => mem_turns.mpr (List.mem_eraseDups.mp hk)
  exact ((nodup_eraseDups keys).subperm hsub).length_le

theorem sum_count_turns (keys : List String) :
    (keys.eraseDups.map (turns keys).count).sum = (turns keys).length := by
  have hsame : keys.eraseDups.toFinset = (turns keys).toFinset := by
    ext k
    simp [mem_turns]
  calc (keys.eraseDups.map (turns keys).count).sum
      = ∑ k ∈ keys.eraseDups.toFinset, (turns keys).count k :=
        (List.sum_toFinset _ (nodup_eraseDups keys)).symm
    _ = ∑ k ∈ (turns keys).toFinset, (turns keys).count k := by rw [hsame]
    _ = (turns keys).length := List.sum_toFinset_count_eq_length _

theorem returns_absent {key : String} {keys : List String} (h : key ∉ keys) :
    returns key keys = 0 := by
  rw [returns, List.count_eq_zero.mpr fun hkey => h (mem_turns.mp hkey)]

/-- All returns together are the turns that are not the first one of their key. -/
theorem sum_returns (keys : List String) :
    (keys.eraseDups.map fun key => returns key keys).sum + keys.eraseDups.length =
      (turns keys).length := by
  have hcount : ∀ key ∈ keys.eraseDups, returns key keys + 1 = (turns keys).count key := by
    intro key hkey
    have hpos : 0 < (turns keys).count key :=
      List.count_pos_iff.mpr (mem_turns.mpr (List.mem_eraseDups.mp hkey))
    rw [returns]
    omega
  rw [← sum_count_turns, ← List.map_congr_left hcount, List.sum_map_add]
  simp

/-! ### Adjacent keys -/

/-- A key is adjacent exactly if it has one turn at most. -/
theorem adjacent_iff_turns (key : String) (keys : List String) :
    adjacent key keys = true ↔ (turns keys).count key ≤ 1 := by
  induction keys using List.reverseRecOn with
  | nil => simp [adjacent, behind, turns]
  | append_singleton keys k ih =>
    rw [adjacent_snoc, ih, count_turns_snoc]
    by_cases hk : k = key ∧ keys.getLast? ≠ some key
    · rw [if_pos hk]
      by_cases hmem : key ∈ keys
      · have hpos : 0 < (turns keys).count key := List.count_pos_iff.mpr (mem_turns.mpr hmem)
        exact ⟨fun h => absurd (h.2 hk.1 hmem) hk.2, fun h => by omega⟩
      · have hzero : (turns keys).count key = 0 :=
          List.count_eq_zero.mpr fun h => hmem (mem_turns.mp h)
        simp [hzero, hmem]
    · rw [if_neg hk, Nat.add_zero, and_iff_left_iff_imp]
      simp only [not_and, not_not] at hk
      exact fun _ h _ => hk h

theorem adjacent_iff_returns (key : String) (keys : List String) :
    adjacent key keys = true ↔ returns key keys = 0 := by
  rw [adjacent_iff_turns, returns, Nat.sub_eq_zero_iff_le]

theorem sublist_snoc_iff {l keys : List String} {a k : String} :
    (l ++ [a]).Sublist (keys ++ [k]) ↔ (l ++ [a]).Sublist keys ∨ a = k ∧ l.Sublist keys := by
  rw [← List.reverse_sublist, List.reverse_concat, List.reverse_concat, List.cons_sublist_cons',
    ← List.reverse_concat, List.reverse_sublist, List.reverse_sublist]

/-- A key is adjacent exactly if nothing else lies between two of its places. -/
theorem adjacent_iff_between (key : String) (keys : List String) :
    adjacent key keys = true ↔ ∀ other, [key, other, key].Sublist keys → other = key := by
  induction keys using List.reverseRecOn with
  | nil => simp [adjacent, behind]
  | append_singleton keys k ih =>
    have hsub (other : String) : [key, other, key].Sublist (keys ++ [k]) ↔
        [key, other, key].Sublist keys ∨ key = k ∧ [key, other].Sublist keys :=
      sublist_snoc_iff (l := [key, other])
    simp only [adjacent_snoc, ih, hsub]
    constructor
    · rintro ⟨hadj, hlast⟩ other (h | ⟨rfl, h⟩)
      · exact hadj other h
      · have hmem : key ∈ keys := h.subset List.mem_cons_self
        obtain ⟨before, rfl⟩ := List.getLast?_eq_some_iff.mp (hlast rfl hmem)
        rcases sublist_snoc_iff (l := [key]).mp h with h | ⟨rfl, -⟩
        · exact hadj other ((sublist_snoc_iff (l := [key, other])).mpr (.inr ⟨rfl, h⟩))
        · rfl
    · intro h
      refine ⟨fun other ho => h other (.inl ho), ?_⟩
      rintro rfl hmem
      obtain ⟨before, last, rfl⟩ :=
        (List.eq_nil_or_concat' keys).resolve_left (List.ne_nil_of_mem hmem)
      rw [List.getLast?_concat, Option.some_inj]
      rcases List.mem_append.mp hmem with hbefore | hlast
      · have hpair := (sublist_snoc_iff (l := [k]) (a := last) (k := last)).mpr
          (.inr ⟨rfl, List.singleton_sublist.mpr hbefore⟩)
        exact h last (.inr ⟨rfl, hpair⟩)
      · exact (List.mem_singleton.mp hlast).symm

/-! ### Violations -/

theorem violations_observe (b : IndexBuilder) (key : String) (offset : UInt64) :
    (b.observe key offset).violations =
      if b.current ≠ some key ∧ b.has key = true then b.violations + 1 else b.violations := by
  rw [observe]
  by_cases hcurrent : b.current = some key
  · simp [hcurrent, update]
  · by_cases hhas : b.has key = true <;> simp [hcurrent, hhas]

/-- A builder counts the turns that are not the first one of their key. -/
theorem violations_run (events : List Event) :
    (run events).violations =
      UInt64.ofNat ((turns (keysMet events)).length - (keysMet events).eraseDups.length) := by
  induction events using List.reverseRecOn with
  | nil => rfl
  | append_singleton events e ih =>
    rw [run_snoc]
    cases e with
    | annotate key offset =>
      rw [keysMet_annotate]
      exact ih
    | observe key offset =>
      have hle := length_eraseDups_le (keysMet events)
      rw [step, violations_observe, ih, has_run, (run_spec events).2, keysMet_observe, turns_snoc,
        eraseDups_snoc]
      by_cases hlast : (keysMet events).getLast? = some key
      · simp [hlast, List.mem_of_getLast? hlast]
      · by_cases hmet : key ∈ keysMet events
        · simp only [hlast, hmet, ne_eq, not_false_eq_true, decide_true, and_self, if_true, if_false,
            List.length_append, List.length_singleton, Nat.sub_add_comm hle, UInt64.ofNat_add]
          rfl
        · simp [hlast, hmet]

/-! ### The index of a history -/

/-- What an index says if it tells a history: an entry for each key that was met, in the order in
which keys were first met. `count` and `violations` are counted in words. -/
structure Tells (ix : SecondaryIndex) (events : List Event) : Prop where
  keys : ix.keys = (keysMet events).eraseDups
  offset : ∀ e ∈ ix.entries, (observations events).lookup e.key = some e.offset
  count : ∀ e ∈ ix.entries, e.count = UInt64.ofNat ((keysMet events).count e.key)
  contiguous : ∀ e ∈ ix.entries, e.contiguous = true ↔
    ∀ other, [e.key, other, e.key].Sublist (keysMet events) → other = e.key
  catalogOffset : ∀ e ∈ ix.entries, e.catalogOffset = lastNote? e.key events
  distinct_le : (keysMet events).eraseDups.length ≤ ((keysMet events).splitBy (· == ·)).length
  violations : ix.violations = UInt64.ofNat
    (((keysMet events).splitBy (· == ·)).length - (keysMet events).eraseDups.length)
  get?_entry : ∀ e ∈ ix.entries, ix.get? e.key = some e
  get?_none : ∀ key, key ∉ keysMet events → ix.get? key = none

/-- After any run of calls the index tells the history, and a note is taken exactly if its key was
met before. -/
theorem tells_run (events : List Event) :
    Tells (run events).finish events ∧
      ∀ key offset, ((run events).annotate key offset).1 = true ↔ key ∈ keysMet events := by
  have hsummary : ∀ e ∈ (run events).finish.entries,
      e.key ∈ keysMet events ∧ e = summary events e.key := by
    intro e he
    rw [finish, (run_spec events).1] at he
    obtain ⟨key, hkey, rfl⟩ := List.mem_map.mp he
    exact ⟨List.mem_eraseDups.mp hkey, rfl⟩
  refine ⟨⟨keys_run events, ?offset, ?count, ?contiguous, ?catalogOffset, ?distinct, ?violations,
    ?entry, ?none⟩, fun key offset => by rw [annotate, has_run, decide_eq_true_iff]⟩
  case offset =>
    intro e he
    obtain ⟨hmet, heq⟩ := hsummary e he
    obtain ⟨offset, hoffset⟩ := exists_lookup hmet
    rw [heq, summary, hoffset, Option.getD_some]
  case count => exact fun e he => congrArg IndexEntry.count (hsummary e he).2
  case contiguous =>
    intro e he
    rw [← adjacent_iff_between, congrArg IndexEntry.contiguous (hsummary e he).2, summary]
  case catalogOffset => exact fun e he => congrArg IndexEntry.catalogOffset (hsummary e he).2
  case distinct =>
    rw [← length_turns]
    exact length_eraseDups_le _
  case violations =>
    rw [← length_turns]
    exact violations_run events
  case entry =>
    intro e he
    obtain ⟨hmet, heq⟩ := hsummary e he
    rw [get?_run, if_pos hmet, ← heq]
  case none =>
    intro key hkey
    rw [get?_run, if_neg hkey]

end SciArchive.IndexBuilder
