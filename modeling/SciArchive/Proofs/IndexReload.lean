import SciArchive.Proofs.IndexCodec
import SciArchive.Proofs.KeyTurns

/-! The index of a builder, written and read back: all of it but the number of violations, which is
counted anew from the entries. -/
namespace SciArchive

namespace IndexBuilder

/-- A builder that met records of fewer keys than a word counts, none of them longer than memory is,
has an index that can be written. -/
theorem storable_run {events : List Event} (hcount : (keysMet events).length < UInt64.size)
    (hkeys : ∀ key ∈ keysMet events, (Utf8.ofString key).length + 100 < UInt64.size) :
    (run events).finish.Storable where
  distinct := by
    rw [keys_run]
    exact nodup_eraseDups _
  count_lt := by
    have hle := Nat.le_trans (length_eraseDups_le (keysMet events)) (length_turns_le _)
    rw [finish, (run_spec events).1, List.length_map]
    exact Nat.lt_of_le_of_lt hle hcount
  entry_lt := by
    intro e he
    rw [finish, (run_spec events).1] at he
    obtain ⟨key, hkey, rfl⟩ := List.mem_map.mp he
    have hlt := hkeys key (List.mem_eraseDups.mp hkey)
    exact Nat.lt_of_le_of_lt (summary events key).length_encode_le hlt

/-- The histories that a machine of words can go through: it meets fewer records than a word counts,
and a key is a text in memory, of which half the addresses are to be had. -/
structure Fits (events : List Event) : Prop where
  count_lt : (keysMet events).length < UInt64.size
  key_lt : ∀ key ∈ keysMet events, (Utf8.ofString key).length < 2 ^ 63

theorem Fits.storable {events : List Event} (h : Fits events) : (run events).finish.Storable :=
  storable_run h.count_lt fun key hkey =>
    Nat.lt_trans (Nat.add_lt_add_right (h.key_lt key hkey) 100) (by decide)

/-! ### Violations and scattered entries -/

/-- The returns of each key that was met. -/
def returnCounts (events : List Event) : List Nat :=
  (keysMet events).eraseDups.map fun key => returns key (keysMet events)

theorem violations_toNat {events : List Event} (h : Fits events) :
    (run events).violations.toNat = (returnCounts events).sum := by
  have hsum := sum_returns (keysMet events)
  have hle := length_turns_le (keysMet events)
  have hlt := h.count_lt
  rw [violations_run, ← hsum, Nat.add_sub_cancel, Varint.toNat_ofNat_word (by omega), returnCounts]

/-- The scattered entries are those of the keys that came back. -/
theorem countP_scattered (events : List Event) :
    ((run events).finish.entries.countP fun e => !e.contiguous) =
      (returnCounts events).countP (0 < ·) := by
  rw [finish, (run_spec events).1, returnCounts, List.countP_map, List.countP_map]
  refine List.countP_congr fun key _ => ?_
  have hadj := adjacent_iff_returns key (keysMet events)
  simp only [Function.comp_apply, summary, Bool.not_eq_true', decide_eq_true_eq,
    ← Bool.not_eq_true, hadj, Nat.pos_iff_ne_zero]

theorem returnCounts_le {events : List Event} {n : Nat} :
    (∀ m ∈ returnCounts events, m ≤ n) ↔ ∀ key, returns key (keysMet events) ≤ n := by
  rw [returnCounts, List.forall_mem_map]
  refine ⟨fun h key => ?_, fun h key _ => h key⟩
  by_cases hkey : key ∈ keysMet events
  · exact h key (List.mem_eraseDups.mpr hkey)
  · rw [returns_absent hkey]
    exact Nat.zero_le n

/-- Keys that came back are no more than the times that they did, and as many if none came back
twice. -/
theorem countP_pos (ns : List Nat) :
    ns.countP (0 < ·) ≤ ns.sum ∧ (ns.countP (0 < ·) = 0 ↔ ns.sum = 0) ∧
      (ns.countP (0 < ·) = ns.sum ↔ ∀ n ∈ ns, n ≤ 1) := by
  induction ns with
  | nil => simp
  | cons n ns ih =>
    obtain ⟨hle, hzero, heq⟩ := ih
    rw [List.forall_mem_cons, ← heq, List.countP_cons, List.sum_cons]
    by_cases hn : 0 < n
    · simp only [hn, decide_true, if_true]
      omega
    · simp only [hn, decide_false, Bool.false_eq_true, if_false]
      omega

end IndexBuilder

namespace SecondaryIndex

open IndexBuilder

/-- What is read back from the file of a builder's index. It is the same index exactly if no key came
back more than once. -/
theorem reload_run {events : List Event} (h : Fits events) :
    ∃ loaded, ofBytes (run events).finish.toBytes = .ok loaded ∧
      loaded.entries = (run events).finish.entries ∧
      (∀ key, loaded.get? key = (run events).finish.get? key) ∧
      loaded.violations.toNat = (loaded.entries.countP fun e => !e.contiguous) ∧
      loaded.violations ≤ (run events).finish.violations ∧
      (loaded.violations = 0 ↔ (run events).finish.violations = 0) ∧
      loaded.toBytes = (run events).finish.toBytes ∧
      (loaded = (run events).finish ↔ ∀ key, returns key (keysMet events) ≤ 1) := by
  have hentries := entries_ofEntries (run events).finish.entries
  have hcounted := violations_ofEntries h.storable.count_lt
  have hloaded := hcounted.trans (countP_scattered events)
  have hbuilt : (run events).finish.violations.toNat = (returnCounts events).sum :=
    violations_toNat h
  obtain ⟨hle, hzero, heq⟩ := countP_pos (returnCounts events)
  refine ⟨ofEntries (run events).finish.entries, ofBytes_toBytes h.storable, hentries,
    get?_of_entries hentries, hcounted, ?le, ?zero, toBytes_of_entries hentries, ?same⟩
  case le => rwa [UInt64.le_iff_toNat_le, hloaded, hbuilt]
  case zero => rwa [← UInt64.toNat_inj, ← UInt64.toNat_inj, hloaded, hbuilt]
  case same =>
    have hsame : ofEntries (run events).finish.entries = (run events).finish ↔
        (ofEntries (run events).finish.entries).violations = (run events).finish.violations :=
      ⟨fun h => congrArg violations h, fun h => congrArg (SecondaryIndex.mk _) h⟩
    rw [hsame, ← UInt64.toNat_inj, hloaded, hbuilt, heq, returnCounts_le]

/-- The empty key comes back twice and a key of two bytes once: of three violations two are left. -/
theorem reload_run_returnedTwice :
    let events : List Event := [.observe "" 0, .observe "é" 7, .annotate "é" 0xFFFFFFFFFFFFFFFF,
      .observe "" 9, .observe "é" 12, .observe "" 20]
    Fits events ∧ (run events).finish.violations = 3 ∧
      ∃ loaded, ofBytes (run events).finish.toBytes = .ok loaded ∧
        loaded.entries = (run events).finish.entries ∧ loaded.violations.toNat = 2 ∧
        loaded ≠ (run events).finish := by
  intro events
  have hfits : Fits events := ⟨by decide, by decide +kernel⟩
  obtain ⟨loaded, hok, hentries, -, hcount, -, -, -, hsame⟩ := reload_run hfits
  refine ⟨hfits, by decide +kernel, loaded, hok, hentries, ?_, fun h => ?_⟩
  · rw [hcount, hentries]
    decide +kernel
  · exact absurd (hsame.mp h "") (by decide +kernel)

end SecondaryIndex
end SciArchive
