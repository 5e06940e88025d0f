import SciArchive.Index.Builder
import Mathlib.Data.List.Induction
import Mathlib.Data.List.TakeWhile

/-! A builder as a function of its history: each entry tells what the events up to now say of its
key. -/
namespace SciArchive.IndexBuilder

/-! ### Histories -/

/-- What happens to a builder: a record is met, or a line of a catalog. -/
inductive Event where
  | observe (key : String) (offset : UInt64)
  | annotate (key : String) (offset : UInt64)
  deriving DecidableEq, Repr

def step (b : IndexBuilder) : Event → IndexBuilder
  | .observe key offset => b.observe key offset
  | .annotate key offset => (b.annotate key offset).2

def run (events : List Event) : IndexBuilder := events.foldl step {}

def Event.observation? : Event → Option (String × UInt64)
  | observe key offset => some (key, offset)
  | annotate .. => none

def Event.observes (key : String) : Event → Bool
  | observe found _ => found == key
  | annotate .. => false

/-- The offset that an event notes for `key`. -/
def Event.note? (key : String) : Event → Option UInt64
  | observe .. => none
  | annotate found offset => if found = key then some offset else none

def observations (events : List Event) : List (String × UInt64) := events.filterMap Event.observation?

/-- The keys met, in order. -/
def keysMet (events : List Event) : List String := (observations events).map Prod.fst

/-- What lies behind the first stretch of `key`. -/
def behind (key : String) (keys : List String) : List String :=
  (keys.dropWhile (· != key)).dropWhile (· == key)

/-- All of `key` lies in one stretch: behind its first stretch it does not come again. -/
def adjacent (key : String) (keys : List String) : Bool := (behind key keys).all (· != key)

/-- The last note for `key` since it was first met. -/
def lastNote? (key : String) (events : List Event) : Option UInt64 :=
  ((events.dropWhile fun e => !e.observes key).filterMap (Event.note? key)).getLast?

/-- What the events tell about a key that was met. -/
def summary (events : List Event) (key : String) : IndexEntry where
  key := key
  offset := ((observations events).lookup key).getD 0
  count := UInt64.ofNat ((keysMet events).count key)
  catalogOffset := lastNote? key events
  contiguous := adjacent key (keysMet events)

/-! ### One more event -/

@[simp] theorem run_nil : run [] = {} := rfl

@[simp] theorem run_snoc (events : List Event) (e : Event) :
    run (events ++ [e]) = (run events).step e :=
  List.foldl_append ..

@[simp] theorem keysMet_observe (events : List Event) (key : String) (offset : UInt64) :
    keysMet (events ++ [.observe key offset]) = keysMet events ++ [key] := by
  simp [keysMet, observations, Event.observation?]

@[simp] theorem keysMet_annotate (events : List Event) (key : String) (offset : UInt64) :
    keysMet (events ++ [.annotate key offset]) = keysMet events := by
  simp [keysMet, observations, Event.observation?]

theorem mem_keysMet {events : List Event} {key : String} :
    key ∈ keysMet events ↔ ∃ e ∈ events, e.observes key = true := by
  simp only [keysMet, observations, List.mem_map, List.mem_filterMap]
  constructor
  · rintro ⟨⟨found, offset⟩, ⟨e, he, hfound⟩, rfl⟩
    cases e with
    | observe k o => cases hfound; exact ⟨_, he, beq_self_eq_true found⟩
    | annotate k o => cases hfound
  · rintro ⟨e, he, hkey⟩
    cases e with
    | observe k o => exact ⟨(k, o), ⟨_, he, rfl⟩, beq_iff_eq.mp hkey⟩
    | annotate k o => cases hkey

/-- Behind the first meeting of a key, more events only follow. -/
theorem dropWhile_snoc_of_met {events : List Event} {key : String} (h : key ∈ keysMet events)
    (e : Event) :
    ((events ++ [e]).dropWhile fun e => !e.observes key) =
      (events.dropWhile fun e => !e.observes key) ++ [e] := by
  obtain ⟨met, hmem, hmet⟩ := mem_keysMet.mp h
  have hne : (events.dropWhile fun e => !e.observes key).isEmpty = false := by
    rw [List.isEmpty_eq_false_iff]
    intro hnil
    have := List.dropWhile_eq_nil_iff.mp hnil met hmem
    simp [hmet] at this
  rw [List.dropWhile_append, hne, if_neg Bool.false_ne_true]

theorem lastNote?_snoc {events : List Event} {key : String} (h : key ∈ keysMet events) (e : Event) :
    lastNote? key (events ++ [e]) = (e.note? key).or (lastNote? key events) := by
  rw [lastNote?, dropWhile_snoc_of_met h, List.filterMap_append, lastNote?]
  cases hnote : e.note? key with
  | none => simp [hnote]
  | some offset => simp [hnote]

theorem lastNote?_first {events : List Event} {key : String} (h : key ∉ keysMet events)
    (offset : UInt64) :
    lastNote? key (events ++ [.observe key offset]) = none := by
  have hnil : (events.dropWhile fun e => !e.observes key) = [] := by
    rw [List.dropWhile_eq_nil_iff]
    intro e he
    cases hkey : e.observes key with
    | false => rfl
    | true => exact absurd (mem_keysMet.mpr ⟨e, he, hkey⟩) h
  rw [lastNote?, List.dropWhile_append, hnil]
  simp [Event.observes, Event.note?]

/-! ### Adjacent keys -/

theorem behind_snoc_of_mem {key : String} {keys : List String} (h : key ∈ keys) (k : String) :
    behind key (keys ++ [k]) =
      if behind key keys = [] ∧ k = key then [] else behind key keys ++ [k] := by
  have hne : (keys.dropWhile (· != key)).isEmpty = false := by
    rw [List.isEmpty_eq_false_iff]
    intro hnil
    have := List.dropWhile_eq_nil_iff.mp hnil key h
    simp at this
  rw [behind, List.dropWhile_append, hne, if_neg Bool.false_ne_true, List.dropWhile_append, ← behind]
  cases hb : behind key keys with
  | nil => by_cases hk : k = key <;> simp [hk]
  | cons b bs => simp

theorem bne_of_absent {key : String} {keys : List String} (h : key ∉ keys) :
    ∀ k ∈ keys, (k != key) = true := fun k hk => by
  rw [bne_iff_ne]
  rintro rfl
  exact h hk

theorem behind_first {key : String} {keys : List String} (h : key ∉ keys) :
    behind key (keys ++ [key]) = [] := by
  rw [behind, List.dropWhile_append_of_pos (bne_of_absent h)]
  simp

/-- Nothing lies behind the stretch of a key exactly when it still goes on. -/
theorem behind_eq_nil_iff {key : String} {keys : List String} (h : key ∈ keys) :
    behind key keys = [] ↔ adjacent key keys = true ∧ keys.getLast? = some key := by
  induction keys using List.reverseRecOn with
  | nil => cases h
  | append_singleton keys k ih =>
    rw [List.getLast?_append, List.getLast?_singleton, Option.some_or, Option.some_inj]
    by_cases hmem : key ∈ keys
    · have hsnoc := behind_snoc_of_mem hmem k
      rw [adjacent, hsnoc]
      by_cases hk : k = key
      · simp only [hk, and_true]
        by_cases hb : behind key keys = [] <;> simp [hb]
      · simp [hk]
    · have hk : k = key := by simpa [hmem, eq_comm] using h
      subst hk
      simp [adjacent, behind_first hmem]

/-- Adjacent things of one key lie in a stretch among others. -/
theorem exists_stretch {α : Type} {f : α → String} {items : List α} {key : String}
    (h : key ∈ items.map f)
    (hadjacent : adjacent key (items.map f) = true) :
    ∃ before first stretch after, items = before ++ (first :: stretch) ++ after ∧
      (∀ i ∈ before, f i ≠ key) ∧ (∀ i ∈ first :: stretch, f i = key) ∧ ∀ i ∈ after, f i ≠ key := by
  have hbehind : behind key (items.map f) =
      ((items.dropWhile (f · != key)).dropWhile (f · == key)).map f := by
    simp only [behind, List.dropWhile_map]
    rfl
  have hbefore : ∀ i ∈ items.takeWhile (f · != key), f i ≠ key := fun i hi => by
    simpa using List.mem_takeWhile_imp hi
  have hstretch : ∀ i ∈ (items.dropWhile (f · != key)).takeWhile (f · == key), f i = key :=
    fun i hi => by
    simpa using List.mem_takeWhile_imp hi
  have hafter : ∀ i ∈ (items.dropWhile (f · != key)).dropWhile (f · == key), f i ≠ key :=
    fun i hi => by
    rw [adjacent, hbehind, List.all_map, List.all_eq_true] at hadjacent
    simpa using hadjacent i hi
  have hsplit : items = items.takeWhile (f · != key) ++
      (items.dropWhile (f · != key)).takeWhile (f · == key) ++
      (items.dropWhile (f · != key)).dropWhile (f · == key) := by
    rw [List.append_assoc, List.takeWhile_append_dropWhile, List.takeWhile_append_dropWhile]
  cases hmine : (items.dropWhile (f · != key)).takeWhile (f · == key) with
  | nil =>
    -- then the first stretch is empty, and nothing has the key
    rw [hmine] at hsplit
    obtain ⟨i, hi, hkey⟩ := List.mem_map.mp h
    rw [hsplit, List.append_nil] at hi
    rcases List.mem_append.mp hi with hi | hi
    · exact absurd hkey (hbefore i hi)
    · exact absurd hkey (hafter i hi)
  | cons first stretch =>
    rw [hmine] at hsplit hstretch
    exact ⟨_, first, stretch, _, hsplit, hbefore, hstretch, hafter⟩

theorem adjacent_snoc_ne {key k : String} {keys : List String} (h : key ∈ keys) (hk : k ≠ key) :
    adjacent key (keys ++ [k]) = adjacent key keys := by
  rw [adjacent, behind_snoc_of_mem h, if_neg (fun hb => hk hb.2), adjacent]
  simp [hk]

theorem adjacent_again {key : String} {keys : List String} (h : key ∈ keys)
    (hlast : keys.getLast? = some key) : adjacent key (keys ++ [key]) = adjacent key keys := by
  rw [adjacent, behind_snoc_of_mem h]
  by_cases hb : behind key keys = []
  · rw [if_pos ⟨hb, rfl⟩, ((behind_eq_nil_iff h).mp hb).1]
    rfl
  · have hnot : adjacent key keys = false :=
      Bool.eq_false_iff.mpr fun hadj => hb ((behind_eq_nil_iff h).mpr ⟨hadj, hlast⟩)
    rw [if_neg (fun hnil => hb hnil.1), hnot]
    simp

theorem adjacent_return {key : String} {keys : List String} (h : key ∈ keys)
    (hlast : keys.getLast? ≠ some key) : adjacent key (keys ++ [key]) = false := by
  have hb : behind key keys ≠ [] := fun hnil => hlast ((behind_eq_nil_iff h).mp hnil).2
  rw [adjacent, behind_snoc_of_mem h, if_neg (fun hnil => hb hnil.1)]
  simp

theorem adjacent_first {key : String} {keys : List String} (h : key ∉ keys) :
    adjacent key (keys ++ [key]) = true := by
  rw [adjacent, behind_first h]
  rfl

theorem adjacent_absent {key : String} {keys : List String} (h : key ∉ keys) :
    adjacent key keys = true := by
  rw [adjacent, behind, List.dropWhile_eq_nil_iff.mpr (bne_of_absent h)]
  rfl

/-- One more key leaves a key adjacent unless it returns. -/
theorem adjacent_snoc (key k : String) (keys : List String) :
    adjacent key (keys ++ [k]) = true ↔
      adjacent key keys = true ∧ (k = key → key ∈ keys → keys.getLast? = some key) := by
  by_cases hk : k = key
  · subst hk
    by_cases hmem : k ∈ keys
    · by_cases hlast : keys.getLast? = some k
      · simp [adjacent_again hmem hlast, hlast]
      · simp [adjacent_return hmem hlast, hlast, hmem]
    · simp [adjacent_first hmem, adjacent_absent hmem, hmem]
  · by_cases hmem : key ∈ keys
    · simp [adjacent_snoc_ne hmem hk, hk]
    · have habsent : key ∉ keys ++ [k] := by simp [hmem, Ne.symm hk]
      simp [adjacent_absent hmem, adjacent_absent habsent, hk]

/-! ### Entries as summaries -/

theorem eraseDups_snoc {keys : List String} (k : String) :
    (keys ++ [k]).eraseDups = if k ∈ keys then keys.eraseDups else keys.eraseDups ++ [k] := by
  rw [List.eraseDups_append]
  by_cases hk : k ∈ keys <;> simp [List.removeAll, List.eraseDups_cons, hk]

theorem nodup_eraseDups (keys : List String) : keys.eraseDups.Nodup := by
  induction keys using List.reverseRecOn with
  | nil => simp
  | append_singleton keys k ih =>
    rw [eraseDups_snoc]
    split
    · exact ih
    · rename_i hk
      refine List.nodup_append.mpr ⟨ih, by simp, fun a ha b hb hab => hk ?_⟩
      rw [← List.mem_singleton.mp hb, ← hab]
      exact List.mem_eraseDups.mp ha

theorem exists_lookup {events : List Event} {key : String} (h : key ∈ keysMet events) :
    ∃ offset, (observations events).lookup key = some offset := by
  rw [← Option.isSome_iff_exists, List.lookup_isSome_iff]
  obtain ⟨o, hmem, rfl⟩ := List.mem_map.mp h
  exact ⟨o, hmem, beq_self_eq_true _⟩

/-- A key that was met keeps the offset of its first meeting. -/
theorem lookup_observations_snoc {events : List Event} {key : String} (h : key ∈ keysMet events)
    (e : Event) :
    (observations (events ++ [e])).lookup key = (observations events).lookup key := by
  obtain ⟨offset, hoffset⟩ := exists_lookup h
  rw [observations, List.filterMap_append, List.lookup_append, ← observations, hoffset,
    Option.some_or]

/-- What a meeting of `k` changes in the summary of a key met before. -/
theorem summary_observe {events : List Event} {key : String} (h : key ∈ keysMet events) (k : String)
    (offset : UInt64) :
    summary (events ++ [.observe k offset]) key =
      if key = k then
        { summary events key with
          count := (summary events key).count + 1
          contiguous := (summary events key).contiguous && (keysMet events).getLast? == some k }
      else summary events key := by
  have hlookup := lookup_observations_snoc h (.observe k offset)
  have hnote : lastNote? key (events ++ [.observe k offset]) = lastNote? key events := by
    rw [lastNote?_snoc h]
    rfl
  by_cases hk : key = k
  · subst hk
    simp only [summary, keysMet_observe, hlookup, hnote, if_pos, List.count_append,
      List.count_singleton_self, UInt64.ofNat_add]
    by_cases hlast : (keysMet events).getLast? = some key
    · simp [adjacent_again h hlast, hlast]
    · simp [adjacent_return h hlast, hlast]
  · have hcount : (keysMet events ++ [k]).count key = (keysMet events).count key := by
      simp [List.count_append, Ne.symm hk]
    simp only [summary, keysMet_observe, hlookup, hnote, if_neg hk, hcount,
      adjacent_snoc_ne h (Ne.symm hk)]

theorem summary_first {events : List Event} {key : String} (h : key ∉ keysMet events)
    (offset : UInt64) :
    summary (events ++ [.observe key offset]) key = .first key offset := by
  have hlookup : (observations (events ++ [.observe key offset])).lookup key = some offset := by
    have hnone : (observations events).lookup key = none := by
      rw [List.lookup_eq_none_iff]
      intro o ho
      rw [bne_iff_ne]
      rintro rfl
      exact h (List.mem_map_of_mem ho)
    rw [observations, List.filterMap_append, List.lookup_append, ← observations, hnone]
    simp [Event.observation?]
  have hcount : (keysMet events ++ [key]).count key = 1 := by
    rw [List.count_append, List.count_eq_zero_of_not_mem h, List.count_singleton_self]
  simp only [summary, keysMet_observe, hlookup, hcount, lastNote?_first h, adjacent_first h,
    Option.getD_some, IndexEntry.first]
  rfl

theorem summary_annotate {events : List Event} {key : String} (h : key ∈ keysMet events) (k : String)
    (offset : UInt64) :
    summary (events ++ [.annotate k offset]) key =
      if key = k then { summary events key with catalogOffset := some offset }
      else summary events key := by
  have hlookup := lookup_observations_snoc h (.annotate k offset)
  by_cases hk : key = k
  · subst hk
    simp [summary, hlookup, lastNote?_snoc h, Event.note?]
  · simp [summary, hlookup, lastNote?_snoc h, Event.note?, hk, Ne.symm hk]

theorem has_of_entries {b : IndexBuilder} {events : List Event}
    (h : b.entries = (keysMet events).eraseDups.map (summary events)) (key : String) :
    b.has key = decide (key ∈ keysMet events) := by
  rw [has, h, List.any_map, Bool.eq_iff_iff, List.any_eq_true, decide_eq_true_iff]
  constructor
  · rintro ⟨k, hk, hkey⟩
    have hkey : k = key := of_decide_eq_true hkey
    exact hkey ▸ List.mem_eraseDups.mp hk
  · exact fun hkey => ⟨key, List.mem_eraseDups.mpr hkey, decide_eq_true rfl⟩

/-- After any events a builder has one entry for each key that was met, in the order in which keys
were first met, and it tells what the events tell. -/
theorem run_spec (events : List Event) :
    (run events).entries = (keysMet events).eraseDups.map (summary events) ∧
      (run events).current = (keysMet events).getLast? := by
  induction events using List.reverseRecOn with
  | nil => exact ⟨rfl, rfl⟩
  | append_singleton events e ih =>
    obtain ⟨hentries, hcurrent⟩ := ih
    have hhas := has_of_entries hentries
    have hupdate (k : String) (f : IndexEntry → IndexEntry) (e : Event)
        (hf : ∀ key ∈ keysMet events, summary (events ++ [e]) key =
          if key = k then f (summary events key) else summary events key) :
        ((run events).update k f).entries =
            (keysMet events).eraseDups.map (summary (events ++ [e])) := by
      rw [update, hentries, List.map_map]
      refine List.map_congr_left fun key hkey => ?_
      rw [hf key (List.mem_eraseDups.mp hkey)]
      rfl
    rw [run_snoc]
    cases e with
    | annotate k offset =>
      refine ⟨?_, by rw [keysMet_annotate]; exact hcurrent⟩
      rw [keysMet_annotate]
      exact hupdate k _ _ fun key hkey => summary_annotate hkey k offset
    | observe k offset =>
      rw [keysMet_observe, eraseDups_snoc, List.getLast?_append, List.getLast?_singleton,
        Option.some_or]
      have hobserve := fun key (hkey : key ∈ keysMet events) => summary_observe hkey k offset
      simp only [step, observe, hhas, decide_eq_true_eq]
      by_cases hlast : (run events).current = some k
      · have hmet : k ∈ keysMet events := List.mem_of_getLast? (hcurrent ▸ hlast)
        rw [if_pos hlast, if_pos hmet]
        refine ⟨hupdate k _ _ fun key hkey => ?_, hlast⟩
        rw [hobserve key hkey, ← hcurrent, hlast]
        simp
      · rw [if_neg hlast]
        by_cases hmet : k ∈ keysMet events
        · rw [if_pos hmet, if_pos hmet]
          refine ⟨hupdate k _ _ fun key hkey => ?_, rfl⟩
          have hno : ((keysMet events).getLast? == some k) = false := by
            rw [← hcurrent]
            simpa using hlast
          rw [hobserve key hkey, hno]
          simp
        · rw [if_neg hmet, if_neg hmet]
          refine ⟨?_, rfl⟩
          rw [List.map_append, List.map_singleton, summary_first hmet, hentries]
          refine congrArg (· ++ [IndexEntry.first k offset]) (List.map_congr_left fun key hkey => ?_)
          have hkey := List.mem_eraseDups.mp hkey
          rw [hobserve key hkey, if_neg (fun h : key = k => hmet (h ▸ hkey))]

theorem has_run (events : List Event) (key : String) :
    (run events).has key = decide (key ∈ keysMet events) :=
  has_of_entries (run_spec events).1 key

/-- Looking a key up gives what the events tell about it. -/
theorem get?_run (events : List Event) (key : String) :
    (run events).finish.get? key =
      if key ∈ keysMet events then some (summary events key) else none := by
  have hkey : ((fun e : IndexEntry => decide (e.key = key)) ∘ summary events) =
      fun k => decide (k = key) := rfl
  rw [SecondaryIndex.get?, finish, (run_spec events).1, List.find?_map, hkey]
  cases hfind : (keysMet events).eraseDups.find? (fun k => decide (k = key)) with
  | none =>
    have hmet : key ∉ keysMet events := fun h => by
      simpa using List.find?_eq_none.mp hfind key (List.mem_eraseDups.mpr h)
    rw [if_neg hmet]
    rfl
  | some k =>
    have hk : k = key := by simpa using List.find?_some hfind
    have hmet : key ∈ keysMet events := hk ▸ List.mem_eraseDups.mp (List.mem_of_find?_eq_some hfind)
    rw [if_pos hmet, hk]
    rfl

theorem keys_run (events : List Event) : (run events).finish.keys = (keysMet events).eraseDups := by
  rw [SecondaryIndex.keys, finish, (run_spec events).1, List.map_map]
  exact List.map_id _

end SciArchive.IndexBuilder
