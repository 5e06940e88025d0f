import SciArchive.Proofs.ShapeTexts
import Mathlib.Algebra.BigOperators.Group.List.Lemmas
import Mathlib.Algebra.BigOperators.Ring.List
import Mathlib.Algebra.Order.Ring.Nat
import Mathlib.Data.List.TakeWhile

/-! The number of elements of a variable is the product of its lengths, taken in their order, each product on
the way in a machine word. The whole product can fit where one on the way does not: it takes a zero behind the
others. So there are shapes whose count is found in one order and not in another. -/
namespace SciArchive

theorem takeWhile_sublist_filter {α : Type} (p : α → Bool) (l : List α) :
    (l.takeWhile p).Sublist (l.filter p) := by
  have hkept : (l.takeWhile p).filter p = l.takeWhile p :=
    List.filter_eq_self.mpr fun _ ha => List.mem_takeWhile_imp ha
  have hsublist := (List.takeWhile_sublist (l := l) p).filter p
  rwa [hkept] at hsublist

theorem takeWhile_filter_append {α : Type} (p : α → Bool) (l : List α) :
    (l.filter p ++ l.filter fun a => !p a).takeWhile p = l.filter p := by
  have hbehind : (l.filter fun a => !p a).takeWhile p = [] := by
    cases hothers : l.filter fun a => !p a with
    | nil => rfl
    | cons a rest =>
      have ha : a ∈ l.filter fun a => !p a := hothers ▸ List.mem_cons_self
      rw [List.mem_filter] at ha
      exact List.takeWhile_cons_of_neg (by simpa using ha.2)
  rw [List.takeWhile_append_of_pos fun a ha => (List.mem_filter.mp ha).2, hbehind, List.append_nil]

theorem forall_ne_zero {ls : List Nat} (h : 0 ∉ ls) : ∀ l ∈ ls, decide (l ≠ 0) = true := by
  intro l hl
  simpa using fun hzero : l = 0 => h (hzero ▸ hl)

theorem prod_filter_pos (ls : List Nat) : 0 < (ls.filter (· ≠ 0)).prod :=
  Nat.pos_of_ne_zero (List.prod_ne_zero fun hzero => by simpa using (List.mem_filter.mp hzero).2)

theorem prod_takeWhile_dvd (ls : List Nat) : (ls.takeWhile (· ≠ 0)).prod ∣ (ls.filter (· ≠ 0)).prod :=
  (takeWhile_sublist_filter _ ls).prod_dvd_prod

namespace Variable

/-- The lengths in their order, with zero for one that varies. -/
def lengths (v : Variable) : List Nat := v.dimensions.map Dimension.size

def Regular (v : Variable) : Prop := ∀ d ∈ v.dimensions, d.length ≠ .varying

instance (v : Variable) : Decidable v.Regular :=
  inferInstanceAs (Decidable (∀ d ∈ v.dimensions, d.length ≠ .varying))

/-- All lengths are fixed, and their product is `n`, which fits a machine word. -/
structure HasCount (v : Variable) (n : Nat) : Prop where
  regular : v.Regular
  prod : v.lengths.prod = n
  lt_size : n < UInt64.size

variable {v w : Variable} {n : Nat}

/-! ### One product after the other -/

theorem foldlM_mulWord? {dims : List Dimension} {a : Nat} (ha : a < UInt64.size) :
    dims.foldlM (fun product d => d.length.fixed?.bind (mulWord? product)) a = some n ↔
      (∀ d ∈ dims, d.length ≠ .varying) ∧ a * (dims.map Dimension.size).prod = n ∧
        a * ((dims.map Dimension.size).takeWhile (· ≠ 0)).prod < UInt64.size := by
  induction dims generalizing a with
  | nil => simp [ha]
  | cons d dims ih =>
    rw [List.foldlM_cons, List.map_cons, List.prod_cons, List.forall_mem_cons]
    cases hlength : d.length with
    | varying => simp [DimLength.fixed?]
    | fixed l =>
      have hsize : d.size = l := by simp [Dimension.size, hlength, DimLength.fixed?]
      have hstep : (DimLength.fixed l).fixed?.bind (mulWord? a) = mulWord? a l := rfl
      have hpos := Nat.pos_of_dvd_of_pos (prod_takeWhile_dvd (dims.map Dimension.size)) (prod_filter_pos _)
      rw [hsize, hstep, mulWord?]
      by_cases hfits : a * l < UInt64.size
      · -- a zero ends the front, and the product behind it stays zero
        have hfront : a * l * ((dims.map Dimension.size).takeWhile (· ≠ 0)).prod < UInt64.size ↔
            a * ((l :: dims.map Dimension.size).takeWhile (· ≠ 0)).prod < UInt64.size := by
          by_cases hzero : l = 0
          · simp [hzero, ha]
          · rw [List.takeWhile_cons_of_pos (by simpa using hzero), List.prod_cons, Nat.mul_assoc]
        rw [if_pos hfits, Option.bind_eq_bind, Option.bind_some, ih hfits, hfront, Nat.mul_assoc]
        simp
      · -- too much already, and the lengths of the front are at least one each
        have hzero : l ≠ 0 := by
          rintro rfl
          rw [Nat.mul_zero] at hfits
          exact hfits (by decide)
        have hfront : ¬ a * ((l :: dims.map Dimension.size).takeWhile (· ≠ 0)).prod < UInt64.size := by
          rw [List.takeWhile_cons_of_pos (by simpa using hzero), List.prod_cons, ← Nat.mul_assoc]
          exact fun h => hfits (Nat.lt_of_le_of_lt (Nat.le_mul_of_pos_right _ hpos) h)
        rw [if_neg hfits]
        simp only [hfront, and_false]
        simp

/-- The count is there if all lengths are fixed and those before the first zero have a product that fits. -/
theorem elementCount?_eq_some : v.elementCount? = some n ↔
    v.HasCount n ∧ (v.lengths.takeWhile (· ≠ 0)).prod < UInt64.size := by
  rw [elementCount?, foldlM_mulWord? (by decide), Nat.one_mul, Nat.one_mul]
  constructor
  · rintro ⟨hregular, hprod, hfits⟩
    refine ⟨⟨hregular, hprod, ?_⟩, hfits⟩
    rw [← hprod]
    by_cases hzero : 0 ∈ v.dimensions.map Dimension.size
    · rw [List.prod_eq_zero hzero]
      decide
    · rwa [List.takeWhile_eq_self_iff.mpr (forall_ne_zero hzero)] at hfits
  · rintro ⟨⟨hregular, hprod, -⟩, hfits⟩
    exact ⟨hregular, hprod, hfits⟩

/-! ### Other orders -/

theorem hasCount_zero (hregular : v.Regular) (hzero : 0 ∈ v.lengths) : v.HasCount 0 :=
  ⟨hregular, List.prod_eq_zero hzero, by decide⟩

theorem HasCount.perm (h : v.HasCount n) (hperm : w.dimensions.Perm v.dimensions) : w.HasCount n where
  regular d hd := h.regular d (hperm.mem_iff.mp hd)
  prod := (hperm.map Dimension.size).prod_eq.trans h.prod
  lt_size := h.lt_size

theorem elementCount?_perm (hperm : w.dimensions.Perm v.dimensions)
    (hfits : v.Regular → 0 ∈ v.lengths → (v.lengths.filter (· ≠ 0)).prod < UInt64.size)
    (h : v.elementCount? = some n) : w.elementCount? = some n := by
  rw [elementCount?_eq_some] at h ⊢
  obtain ⟨hcount, -⟩ := h
  have hall : (v.lengths.filter (· ≠ 0)).prod < UInt64.size := by
    by_cases hzero : 0 ∈ v.lengths
    · exact hfits hcount.regular hzero
    · rw [List.filter_eq_self.mpr (forall_ne_zero hzero), hcount.prod]
      exact hcount.lt_size
  have hlengths : w.lengths.Perm v.lengths := hperm.map Dimension.size
  have hdvd : (w.lengths.takeWhile (· ≠ 0)).prod ∣ (v.lengths.filter (· ≠ 0)).prod := by
    rw [← (hlengths.filter _).prod_eq]
    exact prod_takeWhile_dvd w.lengths
  exact ⟨hcount.perm hperm, Nat.lt_of_le_of_lt (Nat.le_of_dvd (prod_filter_pos _) hdvd) hall⟩

/-- A zero in front of all else gives the count zero. -/
theorem exists_perm_zero (hregular : v.Regular) (hzero : 0 ∈ v.lengths) :
    ∃ w : Variable, w.dimensions.Perm v.dimensions ∧ w.elementCount? = some 0 := by
  obtain ⟨d, hd, hsize⟩ := List.mem_map.mp hzero
  have hperm := (List.perm_cons_erase hd).symm
  refine ⟨{ v with dimensions := d :: v.dimensions.erase d }, hperm, ?_⟩
  rw [elementCount?_eq_some]
  refine ⟨(hasCount_zero hregular hzero).perm hperm, ?_⟩
  simp [lengths, hsize, UInt64.size]

/-- Zeros behind all else give no count, if the others are too much for a word. -/
theorem exists_perm_none (hlarge : ¬ (v.lengths.filter (· ≠ 0)).prod < UInt64.size) :
    ∃ w : Variable, w.dimensions.Perm v.dimensions ∧ w.elementCount? = none := by
  let p : Dimension → Bool := fun d => d.size ≠ 0
  let w : Variable := { v with dimensions := v.dimensions.filter p ++ v.dimensions.filter fun d => !p d }
  have hlengths : w.lengths = v.lengths.filter (· ≠ 0) ++ v.lengths.filter fun l => !decide (l ≠ 0) := by
    simp only [lengths, List.filter_map, w, List.map_append]
    rfl
  refine ⟨w, List.filter_append_perm p v.dimensions, ?_⟩
  rw [Option.eq_none_iff_forall_ne_some]
  intro n hn
  rw [elementCount?_eq_some, hlengths, takeWhile_filter_append] at hn
  exact hlarge hn.2

/-! ### Exact counts -/

/-- A count that is there is exact. The exact count is missed where a zero stands behind lengths whose product
is too much for a word. Some order of the dimensions does that if there is a zero and the product of all other
lengths is too much. -/
theorem elementCount?_exact (v : Variable) :
    (∀ n, v.elementCount? = some n ↔ v.HasCount n ∧ (v.lengths.takeWhile (· ≠ 0)).prod < UInt64.size) ∧
    ((∀ n, v.elementCount? = some n ↔ v.HasCount n) ↔
      (v.Regular → 0 ∈ v.lengths → (v.lengths.takeWhile (· ≠ 0)).prod < UInt64.size)) ∧
    ((∀ w : Variable, w.dimensions.Perm v.dimensions → w.elementCount? = v.elementCount?) ↔
      (v.Regular → 0 ∈ v.lengths → (v.lengths.filter (· ≠ 0)).prod < UInt64.size)) := by
  refine ⟨fun n => elementCount?_eq_some, ⟨fun hexact hregular hzero => ?_, fun hfits n => ?_⟩,
    ⟨fun hsame hregular hzero => ?_, fun hfits w hperm => ?_⟩⟩
  · exact (elementCount?_eq_some.mp ((hexact 0).mpr (hasCount_zero hregular hzero))).2
  · rw [elementCount?_eq_some, and_iff_left_iff_imp]
    intro hcount
    by_cases hzero : 0 ∈ v.lengths
    · exact hfits hcount.regular hzero
    · rw [List.takeWhile_eq_self_iff.mpr (forall_ne_zero hzero), hcount.prod]
      exact hcount.lt_size
  · by_contra hlarge
    obtain ⟨first, hfirst, hzeroCount⟩ := exists_perm_zero hregular hzero
    obtain ⟨last, hlast, hnone⟩ := exists_perm_none hlarge
    rw [hsame first hfirst, ← hsame last hlast, hnone] at hzeroCount
    cases hzeroCount
  · have hlengths : w.lengths.Perm v.lengths := hperm.map Dimension.size
    have hback : w.Regular → 0 ∈ w.lengths → (w.lengths.filter (· ≠ 0)).prod < UInt64.size := by
      intro hregular hzero
      rw [(hlengths.filter _).prod_eq]
      exact hfits (fun d hd => hregular d (hperm.mem_iff.mpr hd)) (hlengths.mem_iff.mp hzero)
    ext n
    exact ⟨elementCount?_perm hperm.symm hback, elementCount?_perm hperm hfits⟩

end Variable

def ofShape (name : String) (shape : List DimSpec) : VariableDraft :=
  ((VariableDraft.Operation.setShape shape).apply (.new name .byte)).2

/-- The root has a variable of each of the two shapes. -/
def shapedTwice (first second : List DimSpec) : ScopeDraft :=
  (ScopeDraft.Operation.run [.addVariable (ofShape "v" first), .addVariable (ofShape "w" second)] .root).2

theorem reachable_shapedTwice (first second : List DimSpec) :
    Reachable (fun _ _ => True) (.scope (shapedTwice first second)) := by
  have hvar : ∀ name shape, Reachable (fun _ _ => True) (.var (ofShape name shape)) := fun name shape =>
    .editVariable _ (.newVariable name .byte) fun _ hm => by cases hm
  refine .run (.newScope "") (by simp [ScopeDraft.Operation.scopes]) ?_ fun _ _ _ => trivial
  simpa [ScopeDraft.Operation.vars] using ⟨hvar "v" first, hvar "w" second⟩

/-- The product of the lengths that are not zero just fits, and the zero can stand anywhere. -/
theorem Variable.elementCount?_exact_shapedTwice :
    ∃ t, ((shapedTwice [.fixed (2 ^ 32), .fixed (2 ^ 31), .fixed 0]
        [.fixed 0, .fixed (2 ^ 32), .fixed (2 ^ 31)]).build 0).1 = .ok t ∧
      ∃ v w, t.root.vars = [v, w] ∧ v.elementCount? = some 0 ∧ w.elementCount? = v.elementCount? := by
  obtain ⟨t, ht, v, w, hvars, hperm, hcount, hfront, hall⟩ :
      ∃ t, ((shapedTwice [.fixed (2 ^ 32), .fixed (2 ^ 31), .fixed 0]
        [.fixed 0, .fixed (2 ^ 32), .fixed (2 ^ 31)]).build 0).1 = .ok t ∧
      ∃ v w : Variable, t.root.vars = [v, w] ∧ w.dimensions.Perm v.dimensions ∧ v.HasCount 0 ∧
        (v.lengths.takeWhile (· ≠ 0)).prod < UInt64.size ∧ (v.lengths.filter (· ≠ 0)).prod < UInt64.size :=
    ⟨_, rfl, _, _, rfl, by decide +kernel, ⟨by decide, rfl, by decide⟩, by decide, by decide⟩
  obtain ⟨hexact, -, horders⟩ := elementCount?_exact v
  exact ⟨t, ht, v, w, hvars, (hexact 0).mpr ⟨hcount, hfront⟩, horders.mpr (fun _ _ => hall) w hperm⟩

/-- Here it does not fit, and the count is found only with the zero in front. -/
theorem Variable.elementCount?_not_exact :
    Reachable (fun _ _ => True) (.scope (shapedTwice [.fixed (2 ^ 32), .fixed (2 ^ 32), .fixed 0]
      [.fixed 0, .fixed (2 ^ 32), .fixed (2 ^ 32)])) ∧
    ∃ t, ((shapedTwice [.fixed (2 ^ 32), .fixed (2 ^ 32), .fixed 0]
        [.fixed 0, .fixed (2 ^ 32), .fixed (2 ^ 32)]).build 0).1 = .ok t ∧
      ∃ v w : Variable, t.root.vars = [v, w] ∧ w.dimensions.Perm v.dimensions ∧ v.HasCount 0 ∧
        v.elementCount? = none ∧ w.elementCount? = some 0 := by
  refine ⟨reachable_shapedTwice _ _, _, rfl, _, _, rfl, by decide +kernel, ?_, rfl, rfl⟩
  exact ⟨by decide, rfl, by decide⟩

end SciArchive
