import Mathlib.Data.List.Infix
import SciArchive.Namespace.Outline
import SciArchive.Proofs.RelatedLists

/-! Outlines line by line. A line stands for an address, the numbers of the items taken on the way down; what is
drawn in front of a label can be told from it, whatever the label looks like. -/
namespace SciArchive.Outline

/-! ### Addresses -/

/-- Induction on the items. -/
@[elab_as_elim]
theorem inductionOnItems {motive : Outline → Prop}
    (outline : ∀ o : Outline, (∀ c ∈ o.items, motive c) → motive o) : ∀ o, motive o
  | ⟨label, items⟩ =>
    outline ⟨label, items⟩ fun c hc =>
      have _hlt : sizeOf c < sizeOf items := List.sizeOf_lt_of_mem hc
      inductionOnItems outline c
decreasing_by
  rw [Outline.mk.sizeOf_spec]
  omega

/-- What is reached by taking the item with each number in turn. -/
def at? : Outline → List Nat → Option Outline
  | o, [] => some o
  | o, i :: a => o.items[i]?.bind (at? · a)

mutual

/-- The addresses of an outline, each before those below it. -/
def addresses : Outline → List (List Nat)
  | ⟨_, items⟩ => [] :: addressesFrom 0 items

def addressesFrom (i : Nat) : List Outline → List (List Nat)
  | [] => []
  | o :: rest => o.addresses.map (i :: ·) ++ addressesFrom (i + 1) rest

end

/-- The address right behind, below the same parent. -/
def next : List Nat → List Nat
  | [] => []
  | [i] => [i + 1]
  | i :: a => i :: next a

theorem flatMap_zipIdx {α β : Type} (f : α → List β) (l : List α) :
    (l.zipIdx.flatMap fun q => f q.1) = l.flatMap f := by
  rw [← List.flatMap_map, List.zipIdx_map_fst]

variable {o c : Outline} {i : Nat} {a : List Nat}

theorem at?_cons (h : o.items[i]? = some c) : o.at? (i :: a) = c.at? a := by
  rw [at?, h, Option.bind_some]

theorem addressesFrom_eq (i : Nat) (os : List Outline) :
    addressesFrom i os = (os.zipIdx i).flatMap fun q => q.1.addresses.map (q.2 :: ·) := by
  induction os generalizing i with
  | nil => rfl
  | cons o os ih => rw [addressesFrom, ih, List.zipIdx_cons, List.flatMap_cons]

theorem addresses_eq (o : Outline) :
    o.addresses = [] :: o.items.zipIdx.flatMap fun q => q.1.addresses.map (q.2 :: ·) := by
  cases o
  rw [addresses, addressesFrom_eq]

theorem mem_addresses : a ∈ o.addresses ↔ (o.at? a).isSome = true := by
  induction o using inductionOnItems generalizing a with
  | outline o ih =>
    rw [addresses_eq]
    cases a with
    | nil => simp [at?]
    | cons i a =>
      simp only [List.mem_cons, reduceCtorEq, false_or, List.mem_flatMap, List.mem_zipIdx_iff_getElem?,
        List.mem_map, List.cons.injEq, at?]
      constructor
      · rintro ⟨⟨c, _⟩, hc, b, hb, rfl, rfl⟩
        simp only at hc hb ⊢
        rw [hc, Option.bind_some]
        exact (ih c (List.mem_of_getElem? hc)).mp hb
      · intro h
        cases hc : o.items[i]? with
        | none => simp [hc] at h
        | some c =>
          rw [hc, Option.bind_some] at h
          exact ⟨(c, i), hc, a, (ih c (List.mem_of_getElem? hc)).mpr h, rfl, rfl⟩

/-- Addresses come in the order of their numbers, an address before those that it begins. -/
theorem pairwise_addresses (o : Outline) : o.addresses.Pairwise (· < ·) := by
  induction o using inductionOnItems with
  | outline o ih =>
    rw [addresses_eq]
    refine List.pairwise_cons.mpr ⟨fun a ha => ?_, List.pairwise_flatMap.mpr ⟨fun q hq => ?_, ?_⟩⟩
    · obtain ⟨q, -, ha⟩ := List.mem_flatMap.mp ha
      obtain ⟨b, -, rfl⟩ := List.mem_map.mp ha
      exact List.nil_lt_cons _ _
    · have hc := List.mem_of_getElem? (List.mem_zipIdx_iff_getElem?.mp hq)
      exact List.pairwise_map.mpr ((ih q.1 hc).imp fun hlt => List.cons_lt_cons_iff.mpr (.inr ⟨rfl, hlt⟩))
    · have hnumbers : (o.items.zipIdx.map Prod.snd).Pairwise (· < ·) := by
        rw [List.zipIdx_map_snd]
        exact List.pairwise_lt_range'
      refine (List.pairwise_map.mp hnumbers).imp fun hlt => ?_
      rintro _ ha _ hb
      obtain ⟨_, -, rfl⟩ := List.mem_map.mp ha
      obtain ⟨_, -, rfl⟩ := List.mem_map.mp hb
      exact List.cons_lt_cons_iff.mpr (.inl hlt)

/-! ### Rows -/

/-- What is drawn for an ancestor, by whether one follows it below the same parent. -/
def group (more : Bool) : String := if more then "│   " else "    "

/-- What is drawn right before a label. -/
def connector (more : Bool) : String := if more then "├── " else "└── "

/-- What one line tells: of each ancestor, the outermost first, and of the entity itself whether another follows
below the same parent, and the label. -/
structure Row where
  ancestors : List Bool
  more : Bool
  label : String
  deriving DecidableEq, Repr

namespace Row

def under (more : Bool) (r : Row) : Row := { r with ancestors := more :: r.ancestors }

def draw (r : Row) : String := String.join (r.ancestors.map group) ++ connector r.more ++ r.label

/-- Read one line: groups up to the first connector, and the label behind it. -/
def read? : List Char → Option Row
  | a :: b :: c :: d :: rest =>
    match String.ofList [a, b, c, d] with
    | "├── " => some ⟨[], true, String.ofList rest⟩
    | "└── " => some ⟨[], false, String.ofList rest⟩
    | "│   " => (read? rest).map (under true)
    | "    " => (read? rest).map (under false)
    | _ => none
  | _ => none

/-- Read lines, each with a line feed behind it. -/
def readAll? (text : String) : Option (List Row) := (text.toList.splitOn '\n').dropLast.mapM read?

theorem draw_under (more : Bool) (r : Row) : (r.under more).draw = group more ++ r.draw := by
  simp [draw, under, String.append_assoc]

theorem read?_draw (r : Row) : read? r.draw.toList = some r := by
  obtain ⟨ancestors, more, label⟩ := r
  induction ancestors with
  | nil => cases more <;> simp [draw, connector, read?]
  | cons m ancestors ih =>
    have hdraw : (Row.mk (m :: ancestors) more label).draw = group m ++ (Row.mk ancestors more label).draw :=
      draw_under m ⟨ancestors, more, label⟩
    rw [hdraw]
    cases m <;> simp [group, read?, ih, under]

example : read? "│   ├── └── x".toList = some ⟨[true], true, "└── x"⟩ := by decide +kernel

theorem lineFeed_not_mem_draw {r : Row} (h : '\n' ∉ r.label.toList) : '\n' ∉ r.draw.toList := by
  have hgroup : ∀ more, '\n' ∉ (group more).toList := by decide
  have hconnector : ∀ more, '\n' ∉ (connector more).toList := by decide
  simp only [draw, String.toList_append, String.toList_join, List.mem_append, List.mem_flatMap, List.mem_map]
  rintro ((⟨_, ⟨more, -, rfl⟩, hmem⟩ | hmem) | hmem)
  · exact hgroup more hmem
  · exact hconnector r.more hmem
  · exact h hmem

/-- Lines with a line feed behind each come apart. -/
theorem splitOn_lines {lines : List (List Char)} (h : ∀ line ∈ lines, '\n' ∉ line) :
    (lines.flatMap (· ++ ['\n'])).splitOn '\n' = lines ++ [[]] := by
  induction lines with
  | nil => rfl
  | cons line lines ih =>
    obtain ⟨hline, hlines⟩ := List.forall_mem_cons.mp h
    have hcut := List.splitOnP_append_cons (p := (· == '\n')) line (lines.flatMap (· ++ ['\n']))
      (by simp : ('\n' == '\n') = true)
    rw [← List.splitOn_eq_splitOnP, ← List.splitOn_eq_splitOnP, ← List.splitOn_eq_splitOnP,
      List.splitOn_eq_singleton hline, ih hlines] at hcut
    simpa using hcut

end Row

/-! ### Lines and addresses -/

/-- Whether another entity follows the one at an address, below the same parent; `more` tells it of the outermost. -/
def later (more : Bool) (o : Outline) : List Nat → Bool
  | [] => more
  | i :: a => (o.at? (next (i :: a))).isSome

/-- The row of an address. -/
def row (more : Bool) (o : Outline) (a : List Nat) : Row :=
  ⟨a.inits.dropLast.map (o.later more), o.later more a, ((o.at? a).map label).getD ""⟩

theorem later_cons (h : o.items[i]? = some c) (more : Bool) :
    o.later more (i :: a) = c.later (decide (i + 1 < o.items.length)) a := by
  cases a with
  | nil =>
    have hnext : o.at? [i + 1] = o.items[i + 1]? := by simp [at?]
    rw [later, later, next, hnext, Bool.eq_iff_iff, Option.isSome_iff_ne_none, decide_eq_true_iff, Ne,
      List.getElem?_eq_none_iff, Nat.not_le]
  | cons j a => simp [later, next, at?_cons h]

theorem row_cons (h : o.items[i]? = some c) (more : Bool) :
    o.row more (i :: a) = (c.row (decide (i + 1 < o.items.length)) a).under more := by
  have hfirst : o.later more [] = more := rfl
  have hinits : (i :: a).inits.dropLast = [] :: a.inits.dropLast.map (i :: ·) := by
    rw [List.inits_cons, List.dropLast_cons_of_ne_nil (by cases a <;> simp), List.map_dropLast]
  rw [row, hinits, List.map_cons, List.map_map, hfirst, later_cons h, at?_cons h]
  simp only [Function.comp_def, later_cons h, row, Row.under]

theorem linesAll_eq (lead : String) (os : List Outline) (i : Nat) :
    linesAll lead os = (os.zipIdx i).flatMap fun q => q.1.lines lead (decide (i + os.length ≤ q.2 + 1)) := by
  induction os generalizing i with
  | nil => rfl
  | cons o os ih =>
    have hlast : os.isEmpty = decide (i + (o :: os).length ≤ i + 1) := by cases os <;> simp
    rw [linesAll, hlast, ih (i + 1), List.zipIdx_cons, List.flatMap_cons]
    simp [Nat.add_assoc, Nat.add_comm 1]

theorem lines_eq (lead : String) (more : Bool) (o : Outline) :
    o.lines lead (!more) = (lead ++ connector more ++ o.label) ::
      o.items.zipIdx.flatMap fun q => q.1.lines (lead ++ group more) (!decide (q.2 + 1 < o.items.length)) := by
  obtain ⟨label, items⟩ := o
  have hlast : ∀ i, decide (0 + items.length ≤ i + 1) = !decide (i + 1 < items.length) := fun i => by
    rw [Nat.zero_add, ← decide_not, decide_eq_decide, Nat.not_lt]
  rw [lines, linesAll_eq _ _ 0]
  simp only [hlast]
  cases more <;> rfl

/-- The lines are the rows of the addresses, drawn. -/
theorem lines_eq_rows (lead : String) (more : Bool) (o : Outline) :
    o.lines lead (!more) = o.addresses.map fun a => lead ++ (o.row more a).draw := by
  induction o using inductionOnItems generalizing lead more with
  | outline o ih =>
    have hfirst : lead ++ connector more ++ o.label = lead ++ (o.row more []).draw := by
      simp [row, Row.draw, later, at?, String.append_assoc]
    rw [lines_eq, addresses_eq, List.map_cons, List.map_flatMap, hfirst]
    refine congrArg _ (List.flatMap_congr fun q hq => ?_)
    have hc := List.mem_zipIdx_iff_getElem?.mp hq
    rw [ih q.1 (List.mem_of_getElem? hc), List.map_map]
    refine List.map_congr_left fun a _ => ?_
    rw [Function.comp, row_cons hc, Row.draw_under, String.append_assoc]

theorem preorderAll_eq (depth : Nat) (os : List Outline) : preorderAll depth os = os.flatMap (preorder depth) := by
  induction os with
  | nil => rfl
  | cons o os ih => rw [preorderAll, ih, List.flatMap_cons]

theorem preorder_eq (depth : Nat) (o : Outline) :
    o.preorder depth = (depth, o.label) :: o.items.flatMap (preorder (depth + 1)) := by
  cases o
  rw [preorder, preorderAll_eq]

/-- Depths and labels in order are those of the rows. -/
theorem preorder_eq_rows (depth : Nat) (more : Bool) (o : Outline) :
    o.preorder depth =
      (o.addresses.map (o.row more)).map fun r => (depth + r.ancestors.length, r.label) := by
  induction o using inductionOnItems generalizing depth more with
  | outline o ih =>
    rw [preorder_eq, addresses_eq, ← flatMap_zipIdx, List.map_cons, List.map_cons, List.map_flatMap, List.map_flatMap]
    refine congrArg₂ _ (by simp [row, at?]) (List.flatMap_congr fun q hq => ?_)
    have hc := List.mem_zipIdx_iff_getElem?.mp hq
    rw [ih q.1 (List.mem_of_getElem? hc) _ (decide (q.2 + 1 < o.items.length)), List.map_map, List.map_map,
      List.map_map]
    refine List.map_congr_left fun a _ => ?_
    simp only [Function.comp, row_cons hc, Row.under, List.length_cons]
    rw [Nat.add_assoc, Nat.add_comm 1]

/-! ### Reading back -/

theorem text_eq (o : Outline) :
    o.text.toList = (o.addresses.map fun a => (o.row false a).draw.toList).flatMap (· ++ ['\n']) := by
  rw [text, String.toList_join, List.flatMap_map, show o.lines "" true = _ from lines_eq_rows "" false o,
    List.flatMap_map, List.flatMap_map]
  simp

/-- Where no label holds a line feed, every line is the row of an address, and is read back as that row. -/
theorem readAll?_text (h : ∀ a ∈ o.addresses, '\n' ∉ (o.row false a).label.toList) :
    o.text.toList.splitOn '\n' = (o.addresses.map fun a => (o.row false a).draw.toList) ++ [[]] ∧
    Row.readAll? o.text = some (o.addresses.map (o.row false)) := by
  have hlines : ∀ line ∈ o.addresses.map fun a => (o.row false a).draw.toList, '\n' ∉ line :=
    List.forall_mem_map.mpr fun a ha => Row.lineFeed_not_mem_draw (h a ha)
  have hsplit := Row.splitOn_lines hlines
  rw [← text_eq] at hsplit
  refine ⟨hsplit, ?_⟩
  rw [Row.readAll?, hsplit, List.dropLast_concat, List.mapM_map, Function.comp_def]
  simp only [Row.read?_draw]
  exact List.mapM_pure

/-! ### What depths and labels tell -/

/-- What stands behind the entities of a depth is not as deep. -/
def Shallow (depth : Nat) (rows : List (Nat × String)) : Prop := ∀ r ∈ rows.head?, r.1 < depth

theorem Shallow.append {depth : Nat} {rest : List (Nat × String)} (h : Shallow depth rest) (os : List Outline) :
    Shallow (depth + 1) (os.flatMap (preorder depth) ++ rest) := by
  cases os with
  | nil => exact fun r hr => (h r hr).trans (Nat.lt_succ_self depth)
  | cons o os =>
    rw [List.flatMap_cons, preorder_eq]
    rintro _ ⟨⟩
    exact Nat.lt_succ_self depth

theorem flatMap_preorder_inj {os os' : List Outline} {depth : Nat} {rest rest' : List (Nat × String)}
    (heach : ∀ o ∈ os, ∀ {o' : Outline} {rest rest' : List (Nat × String)}, Shallow (depth + 1) rest →
      Shallow (depth + 1) rest' → o.preorder depth ++ rest = o'.preorder depth ++ rest' → o = o' ∧ rest = rest')
    (hrest : Shallow depth rest) (hrest' : Shallow depth rest')
    (h : os.flatMap (preorder depth) ++ rest = os'.flatMap (preorder depth) ++ rest') :
    os = os' ∧ rest = rest' := by
  induction os generalizing os' with
  | nil =>
    cases os' with
    | nil => exact ⟨rfl, h⟩
    | cons o' os' =>
      rw [List.flatMap_cons, preorder_eq] at h
      exact absurd (hrest (depth, o'.label) (congrArg List.head? h)) (Nat.lt_irrefl depth)
  | cons o os ih =>
    cases os' with
    | nil =>
      rw [List.flatMap_cons, preorder_eq] at h
      exact absurd (hrest' (depth, o.label) (congrArg List.head? h.symm)) (Nat.lt_irrefl depth)
    | cons o' os' =>
      rw [List.flatMap_cons, List.flatMap_cons, List.append_assoc, List.append_assoc] at h
      obtain ⟨rfl, hbehind⟩ := heach o List.mem_cons_self (hrest.append os) (hrest'.append os') h
      obtain ⟨rfl, hrest⟩ := ih (fun o ho => heach o (List.mem_cons_of_mem _ ho)) hbehind
      exact ⟨rfl, hrest⟩

theorem preorder_append_inj {o' : Outline} {depth : Nat} {rest rest' : List (Nat × String)}
    (hrest : Shallow (depth + 1) rest) (hrest' : Shallow (depth + 1) rest')
    (h : o.preorder depth ++ rest = o'.preorder depth ++ rest') : o = o' ∧ rest = rest' := by
  induction o using inductionOnItems generalizing o' depth rest rest' with
  | outline o ih =>
    obtain ⟨label, items⟩ := o
    obtain ⟨label', items'⟩ := o'
    rw [preorder_eq, preorder_eq] at h
    obtain ⟨hhead, htail⟩ := List.cons.inj h
    obtain ⟨hitems, hbehind⟩ := flatMap_preorder_inj (fun c hc _ _ _ => ih c hc) hrest hrest' htail
    exact ⟨by rw [Outline.mk.injEq]; exact ⟨(Prod.mk.inj hhead).2, hitems⟩, hbehind⟩

/-- Depths and labels tell an outline. -/
theorem preorder_inj {o' : Outline} {depth : Nat} (h : o.preorder depth = o'.preorder depth) : o = o' := by
  have hnil : Shallow (depth + 1) [] := fun _ hr => by cases hr
  exact (preorder_append_inj hnil hnil (congrArg (· ++ []) h)).1

end SciArchive.Outline
