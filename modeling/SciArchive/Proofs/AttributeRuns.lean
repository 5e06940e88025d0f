import SciArchive.Attribute
import Mathlib.Data.List.Nodup
import Mathlib.Logic.Function.Basic

/-! Runs of operations on sets of attributes. A set behaves as an ordered map from distinct names to values: the same
operations on such a map have the same answers and leave the same attributes in the same order. -/
namespace SciArchive

/-! ### Operations -/

namespace AttributeSet

/-- What an operation on a set answers. -/
inductive Answer where
  | done
  | told (yes : Bool)
  | taken (a : Option Attribute)

/-- What can be done to a set. It can also give way to what a filter keeps of it, or to a copy of its snapshot. -/
inductive Operation where
  | add (a : Attribute)
  | addAll (as : List Attribute)
  | remove (a : Attribute)
  | removeNamed (name : String)
  | removeIgnoringCase (name : String)
  | clear
  | rename (owner : String)
  | without (prefixes : List String)
  | copySnapshot

namespace Operation

def apply : Operation → AttributeSet → Answer × AttributeSet
  | add a, s => (.taken (s.add a).1, (s.add a).2)
  | addAll as, s => (.done, s.addAll as)
  | remove a, s => (.told (s.remove a).1, (s.remove a).2)
  | removeNamed name, s => (.taken (s.removeNamed name).1, (s.removeNamed name).2)
  | removeIgnoringCase name, s => (.taken (s.removeIgnoringCase name).1, (s.removeIgnoringCase name).2)
  | clear, s => (.done, s.clear)
  | rename owner, s => (.done, s.rename owner)
  | without prefixes, s => (.done, s.without prefixes)
  | copySnapshot, s => (.done, s.freeze.thaw)

/-- One operation after the other: their answers, and the set behind the last. -/
def run : List Operation → AttributeSet → List Answer × AttributeSet
  | [], s => ([], s)
  | op :: ops, s =>
    let r := op.apply s
    (r.1 :: (run ops r.2).1, (run ops r.2).2)

end Operation
end AttributeSet

/-! ### Ordered maps -/

/-- Values under distinct names, which have an order. -/
structure NamedValues where
  names : List String
  value : String → Value
  distinct : names.Nodup

namespace NamedValues

open AttributeSet (Answer Operation)

def empty : NamedValues where
  names := []
  value := fun _ => default
  distinct := List.nodup_nil

def under (m : NamedValues) (name : String) : Attribute := ⟨name, m.value name⟩

def attributes (m : NamedValues) : List Attribute := m.names.map m.under

def get? (m : NamedValues) (name : String) : Option Attribute :=
  if name ∈ m.names then some (m.under name) else none

/-- A name that is there keeps its place, another comes last. -/
def put (m : NamedValues) (a : Attribute) : NamedValues where
  names := if a.name ∈ m.names then m.names else m.names ++ [a.name]
  value := Function.update m.value a.name a.value
  distinct := by
    split
    · exact m.distinct
    · rename_i hnew
      refine List.nodup_append.mpr ⟨m.distinct, List.nodup_singleton _, fun n hn b hb hsame => hnew ?_⟩
      rwa [← List.mem_singleton.mp hb, ← hsame]

def drop (m : NamedValues) (name : String) : NamedValues where
  names := m.names.erase name
  value := m.value
  distinct := m.distinct.erase name

def keep (m : NamedValues) (p : String → Bool) : NamedValues where
  names := m.names.filter p
  value := m.value
  distinct := m.distinct.filter p

def firstName? (m : NamedValues) (p : Attribute → Bool) : Option String :=
  m.names.find? fun name => p (m.under name)

def first? (m : NamedValues) (p : Attribute → Bool) : Option Attribute := (m.firstName? p).map m.under

def dropFirst (m : NamedValues) (p : Attribute → Bool) : NamedValues :=
  match m.firstName? p with
  | some name => m.drop name
  | none => m

def apply (m : NamedValues) : Operation → Answer × NamedValues
  | .add a => (.taken (m.get? a.name), m.put a)
  | .addAll as => (.done, as.foldl put m)
  | .remove a => (.told (m.first? fun b => b.same a).isSome, m.dropFirst fun b => b.same a)
  | .removeNamed name => (.taken (m.get? name), m.drop name)
  | .removeIgnoringCase name =>
    (.taken (m.first? fun a => Text.equalIgnoringCase a.name name),
      m.dropFirst fun a => Text.equalIgnoringCase a.name name)
  | .clear => (.done, empty)
  | .rename _ => (.done, m)
  | .without prefixes => (.done, m.keep fun name => decide (∀ p ∈ prefixes, ¬ p.toList <+: name.toList))
  | .copySnapshot => (.done, m)

def run (m : NamedValues) : List Operation → List Answer × NamedValues
  | [] => ([], m)
  | op :: ops =>
    let r := m.apply op
    (r.1 :: (r.2.run ops).1, (r.2.run ops).2)

variable (m : NamedValues)

theorem map_name_attributes : m.attributes.map Attribute.name = m.names := by
  rw [attributes, List.map_map]
  exact List.map_id' m.names

theorem find?_attributes (p : Attribute → Bool) : m.attributes.find? p = m.first? p := List.find?_map

theorem firstName?_named (name : String) :
    (m.firstName? fun a => a.name = name) = if name ∈ m.names then some name else none := by
  rw [firstName?]
  by_cases hname : name ∈ m.names
  · rw [if_pos hname]
    cases hfind : m.names.find? fun n => decide ((m.under n).name = name) with
    | some n =>
      have hn := List.find?_some hfind
      exact congrArg some (of_decide_eq_true hn)
    | none =>
      have hnone := List.find?_eq_none.mp hfind name hname
      exact absurd (decide_eq_true rfl) hnone
  · rw [if_neg hname]
    refine List.find?_eq_none.mpr fun n hn hsame => hname ?_
    rwa [← (of_decide_eq_true hsame : n = name)]

theorem first?_named (name : String) : (m.first? fun a => a.name = name) = m.get? name := by
  rw [first?, firstName?_named, get?]
  by_cases hname : name ∈ m.names
  · rw [if_pos hname, if_pos hname, Option.map_some]
  · rw [if_neg hname, if_neg hname, Option.map_none]

theorem attributes_put_of_mem {a : Attribute} (h : a.name ∈ m.names) :
    (m.put a).attributes = m.attributes.map fun b => if b.name = a.name then a else b := by
  rw [attributes, attributes, List.map_map, put]
  simp only [if_pos h]
  refine List.map_congr_left fun name _ => ?_
  by_cases hname : name = a.name
  · subst hname
    simp [under]
  · simp [under, hname]

theorem attributes_put_of_not_mem {a : Attribute} (h : a.name ∉ m.names) :
    (m.put a).attributes = m.attributes ++ [a] := by
  rw [attributes, attributes, put]
  simp only [if_neg h, List.map_append, List.map_singleton]
  congr 1
  · refine List.map_congr_left fun name hname => ?_
    have hother : name ≠ a.name := fun hsame => h (hsame ▸ hname)
    simp [under, hother]
  · simp [under]

theorem attributes_keep (p : String → Bool) :
    (m.keep p).attributes = m.attributes.filter fun a => p a.name := by
  rw [attributes, attributes, List.filter_map]
  rfl

/-- To take out the first element of a kind is to take out that element. -/
theorem erase_eq_eraseP {p : String → Bool} {names : List String} {name : String}
    (h : names.find? p = some name) : names.erase name = names.eraseP p := by
  induction names with
  | nil => cases h
  | cons n names ih =>
    by_cases hn : p n = true
    · rw [List.find?_cons_of_pos hn, Option.some.injEq] at h
      rw [List.eraseP_cons_of_pos hn, h, List.erase_cons_head]
    · rw [List.find?_cons_of_neg hn] at h
      have hother : (n == name) = false := by
        refine beq_eq_false_iff_ne.mpr ?_
        rintro rfl
        exact hn (List.find?_some h)
      rw [List.eraseP_cons_of_neg hn, List.erase_cons_tail (by simp [hother]), ih h]

theorem attributes_dropFirst (p : Attribute → Bool) :
    (m.dropFirst p).attributes = m.attributes.eraseP p := by
  have hnames : m.attributes.eraseP p = (m.names.eraseP fun name => p (m.under name)).map m.under := List.eraseP_map
  rw [hnames, dropFirst]
  cases hfind : m.firstName? p with
  | some name => exact congrArg (List.map m.under) (erase_eq_eraseP hfind)
  | none => rw [List.eraseP_of_forall_not (List.find?_eq_none.mp hfind), attributes]

theorem drop_eq_dropFirst (name : String) : m.drop name = m.dropFirst fun a => a.name = name := by
  rw [dropFirst, firstName?_named]
  by_cases hname : name ∈ m.names
  · rw [if_pos hname]
  · rw [if_neg hname]
    simp only [drop, List.erase_of_not_mem hname]

end NamedValues
theorem startsWith_iff {text lead : String} : startsWith text lead = true ↔ lead.toList <+: text.toList :=
  List.isPrefixOf_iff_prefix

/-! ### Sets and maps side by side -/

namespace AttributeSet

variable {s : AttributeSet} {m : NamedValues}

theorem find?_eq (h : s.items = m.attributes) (name : String) : s.find? name = m.get? name := by
  rw [find?, h, m.find?_attributes, m.first?_named]

theorem add_eq (h : s.items = m.attributes) (a : Attribute) :
    (s.add a).1 = m.get? a.name ∧ (s.add a).2.items = (m.put a).attributes := by
  rw [add, find?_eq h, NamedValues.get?]
  by_cases hname : a.name ∈ m.names
  · rw [if_pos hname, m.attributes_put_of_mem hname, ← h]
    exact ⟨rfl, rfl⟩
  · rw [if_neg hname, m.attributes_put_of_not_mem hname, ← h]
    exact ⟨rfl, rfl⟩

theorem addAll_eq (h : s.items = m.attributes) (as : List Attribute) :
    (s.addAll as).items = (as.foldl NamedValues.put m).attributes := by
  induction as generalizing s m with
  | nil => exact h
  | cons a as ih => exact ih (add_eq h a).2

theorem without_eq (h : s.items = m.attributes) (prefixes : List String) :
    (s.without prefixes).items =
      (m.keep fun name => decide (∀ p ∈ prefixes, ¬ p.toList <+: name.toList)).attributes := by
  rw [m.attributes_keep, ← h, without]
  refine List.filter_congr fun a _ => ?_
  have hany : prefixes.any (startsWith a.name) = true ↔ ∃ p ∈ prefixes, p.toList <+: a.name.toList := by
    simp only [List.any_eq_true, startsWith_iff]
  rw [Bool.eq_iff_iff, Bool.not_eq_true', Bool.eq_false_iff, ne_eq, hany, decide_eq_true_iff]
  simp only [not_exists, not_and]

/-- One operation on both. -/
theorem apply_eq (h : s.items = m.attributes) (op : Operation) :
    (op.apply s).1 = (m.apply op).1 ∧ (op.apply s).2.items = (m.apply op).2.attributes := by
  have hfirst : ∀ p : Attribute → Bool, s.items.find? p = m.first? p := by
    intro p
    rw [h, m.find?_attributes]
  have hrest : ∀ p : Attribute → Bool, s.items.eraseP p = (m.dropFirst p).attributes := by
    intro p
    rw [h, m.attributes_dropFirst]
  cases op with
  | add a => exact ⟨congrArg Answer.taken (add_eq h a).1, (add_eq h a).2⟩
  | addAll as => exact ⟨rfl, addAll_eq h as⟩
  | remove a =>
    refine ⟨congrArg Answer.told ?_, hrest fun b => b.same a⟩
    rw [← hfirst, List.isSome_find?]
    rfl
  | removeNamed name =>
    refine ⟨congrArg Answer.taken (find?_eq h name), ?_⟩
    show s.items.eraseP (fun a => a.name = name) = (m.drop name).attributes
    rw [hrest, m.drop_eq_dropFirst]
  | removeIgnoringCase name =>
    exact ⟨congrArg Answer.taken (hfirst fun a => Text.equalIgnoringCase a.name name), hrest _⟩
  | clear => exact ⟨rfl, rfl⟩
  | rename owner => exact ⟨rfl, h⟩
  | without prefixes => exact ⟨rfl, without_eq h prefixes⟩
  | copySnapshot => exact ⟨rfl, h⟩

/-- Any operations on both. -/
theorem run_eq (h : s.items = m.attributes) (ops : List Operation) :
    (Operation.run ops s).1 = (m.run ops).1 ∧ (Operation.run ops s).2.items = (m.run ops).2.attributes := by
  induction ops generalizing s m with
  | nil => exact ⟨rfl, h⟩
  | cons op ops ih =>
    obtain ⟨hanswer, hitems⟩ := apply_eq h op
    obtain ⟨hanswers, hbehind⟩ := ih hitems
    refine ⟨?_, hbehind⟩
    rw [Operation.run, NamedValues.run, hanswer, hanswers]

end AttributeSet
/-! ### What is found under a name -/

namespace AttributeSet.Operation

/-- The attribute that an operation puts under a name, the last if there are more. -/
def puts? (name : String) : Operation → Option Attribute
  | add a => if a.name = name then some a else none
  | addAll as => as.reverse.find? fun a => a.name = name
  | remove _ | removeNamed _ | removeIgnoringCase _ | clear | rename _ | without _ | copySnapshot => none

/-- Whether an operation takes away what is under a name. A removal tells so by its answer. -/
def Drops (name : String) : Operation → Answer → Prop
  | remove a, answer => answer = .told true ∧ a.name = name
  | removeNamed other, _ => other = name
  | removeIgnoringCase _, answer => ∃ a, answer = .taken (some a) ∧ a.name = name
  | clear, _ => True
  | without prefixes, _ => ∃ p ∈ prefixes, p.toList <+: name.toList
  | add _, _ | addAll _, _ | rename _, _ | copySnapshot, _ => False

/-- Nothing in a history concerns a name. -/
def Quiet (name : String) (history : List (Operation × Answer)) : Prop :=
  ∀ e ∈ history, e.1.puts? name = none ∧ ¬ e.1.Drops name e.2

/-- The attribute was put under the name, and neither replaced nor taken away since. -/
def LastPut (name : String) (a : Attribute) (history : List (Operation × Answer)) : Prop :=
  ∃ before op answer since, history = before ++ (op, answer) :: since ∧ op.puts? name = some a ∧ Quiet name since

theorem quiet_cons {name : String} {e : Operation × Answer} {history : List (Operation × Answer)} :
    Quiet name (e :: history) ↔ (e.1.puts? name = none ∧ ¬ e.1.Drops name e.2) ∧ Quiet name history :=
  List.forall_mem_cons

theorem lastPut_cons {name : String} {a : Attribute} {e : Operation × Answer}
    {history : List (Operation × Answer)} :
    LastPut name a (e :: history) ↔ LastPut name a history ∨ e.1.puts? name = some a ∧ Quiet name history := by
  constructor
  · rintro ⟨before, op, answer, since, hsplit, hputs, hquiet⟩
    rcases List.cons_eq_append_iff.mp hsplit with ⟨rfl, hcons⟩ | ⟨before', rfl, hrest⟩
    · rw [List.cons.injEq] at hcons
      obtain ⟨rfl, rfl⟩ := hcons
      exact Or.inr ⟨hputs, hquiet⟩
    · exact Or.inl ⟨before', op, answer, since, hrest, hputs, hquiet⟩
  · rintro (⟨before, op, answer, since, rfl, hputs, hquiet⟩ | ⟨hputs, hquiet⟩)
    · exact ⟨e :: before, op, answer, since, rfl, hputs, hquiet⟩
    · exact ⟨[], e.1, e.2, history, rfl, hputs, hquiet⟩

end AttributeSet.Operation

namespace NamedValues

open AttributeSet (Answer Operation)

variable {m : NamedValues} {name : String}

theorem get?_put (a : Attribute) : (m.put a).get? name = if a.name = name then some a else m.get? name := by
  rw [get?, get?, put]
  by_cases hsame : a.name = name
  · subst hsame
    by_cases hname : a.name ∈ m.names <;> simp [under, hname]
  · have hother : name ≠ a.name := Ne.symm hsame
    by_cases hname : a.name ∈ m.names <;> simp [under, hname, hsame, hother]

theorem get?_putAll (as : List Attribute) :
    (as.foldl put m).get? name = (as.reverse.find? fun a => a.name = name).or (m.get? name) := by
  induction as generalizing m with
  | nil => rw [List.reverse_nil, List.find?_nil, Option.none_or, List.foldl_nil]
  | cons a as ih =>
    rw [List.foldl_cons, ih, get?_put, List.reverse_cons, List.find?_append, Option.or_assoc, List.find?_singleton]
    by_cases hsame : a.name = name <;> simp [hsame]

theorem get?_drop (other : String) :
    (m.drop other).get? name = if other = name then none else m.get? name := by
  rw [get?, get?, drop]
  simp only [m.distinct.mem_erase_iff]
  by_cases hsame : other = name
  · simp [hsame]
  · have hother : name ≠ other := Ne.symm hsame
    simp [hsame, hother, under]

theorem get?_keep (p : String → Bool) :
    (m.keep p).get? name = if p name = true then m.get? name else none := by
  rw [get?, get?, keep]
  simp only [List.mem_filter]
  by_cases hp : p name = true <;> simp [hp, under]

theorem get?_dropFirst (p : Attribute → Bool) :
    (m.dropFirst p).get? name = if ∃ a, m.first? p = some a ∧ a.name = name then none else m.get? name := by
  rw [dropFirst, first?]
  cases m.firstName? p with
  | some other => simp [get?_drop, under]
  | none => simp

theorem name_eq_of_first?_same {a b : Attribute} (h : (m.first? fun c => c.same a) = some b) : b.name = a.name := by
  rw [first?, Option.map_eq_some_iff] at h
  obtain ⟨n, hn, rfl⟩ := h
  rw [firstName?] at hn
  have hsame := List.find?_some hn
  rw [Attribute.same, Bool.and_eq_true, beq_iff_eq] at hsame
  exact hsame.1

/-- What one operation does to a name. -/
theorem get?_apply (op : Operation) (a : Attribute) :
    (m.apply op).2.get? name = some a ↔
      op.puts? name = some a ∨ (op.puts? name = none ∧ ¬ op.Drops name (m.apply op).1) ∧ m.get? name = some a := by
  cases op with
  | add b =>
    show (m.put b).get? name = some a ↔ (if b.name = name then some b else none) = some a ∨
      ((if b.name = name then some b else none) = none ∧ ¬ False) ∧ m.get? name = some a
    rw [get?_put]
    by_cases hsame : b.name = name <;> simp [hsame]
  | addAll as =>
    show (as.foldl put m).get? name = some a ↔ (as.reverse.find? fun a => a.name = name) = some a ∨
      ((as.reverse.find? fun a => a.name = name) = none ∧ ¬ False) ∧ m.get? name = some a
    rw [get?_putAll, Option.or_eq_some_iff, not_false_iff, and_true]
  | remove b =>
    show (m.dropFirst fun c => c.same b).get? name = some a ↔ none = some a ∨
      (none = none ∧ ¬ (Answer.told (m.first? fun c => c.same b).isSome = .told true ∧ b.name = name)) ∧
        m.get? name = some a
    have hdropped : (∃ c, (m.first? fun c => c.same b) = some c ∧ c.name = name) ↔
        Answer.told (m.first? fun c => c.same b).isSome = .told true ∧ b.name = name := by
      cases hfirst : m.first? fun c => c.same b with
      | some c =>
        have hname := name_eq_of_first?_same hfirst
        simp [hname]
      | none => simp
    rw [get?_dropFirst]
    simp only [hdropped]
    split <;> simp_all
  | removeNamed other =>
    show (m.drop other).get? name = some a ↔ none = some a ∨ (none = none ∧ ¬ other = name) ∧ m.get? name = some a
    rw [get?_drop]
    by_cases hsame : other = name <;> simp [hsame]
  | removeIgnoringCase other =>
    show (m.dropFirst fun c => Text.equalIgnoringCase c.name other).get? name = some a ↔ none = some a ∨
      (none = none ∧ ¬ ∃ c, Answer.taken (m.first? fun c => Text.equalIgnoringCase c.name other) = .taken (some c) ∧
        c.name = name) ∧ m.get? name = some a
    rw [get?_dropFirst]
    simp only [Answer.taken.injEq]
    split <;> simp_all
  | clear => simp [apply, get?, empty, Operation.puts?, Operation.Drops]
  | rename owner => simp [apply, Operation.puts?, Operation.Drops]
  | without prefixes =>
    show (m.keep fun name => decide (∀ p ∈ prefixes, ¬ p.toList <+: name.toList)).get? name = some a ↔
      none = some a ∨ (none = none ∧ ¬ ∃ p ∈ prefixes, p.toList <+: name.toList) ∧ m.get? name = some a
    rw [get?_keep]
    simp
  | copySnapshot => simp [apply, Operation.puts?, Operation.Drops]

/-- What a run does to a name. -/
theorem get?_run (ops : List Operation) (a : Attribute) :
    (m.run ops).2.get? name = some a ↔
      Operation.LastPut name a (ops.zip (m.run ops).1) ∨
        Operation.Quiet name (ops.zip (m.run ops).1) ∧ m.get? name = some a := by
  induction ops generalizing m with
  | nil => simp [run, Operation.LastPut, Operation.Quiet]
  | cons op ops ih =>
    rw [run, List.zip_cons_cons, Operation.lastPut_cons, Operation.quiet_cons, ih, get?_apply]
    tauto

end NamedValues
/-! ### Sets behind a run -/

namespace AttributeSet

/-- Putting `a` among attributes: it takes the place of the one of its name, which is given back, or the last. -/
inductive Added (a : Attribute) : List Attribute → Option Attribute → List Attribute → Prop
  | displaced {l₁ l₂ : List Attribute} {old : Attribute} (name : old.name = a.name) :
    Added a (l₁ ++ old :: l₂) (some old) (l₁ ++ a :: l₂)
  | appended {l : List Attribute} (new : ∀ b ∈ l, b.name ≠ a.name) : Added a l none (l ++ [a])

/-- Taking the first attribute of a kind out of others, if there is one; the others stay in their order. -/
inductive Taken (p : Attribute → Prop) : List Attribute → Option Attribute → List Attribute → Prop
  | first {l₁ l₂ : List Attribute} {a : Attribute} (before : ∀ b ∈ l₁, ¬ p b) (kind : p a) :
    Taken p (l₁ ++ a :: l₂) (some a) (l₁ ++ l₂)
  | nothing {l : List Attribute} (others : ∀ b ∈ l, ¬ p b) : Taken p l none l

theorem added_add {s : AttributeSet} (h : s.names.Nodup) (a : Attribute) :
    Added a s.items (s.add a).1 (s.add a).2.items := by
  rw [add]
  cases hfind : s.find? a.name with
  | none =>
    refine .appended fun b hb hname => ?_
    have hnone := List.find?_eq_none.mp hfind b hb
    simp [hname] at hnone
  | some old =>
    obtain ⟨hold, l₁, l₂, hitems, -⟩ := List.find?_eq_some_iff_append.mp hfind
    have hname : old.name = a.name := of_decide_eq_true hold
    rw [names, hitems, List.map_append, List.map_cons, List.nodup_append, List.nodup_cons] at h
    -- no other attribute has the name, so nothing else is replaced
    have hother : ∀ l : List Attribute, a.name ∉ l.map Attribute.name →
        (l.map fun b => if b.name = a.name then a else b) = l := by
      intro l hl
      refine (List.map_congr_left fun b hb => ?_).trans (List.map_id l)
      have hname : b.name ≠ a.name := fun hsame => hl (hsame ▸ List.mem_map_of_mem hb)
      exact if_neg hname
    have hbefore : a.name ∉ l₁.map Attribute.name := fun hl => h.2.2 _ hl _ List.mem_cons_self hname.symm
    show Added a s.items (some old) (s.items.map fun b => if b.name = a.name then a else b)
    rw [hitems, List.map_append, List.map_cons, if_pos hname, hother l₁ hbefore, hother l₂ (hname ▸ h.2.1.1)]
    exact .displaced hname

theorem taken_eraseP (p : Attribute → Bool) (l : List Attribute) :
    Taken (fun a => p a = true) l (l.find? p) (l.eraseP p) := by
  cases hfind : l.find? p with
  | none =>
    have hnone := List.find?_eq_none.mp hfind
    rw [List.eraseP_of_forall_not hnone]
    exact .nothing hnone
  | some a =>
    obtain ⟨ha, l₁, l₂, rfl, hbefore⟩ := List.find?_eq_some_iff_append.mp hfind
    have hbefore' : ∀ b ∈ l₁, ¬ p b = true := fun b hb => by simpa using hbefore b hb
    rw [List.eraseP_append_right _ hbefore', List.eraseP_cons_of_pos ha]
    exact .first hbefore' ha

/-- A set behind operations that gave the answers: an ordered map tells all of it, and what the next operation does
to it. -/
structure Behind (ops : List Operation) (answers : List Answer) (s : AttributeSet) : Prop where
  distinct : s.names.Nodup
  answered : answers = (NamedValues.empty.run ops).1
  holds : s.items = (NamedValues.empty.run ops).2.attributes
  find? : ∀ name a, s.find? name = some a ↔ Operation.LastPut name a (ops.zip answers)
  add : ∀ a, Added a s.items (s.add a).1 (s.add a).2.items
  remove : ∀ a, ∃ taken, (s.remove a).1 = taken.isSome ∧
    Taken (fun b => b.same a = true) s.items taken (s.remove a).2.items
  removeNamed : ∀ name,
    Taken (fun b => b.name = name) s.items (s.removeNamed name).1 (s.removeNamed name).2.items
  removeIgnoringCase : ∀ name, Taken (fun b => Text.equalIgnoringCase b.name name = true) s.items
    (s.removeIgnoringCase name).1 (s.removeIgnoringCase name).2.items

/-- Whatever is done to a new set, it stays an ordered map. -/
theorem run_named_behind (owner : String) (ops : List Operation) :
    Behind ops (Operation.run ops (named owner)).1 (Operation.run ops (named owner)).2 := by
  obtain ⟨hanswers, hitems⟩ := run_eq (s := named owner) (m := NamedValues.empty) rfl ops
  have hdistinct : (Operation.run ops (named owner)).2.names.Nodup := by
    rw [names, hitems, NamedValues.map_name_attributes]
    exact (NamedValues.empty.run ops).2.distinct
  generalize (Operation.run ops (named owner)).1 = answers at hanswers
  generalize (Operation.run ops (named owner)).2 = s at hitems hdistinct
  constructor
  case distinct => exact hdistinct
  case answered => exact hanswers
  case holds => exact hitems
  case find? =>
    intro name a
    rw [find?_eq hitems, NamedValues.get?_run, hanswers]
    have hempty : NamedValues.empty.get? name ≠ some a := by simp [NamedValues.get?, NamedValues.empty]
    simp [hempty]
  case add => exact added_add hdistinct
  case remove =>
    intro a
    refine ⟨s.items.find? fun b => b.same a, ?_, taken_eraseP _ _⟩
    rw [List.isSome_find?]
    rfl
  case removeNamed =>
    intro name
    have htaken := taken_eraseP (fun b => b.name = name) s.items
    simp only [decide_eq_true_eq] at htaken
    exact htaken
  case removeIgnoringCase => exact fun name => taken_eraseP (fun b => Text.equalIgnoringCase b.name name) s.items

example : (Operation.run [.add ⟨"units", .text "K"⟩, .add ⟨"Units", .text "m"⟩, .add ⟨"units", .text "degC"⟩,
    .removeIgnoringCase "UNITS"] (named "temp")).2.names = ["Units"] := by cbv

end AttributeSet
end SciArchive
