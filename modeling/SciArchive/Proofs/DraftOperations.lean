import SciArchive.Proofs.Building

/-! Operations on drafts as data, and runs of them. An operation that fails leaves the draft as it was.
Once a draft is built, it and the drafts below it take nothing but another dataset. -/
namespace SciArchive

/-- What an operation on a draft answers. -/
inductive Answer where
  | done
  | told (yes : Bool)
  | replaced (old : Option Attribute)
  | tree (t : NamespaceTree)

/-! ### Variables -/

namespace VariableDraft

inductive Operation where
  | addAttribute (a : Attribute)
  | editAttributes (f : AttributeSet → AttributeSet)
  | rename (name : String)
  | addMember (m : VariableDraft)
  | setShape (shape : List DimSpec)
  | setDimensions (spec : String)
  | setAxis (a : AxisType)
  | setContext (context : DatasetContext)

namespace Operation

/-- A shape that cannot be read is not set. -/
def apply : Operation → VariableDraft → Except Fault Answer × VariableDraft
  | addAttribute a, v => (.ok (.replaced (v.addAttribute a).1), (v.addAttribute a).2)
  | editAttributes f, v => (.ok .done, { v with attributes := f v.attributes })
  | rename name, v => (.ok .done, v.rename name)
  | addMember m, v => ((v.addMember m).1.map fun _ => .done, (v.addMember m).2)
  | setShape shape, v => (.ok .done, v.withShape shape)
  | setDimensions spec, v =>
    match v.withDimensions spec with
    | .error e => (.error e, v)
    | .ok w => (.ok .done, w)
  | setAxis a, v => (.ok .done, v.withAxis a)
  | setContext context, v => (.ok .done, v.withContext context)

theorem eq_of_error {op : Operation} {v : VariableDraft} {e : Fault} (h : (op.apply v).1 = .error e) :
    (op.apply v).2 = v := by
  cases op with
  | addMember m =>
    by_cases htaken : (v.member? m.name).isSome
    · simp [apply, VariableDraft.addMember, htaken]
    · simp [apply, VariableDraft.addMember, htaken, Except.map] at h
  | setDimensions spec =>
    cases hread : v.withDimensions spec with
    | error e' => simp [apply, hread]
    | ok w => simp [apply, hread] at h
  | addAttribute | editAttributes | rename | setShape | setAxis | setContext => cases h

end Operation
end VariableDraft

/-! ### Scopes -/

/-- The element that is found stands between the others, and is what an update changes. -/
theorem updateFirst_split {α : Type} {p : α → Bool} {l : List α} {a : α} (h : l.find? p = some a) :
    ∃ l₁ l₂, l = l₁ ++ a :: l₂ ∧ p a = true ∧ ∀ b, updateFirst p (fun _ => b) l = l₁ ++ b :: l₂ := by
  induction l with
  | nil => cases h
  | cons c l ih =>
    rw [List.find?_cons] at h
    cases hc : p c with
    | true =>
      simp only [hc, Option.some.injEq] at h
      subst h
      exact ⟨[], l, rfl, hc, fun b => by rw [updateFirst, if_pos hc, List.nil_append]⟩
    | false =>
      simp only [hc] at h
      obtain ⟨l₁, l₂, hl, ha, hupdate⟩ := ih h
      refine ⟨c :: l₁, l₂, by rw [hl, List.cons_append], ha, fun b => ?_⟩
      rw [updateFirst, if_neg (by simp [hc]), hupdate, List.cons_append]

theorem updateFirst_found {α : Type} {p : α → Bool} {l : List α} {a : α} (h : l.find? p = some a) :
    updateFirst p (fun _ => a) l = l := by
  obtain ⟨l₁, l₂, hl, -, hupdate⟩ := updateFirst_split h
  rw [hupdate, hl]

theorem forall_mem_updateFirst {α : Type} {p : α → Bool} {q : α → Prop} {l : List α} {a b : α}
    (hfound : l.find? p = some a) (hl : ∀ x ∈ l, q x) (hb : q b) :
    ∀ x ∈ updateFirst p (fun _ => b) l, q x := by
  obtain ⟨l₁, l₂, rfl, -, hupdate⟩ := updateFirst_split hfound
  rw [hupdate]
  grind

namespace ScopeDraft

/-- The answers of an operation in common form. -/
def Edit.answers {α : Type} (edit : Edit α) (f : α → Answer) : Edit Answer := fun d =>
  ((edit d).1.map f, (edit d).2)

inductive Operation where
  | setContext (context : DatasetContext)
  | addAttribute (a : Attribute)
  | editAttributes (f : AttributeSet → AttributeSet)
  | addDimension (dim : Dimension)
  | addDimensionIfAbsent (dim : Dimension)
  | replaceDimension (dim : Dimension)
  | removeDimension (name : String)
  | addScope (s : ScopeDraft)
  | removeScope (name : String)
  | inScope (name : String) (op : Operation)
  | addVariable (v : VariableDraft)
  | replaceVariable (v : VariableDraft)
  | removeVariable (name : String)
  | inVariable (name : String) (op : VariableDraft.Operation)
  | addEnum (e : EnumTypedef)
  | build (serial : Nat)

namespace Operation

def apply : Operation → Edit Answer
  | setContext context => fun d => (.ok .done, d.withContext context)
  | addAttribute a => (ScopeDraft.addAttribute a).answers .replaced
  | editAttributes f => ScopeDraft.editAttributes fun s => (.done, f s)
  | addDimension dim => (ScopeDraft.addDimension dim).answers fun _ => .done
  | addDimensionIfAbsent dim => (ScopeDraft.addDimensionIfAbsent dim).answers .told
  | replaceDimension dim => (ScopeDraft.replaceDimension dim).answers .told
  | removeDimension name => (ScopeDraft.removeDimension name).answers .told
  | addScope s => (ScopeDraft.addScope s).answers fun _ => .done
  | removeScope name => (ScopeDraft.removeScope name).answers .told
  | inScope name op => ScopeDraft.inScope name op.apply
  | addVariable v => (ScopeDraft.addVariable v).answers fun _ => .done
  | replaceVariable v => (ScopeDraft.replaceVariable v).answers .told
  | removeVariable name => (ScopeDraft.removeVariable name).answers .told
  | inVariable name op => ScopeDraft.inVariable name op.apply
  | addEnum e => (ScopeDraft.addEnum e).answers fun _ => .done
  | build serial => (ScopeDraft.build serial).answers .tree

/-- All operations can fail but the setting of the dataset. -/
def isFallible : Operation → Bool
  | setContext _ => false
  | _ => true

/-- One operation after the other: their answers, and the draft behind the last. -/
def run : List Operation → ScopeDraft → List (Except Fault Answer) × ScopeDraft
  | [], d => ([], d)
  | op :: ops, d =>
    let r := op.apply d
    (r.1 :: (run ops r.2).1, (run ops r.2).2)

end Operation

/-! ### Failures -/

/-- The draft is as before whenever the operation fails. -/
def Edit.Atomic {α : Type} (edit : Edit α) : Prop := ∀ d e, (edit d).1 = .error e → (edit d).2 = d

namespace Edit

variable {α : Type} {edit : Edit α}

theorem Atomic.answers (h : edit.Atomic) (f : α → Answer) : (edit.answers f).Atomic := by
  intro d e he
  cases hanswer : (edit d).1 with
  | error e' => exact h d e' hanswer
  | ok a => simp [Edit.answers, hanswer, Except.map] at he

theorem Atomic.whenOpen (h : edit.Atomic) : (whenOpen edit).Atomic := by
  intro d e he
  cases hbuilt : d.built with
  | true => simp [ScopeDraft.whenOpen, hbuilt]
  | false =>
    simp only [ScopeDraft.whenOpen, hbuilt, Bool.false_eq_true, if_false] at he ⊢
    exact h d e he

theorem Atomic.whenShared {edit : String → Edit α} (h : ∀ name, (edit name).Atomic) (dim : Dimension) :
    (whenShared dim edit).Atomic := by
  apply Atomic.whenOpen
  intro d e he
  cases hname : dim.sharedName? with
  | none => simp
  | some name =>
    simp only [hname] at he ⊢
    exact h name d e he

/-- An operation that fails on a condition only. -/
theorem Atomic.ite (refused : ScopeDraft → Prop) [DecidablePred refused] (fault : ScopeDraft → Fault)
    (answer : ScopeDraft → α) (after : ScopeDraft → ScopeDraft) :
    Edit.Atomic fun d => if refused d then (.error (fault d), d) else (.ok (answer d), after d) := by
  intro d e he
  by_cases hrefused : refused d
  · simp [hrefused]
  · simp [hrefused] at he

end Edit

theorem removeDimension_atomic (name : String) : (removeDimension name).Atomic := by
  apply Edit.Atomic.whenOpen
  intro d e he
  by_cases habsent : (d.dimension? name).isNone
  · simp [habsent] at he
  · cases huser : d.userOf? name with
    | none => simp [habsent, huser] at he
    | some user => simp [habsent, huser]

theorem inScope_atomic {α : Type} {edit : Edit α} (h : edit.Atomic) (name : String) :
    (inScope name edit).Atomic := by
  apply Edit.Atomic.whenOpen
  intro d e he
  cases hfound : d.scope? name with
  | none => simp [hfound]
  | some s =>
    simp only [hfound] at he ⊢
    rw [h s e he, updateFirst_found hfound]
    cases d
    rfl

theorem inVariable_atomic {α : Type} {edit : VariableDraft → Except Fault α × VariableDraft}
    (h : ∀ v e, (edit v).1 = .error e → (edit v).2 = v) (name : String) :
    (inVariable name edit).Atomic := by
  apply Edit.Atomic.whenOpen
  intro d e he
  cases hfound : d.var? name with
  | none => simp [hfound]
  | some v =>
    simp only [hfound] at he ⊢
    rw [h v e he, updateFirst_found hfound]
    cases d
    rfl

theorem build_atomic (serial : Nat) : (build serial).Atomic := by
  apply Edit.Atomic.whenOpen
  intro d e he
  cases hroot : d.realize [] (d.context.getD {}) 0 with
  | error e' => simp [hroot]
  | ok root => simp [hroot] at he

namespace Operation

theorem apply_atomic (op : Operation) : op.apply.Atomic := by
  induction op with
  | setContext context => exact fun _ _ he => by cases he
  | addAttribute a => exact .answers (.whenOpen fun _ _ he => by cases he) _
  | editAttributes f => exact .whenOpen fun _ _ he => by cases he
  | addDimension dim => exact .answers (.whenShared (fun _ => .ite _ _ _ _) dim) _
  | addDimensionIfAbsent dim | replaceDimension dim =>
    refine .answers (.whenShared (fun name d e he => ?_) dim) _
    split at he <;> cases he
  | replaceVariable v =>
    refine .answers (.whenOpen fun d e he => ?_) _
    split at he <;> cases he
  | addScope | addVariable | addEnum => exact .answers (.whenOpen (.ite _ _ _ _)) _
  | removeScope | removeVariable => exact .answers (.whenOpen fun _ _ he => by cases he) _
  | removeDimension name => exact .answers (removeDimension_atomic name) _
  | inScope name op ih => exact inScope_atomic ih name
  | inVariable name op => exact inVariable_atomic (fun _ _ => VariableDraft.Operation.eq_of_error) name
  | build serial => exact .answers (build_atomic serial) _

/-- A failed operation adds its answer to a run, and nothing else. -/
theorem run_cons_error {op : Operation} {d : ScopeDraft} {e : Fault} (h : (op.apply d).1 = .error e)
    (ops : List Operation) : run (op :: ops) d = (.error e :: (run ops d).1, (run ops d).2) := by
  rw [run, h, apply_atomic op d e h]

end Operation

/-! ### Built drafts -/

theorem whenOpen_built {α : Type} (edit : Edit α) {d : ScopeDraft} (h : d.built = true) :
    whenOpen edit d = (.error (.alreadyBuilt d.name), d) := by
  rw [whenOpen, if_pos h]

theorem answers_built {α : Type} {edit : Edit α} {d : ScopeDraft} {e : Fault}
    (h : edit d = (.error e, d)) (f : α → Answer) : edit.answers f d = (.error e, d) := by
  rw [Edit.answers, h]
  rfl

theorem markAllBuilt_eq (ds : List ScopeDraft) : markAllBuilt ds = ds.map markBuilt := by
  induction ds with
  | nil => rfl
  | cons d ds ih => rw [markAllBuilt, ih, List.map_cons]

theorem markBuilt_eq (d : ScopeDraft) :
    d.markBuilt = { d with scopes := d.scopes.map markBuilt, built := true } := by
  cases d
  rw [markBuilt, markAllBuilt_eq]

theorem nested_markBuilt (d : ScopeDraft) : d.markBuilt.nested = d.nested.map markBuilt := by
  induction d using inductionOnScopes with
  | draft d ih =>
    have hscopes : d.markBuilt.scopes = d.scopes.map markBuilt := congrArg scopes (markBuilt_eq d)
    rw [nested_eq d, nested_eq d.markBuilt, hscopes, List.flatMap_map, List.map_cons, List.map_flatMap]
    exact congrArg (d.markBuilt :: ·) (List.flatMap_congr ih)

theorem build_marks {d : ScopeDraft} {serial : Nat} {t : NamespaceTree}
    (h : (d.build serial).1 = .ok t) : (d.build serial).2 = d.markBuilt := by
  cases hbuilt : d.built with
  | true => simp [build, whenOpen, hbuilt] at h
  | false =>
    cases hroot : d.realize [] (d.context.getD {}) 0 with
    | error e => simp [build, whenOpen, hbuilt, hroot] at h
    | ok root => simp [build, whenOpen, hbuilt, hroot]

namespace Operation

theorem apply_built {d : ScopeDraft} (h : d.built = true) {op : Operation} (hop : op.isFallible = true) :
    op.apply d = (.error (.alreadyBuilt d.name), d) := by
  cases op with
  | setContext context => cases hop
  | editAttributes | inScope | inVariable =>
    rw [apply]
    exact whenOpen_built _ h
  | addAttribute | addDimension | addDimensionIfAbsent | replaceDimension | removeDimension | addScope
  | removeScope | addVariable | replaceVariable | removeVariable | addEnum | build =>
    exact answers_built (whenOpen_built _ h) _

/-- What a built draft answers: its dataset may be set, all else has come too late. -/
def answerBuilt (d : ScopeDraft) (op : Operation) : Except Fault Answer :=
  if op.isFallible then .error (.alreadyBuilt d.name) else .ok .done

theorem run_built {d : ScopeDraft} (h : d.built = true) (ops : List Operation) :
    (run ops d).1 = ops.map (answerBuilt d) ∧
      (run ops d).2 = { d with context := (run ops d).2.context } := by
  induction ops generalizing d with
  | nil =>
    cases d
    exact ⟨rfl, rfl⟩
  | cons op ops ih =>
    cases hop : op.isFallible with
    | true =>
      obtain ⟨hanswers, hafter⟩ := ih h
      simp only [run, apply_built h hop, List.map_cons, answerBuilt, hop, if_true, hanswers, true_and]
      exact hafter
    | false =>
      cases op with
      | setContext context =>
        obtain ⟨hanswers, hafter⟩ := ih (d := d.withContext context) h
        simp only [run, apply, List.map_cons, hanswers]
        exact ⟨rfl, hafter⟩
      | _ => cases hop

theorem run_built_fallible {d : ScopeDraft} (h : d.built = true) {ops : List Operation}
    (hops : ∀ op ∈ ops, op.isFallible = true) : (run ops d).2 = d := by
  induction ops with
  | nil => rfl
  | cons op ops ih =>
    obtain ⟨hop, hrest⟩ := List.forall_mem_cons.mp hops
    rw [run, apply_built h hop]
    exact ih hrest

/-- A failed operation is as if it had never been called, whatever is called next. A build that succeeds
marks the draft and all below it, and changes nothing else; from then on each of them refuses every
operation that can fail, and keeps what it holds. -/
theorem unchanged_of_error_refused_of_build (d : ScopeDraft) :
    (∀ op e, (op.apply d).1 = .error e →
      (op.apply d).2 = d ∧ ∀ ops, run (op :: ops) d = (.error e :: (run ops d).1, (run ops d).2)) ∧
    ∀ serial t, (d.build serial).1 = .ok t →
      List.Forall₂ (fun s b => b = { s with scopes := b.scopes, built := true })
        d.nested (d.build serial).2.nested ∧
      ∀ b ∈ (d.build serial).2.nested, b.built = true ∧ ∀ ops,
        (run ops b).1 = ops.map (answerBuilt b) ∧
        (run ops b).2 = { b with context := (run ops b).2.context } ∧
        ((∀ op ∈ ops, op.isFallible = true) → (run ops b).2 = b) := by
  constructor
  · intro op e he
    exact ⟨apply_atomic op d e he, run_cons_error he⟩
  · intro serial t hbuild
    rw [build_marks hbuild, nested_markBuilt]
    constructor
    · exact List.forall₂_map_right_iff.mpr (List.forall₂_same.mpr fun s _ => by rw [markBuilt_eq])
    · intro b hb
      obtain ⟨s, -, rfl⟩ := List.mem_map.mp hb
      have hbuilt : s.markBuilt.built = true := congrArg ScopeDraft.built (markBuilt_eq s)
      refine ⟨hbuilt, fun ops => ?_⟩
      obtain ⟨hanswers, hafter⟩ := run_built hbuilt ops
      exact ⟨hanswers, hafter, run_built_fallible hbuilt⟩

/-- The child is built on its own; the dimension of the variable is declared or not. -/
def halfBuilt (dims : List Dimension) : ScopeDraft :=
  { root with
    dimensions := dims
    scopes := [(new "inner").markBuilt]
    vars := [(VariableDraft.new "v" .double).withShape [.shared "x"]] }

theorem unchanged_of_error_refused_of_build_halfBuilt :
    (∃ e, ((build 0).apply (halfBuilt [])).1 = .error e ∧
      run [build 0, addDimension (.ofName "x" 2), build 1] (halfBuilt []) =
        (.error e :: (run [addDimension (.ofName "x" 2), build 1] (halfBuilt [])).1,
          (run [addDimension (.ofName "x" 2), build 1] (halfBuilt [])).2)) ∧
    ∃ t, ((halfBuilt [.ofName "x" 2]).build 0).1 = .ok t ∧
      ∀ b ∈ ((halfBuilt [.ofName "x" 2]).build 0).2.nested, b.built = true ∧
        (run [addScope (new "late"), build 1] b).1 =
          [.error (.alreadyBuilt b.name), .error (.alreadyBuilt b.name)] := by
  constructor
  · exact ⟨_, rfl, ((unchanged_of_error_refused_of_build (halfBuilt [])).1 (build 0) _ rfl).2 _⟩
  · refine ⟨_, rfl, fun b hb => ?_⟩
    obtain ⟨hbuilt, hruns⟩ :=
      ((unchanged_of_error_refused_of_build (halfBuilt [.ofName "x" 2])).2 0 _ rfl).2 b hb
    exact ⟨hbuilt, (hruns _).1⟩

end Operation
end ScopeDraft
end SciArchive
