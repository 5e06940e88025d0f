import SciArchive.Proofs.DraftOperations
import SciArchive.Proofs.Resolution

/-! Runs of operations from nothing. Whatever single scopes keep under each operation holds, at every
depth, of all drafts that a run can lead to and of all trees built from them. -/
namespace SciArchive

/-! ### What one operation does -/

namespace VariableDraft.Operation

/-- The drafts that the operation takes in. -/
def vars : Operation → List VariableDraft
  | addMember m => [m]
  | _ => []

/-- The name behind the operation. -/
def newName : Operation → String → String
  | rename name, _ => name
  | _, name => name

theorem name_apply (op : Operation) (v : VariableDraft) : (op.apply v).2.name = op.newName v.name := by
  cases op with
  | addMember m =>
    by_cases htaken : (v.member? m.name).isSome <;>
      simp [apply, VariableDraft.addMember, htaken, newName]
  | setDimensions spec =>
    cases hread : DimSpec.parse spec <;>
      simp [apply, withDimensions, hread, Except.map, withShape, newName]
  | _ => rfl

/-- Members are only ever added, each under a new name. -/
theorem members_apply (op : Operation) (v : VariableDraft) :
    (op.apply v).2.members = v.members ∨ ∃ m ∈ op.vars, m.name ∉ v.members.map name ∧
      (op.apply v).2.members = v.members ++ [m] := by
  cases op with
  | addMember m =>
    by_cases htaken : (v.member? m.name).isSome
    · simp [apply, VariableDraft.addMember, htaken]
    · refine .inr ⟨m, List.mem_singleton_self m, ?_, ?_⟩
      · simpa [member?] using htaken
      · simp [apply, VariableDraft.addMember, htaken]
  | setDimensions spec =>
    left
    cases hread : DimSpec.parse spec <;> simp [apply, withDimensions, hread, Except.map, withShape]
  | _ => exact .inl rfl

end VariableDraft.Operation

namespace ScopeDraft

namespace Operation

/-- The drafts of scopes that the operation takes in. -/
def scopes : Operation → List ScopeDraft
  | addScope s => [s]
  | inScope _ op => op.scopes
  | _ => []

/-- The drafts of variables that the operation takes in. -/
def vars : Operation → List VariableDraft
  | addVariable v | replaceVariable v => [v]
  | inScope _ op => op.vars
  | inVariable _ op => op.vars
  | _ => []

end Operation

/-- All that an operation can make of a draft. -/
inductive Effect : ScopeDraft → Operation → ScopeDraft → Prop
  | unchanged {d : ScopeDraft} {op : Operation} : Effect d op d
  | dataset {d : ScopeDraft} {context : DatasetContext} :
      Effect d (.setContext context) (d.withContext context)
  | attributes {d : ScopeDraft} {op : Operation} (s : AttributeSet) : Effect d op { d with attributes := s }
  | addedDimension {d : ScopeDraft} {op : Operation} {dim : Dimension} {name : String}
      (shared : dim.sharedName? = some name) (absent : d.dimension? name = none) :
      Effect d op { d with dimensions := d.dimensions ++ [dim] }
  | replacedDimension {d : ScopeDraft} {dim old : Dimension} {name : String}
      (shared : dim.sharedName? = some name) (found : d.dimension? name = some old) :
      Effect d (.replaceDimension dim)
        { d with dimensions := updateFirst (Dimension.isNamed name) (fun _ => dim) d.dimensions }
  | removedDimension {d : ScopeDraft} {name : String} :
      Effect d (.removeDimension name)
        { d with dimensions := d.dimensions.eraseP (Dimension.isNamed name) }
  | addedScope {d s : ScopeDraft} (absent : d.scope? s.name = none) :
      Effect d (.addScope s) { d with scopes := d.scopes ++ [s] }
  | removedScope {d : ScopeDraft} {name : String} :
      Effect d (.removeScope name) { d with scopes := d.scopes.filter fun s => s.name ≠ name }
  | inScope {d s s' : ScopeDraft} {name : String} {op : Operation} (isOpen : d.built = false)
      (found : d.scope? name = some s) (effect : Effect s op s') :
      Effect d (.inScope name op)
        { d with scopes := updateFirst (fun s => s.name = name) (fun _ => s') d.scopes }
  | addedVariable {d : ScopeDraft} {op : Operation} {v : VariableDraft} (taken : v ∈ op.vars)
      (absent : d.var? v.name = none) : Effect d op { d with vars := d.vars ++ [v] }
  | replacedVariable {d : ScopeDraft} {v old : VariableDraft} (found : d.var? v.name = some old) :
      Effect d (.replaceVariable v)
        { d with vars := updateFirst (fun w => w.name = v.name) (fun _ => v) d.vars }
  | removedVariable {d : ScopeDraft} {name : String} :
      Effect d (.removeVariable name) { d with vars := d.vars.filter fun v => v.name ≠ name }
  | inVariable {d : ScopeDraft} {v : VariableDraft} {name : String} {op : VariableDraft.Operation}
      (isOpen : d.built = false) (found : d.var? name = some v) :
      Effect d (.inVariable name op)
        { d with vars := updateFirst (fun v => v.name = name) (fun _ => (op.apply v).2) d.vars }
  | addedEnum {d : ScopeDraft} {e : EnumTypedef} (absent : d.enum? e.name = none) :
      Effect d (.addEnum e) { d with enums := d.enums ++ [e] }
  | marked {d : ScopeDraft} {serial : Nat} : Effect d (.build serial) d.markBuilt

section

variable {α : Type} {d : ScopeDraft} {op : Operation}

theorem effect_whenOpen {edit : Edit α} (h : d.built = false → Effect d op (edit d).2) :
    Effect d op (whenOpen edit d).2 := by
  cases hbuilt : d.built with
  | true =>
    rw [whenOpen_built edit hbuilt]
    exact .unchanged
  | false =>
    rw [whenOpen, if_neg (by simp [hbuilt])]
    exact h hbuilt

theorem effect_whenShared {edit : String → Edit α} {dim : Dimension}
    (h : ∀ name, dim.sharedName? = some name → Effect d op (edit name d).2) :
    Effect d op (whenShared dim edit d).2 := by
  apply effect_whenOpen
  intro _
  cases hname : dim.sharedName? with
  | none => exact .unchanged
  | some name => exact h name hname

theorem effect_isSome {β : Type} {found : Option β} {free taken : Except Fault α × ScopeDraft}
    (hfree : found = none → Effect d op free.2) (htaken : ∀ b, found = some b → Effect d op taken.2) :
    Effect d op (if found.isSome then taken else free).2 := by
  cases found with
  | none => exact hfree rfl
  | some b => exact htaken b rfl

end

theorem effect_apply (op : Operation) (d : ScopeDraft) : Effect d op (op.apply d).2 := by
  induction op generalizing d with
  | setContext context => exact .dataset
  | addAttribute a =>
    show Effect d _ (ScopeDraft.addAttribute a d).2
    exact effect_whenOpen fun _ => .attributes _
  | editAttributes f => exact effect_whenOpen fun _ => .attributes _
  | addDimension dim =>
    show Effect d _ (ScopeDraft.addDimension dim d).2
    exact effect_whenShared fun _ hname => effect_isSome (.addedDimension hname) fun _ _ => .unchanged
  | addDimensionIfAbsent dim =>
    show Effect d _ (ScopeDraft.addDimensionIfAbsent dim d).2
    exact effect_whenShared fun _ hname => effect_isSome (.addedDimension hname) fun _ _ => .unchanged
  | replaceDimension dim =>
    show Effect d _ (ScopeDraft.replaceDimension dim d).2
    exact effect_whenShared fun _ hname => effect_isSome (.addedDimension hname)
      fun _ => .replacedDimension hname
  | removeDimension name =>
    show Effect d _ (ScopeDraft.removeDimension name d).2
    refine effect_whenOpen fun _ => ?_
    cases hfound : d.dimension? name with
    | none => simpa [hfound] using Effect.unchanged
    | some old =>
      cases huser : d.userOf? name with
      | none => simpa [hfound, huser] using Effect.removedDimension
      | some user => simpa [hfound, huser] using Effect.unchanged
  | addScope s =>
    show Effect d _ (ScopeDraft.addScope s d).2
    exact effect_whenOpen fun _ => effect_isSome .addedScope fun _ _ => .unchanged
  | removeScope name =>
    show Effect d _ (ScopeDraft.removeScope name d).2
    exact effect_whenOpen fun _ => .removedScope
  | inScope name op ih =>
    refine effect_whenOpen fun hopen => ?_
    cases hfound : d.scope? name with
    | none => simpa [hfound] using Effect.unchanged
    | some s => simpa [hfound] using Effect.inScope hopen hfound (ih s)
  | addVariable v =>
    show Effect d _ (ScopeDraft.addVariable v d).2
    exact effect_whenOpen fun _ => effect_isSome (.addedVariable (List.mem_singleton_self v))
      fun _ _ => .unchanged
  | replaceVariable v =>
    show Effect d _ (ScopeDraft.replaceVariable v d).2
    exact effect_whenOpen fun _ => effect_isSome (.addedVariable (List.mem_singleton_self v))
      fun _ => .replacedVariable
  | removeVariable name =>
    show Effect d _ (ScopeDraft.removeVariable name d).2
    exact effect_whenOpen fun _ => .removedVariable
  | inVariable name op =>
    refine effect_whenOpen fun hopen => ?_
    cases hfound : d.var? name with
    | none => simpa [hfound] using Effect.unchanged
    | some v => simpa [hfound] using Effect.inVariable hopen hfound
  | addEnum e =>
    show Effect d _ (ScopeDraft.addEnum e d).2
    exact effect_whenOpen fun _ => effect_isSome .addedEnum fun _ _ => .unchanged
  | build serial =>
    show Effect d _ (ScopeDraft.build serial d).2
    refine effect_whenOpen fun _ => ?_
    cases hroot : d.realize [] (d.context.getD {}) 0 with
    | error e => simpa [hroot] using Effect.unchanged
    | ok root => simpa [hroot] using Effect.marked

theorem Effect.name_eq {d d' : ScopeDraft} {op : Operation} (h : Effect d op d') : d'.name = d.name := by
  cases h with
  | marked => rw [markBuilt_eq]
  | _ => rfl

end ScopeDraft

/-! ### What single scopes keep -/

/-- What one scope holds itself; of what is below it, the names. -/
structure Holdings where
  dimensions : List Dimension
  enums : List EnumTypedef
  scopes : List String
  vars : List String

def ScopeDraft.holdings (d : ScopeDraft) : Holdings :=
  ⟨d.dimensions.map Dimension.detached, d.enums, d.scopes.map name, d.vars.map VariableDraft.name⟩

def Scope.holdings (s : Scope) : Holdings :=
  ⟨s.dimensions.map Dimension.detached, s.enums, s.scopes.map name, s.vars.map Variable.name⟩

/-- The members' names satisfy `Q`, at every depth. -/
def VariableDraft.All (Q : List String → Prop) (v : VariableDraft) : Prop :=
  ∀ m ∈ v.nested, Q (m.members.map name)

/-- What each scope holds satisfies `P`, and the members' names satisfy `Q`, at every depth. -/
def ScopeDraft.All (P : Holdings → Prop) (Q : List String → Prop) (d : ScopeDraft) : Prop :=
  ∀ s ∈ d.nested, P s.holdings ∧ ∀ v ∈ s.vars, v.All Q

def Variable.All (Q : List String → Prop) (v : Variable) : Prop := ∀ m ∈ v.nested, Q (m.members.map name)

def NamespaceTree.All (P : Holdings → Prop) (Q : List String → Prop) (t : NamespaceTree) : Prop :=
  ∀ p ∈ t.walk, P p.scope.holdings ∧ ∀ v ∈ p.scope.vars, v.All Q

/-- Scopes keep `P`, and variables `Q`, under the operations that are admitted. -/
structure Kept (admits : ScopeDraft → ScopeDraft.Operation → Prop) (P : Holdings → Prop)
    (Q : List String → Prop) : Prop where
  empty : P ⟨[], [], [], []⟩
  step : ∀ {d op d'}, ScopeDraft.Effect d op d' → admits d op → P d.holdings → P d'.holdings
  inner : ∀ {d name op s}, d.built = false → d.scope? name = some s → admits d (.inScope name op) →
    admits s op
  noMembers : Q []
  member : ∀ {names name}, name ∉ names → Q names → Q (names ++ [name])

section

variable {admits : ScopeDraft → ScopeDraft.Operation → Prop} {P : Holdings → Prop}
  {Q : List String → Prop}

namespace VariableDraft

theorem all_iff {v : VariableDraft} : v.All Q ↔ Q (v.members.map name) ∧ ∀ m ∈ v.members, m.All Q :=
  forall_nested

theorem All.apply (kept : Kept admits P Q) {v : VariableDraft} {op : Operation} (hv : v.All Q)
    (hargs : ∀ m ∈ op.vars, m.All Q) : (op.apply v).2.All Q := by
  obtain ⟨hnames, hmembers⟩ := all_iff.mp hv
  rw [all_iff]
  rcases Operation.members_apply op v with hsame | ⟨m, hm, hnew, hadded⟩
  · rw [hsame]
    exact ⟨hnames, hmembers⟩
  · rw [hadded, List.map_append]
    refine ⟨kept.member hnew hnames, ?_⟩
    rw [List.forall_mem_append, List.forall_mem_singleton]
    exact ⟨hmembers, hargs m hm⟩

end VariableDraft

namespace ScopeDraft

theorem all_iff {d : ScopeDraft} :
    d.All P Q ↔ (P d.holdings ∧ ∀ v ∈ d.vars, v.All Q) ∧ ∀ s ∈ d.scopes, s.All P Q :=
  forall_nested

theorem All.nested {d s : ScopeDraft} (hd : d.All P Q) (hs : s ∈ d.nested) : s.All P Q :=
  fun n hn => hd n (nested_trans hs hn)

theorem map_name_markBuilt (ds : List ScopeDraft) : (ds.map markBuilt).map name = ds.map name := by
  rw [List.map_map]
  exact List.map_congr_left fun d _ => by rw [Function.comp_apply, markBuilt_eq]

theorem holdings_markBuilt (d : ScopeDraft) : d.markBuilt.holdings = d.holdings := by
  rw [markBuilt_eq, holdings, holdings, map_name_markBuilt]

theorem All.markBuilt {d : ScopeDraft} (hd : d.All P Q) : d.markBuilt.All P Q := by
  intro s hs
  rw [nested_markBuilt] at hs
  obtain ⟨n, hn, rfl⟩ := List.mem_map.mp hs
  rw [holdings_markBuilt, markBuilt_eq]
  exact hd n hn

theorem All.effect (kept : Kept admits P Q) {d d' : ScopeDraft} {op : Operation} (h : Effect d op d')
    (hadmits : admits d op) (hscopes : ∀ s ∈ op.scopes, s.All P Q) (hvars : ∀ v ∈ op.vars, v.All Q)
    (hd : d.All P Q) : d'.All P Q := by
  obtain ⟨⟨hown, hv⟩, hs⟩ := all_iff.mp hd
  have hP : P d'.holdings := kept.step h hadmits hown
  -- along the path of an operation inside a child; every other one changes a single scope
  induction h with
  | unchanged => exact hd
  | marked => exact hd.markBuilt
  | dataset | attributes | addedDimension | replacedDimension | removedDimension | addedEnum =>
    exact all_iff.mpr ⟨⟨hP, hv⟩, hs⟩
  | addedScope => exact all_iff.mpr ⟨⟨hP, hv⟩, List.forall_mem_append.mpr ⟨hs, hscopes⟩⟩
  | removedScope =>
    exact all_iff.mpr ⟨⟨hP, hv⟩, fun s hmem => hs s (List.mem_of_mem_filter hmem)⟩
  | inScope hopen hfound heffect ih =>
    have hold := hs _ (List.mem_of_find?_eq_some hfound)
    have hinner := kept.inner hopen hfound hadmits
    obtain ⟨⟨hown, hv'⟩, hs'⟩ := all_iff.mp hold
    have hnew := ih hinner hscopes hvars hold hs' hown hv' (kept.step heffect hinner hown)
    exact all_iff.mpr ⟨⟨hP, hv⟩, forall_mem_updateFirst hfound hs hnew⟩
  | addedVariable htaken =>
    have hnew := List.forall_mem_singleton.mpr (hvars _ htaken)
    exact all_iff.mpr ⟨⟨hP, List.forall_mem_append.mpr ⟨hv, hnew⟩⟩, hs⟩
  | replacedVariable hfound =>
    have hnew := hvars _ (List.mem_singleton_self _)
    exact all_iff.mpr ⟨⟨hP, forall_mem_updateFirst hfound hv hnew⟩, hs⟩
  | removedVariable =>
    exact all_iff.mpr ⟨⟨hP, fun v hmem => hv v (List.mem_of_mem_filter hmem)⟩, hs⟩
  | inVariable _ hfound =>
    have hnew := (hv _ (List.mem_of_find?_eq_some hfound)).apply kept hvars
    exact all_iff.mpr ⟨⟨hP, forall_mem_updateFirst hfound hv hnew⟩, hs⟩

end ScopeDraft

/-! ### What is built -/

theorem Variable.all_toDraft {v : Variable} : v.toDraft.All Q ↔ v.All Q := by
  have hnames : ∀ m : Variable, m.toDraft.members.map VariableDraft.name = m.members.map name := by
    intro m
    rw [toDraft_eq, List.map_map]
    exact List.map_congr_left fun n _ => by rw [Function.comp_apply, toDraft_eq]
  rw [VariableDraft.All, nested_toDraft, List.forall_mem_map]
  simp only [hnames, All]

theorem Scope.holdings_toDraft (s : Scope) : s.toDraft.holdings = s.holdings := by
  have hvars : (s.vars.map Variable.toDraft).map VariableDraft.name = s.vars.map Variable.name := by
    rw [List.map_map]
    exact List.map_congr_left fun v _ => by rw [Function.comp_apply, Variable.toDraft_eq]
  have hscopes : (s.scopes.map toDraft).map ScopeDraft.name = s.scopes.map name := by
    rw [List.map_map]
    exact List.map_congr_left fun c _ => by rw [Function.comp_apply, toDraft_eq]
  rw [toDraft_eq, ScopeDraft.holdings, holdings, hvars, hscopes, List.map_map]
  rfl

theorem NamespaceTree.all_toDraft {t : NamespaceTree} : t.root.toDraft.All P Q ↔ t.All P Q := by
  have hscope : ∀ s : Scope, (P s.toDraft.holdings ∧ ∀ v ∈ s.toDraft.vars, v.All Q) ↔
      P s.holdings ∧ ∀ v ∈ s.vars, v.All Q := by
    intro s
    rw [Scope.holdings_toDraft, Scope.toDraft_eq, List.forall_mem_map]
    simp only [Variable.all_toDraft]
  rw [ScopeDraft.All, Scope.nested_toDraft _ [], List.forall_mem_map, All, walk, List.forall_mem_map]
  exact forall₂_congr fun q _ => hscope q.1

theorem VariableDraft.BuiltAt.all {p : Place} {v : VariableDraft} {w : Variable} (h : v.BuiltAt p w)
    (hv : v.All Q) : w.All Q := by
  induction v using inductionOnMembers generalizing w with
  | draft v ih =>
    cases h with
    | intro _ _ _ _ _ _ hmembers =>
      obtain ⟨hnames, hbelow⟩ := all_iff.mp hv
      have hsame : w.members.map Variable.name = v.members.map name :=
        map_eq_of_forall₂ (hmembers.imp fun _ _ hm => by cases hm with | intro hname => exact hname)
      rw [Variable.All, Variable.forall_nested, hsame]
      refine ⟨hnames, fun built hbuilt => ?_⟩
      obtain ⟨m, hm, hbuiltAt⟩ := forall₂_mem_right hmembers hbuilt
      exact ih m hm hbuiltAt (hbelow m hm)

namespace ScopeDraft

theorem BuiltAt.holdings {c : ScopeDraft × List ScopeDraft} {p : Place} (h : BuiltAt c p) :
    p.scope.holdings = c.1.holdings := by
  have hdims : p.scope.dimensions = c.1.dimensions.map (Dimension.ownedBy p.scope.id) := by
    cases h.chain with
    | cons hdecl _ => exact congrArg Frame.dimensions hdecl
  have hvars : p.scope.vars.map Variable.name = c.1.vars.map VariableDraft.name :=
    map_eq_of_forall₂ (h.vars.imp fun _ _ hw => by cases hw with | intro hname => exact hname)
  rw [Scope.holdings, ScopeDraft.holdings, hdims, h.enums, h.scopes, hvars, List.map_map]
  rfl

theorem All.build {d : ScopeDraft} {serial : Nat} {t : NamespaceTree}
    (h : (d.build serial).1 = .ok t) (hd : d.All P Q) : t.All P Q := by
  intro p hp
  obtain ⟨c, hc, hbuilt⟩ := forall₂_mem_right (builtAt_of_build h) hp
  have hnested : c.1 ∈ d.nested := by
    rw [← map_fst_chains d []]
    exact List.mem_map_of_mem hc
  obtain ⟨hP, hvars⟩ := hd c.1 hnested
  rw [hbuilt.holdings]
  refine ⟨hP, fun w hw => ?_⟩
  obtain ⟨v, hv, hbuiltAt⟩ := forall₂_mem_right hbuilt.vars hw
  exact hbuiltAt.all (hvars v hv)

end ScopeDraft

/-! ### Runs -/

/-- What a run leads to. -/
inductive Product where
  | scope (d : ScopeDraft)
  | var (v : VariableDraft)
  | tree (t : NamespaceTree)

/-- All that comes of admitted operations, whatever they take in having come of such operations too:
copies of what lies inside, built trees, and drafts that bring back what lies in them. -/
inductive Reachable (admits : ScopeDraft → ScopeDraft.Operation → Prop) : Product → Prop
  | newScope (name : String) : Reachable admits (.scope (.new name))
  | newVariable (name : String) (type : DataType) : Reachable admits (.var (.new name type))
  | editVariable {v : VariableDraft} (op : VariableDraft.Operation) (draft : Reachable admits (.var v))
      (taken : ∀ m ∈ op.vars, Reachable admits (.var m)) : Reachable admits (.var (op.apply v).2)
  | editScope {d : ScopeDraft} (op : ScopeDraft.Operation) (draft : Reachable admits (.scope d))
      (scopes : ∀ s ∈ op.scopes, Reachable admits (.scope s))
      (vars : ∀ v ∈ op.vars, Reachable admits (.var v)) (admitted : admits d op) :
      Reachable admits (.scope (op.apply d).2)
  | build {d : ScopeDraft} {serial : Nat} {t : NamespaceTree} (draft : Reachable admits (.scope d))
      (built : (d.build serial).1 = .ok t) : Reachable admits (.tree t)
  | scopeIn {d s : ScopeDraft} (draft : Reachable admits (.scope d)) (mem : s ∈ d.scopes) :
      Reachable admits (.scope s)
  | variableIn {d : ScopeDraft} {v : VariableDraft} (draft : Reachable admits (.scope d))
      (mem : v ∈ d.vars) : Reachable admits (.var v)
  | memberIn {v m : VariableDraft} (draft : Reachable admits (.var v)) (mem : m ∈ v.members) :
      Reachable admits (.var m)
  | ofTree {t : NamespaceTree} (tree : Reachable admits (.tree t)) : Reachable admits (.scope t.toDraft)
  | ofScope {t : NamespaceTree} {p : Place} (tree : Reachable admits (.tree t)) (mem : p ∈ t.walk) :
      Reachable admits (.scope p.scope.toDraft)
  | ofVariable {t : NamespaceTree} {p : Place} {v w : Variable} (tree : Reachable admits (.tree t))
      (mem : p ∈ t.walk) (inside : v ∈ p.scope.vars) (nested : w ∈ v.nested) :
      Reachable admits (.var w.toDraft)

/-- Runs of operations whose arguments were reached lead from what was reached to what is. -/
theorem Reachable.run {d : ScopeDraft} (h : Reachable admits (.scope d))
    {ops : List ScopeDraft.Operation} (hscopes : ∀ op ∈ ops, ∀ s ∈ op.scopes, Reachable admits (.scope s))
    (hvars : ∀ op ∈ ops, ∀ v ∈ op.vars, Reachable admits (.var v)) (hadmits : ∀ d, ∀ op ∈ ops, admits d op) :
    Reachable admits (.scope (ScopeDraft.Operation.run ops d).2) := by
  induction ops generalizing d with
  | nil => exact h
  | cons op ops ih =>
    rw [List.forall_mem_cons] at hscopes hvars
    have hstep := Reachable.editScope op h hscopes.1 hvars.1 (hadmits d op List.mem_cons_self)
    exact ih hstep hscopes.2 hvars.2 fun d op hop => hadmits d op (List.mem_cons_of_mem _ hop)

def Product.All (P : Holdings → Prop) (Q : List String → Prop) : Product → Prop
  | scope d => d.All P Q
  | var v => v.All Q
  | tree t => t.All P Q

theorem NamespaceTree.toDraft_mem_nested {t : NamespaceTree} {p : Place} (h : p ∈ t.walk) :
    p.scope.toDraft ∈ t.root.toDraft.nested := by
  obtain ⟨q, hq, rfl⟩ := List.mem_map.mp h
  rw [Scope.nested_toDraft _ []]
  exact List.mem_map_of_mem hq

/-- What single scopes keep under the admitted operations, all that they lead to has. -/
theorem Reachable.all (kept : Kept admits P Q) {x : Product} (h : Reachable admits x) : x.All P Q := by
  induction h with
  | newScope name =>
    refine ScopeDraft.all_iff.mpr ⟨⟨kept.empty, ?_⟩, ?_⟩ <;> exact fun _ hmem => by cases hmem
  | newVariable name type =>
    exact VariableDraft.all_iff.mpr ⟨kept.noMembers, fun _ hmem => by cases hmem⟩
  | editVariable op _ _ ihv ihtaken => exact VariableDraft.All.apply kept ihv ihtaken
  | editScope op _ _ _ hadmitted ihd ihscopes ihvars =>
    exact ScopeDraft.All.effect kept (ScopeDraft.effect_apply op _) hadmitted ihscopes ihvars ihd
  | build _ hbuilt ih => exact ScopeDraft.All.build hbuilt ih
  | scopeIn _ hmem ih => exact (ScopeDraft.all_iff.mp ih).2 _ hmem
  | variableIn _ hmem ih => exact (ScopeDraft.all_iff.mp ih).1.2 _ hmem
  | memberIn _ hmem ih => exact (VariableDraft.all_iff.mp ih).2 _ hmem
  | ofTree _ ih =>
    obtain ⟨⟨hP, hvars⟩, hscopes⟩ := ScopeDraft.all_iff.mp (NamespaceTree.all_toDraft.mpr ih)
    exact ScopeDraft.all_iff.mpr ⟨⟨hP, hvars⟩, hscopes⟩
  | ofScope _ hmem ih =>
    have hroot := NamespaceTree.all_toDraft.mpr ih
    exact ScopeDraft.All.nested hroot (NamespaceTree.toDraft_mem_nested hmem)
  | @ofVariable t p v w _ hmem hinside hnested ih =>
    have hdraft := Variable.all_toDraft.mpr ((ih p hmem).2 v hinside)
    have hinner : w.toDraft ∈ v.toDraft.nested := by
      rw [Variable.nested_toDraft]
      exact List.mem_map_of_mem hnested
    exact fun m hm => hdraft m (VariableDraft.nested_trans hinner hm)

end
end SciArchive
