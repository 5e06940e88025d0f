import SciArchive.Proofs.Outcomes
import SciArchive.Proofs.RelatedLists
import SciArchive.Record.Columns

/-! Reading a line field by field. However a layout was described, a whole line reads as its fields do when
each is looked up by name and read on its own, and fails as the first of them does. -/
namespace SciArchive

namespace TextLayout

/-! ### Describing a layout -/

/-- A compact layout begins anew; every other step adds to what was there. -/
inductive Step where
  | compact (layout : String) (names : List String)
  | column (name : String) (kind : ColumnKind) (start stop : Nat)
  | repeated (name : String) (count stride : Nat)
  | derived (name source : String) (compute : Value → Except Fault Value)

def apply (l : TextLayout) : Step → Except Fault TextLayout
  | .compact layout names => ofCompact layout names
  | .column name kind start stop => l.addColumn name kind start stop
  | .repeated name count stride => l.repeatColumn name count stride
  | .derived name source compute => l.derive name source compute

/-- A computed field, with the name of the column that it is computed from. -/
structure Derivation where
  name : String
  source : String
  compute : Value → Except Fault Value

/-- The fields of a layout by their names. -/
structure Description where
  columns : List String := []
  derived : List Derivation := []

namespace Description

def names (d : Description) : List String := d.columns ++ d.derived.map Derivation.name

def add (d : Description) : Step → Description
  | .compact _ names => { columns := names }
  | .column name _ _ _ => { d with columns := d.columns ++ [name] }
  | .repeated _ _ _ => d
  | .derived name source compute => { d with derived := d.derived ++ [⟨name, source, compute⟩] }

/-- What steps describe, one after the other. -/
def ofSteps (steps : List Step) : Description := steps.foldl add {}

end Description

/-- The layout numbers its sources where the description names them. -/
structure DescribedBy (l : TextLayout) (d : Description) : Prop where
  columns : l.columns.map Column.name = d.columns
  derived : List.Forall₂ (fun f c => f.name = c.name ∧ f.compute = c.compute ∧
    d.columns[f.source]? = some c.source) l.derived d.derived
  distinct : d.names.Nodup

section
variable {l l' : TextLayout} {d : Description}

theorem DescribedBy.names_eq (h : l.DescribedBy d) : l.names = d.names := by
  have hderived : d.derived.map Derivation.name = l.derived.map DerivedField.name :=
    map_eq_of_forall₂ (h.derived.imp fun _ _ hf => hf.1.symm)
  rw [names, Description.names, h.columns, hderived]

theorem DescribedBy.column {name : String} {kind : ColumnKind} {start stop : Nat} (h : l.DescribedBy d)
    (hadd : l.addColumn name kind start stop = .ok l') :
    l'.DescribedBy { d with columns := d.columns ++ [name] } := by
  rw [addColumn] at hadd
  split_ifs at hadd with hrange hold
  cases hadd
  refine ⟨by simp [h.columns], h.derived.imp ?_, ?_⟩
  · -- a new column stands behind those that are numbered already
    rintro f c ⟨hname, hcompute, hsource⟩
    refine ⟨hname, hcompute, ?_⟩
    rw [List.getElem?_append_left (List.getElem?_eq_some_iff.mp hsource).1, hsource]
  · rw [h.names_eq] at hold
    have hperm : (d.columns ++ [name] ++ d.derived.map Derivation.name).Perm (name :: d.names) := by
      simp [Description.names]
    exact hperm.nodup_iff.mpr (List.nodup_cons.mpr ⟨hold, h.distinct⟩)

theorem DescribedBy.tokens {words : List (List Char × String)} {start : Nat} (h : l.DescribedBy d)
    (hadd : l.addTokens start words = .ok l') :
    l'.DescribedBy { d with columns := d.columns ++ words.map Prod.snd } := by
  fun_induction addTokens l start words generalizing d with
  | case1 =>
    cases hadd
    simpa using h
  | case2 => cases hadd
  | case3 => cases hadd
  | case4 l start word name rest stop kind _ l₁ hcolumn ih => simpa using ih (h.column hcolumn) hadd

theorem describedBy_compact {layout : String} {names : List String} (h : ofCompact layout names = .ok l) :
    l.DescribedBy { columns := names } := by
  rw [ofCompact] at h
  split_ifs at h with hcount
  have hempty : DescribedBy {} {} := ⟨rfl, .nil, .nil⟩
  have hnames := hempty.tokens h
  rw [List.map_snd_zip (Nat.le_of_eq (Decidable.not_not.mp hcount).symm)] at hnames
  simpa using hnames

theorem DescribedBy.step {s : Step} (h : l.DescribedBy d) (hs : l.apply s = .ok l') :
    l'.DescribedBy (d.add s) := by
  cases s with
  | compact layout names => exact describedBy_compact hs
  | column name kind start stop => exact h.column hs
  | repeated name count stride =>
    simp only [apply, repeatColumn] at hs
    split_ifs at hs
    cases hs
    refine ⟨?_, h.derived, h.distinct⟩
    rw [Description.add, ← h.columns, List.map_map]
    refine List.map_congr_left fun c _ => ?_
    by_cases hc : c.name = name <;> simp [hc]
  | derived name source compute =>
    simp only [apply, derive] at hs
    split at hs
    · cases hs
    · rename_i hold
      split at hs
      · cases hs
      · rename_i i hi
        cases hs
        have hsource : d.columns[i]? = some source := by
          obtain ⟨hlt, hname, -⟩ := List.findIdx?_eq_some_iff_getElem.mp hi
          rw [← h.columns, List.getElem?_map, List.getElem?_eq_getElem hlt]
          simpa using hname
        refine ⟨h.columns, List.rel_append h.derived (.cons ⟨rfl, rfl, hsource⟩ .nil), ?_⟩
        rw [h.names_eq] at hold
        have hperm : (d.add (.derived name source compute)).names.Perm (name :: d.names) := by
          simp only [Description.names, Description.add, List.map_append, ← List.append_assoc]
          exact List.perm_append_singleton name _
        exact hperm.nodup_iff.mpr (List.nodup_cons.mpr ⟨hold, h.distinct⟩)

theorem describedBy_run {steps : List Step} (h : l.DescribedBy d) (hrun : steps.foldlM apply l = .ok l') :
    l'.DescribedBy (steps.foldl Description.add d) := by
  induction steps generalizing l d with
  | nil =>
    cases hrun
    exact h
  | cons s steps ih =>
    rw [List.foldlM_cons] at hrun
    obtain ⟨next, hs, hrest⟩ := bind_eq_ok.mp hrun
    exact ih (h.step hs) hrest

end

/-! ### Reading by name -/

/-- What a computed field is when its source is read on its own. -/
def Derivation.read (field : String → Except Fault Value) (c : Derivation) : Except Fault Value :=
  (field c.source).bind c.compute

/-- The place of a field's value among those of a line: the columns come first, and the computed fields are
numbered behind them. -/
def place? (l : TextLayout) (name : String) : Option Nat :=
  (l.columns.findIdx? fun c => c.name = name).or
    ((l.derived.findIdx? fun f => f.name = name).map (· + l.columns.length))

section
variable {l : TextLayout} {d : Description}

theorem DescribedBy.readField_column (h : l.DescribedBy d) {c : Column} (hc : c ∈ l.columns) (line : String) :
    l.readField line c.name = c.read line.toList := by
  have hdistinct : (l.columns.map Column.name).Nodup := by
    rw [h.columns]
    exact (List.nodup_append.mp h.distinct).1
  have hfound : l.column? c.name = some c := find?_of_nodup hdistinct hc
  simp [readField, hfound]

theorem DescribedBy.computeField_eq (h : l.DescribedBy d) {line : String} {values : List Value}
    (hvalues : List.Forall₂ (fun n v => l.readField line n = .ok v) d.columns values) :
    l.derived.mapM (computeField values) = d.derived.mapM (Derivation.read (l.readField line)) := by
  refine mapM_congr (h.derived.imp ?_)
  rintro f c ⟨-, hcompute, hsource⟩
  obtain ⟨hlt, hname⟩ := List.getElem?_eq_some_iff.mp hsource
  have hlt' : f.source < values.length := hvalues.length_eq ▸ hlt
  have hread : l.readField line c.source = .ok values[f.source] := by
    rw [← hname]
    exact hvalues.get hlt hlt'
  simp [computeField, hlt', hcompute, Derivation.read, hread, Except.bind]

/-- A line is read as its columns are, each by its name, and then its computed fields. -/
theorem DescribedBy.readLine_eq (h : l.DescribedBy d) (line : String) :
    l.readLine line = (d.columns.mapM (l.readField line)).bind fun values =>
      (d.derived.mapM (Derivation.read (l.readField line))).map fun computed =>
        ⟨d.names.zip (values ++ computed)⟩ := by
  have hcolumns : l.columns.mapM (fun c => c.read line.toList) = d.columns.mapM (l.readField line) := by
    refine mapM_congr ?_
    rw [← h.columns, List.forall₂_map_right_iff, List.forall₂_same]
    exact fun c hc => (h.readField_column hc line).symm
  rw [readLine, hcolumns]
  cases hvalues : d.columns.mapM (l.readField line) with
  | error e => rfl
  | ok values =>
    simp only [h.computeField_eq (mapM_eq_ok.mp hvalues), Except.bind]
    cases d.derived.mapM (Derivation.read (l.readField line)) <;> simp [Except.map, h.names_eq]

end

theorem place?_eq (l : TextLayout) (name : String) : l.place? name = l.names.findIdx? fun n => n = name := by
  simp [place?, names, List.findIdx?_append, List.findIdx?_map, Function.comp_def]

/-- A line that is read, from the values of its columns and the computed ones. -/
structure ReadFrom (l : TextLayout) (d : Description) (line : String) (values computed : List Value)
    (r : TextRecord) : Prop where
  columns : List.Forall₂ (fun n v => l.readField line n = .ok v) d.columns values
  derived : List.Forall₂ (fun c v => c.read (l.readField line) = .ok v) d.derived computed
  fields : r.fields = d.names.zip (values ++ computed)

section
variable {l : TextLayout} {d : Description} {line : String} {r : TextRecord} {values computed : List Value}

theorem DescribedBy.readLine_ok (h : l.DescribedBy d) :
    l.readLine line = .ok r ↔ ∃ values computed, l.ReadFrom d line values computed r := by
  rw [h.readLine_eq, bind_eq_ok]
  constructor
  · rintro ⟨values, hvalues, hrest⟩
    obtain ⟨computed, hcomputed, rfl⟩ := map_eq_ok.mp hrest
    exact ⟨values, computed, mapM_eq_ok.mp hvalues, mapM_eq_ok.mp hcomputed, rfl⟩
  · rintro ⟨values, computed, hvalues, hcomputed, hfields⟩
    refine ⟨values, mapM_eq_ok.mpr hvalues, ?_⟩
    simp [mapM_eq_ok.mpr hcomputed, Except.map, ← hfields]

theorem ReadFrom.length_eq (h : l.ReadFrom d line values computed r) :
    d.names.length = (values ++ computed).length := by
  simp [Description.names, h.columns.length_eq, h.derived.length_eq]

theorem ReadFrom.names_eq (h : l.ReadFrom d line values computed r) : r.names = d.names := by
  rw [TextRecord.names, h.fields, List.map_fst_zip (Nat.le_of_eq h.length_eq)]

/-- The fields are those of the columns with those that are computed behind them. -/
theorem ReadFrom.fields_eq (h : l.ReadFrom d line values computed r) :
    r.fields = d.columns.zip values ++ (d.derived.map Derivation.name).zip computed := by
  rw [h.fields, Description.names, List.zip_append h.columns.length_eq]

theorem ReadFrom.column (h : l.ReadFrom d line values computed r) {n : String} (hn : n ∈ d.columns) :
    ∃ v, l.readField line n = .ok v ∧ (n, v) ∈ r.fields := by
  obtain ⟨v, hmem, hread⟩ := mem_zip_of_forall₂ h.columns hn
  exact ⟨v, hread, by simp [h.fields_eq, hmem]⟩

theorem ReadFrom.derivedField (h : l.ReadFrom d line values computed r) {c : Derivation} (hc : c ∈ d.derived) :
    ∃ v, c.read (l.readField line) = .ok v ∧ (c.name, v) ∈ r.fields := by
  obtain ⟨v, hmem, hread⟩ := mem_zip_of_forall₂ h.derived hc
  refine ⟨v, hread, ?_⟩
  rw [h.fields_eq, List.zip_map_left]
  exact List.mem_append_right _ (List.mem_map_of_mem hmem)

end
end TextLayout

namespace TextRecord

variable {r : TextRecord}

theorem get_of_mem (h : r.names.Nodup) {f : String × Value} (hf : f ∈ r.fields) : r.get f.1 = .ok f.2 := by
  obtain ⟨front, back, hsplit⟩ := List.append_of_mem hf
  rw [names, hsplit, List.map_append, List.map_cons, List.nodup_append] at h
  have hlookup : r.fields.lookup f.1 = some f.2 := by
    refine List.lookup_eq_some_iff.mpr ⟨front, back, hsplit, fun g hg => ?_⟩
    simpa using (h.2.2 g.1 (List.mem_map_of_mem hg) f.1 List.mem_cons_self).symm
  simp [get, hlookup]

theorem get_of_not_mem {name : String} (h : name ∉ r.names) : r.get name = .error (.fieldNotFound name) := by
  have hlookup : r.fields.lookup name = none := by
    refine List.lookup_eq_none_iff.mpr fun f hf => ?_
    simpa using fun heq : name = f.1 => h (heq ▸ List.mem_map_of_mem hf)
  simp [get, hlookup]

end TextRecord

namespace TextLayout

/-- How a line reads as a whole, told by how its fields read each on its own. -/
structure FieldByField (l : TextLayout) (d : Description) (line : String) : Prop where
  isRead : (∃ r, l.readLine line = .ok r) ↔
    (∀ n ∈ d.columns, ∃ v, l.readField line n = .ok v) ∧
      ∀ c ∈ d.derived, ∃ v w, l.readField line c.source = .ok v ∧ c.compute v = .ok w
  column : ∀ r, l.readLine line = .ok r → ∀ n ∈ d.columns, r.get n = l.readField line n
  computed : ∀ r, l.readLine line = .ok r → ∀ c ∈ d.derived,
    r.get c.name = (l.readField line c.source).bind c.compute
  unknown : ∀ r, l.readLine line = .ok r → ∀ n, n ∉ d.names → r.get n = .error (.fieldNotFound n)
  listed : ∀ r, l.readLine line = .ok r →
    r.names = d.names ∧ d.names.Nodup ∧ ∀ f ∈ r.fields, r.get f.1 = .ok f.2
  placed : ∀ r, l.readLine line = .ok r → ∀ n i, l.place? n = some i →
    ∃ v, (r.fields.map Prod.snd)[i]? = some v ∧ r.get n = .ok v
  failed : ∀ e, l.readLine line = .error e ↔ FirstFails (l.readField line) d.columns e ∨
    (∀ n ∈ d.columns, ∃ v, l.readField line n = .ok v) ∧
      FirstFails (fun c => (l.readField line c.source).bind c.compute) d.derived e

variable {l : TextLayout} {d : Description} {line : String}

theorem DescribedBy.isRead (h : l.DescribedBy d) : (∃ r, l.readLine line = .ok r) ↔
    (∀ n ∈ d.columns, ∃ v, l.readField line n = .ok v) ∧
      ∀ c ∈ d.derived, ∃ v w, l.readField line c.source = .ok v ∧ c.compute v = .ok w := by
  have hread : ∀ c : Derivation, (∃ w, c.read (l.readField line) = .ok w) ↔
      ∃ v w, l.readField line c.source = .ok v ∧ c.compute v = .ok w := by
    intro c
    simp only [Derivation.read, bind_eq_ok, exists_and_left]
    exact ⟨fun ⟨w, v, hv, hw⟩ => ⟨v, hv, w, hw⟩, fun ⟨v, hv, w, hw⟩ => ⟨w, v, hv, hw⟩⟩
  simp only [← hread, ← mapM_isOk, h.readLine_eq]
  cases d.columns.mapM (l.readField line) with
  | error e => simp [Except.bind]
  | ok values =>
    cases d.derived.mapM (Derivation.read (l.readField line)) <;> simp [Except.bind, Except.map]

theorem DescribedBy.failed (h : l.DescribedBy d) (e : Fault) :
    l.readLine line = .error e ↔ FirstFails (l.readField line) d.columns e ∨
      (∀ n ∈ d.columns, ∃ v, l.readField line n = .ok v) ∧
        FirstFails (Derivation.read (l.readField line)) d.derived e := by
  rw [← mapM_eq_error, ← mapM_eq_error, ← mapM_isOk, h.readLine_eq]
  cases d.columns.mapM (l.readField line) with
  | error e' => simp [Except.bind]
  | ok values =>
    cases d.derived.mapM (Derivation.read (l.readField line)) <;> simp [Except.bind, Except.map]

theorem DescribedBy.placed (h : l.DescribedBy d) {r : TextRecord} (hr : l.readLine line = .ok r) {n : String} {i : Nat}
    (hi : l.place? n = some i) : ∃ v, (r.fields.map Prod.snd)[i]? = some v ∧ r.get n = .ok v := by
  obtain ⟨values, computed, hread⟩ := h.readLine_ok.mp hr
  rw [place?_eq, h.names_eq, ← hread.names_eq] at hi
  obtain ⟨hlt, hn, -⟩ := List.findIdx?_eq_some_iff_getElem.mp hi
  have hlt' : i < r.fields.length := by simpa [TextRecord.names] using hlt
  have hname : r.fields[i].1 = n := by simpa [TextRecord.names] using hn
  refine ⟨r.fields[i].2, by simp [hlt'], ?_⟩
  rw [← hname]
  exact TextRecord.get_of_mem (hread.names_eq ▸ h.distinct) (List.getElem_mem hlt')

/-- However the steps of a layout follow each other, a line is read exactly if each column can be read on its own
and each computed field be computed from its column. The record then has these values under the names of the
fields, the columns before the computed ones, and no others; a line that cannot be read fails as its first
column does, or if all can be read, as its first computed field. -/
theorem readLine_fieldByField {steps : List Step} {l : TextLayout} (h : steps.foldlM apply {} = .ok l)
    (line : String) : l.FieldByField (.ofSteps steps) line := by
  have hempty : DescribedBy {} {} := ⟨rfl, .nil, .nil⟩
  have hd : l.DescribedBy (.ofSteps steps) := describedBy_run hempty h
  have hnodup : ∀ r, l.readLine line = .ok r → r.names = (Description.ofSteps steps).names ∧ r.names.Nodup := by
    intro r hr
    obtain ⟨values, computed, hread⟩ := hd.readLine_ok.mp hr
    exact ⟨hread.names_eq, hread.names_eq ▸ hd.distinct⟩
  refine ⟨hd.isRead, fun r hr n hn => ?_, fun r hr c hc => ?_, fun r hr n hn => ?_, fun r hr => ?_,
    fun r hr n i hi => hd.placed hr hi, hd.failed⟩
  · obtain ⟨values, computed, hread⟩ := hd.readLine_ok.mp hr
    obtain ⟨v, hv, hmem⟩ := hread.column hn
    rw [hv]
    exact TextRecord.get_of_mem (hnodup r hr).2 hmem
  · obtain ⟨values, computed, hread⟩ := hd.readLine_ok.mp hr
    obtain ⟨v, hv, hmem⟩ := hread.derivedField hc
    rw [← Derivation.read, hv]
    exact TextRecord.get_of_mem (hnodup r hr).2 hmem
  · rw [← (hnodup r hr).1] at hn
    exact TextRecord.get_of_not_mem hn
  · exact ⟨(hnodup r hr).1, hd.distinct, fun f hf => TextRecord.get_of_mem (hnodup r hr).2 hf⟩

/-- A column is added behind a computed field, and a column before both is repeated. -/
def interleaved : List Step :=
  [.compact "2i,4" ["n", "word"], .derived "listed" "n" fun v => .ok (.array [v]), .column "mark" .char 4 5,
    .repeated "word" 2 3]

theorem readLine_fieldByField_interleaved :
    ∃ l, interleaved.foldlM apply {} = .ok l ∧ ∃ r, l.readLine "12ab!cd" = .ok r ∧
      r.names = ["n", "word", "mark", "listed"] ∧ r.get "word" = .ok (.array [.text "ab", .text "cd"]) ∧
      r.get "mark" = .ok (.char '!') ∧ r.get "listed" = .ok (.array [.int 12]) ∧
      r.get "other" = .error (.fieldNotFound "other") := by
  obtain ⟨l, hl⟩ : ∃ l, interleaved.foldlM apply {} = .ok l := ⟨_, rfl⟩
  refine ⟨l, hl, ?_⟩
  have hfields := readLine_fieldByField hl "12ab!cd"
  have hn : l.readField "12ab!cd" "n" = .ok (.int 12) := by cases hl; rfl
  have hword : l.readField "12ab!cd" "word" = .ok (.array [.text "ab", .text "cd"]) := by cases hl; rfl
  have hmark : l.readField "12ab!cd" "mark" = .ok (.char '!') := by cases hl; rfl
  have hread : ∃ r, l.readLine "12ab!cd" = .ok r := by
    refine hfields.isRead.mpr ⟨?_, ?_⟩
    · simp [interleaved, Description.ofSteps, Description.add, hn, hword, hmark]
    · simp [interleaved, Description.ofSteps, Description.add, hn]
  obtain ⟨r, hr⟩ := hread
  refine ⟨r, hr, (hfields.listed r hr).1, ?_, ?_, ?_, hfields.unknown r hr _ (by decide)⟩
  · rw [hfields.column r hr "word" (by decide), hword]
  · rw [hfields.column r hr "mark" (by decide), hmark]
  · have hlisted := hfields.computed r hr ⟨"listed", "n", fun v => .ok (.array [v])⟩
      (by simp [interleaved, Description.ofSteps, Description.add])
    rw [hlisted, hn]
    rfl

end TextLayout
end SciArchive
