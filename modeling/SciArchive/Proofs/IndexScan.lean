import SciArchive.Index.Scan
import SciArchive.Proofs.IndexBuilder
import SciArchive.Proofs.Lines

/-! The histories that a scan of records and a scan of catalog lines give to a builder. -/
namespace SciArchive.IndexBuilder

/-- The text under which a key was had. -/
def textOf (key : Except Fault String) : String := key.toOption.getD ""

/-- A record is met under its key. -/
def meeting (key : Record → Except Fault String) (r : Nat × Record) : Event :=
  .observe (textOf (key r.2)) (UInt64.ofNat r.1)

/-- A line is noted under the text of its field. -/
def noting (layout : TextLayout) (field : String) (line : Nat × String) : Event :=
  .annotate (textOf ((layout.readField line.2 field).map Value.render)) (UInt64.ofNat line.1)

/-- A scan that succeeds came to no failure, and met every record. -/
theorem scanFrom_ok {key : Record → Except Fault String} {b b' : IndexBuilder} {met n : Nat}
    {s : LineSource} (h : scanFrom key b met (.lines s) = (.ok n, b')) :
    ∃ records : List (Nat × Record), s.toCome = records.map .ok ∧
      (∀ r ∈ records, ∃ k, key r.2 = .ok k) ∧ b' = (records.map (meeting key)).foldl step b := by
  generalize hsource : Source.lines s = source at h
  fun_induction scanFrom key b met source generalizing s with
  | case1 => cases h
  | case2 b met source hread =>
    subst hsource
    cases h
    have hfirst := s.read_spec.1.symm.trans hread
    exact ⟨[], firstOutcome_none hfirst, by simp, rfl⟩
  | case3 => cases h
  | case4 b met source offset r hread k hkey ih =>
    subst hsource
    obtain ⟨hfirst, htail, -, -⟩ := s.read_spec
    have houtcomes := firstOutcome_some (hfirst.symm.trans hread)
    obtain ⟨records, hrecords, hkeys, hb'⟩ := ih rfl h
    refine ⟨(offset, r) :: records, ?_, ?_, ?_⟩
    · rw [houtcomes, ← htail, hrecords]
      rfl
    · intro r' hr'
      rcases List.mem_cons.mp hr' with rfl | hr'
      · exact ⟨k, hkey⟩
      · exact hkeys r' hr'
    · rw [hb', List.map_cons, List.foldl_cons, meeting, hkey]
      rfl

/-- A catalog is noted only if all its lines can be read as far as the field of the key. -/
theorem annotateFrom_ok {field : String} {b b' : IndexBuilder} {s : LineSource}
    (h : annotateFrom field b s = .ok b') :
    ∃ listed : List (Nat × String), s.lines = listed.map .ok ∧
      (∀ line ∈ listed, ∃ v, s.layout.readField line.2 field = .ok v) ∧
      b' = (listed.map (noting s.layout field)).foldl step b := by
  fun_induction annotateFrom field b s with
  | case1 => cases h
  | case2 b s hread =>
    cases h
    have hfirst := s.readLine_spec.1.symm.trans hread
    exact ⟨[], firstOutcome_none hfirst, by simp, rfl⟩
  | case3 => cases h
  | case4 b s offset line hread v hv ih =>
    obtain ⟨hfirst, htail, -⟩ := s.readLine_spec
    have houtcomes := firstOutcome_some (hfirst.symm.trans hread)
    obtain ⟨listed, hlisted, hfields, hb'⟩ := ih h
    refine ⟨(offset, line) :: listed, ?_, ?_, ?_⟩
    · rw [houtcomes, ← htail, hlisted]
      rfl
    · intro line' hline'
      rcases List.mem_cons.mp hline' with rfl | hline'
      · exact ⟨v, hv⟩
      · exact hfields line' hline'
    · rw [hb', List.map_cons, List.foldl_cons, noting, hv]
      rfl

end SciArchive.IndexBuilder
