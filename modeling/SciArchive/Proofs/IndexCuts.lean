import SciArchive.Proofs.IndexReading
import SciArchive.Proofs.IndexReload

/-! Index files that were cut off or added to. Reading looks at no byte behind those that it takes, so
that bytes put behind a whole index are left over; a piece of an index that could be read would leave
the missing bytes over. -/
namespace SciArchive

namespace IndexEntry

theorem takeBytes_append {bytes taken rest : List UInt8} {short : IndexFlaw}
    (h : takeBytes bytes short = .ok (taken, rest)) (extra : List UInt8) :
    takeBytes (bytes ++ extra) short = .ok (taken, rest ++ extra) := by
  obtain ⟨hsize, word, rfl, hword⟩ := takeBytes_eq_ok.mp h
  exact takeBytes_eq_ok.mpr ⟨hsize, word, List.append_assoc .., hword⟩

end IndexEntry

namespace SecondaryIndex

open IndexEntry IndexBuilder

/-! ### Bytes behind what is read -/

theorem takeEntry_append {seen : List IndexEntry} {bytes rest : List UInt8} {entry : IndexEntry}
    (h : takeEntry seen bytes = .ok (entry, rest)) (extra : List UInt8) :
    takeEntry seen (bytes ++ extra) = .ok (entry, rest ++ extra) := by
  obtain ⟨body, htake, hdecode, hnew⟩ := takeEntry_ok.mp h
  exact takeEntry_ok.mpr ⟨body, takeBytes_append htake extra, hdecode, hnew⟩

theorem takeEntries_append {seen es : List IndexEntry} {n : Nat} {bytes rest : List UInt8}
    (h : takeEntries seen n bytes = .ok (es, rest)) (extra : List UInt8) :
    takeEntries seen n (bytes ++ extra) = .ok (es, rest ++ extra) := by
  induction n generalizing seen bytes with
  | zero =>
    cases h
    rfl
  | succ n ih =>
    obtain ⟨entry, left, hentry, hrest⟩ := takeEntries_succ_ok.mp h
    exact takeEntries_succ_ok.mpr
      ⟨entry, left ++ extra, takeEntry_append hentry extra, ih hrest⟩

/-- What is put behind a file from which an index is read is left over. -/
theorem ofBytes_append {bytes extra : List UInt8} {ix : SecondaryIndex} (h : ofBytes bytes = .ok ix)
    (hextra : extra ≠ []) :
    ofBytes (bytes ++ extra) = .error (.trailingBytes extra.length) := by
  obtain ⟨behind, count, rest, rfl, hcount, hread, -⟩ := ofBytes_ok h
  have hread := takeEntries_append hread extra
  rw [List.append_assoc, List.cons_append, ofBytes_marked, Varint.take_append hcount]
  simp only [Except.bind, hread, List.nil_append, if_neg hextra]

/-! ### Cut or extended files -/

/-- The indexes that there are: those of builders, and those that were read. -/
inductive Made : SecondaryIndex → Prop where
  | built {events : List Event} (fits : Fits events) : Made (run events).finish
  | read {bytes : List UInt8} {ix : SecondaryIndex} (ok : ofBytes bytes = .ok ix) : Made ix

theorem Made.storable {ix : SecondaryIndex} (h : Made ix) : ix.Storable := by
  cases h with
  | built fits => exact fits.storable
  | read ok => exact storable_ofBytes ok

/-- An index file that was cut off anywhere or added to is no index file. -/
theorem ofBytes_cut_or_extended {ix : SecondaryIndex} (h : Made ix) :
    (∀ cut, cut <+: ix.toBytes → cut ≠ ix.toBytes → ∃ flaw, ofBytes cut = .error flaw) ∧
      ∀ extra, extra ≠ [] → ofBytes (ix.toBytes ++ extra) = .error (.trailingBytes extra.length) := by
  have hwhole := ofBytes_toBytes h.storable
  refine ⟨fun cut hcut hne => ?_, fun extra hextra => ofBytes_append hwhole hextra⟩
  obtain ⟨missing, hmissing⟩ := hcut
  have hnonempty : missing ≠ [] := by
    rintro rfl
    exact hne (by rw [← hmissing, List.append_nil])
  cases hread : ofBytes cut with
  | error flaw => exact ⟨flaw, rfl⟩
  | ok other =>
    -- then the whole file would be the cut one with bytes left over
    have hleft := ofBytes_append hread hnonempty
    rw [hmissing, hwhole] at hleft
    cases hleft

/-- The cut falls in front of the last field, which an entry may be without. -/
theorem ofBytes_cut_or_extended_scattered :
    let ix := (run [.observe "B" 0, .observe "A" 9, .annotate "A" 5, .observe "B" 18,
      .observe "A" 27]).finish
    Made ix ∧ (∃ flaw, ofBytes (ix.toBytes.take 29) = .error flaw) ∧
      ofBytes (ix.toBytes ++ [0]) = .error (.trailingBytes 1) := by
  intro ix
  have hmade : Made ix := .built ⟨by decide, by decide +kernel⟩
  obtain ⟨hcut, hextended⟩ := ofBytes_cut_or_extended hmade
  exact ⟨hmade, hcut _ (List.take_prefix _ _) (by decide +kernel), hextended [0] (by decide)⟩

end SecondaryIndex
end SciArchive
