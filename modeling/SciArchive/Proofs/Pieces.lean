import Mathlib.Data.List.Flatten
import SciArchive.Namespace.Tree

/-! Texts cut at separators, where runs of separators cut once. What is joined by a separator comes apart
into the same pieces exactly when none of them is empty or holds a separator. -/
namespace SciArchive.Text

/-- The stretches between separators that are not empty. -/
def pieces (p : Char → Bool) (cs : List Char) : List (List Char) :=
  (cs.splitOnP p).filter fun w => !w.isEmpty

/-- Not empty, and without separators. -/
def Whole (p : Char → Bool) (cs : List Char) : Prop := cs ≠ [] ∧ ∀ c ∈ cs, p c = false

instance (p : Char → Bool) : DecidablePred (Whole p) := fun cs =>
  decidable_of_iff (cs ≠ [] ∧ cs.all (fun c => !p c) = true) (by simp [Whole])

theorem words_eq (cs : List Char) : words cs = pieces isBlank cs := rfl

variable {p : Char → Bool}

theorem pieces_append_cons {c : Char} (hc : p c = true) (front back : List Char) :
    pieces p (front ++ c :: back) = pieces p front ++ pieces p back := by
  rw [pieces, List.splitOnP_append_cons front back hc, List.filter_append]
  rfl

theorem pieces_of_whole {cs : List Char} (h : Whole p cs) : pieces p cs = [cs] := by
  obtain ⟨hne, hplain⟩ := h
  simp [pieces, List.splitOnP_eq_singleton hplain, hne]

theorem separated_of_mem_splitOnP {cs w : List Char} (h : w ∈ cs.splitOnP p) : ∀ c ∈ w, p c = false := by
  induction cs generalizing w with
  | nil => simp_all [List.splitOnP_nil]
  | cons c cs ih =>
    rw [List.splitOnP_cons_eq_if_modifyHead] at h
    split at h
    · rcases List.mem_cons.mp h with rfl | h
      · simp
      · exact ih h
    · rename_i hc
      cases hsplit : cs.splitOnP p with
      | nil => simp [hsplit] at h
      | cons first rest =>
        simp only [hsplit, List.modifyHead_cons, List.mem_cons] at h
        rcases h with rfl | h
        · refine List.forall_mem_cons.mpr ⟨Bool.not_eq_true _ ▸ hc, ih ?_⟩
          rw [hsplit]
          exact List.mem_cons_self
        · exact ih (hsplit ▸ List.mem_cons_of_mem _ h)

theorem whole_of_mem_pieces {cs w : List Char} (h : w ∈ pieces p cs) : Whole p w := by
  obtain ⟨hmem, hne⟩ := List.mem_filter.mp h
  exact ⟨by simpa using hne, separated_of_mem_splitOnP hmem⟩

theorem pieces_intercalate {c : Char} (hc : p c = true) (css : List (List Char)) :
    pieces p ([c].intercalate css) = css.flatMap (pieces p) := by
  induction css with
  | nil => rfl
  | cons cs css ih =>
    cases css with
    | nil => simp
    | cons next css =>
      rw [List.intercalate_cons_cons, List.append_assoc, List.singleton_append, pieces_append_cons hc, ih]
      rfl

/-- Joined texts come apart again exactly when each is a piece of its own. -/
theorem flatMap_pieces_eq_iff {css : List (List Char)} :
    css.flatMap (pieces p) = css ↔ ∀ cs ∈ css, Whole p cs := by
  constructor
  · intro h cs hcs
    rw [← h] at hcs
    obtain ⟨_, -, hpiece⟩ := List.mem_flatMap.mp hcs
    exact whole_of_mem_pieces hpiece
  · intro h
    have hsingle : css.map (pieces p) = css.map fun cs => [cs] :=
      List.map_congr_left fun cs hcs => pieces_of_whole (h cs hcs)
    rw [List.flatMap_def, hsingle, ← List.flatMap_def, List.flatMap_singleton']

end SciArchive.Text
