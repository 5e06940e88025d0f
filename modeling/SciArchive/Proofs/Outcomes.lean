import Mathlib.Data.List.Forall2

/-! Outcomes one after the other: what succeeds has succeeded in every step, and what fails has the failure
of its first step that does. -/
namespace SciArchive

/-- A reader that goes on has read something first. -/
theorem bind_eq_ok {ε α β : Type} {x : Except ε α} {f : α → Except ε β} {b : β} :
    x.bind f = .ok b ↔ ∃ a, x = .ok a ∧ f a = .ok b := by
  cases x <;> simp [Except.bind]

theorem map_eq_ok {ε α β : Type} {x : Except ε α} {f : α → β} {b : β} :
    x.map f = .ok b ↔ ∃ a, x = .ok a ∧ f a = b := by
  cases x <;> simp [Except.map]

theorem mapM_eq_ok {ε α β : Type} {f : α → Except ε β} {as : List α} {bs : List β} :
    as.mapM f = .ok bs ↔ List.Forall₂ (fun a b => f a = .ok b) as bs := by
  induction as generalizing bs with
  | nil => simp [pure, Except.pure, eq_comm]
  | cons a as ih =>
    rw [List.mapM_cons, List.forall₂_cons_left_iff]
    simp only [← ih]
    cases f a with
    | error e => simp [bind, Except.bind]
    | ok b => cases as.mapM f <;> simp [bind, Except.bind, pure, Except.pure, eq_comm]

theorem mapM_isOk {ε α β : Type} {f : α → Except ε β} {as : List α} :
    (∃ bs, as.mapM f = .ok bs) ↔ ∀ a ∈ as, ∃ b, f a = .ok b := by
  induction as with
  | nil => simp [pure, Except.pure]
  | cons a as ih =>
    rw [List.mapM_cons, List.forall_mem_cons, ← ih]
    cases f a with
    | error e => simp [bind, Except.bind]
    | ok b => cases as.mapM f <;> simp [bind, Except.bind, pure, Except.pure]

/-- The first item on which `f` fails gives the failure `e`. -/
def FirstFails {ε α β : Type} (f : α → Except ε β) (as : List α) (e : ε) : Prop :=
  ∃ front a back, as = front ++ a :: back ∧ (∀ b ∈ front, ∃ c, f b = .ok c) ∧ f a = .error e

theorem mapM_eq_error {ε α β : Type} {f : α → Except ε β} {as : List α} {e : ε} :
    as.mapM f = .error e ↔ FirstFails f as e := by
  constructor
  · intro h
    induction as with
    | nil => cases h
    | cons a as ih =>
      rw [List.mapM_cons] at h
      cases ha : f a with
      | error e' =>
        simp only [ha, bind, Except.bind, Except.error.injEq] at h
        exact ⟨[], a, as, rfl, by simp, h ▸ ha⟩
      | ok b =>
        cases hrest : as.mapM f with
        | ok bs => simp [ha, hrest, bind, Except.bind, pure, Except.pure] at h
        | error e' =>
          simp only [ha, hrest, bind, Except.bind, Except.error.injEq] at h
          obtain ⟨front, found, back, rfl, hfront, hfound⟩ := ih (h ▸ hrest)
          refine ⟨a :: front, found, back, rfl, ?_, hfound⟩
          simpa using ⟨⟨b, ha⟩, hfront⟩
  · rintro ⟨front, a, back, rfl, hfront, ha⟩
    obtain ⟨bs, hbs⟩ := mapM_isOk.mpr hfront
    simp [hbs, ha, bind, Except.bind]

theorem mapM_error {ε α β : Type} {f : α → Except ε β} {as : List α} {e : ε}
    (h : as.mapM f = .error e) : ∃ a ∈ as, f a = .error e := by
  obtain ⟨front, a, back, rfl, -, ha⟩ := mapM_eq_error.mp h
  exact ⟨a, by simp, ha⟩

theorem mapM_congr {ε α β γ : Type} {f : α → Except ε γ} {g : β → Except ε γ} {as : List α} {bs : List β}
    (h : List.Forall₂ (fun a b => f a = g b) as bs) : as.mapM f = bs.mapM g := by
  induction h with
  | nil => rfl
  | cons hab _ ih => rw [List.mapM_cons, List.mapM_cons, hab, ih]

end SciArchive
