import Mathlib.Data.List.Forall2

/-! Lists that are related item by item, and what is found in them; and lists whose items have names of their
own. -/
namespace SciArchive

theorem forall₂_mem_left {α β : Type} {R : α → β → Prop} {as : List α} {bs : List β} {a : α}
    (h : List.Forall₂ R as bs) (ha : a ∈ as) : ∃ b ∈ bs, R a b := by
  induction h with
  | nil => cases ha
  | cons hab _ ih =>
    rcases List.mem_cons.mp ha with rfl | ha
    · exact ⟨_, List.mem_cons_self, hab⟩
    · obtain ⟨b, hb, hab⟩ := ih ha
      exact ⟨b, List.mem_cons_of_mem _ hb, hab⟩

theorem forall₂_mem_right {α β : Type} {R : α → β → Prop} {as : List α} {bs : List β} {b : β}
    (h : List.Forall₂ R as bs) (hb : b ∈ bs) : ∃ a ∈ as, R a b :=
  forall₂_mem_left h.flip hb

theorem map_eq_of_forall₂ {α β γ : Type} {f : α → γ} {g : β → γ} {as : List α} {bs : List β}
    (h : List.Forall₂ (fun a b => g b = f a) as bs) : bs.map g = as.map f := by
  induction h with
  | nil => rfl
  | cons hab _ ih => rw [List.map_cons, List.map_cons, hab, ih]

theorem mem_zip_of_forall₂ {α β : Type} {R : α → β → Prop} {as : List α} {bs : List β} {a : α}
    (h : List.Forall₂ R as bs) (ha : a ∈ as) : ∃ b, (a, b) ∈ as.zip bs ∧ R a b := by
  induction h with
  | nil => cases ha
  | @cons _ b _ _ hab _ ih =>
    rcases List.mem_cons.mp ha with rfl | ha
    · exact ⟨b, by simp, hab⟩
    · obtain ⟨b, hb, hab⟩ := ih ha
      exact ⟨b, by simp [hb], hab⟩

/-- Where names differ, a name finds the one that has it. -/
theorem find?_of_nodup {α : Type} {name : α → String} {as : List α} {a : α} (h : (as.map name).Nodup)
    (ha : a ∈ as) : as.find? (fun b => name b = name a) = some a := by
  obtain ⟨front, back, rfl⟩ := List.append_of_mem ha
  rw [List.map_append, List.map_cons, List.nodup_append] at h
  refine List.find?_eq_some_iff_append.mpr ⟨by simp, front, back, rfl, fun b hb => ?_⟩
  have hne := h.2.2 (name b) (List.mem_map_of_mem hb) (name a) List.mem_cons_self
  simp [hne]

/-! ### Searches and steps on either side -/

section
variable {α β γ δ : Type} {R : α → β → Prop} {S : γ → δ → Prop} {as : List α} {bs : List β}

theorem map_eq_of_related {f : α → γ} {g : β → γ} (h : List.Forall₂ R as bs)
    (hfg : ∀ a ∈ as, ∀ {b}, R a b → f a = g b) : as.map f = bs.map g := by
  have hboth := (List.forall₂_and_left as bs).mpr ⟨hfg, h⟩
  exact (map_eq_of_forall₂ (hboth.imp fun _ _ hab => (hab.1 hab.2).symm)).symm

theorem find?_rel {p : α → Bool} {q : β → Bool} (h : List.Forall₂ R as bs) (hpq : ∀ {a b}, R a b → p a = q b) :
    Option.Rel R (as.find? p) (bs.find? q) := by
  induction h with
  | nil => exact .none
  | @cons a b as bs hab _ ih =>
    cases hp : p a with
    | true => simpa [hp, ← hpq hab] using Option.Rel.some hab
    | false => simpa [hp, ← hpq hab] using ih

theorem findSome?_rel {f : α → Option γ} {g : β → Option δ} (h : List.Forall₂ R as bs)
    (hfg : ∀ {a b}, R a b → Option.Rel S (f a) (g b)) : Option.Rel S (as.findSome? f) (bs.findSome? g) := by
  induction h with
  | nil => exact .none
  | @cons a b as bs hab _ ih =>
    have hfirst := hfg hab
    simp only [List.findSome?_cons]
    cases hf : f a <;> cases hg : g b <;> rw [hf, hg] at hfirst
    · exact ih
    · cases hfirst
    · cases hfirst
    · exact hfirst

theorem bind_rel {x : Option α} {y : Option β} {f : α → Option γ} {g : β → Option δ} (h : Option.Rel R x y)
    (hfg : ∀ {a b}, R a b → Option.Rel S (f a) (g b)) : Option.Rel S (x.bind f) (y.bind g) := by
  cases h with
  | some hab => exact hfg hab
  | none => exact .none

theorem map_rel {x : Option α} {y : Option β} {f : α → γ} {g : β → δ} (h : Option.Rel R x y)
    (hfg : ∀ {a b}, R a b → S (f a) (g b)) : Option.Rel S (x.map f) (y.map g) := by
  cases h with
  | some hab => exact .some (hfg hab)
  | none => exact .none

theorem rel_imp {R' : α → β → Prop} {x : Option α} {y : Option β} (h : Option.Rel R x y)
    (hR : ∀ {a b}, R a b → R' a b) : Option.Rel R' x y := by
  cases h with
  | some hab => exact .some (hR hab)
  | none => exact .none

theorem foldlM_rel {f : α → γ → Option α} {g : β → γ → Option β} {a : α} {b : β} (h : R a b) (cs : List γ)
    (hfg : ∀ {a b}, R a b → ∀ c, Option.Rel R (f a c) (g b c)) :
    Option.Rel R (cs.foldlM f a) (cs.foldlM g b) := by
  induction cs generalizing a b with
  | nil => exact .some h
  | cons c cs ih => exact bind_rel (hfg h c) ih

end

end SciArchive
