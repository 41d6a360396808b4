import ConstraintModel.Expr.Equality
import Mathlib.Data.List.Forall2

namespace ConstraintModel

variable {α β γ δ : Type} {R : α → β → Prop}

theorem forall₂_mem_left {as : List α} {bs : List β} (h : List.Forall₂ R as bs) {a : α}
    (ha : a ∈ as) : ∃ b ∈ bs, R a b := by
  induction h with
  | nil => cases ha
  | cons hab _ ih =>
    rcases List.mem_cons.1 ha with rfl | ha
    · exact ⟨_, List.mem_cons_self .., hab⟩
    · obtain ⟨b, hb, hr⟩ := ih ha
      exact ⟨b, List.mem_cons_of_mem _ hb, hr⟩

theorem forall₂_mem_right {as : List α} {bs : List β} (h : List.Forall₂ R as bs) {b : β}
    (hb : b ∈ bs) : ∃ a ∈ as, R a b :=
  forall₂_mem_left h.flip hb

theorem forall₂_map_eq {f : α → γ} {g : β → γ} (hR : ∀ a b, R a b → f a = g b) {as : List α}
    {bs : List β} (h : List.Forall₂ R as bs) : as.map f = bs.map g := by
  induction h with
  | nil => rfl
  | cons hab _ ih => rw [List.map_cons, List.map_cons, hR _ _ hab, ih]

theorem forall₂_of_append {as as' : List α} {bs bs' : List β}
    (h : List.Forall₂ R (as ++ as') (bs ++ bs')) (hlength : as.length = bs.length) :
    List.Forall₂ R as bs ∧ List.Forall₂ R as' bs' := by
  have htake := List.forall₂_take_append _ _ _ h
  have hdrop := List.forall₂_drop_append _ _ _ h
  rw [← hlength] at htake hdrop
  exact ⟨by rwa [List.take_left] at htake, by rwa [List.drop_left] at hdrop⟩

structure Constraint.Related (R : α → β → Prop) (c : Constraint α) (d : Constraint β) : Prop where
  shape : c.map (fun _ => ()) = d.map fun _ => ()
  args : List.Forall₂ R c.args d.args

structure Function.Related (R : α → β → Prop) (g : Function α) (h : Function β) : Prop where
  shape : g.map (fun _ => ()) = h.map fun _ => ()
  args : List.Forall₂ R g.args h.args

theorem Constraint.map_map (f : α → β) (g : β → γ) (c : Constraint α) :
    (c.map f).map g = c.map fun a => g (f a) := by
  cases c <;> simp [map, Function.comp_def]

theorem Function.map_map (f : α → β) (g : β → γ) (k : Function α) :
    (k.map f).map g = k.map fun a => g (f a) := by
  cases k <;> simp [map, Function.comp_def]

namespace Constraint.Related

variable {c : Constraint α} {d : Constraint β}

theorem map_eq (h : c.Related R d) {f : α → γ} {g : β → γ} (hR : ∀ a b, R a b → f a = g b) :
    c.map f = d.map g := by
  refine eq_of_map_eq (f := fun _ => ()) ?_ ?_
  · rw [map_map, map_map]
    exact h.shape
  · rw [args_map, args_map]
    exact forall₂_map_eq hR h.args

theorem mono {S : α → β → Prop} (h : c.Related R d) (hS : ∀ a b, R a b → S a b) :
    c.Related S d := ⟨h.shape, h.args.imp hS⟩

end Constraint.Related

namespace Function.Related

variable {c : Function α} {d : Function β}

theorem map_eq (h : c.Related R d) {f : α → γ} {g : β → γ} (hR : ∀ a b, R a b → f a = g b) :
    c.map f = d.map g := by
  refine eq_of_map_eq (f := fun _ => ()) ?_ ?_
  · rw [map_map, map_map]
    exact h.shape
  · rw [args_map, args_map]
    exact forall₂_map_eq hR h.args

theorem name_eq (h : c.Related R d) : c.name = d.name := by
  rw [← name_map (fun _ => ()) c, h.shape, name_map]

theorem mono {S : α → β → Prop} (h : c.Related R d) (hS : ∀ a b, R a b → S a b) :
    c.Related S d := ⟨h.shape, h.args.imp hS⟩

end Function.Related

end ConstraintModel
