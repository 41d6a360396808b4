import ConstraintModel.Proofs.Calculus
import ConstraintModel.Proofs.Measure

namespace ConstraintModel

inductive Expr.Mapped (R : Expr → Expr → Prop) : Expr → Expr → Prop
  | simple {e : Expr} : e.isSimple → Mapped R e e
  | and {as bs : List Expr} : List.Forall₂ R as bs → Mapped R (and as) (and bs)
  | or {as bs : List Expr} : List.Forall₂ R as bs → Mapped R (or as) (or bs)
  | implies {a b c d : Expr} : R a c → R b d → Mapped R (implies a b) (implies c d)
  | not {a b : Expr} : R a b → Mapped R (not a) (not b)
  | sum {as bs : List Expr} : List.Forall₂ R as bs → Mapped R (sum as) (sum bs)
  | wsum {ts us : List (Int × Expr)} :
    List.Forall₂ (fun (t : Int × Expr) (u : Int × Expr) => u.1 = t.1 ∧ R t.2 u.2) ts us →
    Mapped R (wsum ts) (wsum us)
  | sub {a b c d : Expr} : R a c → R b d → Mapped R (sub a b) (sub c d)
  | mul {a b c d : Expr} : R a c → R b d → Mapped R (mul a b) (mul c d)
  | neg {a b : Expr} : R a b → Mapped R (neg a) (neg b)
  | cmp {a b c d : Expr} (r : Relation) : R a c → R b d → Mapped R (cmp r a b) (cmp r c d)
  | constraint {c d : Constraint Expr} : c.Related R d → Mapped R (constraint c) (constraint d)
  | function {g h : Function Expr} : g.Related R h → Mapped R (function g) (function h)

section

variable {m : Type → Type} [Monad m] [LawfulMonad m] {I : Type} (C : Calculus m I) {i : I}
  {R : I → Expr → Expr → Prop} {f : Expr → m Expr} (hR : C.Stable R)

include hR

theorem Calculus.mapArgsM {e : Expr} (hcall : ∀ d, e ≠ .call d)
    (h : ∀ a ∈ e.args, ∀ j, C.le i j → C.sat (f a) j fun b k => R k a b) :
    C.sat (e.mapArgsM f) i fun e' j => e.Mapped (R j) e' := by
  have two {a b : Expr} (ha : a ∈ e.args) (hb : b ∈ e.args) {g : Expr → Expr → Expr}
      (hg : ∀ {k c d}, R k a c → R k b d → e.Mapped (R k) (g c d)) :
      C.sat (do return g (← f a) (← f b)) i fun e' j => e.Mapped (R j) e' := by
    refine C.bind (h a ha i (C.refl i)) fun c j hj hc => ?_
    exact C.bind (h b hb j hj) fun d k hk hd => C.pure (hg (hR.keep hk hc) hd)
  cases e with
  | bool _ | int _ | var _ | negVar _ => exact C.pure (.simple rfl)
  | and as => exact C.bind (C.mapM hR h) fun bs j _ hbs => C.pure (.and hbs)
  | or as => exact C.bind (C.mapM hR h) fun bs j _ hbs => C.pure (.or hbs)
  | sum as => exact C.bind (C.mapM hR h) fun bs j _ hbs => C.pure (.sum hbs)
  | wsum ts =>
    exact C.bind (C.terms_mapM hR fun t ht j hj => h t.2 (List.mem_map_of_mem ht) j hj)
      fun us j _ hus => C.pure (.wsum hus)
  | implies a b => exact two (by simp [Expr.args]) (by simp [Expr.args]) .implies
  | sub a b => exact two (by simp [Expr.args]) (by simp [Expr.args]) .sub
  | mul a b => exact two (by simp [Expr.args]) (by simp [Expr.args]) .mul
  | cmp r a b => exact two (by simp [Expr.args]) (by simp [Expr.args]) (.cmp r)
  | not a =>
    exact C.bind (h a (by simp [Expr.args]) i (C.refl i)) fun b j _ hb => C.pure (.not hb)
  | neg a =>
    exact C.bind (h a (by simp [Expr.args]) i (C.refl i)) fun b j _ hb => C.pure (.neg hb)
  | constraint c => exact C.bind (C.constraint_mapM hR h) fun d j _ hd => C.pure (.constraint hd)
  | function g => exact C.bind (C.function_mapM hR h) fun k j _ hk => C.pure (.function hk)
  | call d => exact absurd rfl (hcall d)

end

namespace Expr.Mapped

variable {R : Expr → Expr → Prop} {e e' : Expr} {V : Variable → Prop} {k n : Nat} {s t : Assignment}

theorem mono {S : Expr → Expr → Prop} (h : e.Mapped R e') (hS : ∀ a b, R a b → S a b) : e.Mapped S e' := by
  cases h with
  | simple h => exact .simple h
  | and h => exact .and (h.imp hS)
  | or h => exact .or (h.imp hS)
  | implies h₁ h₂ => exact .implies (hS _ _ h₁) (hS _ _ h₂)
  | not h => exact .not (hS _ _ h)
  | sum h => exact .sum (h.imp hS)
  | wsum h => exact .wsum (h.imp fun _ _ h => ⟨h.1, hS _ _ h.2⟩)
  | sub h₁ h₂ => exact .sub (hS _ _ h₁) (hS _ _ h₂)
  | mul h₁ h₂ => exact .mul (hS _ _ h₁) (hS _ _ h₂)
  | neg h => exact .neg (hS _ _ h)
  | cmp r h₁ h₂ => exact .cmp r (hS _ _ h₁) (hS _ _ h₂)
  | constraint h => exact .constraint (h.mono hS)
  | function h => exact .function (h.mono hS)

theorem isBool_eq (h : e.Mapped R e') : e'.isBool = e.isBool := by
  cases h <;> rfl

theorem eq_or_isSimple (h : e.Mapped R e') : e' = e ∧ e.isSimple ∨ e'.isSimple = false := by
  cases h with
  | simple h => exact .inl ⟨rfl, h⟩
  | _ => exact .inr rfl

theorem forall₂_args (h : e.Mapped R e') : List.Forall₂ R e.args e'.args := by
  cases h with
  | simple h => simp [args_of_isSimple h]
  | and h | or h | sum h => exact h
  | implies h₁ h₂ | sub h₁ h₂ | mul h₁ h₂ | cmp _ h₁ h₂ => exact .cons h₁ (.cons h₂ .nil)
  | not h | neg h => exact .cons h .nil
  | constraint h => exact h.args
  | function h => exact h.args
  | wsum h =>
    rw [Expr.args, Expr.args, List.forall₂_map_left_iff, List.forall₂_map_right_iff]
    exact h.imp fun _ _ htu => htu.2

theorem args (h : e.Mapped R e') : ∀ b ∈ e'.args, ∃ a ∈ e.args, R a b := fun _ hb =>
  forall₂_mem_right h.forall₂_args hb

theorem typedHere (h : e.Mapped R e') (hR : ∀ a b, R a b → a.isBool → b.isBool)
    (he : e.TypedHere) : e'.TypedHere := by
  cases h with
  | simple => exact he
  | and h | or h =>
    intro b hb
    obtain ⟨a, ha, hab⟩ := forall₂_mem_right h hb
    exact hR a b hab (he a ha)
  | implies h₁ h₂ => exact ⟨hR _ _ h₁ he.1, hR _ _ h₂ he.2⟩
  | not h => exact hR _ _ h he
  | sum _ | wsum _ | sub _ _ | mul _ _ | neg _ | cmp _ _ _ => trivial
  | constraint h => exact h.formed hR he
  | function h => exact h.formed he

theorem greatest_le {as bs : List Expr} (h : List.Forall₂ R as bs)
    (hR : ∀ a b, R a b → b.nesting k ≤ a.nesting k) :
    greatest (bs.map (nesting k)) ≤ greatest (as.map (nesting k)) := by
  refine greatest_map_le fun b hb => ?_
  obtain ⟨a, ha, hab⟩ := forall₂_mem_right h hb
  exact (hR a b hab).trans (le_greatest_map ha)

theorem nesting_le (h : e.Mapped R e') (hR : ∀ a b, R a b → b.nesting k ≤ a.nesting k) :
    e'.nesting k ≤ e.nesting k := by
  cases h with
  | simple => exact le_rfl
  | and h | or h | sum h =>
    simp only [nesting_and, nesting_or, nesting_sum]
    exact Nat.add_le_add_left (greatest_le h hR) k
  | implies h₁ h₂ | sub h₁ h₂ | mul h₁ h₂ | cmp _ h₁ h₂ =>
    have := hR _ _ h₁
    have := hR _ _ h₂
    simp only [nesting_implies, nesting_sub, nesting_mul, nesting_cmp]
    omega
  | not h | neg h =>
    have := hR _ _ h
    simp only [nesting_not, nesting_neg]
    omega
  | wsum h =>
    rw [nesting_wsum, nesting_wsum]
    refine Nat.add_le_add_left (greatest_map_le fun u hu => ?_) k
    obtain ⟨t, ht, htu⟩ := forall₂_mem_right h hu
    exact (hR _ _ htu.2).trans (le_greatest_map (f := fun t : Int × Expr => t.2.nesting k) ht)
  | constraint h =>
    have := greatest_le h.args hR
    rw [nesting_constraint, nesting_constraint, Constraint.weight_eq h.shape]
    omega
  | function h =>
    have := greatest_le h.args hR
    rw [nesting_function, nesting_function]
    omega

end Expr.Mapped

end ConstraintModel
