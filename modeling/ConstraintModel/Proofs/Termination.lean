import ConstraintModel.Proofs.SupportedConfined

namespace ConstraintModel

open Lowering (Stays)

variable {α β S : Type}

structure Refinement (m : Type → Type) [Monad m] where
  le : {α : Type} → m α → m α → Prop
  refl {α : Type} (x : m α) : le x x
  bind {α β : Type} {x y : m α} {f g : α → m β} : le x y → (∀ a, le (f a) (g a)) → le (x >>= f) (y >>= g)

namespace Refinement

variable {m : Type → Type} [Monad m] [LawfulMonad m] (A : Refinement m) {f g : α → m β} (h : ∀ a, A.le (f a) (g a))

include h

theorem mapM (as : List α) : A.le (as.mapM f) (as.mapM g) := by
  induction as with
  | nil => exact A.refl _
  | cons a as ih =>
    rw [List.mapM_cons, List.mapM_cons]
    exact A.bind (h a) fun b => A.bind ih fun bs => A.refl _

theorem constraint_mapM (c : Constraint α) : A.le (c.mapM f) (c.mapM g) := by
  cases c
  all_goals
    repeat' first
      | exact A.refl _
      | exact h _
      | exact A.mapM h _
      | refine A.bind ?_ fun _ => ?_

theorem function_mapM (k : Function α) : A.le (k.mapM f) (k.mapM g) := by
  cases k
  all_goals
    repeat' first
      | exact A.refl _
      | exact h _
      | exact A.mapM h _
      | refine A.bind ?_ fun _ => ?_

omit h in
theorem mapArgsM {f g : Expr → m Expr} (h : ∀ a, A.le (f a) (g a)) {e : Expr} (hcall : ∀ d, e ≠ .call d) :
    A.le (e.mapArgsM f) (e.mapArgsM g) := by
  cases e with
  | call d => exact absurd rfl (hcall d)
  | wsum ts => exact A.bind (A.mapM (fun t => A.bind (h t.2) fun _ => A.refl _) ts) fun _ => A.refl _
  | constraint c => exact A.bind (A.constraint_mapM h c) fun _ => A.refl _
  | function k => exact A.bind (A.function_mapM h k) fun _ => A.refl _
  | _ =>
    repeat' first
      | exact A.refl _
      | exact h _
      | exact A.mapM h _
      | refine A.bind ?_ fun _ => ?_

omit h [LawfulMonad m] in
theorem foldlM {f g : β → α → m β} (h : ∀ b a, A.le (f b a) (g b a)) (as : List α) (b : β) :
    A.le (as.foldlM f b) (as.foldlM g b) := by
  induction as generalizing b with
  | nil => exact A.refl _
  | cons a as ih =>
    rw [List.foldlM_cons, List.foldlM_cons]
    exact A.bind (h b a) fun c => ih c

end Refinement

/-- The two runs end in the same way from every store, unless the recursion of
the first one is too deep there. -/
def Lowering.Refines (x y : Lowering α) : Prop := ∀ σ, (∃ τ, x σ = .error .tooDeep τ) ∨ x σ = y σ

theorem Lowering.Refines.bind {x y : Lowering α} {f g : α → Lowering β} (h : x.Refines y)
    (hf : ∀ a, (f a).Refines (g a)) : (x >>= f).Refines (y >>= g) := by
  intro σ
  change (∃ τ, EStateM.bind x f σ = .error .tooDeep τ) ∨ EStateM.bind x f σ = EStateM.bind y g σ
  unfold EStateM.bind
  rcases h σ with ⟨τ, hx⟩ | hx
  · exact .inl ⟨τ, by rw [hx]⟩
  · rw [← hx]
    cases x σ with
    | error e τ => exact .inr rfl
    | ok a τ => exact hf a τ

def Lowering.refinement : Refinement Lowering where
  le := Lowering.Refines
  refl _ _ := .inr rfl
  bind := Lowering.Refines.bind

def Defining.refinement : Refinement Defining where
  le x y := ∀ D, (x.run D).Refines (y.run D)
  refl _ _ _ := .inr rfl
  bind h hf D := (h D).bind fun p => hf p.1 p.2

def Defining.Refines (x y : Defining α) : Prop := Defining.refinement.le x y

theorem Defining.Refines.refl (x : Defining α) : Defining.Refines x x := Defining.refinement.refl x

theorem Defining.Refines.bind {x y : Defining α} {f g : α → Defining β} (h : Defining.Refines x y)
    (hf : ∀ a, Defining.Refines (f a) (g a)) : Defining.Refines (x >>= f) (y >>= g) := Defining.refinement.bind h hf

theorem Defining.refines_tooDeep (x : Defining α) : Defining.Refines (MonadExcept.throw LoweringError.tooDeep) x :=
  fun _ σ => .inl ⟨σ, rfl⟩

namespace Flat

open Defining (Refines)

structure Deepens (d d' : Nat) : Prop where
  constraint (e : Expr) : Refines (constraint d e) (constraint d' e)
  truth (e : Expr) : Refines (truth d e) (truth d' e)
  literals (absorbing : Bool) (as : List Expr) : Refines (literals d absorbing as) (literals d' absorbing as)
  literal (e : Expr) : Refines (literal d e) (literal d' e)
  comparison (lift : Bool) (r : Relation) (a b : Expr) : Refines (comparison d lift r a b) (comparison d' lift r a b)
  reification (lift : Bool) (r : Relation) (a b : Expr) :
    Refines (reification d lift r a b) (reification d' lift r a b)
  side (e : Expr) : Refines (side d e) (side d' e)
  affine (e : Expr) : Refines (affine d e) (affine d' e)
  addTo (f : Affine) (w : Int) (e : Expr) : Refines (addTo d f w e) (addTo d' f w e)
  operand (e : Expr) : Refines (operand d e) (operand d' e)

variable {d d' : Nat} (ih : Deepens d d')

theorem gather_refines {literal literal' : Expr → Defining Expr} (h : ∀ a, Refines (literal a) (literal' a))
    (absorbing : Bool) (as : List Expr) : Refines (gather absorbing literal as) (gather absorbing literal' as) := by
  induction as with
  | nil => exact .refl _
  | cons a as ih =>
    rw [gather, gather]
    refine (h a).bind fun l => ?_
    split
    · split
      · exact .refl _
      · exact ih
    · exact ih.bind fun _ => .refl _

include ih

theorem constraint_deepens (e : Expr) : Refines (constraint (d + 1) e) (constraint (d' + 1) e) := by
  cases e with
  | bool b => cases b <;> exact .refl _
  | and as =>
    rw [constraint, constraint]
    exact .bind (Defining.refinement.mapM ih.constraint as) fun _ => .refl _
  | or as =>
    rw [constraint, constraint]
    exact (ih.literals true as).bind fun _ => .refl _
  | implies a b =>
    rw [constraint, constraint]
    refine (ih.literal a).bind fun l => ?_
    split
    · exact .refl _
    · exact ih.constraint b
    · exact (ih.truth b).bind fun _ => .refl _
  | not a =>
    rw [constraint, constraint]
    split
    · exact (ih.literal a).bind fun _ => .refl _
    · exact ih.constraint _
  | cmp r a b =>
    rw [constraint, constraint]
    exact (ih.comparison false r a b).bind fun _ => .refl _
  | constraint c =>
    rw [constraint, constraint]
    exact .bind (Defining.refinement.constraint_mapM ih.operand c) fun _ => .refl _
  | int _ | var _ | negVar _ | sum _ | wsum _ | sub _ _ | mul _ _ | neg _ | function _ | call _ =>
    rw [constraint, constraint]
    exact .refl _

theorem truth_deepens (e : Expr) : Refines (truth (d + 1) e) (truth (d' + 1) e) := by
  cases e with
  | and as =>
    rw [truth, truth]
    exact (ih.literals false as).bind fun _ => .refl _
  | or as =>
    rw [truth, truth]
    exact (ih.literals true as).bind fun _ => .refl _
  | implies a b =>
    rw [truth, truth]
    exact (ih.literals true [a.negated, b]).bind fun _ => .refl _
  | not a =>
    rw [truth, truth]
    split
    · exact (ih.literal a).bind fun _ => .refl _
    · exact ih.truth _
  | cmp r a b =>
    rw [truth, truth]
    exact ih.comparison true r a b
  | constraint c =>
    rw [truth, truth]
    exact .bind (Defining.refinement.constraint_mapM ih.operand c) fun _ => .refl _
  | bool _ | int _ | var _ | negVar _ | sum _ | wsum _ | sub _ _ | mul _ _ | neg _ | function _ | call _ =>
    rw [truth, truth]
    exact .refl _

theorem literals_deepens (absorbing : Bool) (as : List Expr) :
    Refines (literals (d + 1) absorbing as) (literals (d' + 1) absorbing as) := by
  rw [literals, literals]
  split
  · exact .refl _
  · exact gather_refines ih.literal absorbing as

theorem literal_deepens (e : Expr) : Refines (literal (d + 1) e) (literal (d' + 1) e) := by
  rw [literal, literal]
  exact (ih.operand e).bind fun _ => .refl _

theorem comparison_deepens (lift : Bool) (r : Relation) (a b : Expr) :
    Refines (comparison (d + 1) lift r a b) (comparison (d' + 1) lift r a b) := by
  rw [comparison_eq, comparison_eq]
  split
  · exact .refl _
  · split
    · exact ih.reification lift r a b
    · refine .bind (.bind (.refl _) fun lifted => ?_) fun f => (ih.operand _).bind fun _ => .refl _
      split
      · exact ih.operand _
      · exact ih.side _

theorem reification_deepens (lift : Bool) (r : Relation) (a b : Expr) :
    Refines (reification (d + 1) lift r a b) (reification (d' + 1) lift r a b) := by
  rw [reification_eq, reification_eq]
  refine .bind ?_ fun p => ?_
  · unfold reified
    split
    · exact .refl _
    · split
      · exact .refl _
      · exact (ih.literal b).bind fun _ => .refl _
  · unfold equality
    split
    · exact ih.truth _
    · exact ih.truth _
    · exact (ih.truth _).bind fun _ => .refl _

theorem side_deepens (e : Expr) : Refines (side (d + 1) e) (side (d' + 1) e) := by
  cases e with
  | bool _ | int _ | var _ | negVar _ => exact .refl _
  | sum _ | wsum _ | neg _ =>
    rw [side, side]
    exact ih.affine _
  | mul a b =>
    rw [side, side]
    split
    · exact ih.affine _
    · refine (ih.operand a).bind fun x => (ih.operand b).bind fun y => ?_
      split
      · exact ih.affine _
      · exact .refl _
  | sub a b =>
    rw [side, side]
    exact (ih.operand a).bind fun _ => (ih.operand b).bind fun _ => .refl _
  | function g =>
    rw [side, side]
    exact .bind (Defining.refinement.function_mapM ih.operand g) fun _ => .refl _
  | and _ | or _ | implies _ _ | not _ | cmp _ _ _ | constraint _ | call _ =>
    rw [side, side]
    exact ih.operand _

theorem affine_deepens (e : Expr) : Refines (affine (d + 1) e) (affine (d' + 1) e) := by
  rw [affine, affine]
  exact (ih.addTo _ _ _).bind fun _ => .refl _

theorem addTo_deepens (f : Affine) (w : Int) (e : Expr) : Refines (addTo (d + 1) f w e) (addTo (d' + 1) f w e) := by
  have checked {c : Checked Int} {b : Expr} : Refines (do addTo d f (← c) b) (do addTo d' f (← c) b) :=
    .bind (.refl _) fun v => ih.addTo f v b
  have whole : Refines (do (f.addMultiple w (← operand d e) : Checked Affine))
      (do (f.addMultiple w (← operand d' e) : Checked Affine)) :=
    (ih.operand e).bind fun _ => .refl _
  cases e with
  | sum as =>
    rw [addTo, addTo]
    exact Defining.refinement.foldlM (fun f a => ih.addTo f w a) as f
  | wsum ts =>
    rw [addTo, addTo]
    exact Defining.refinement.foldlM (fun f t => Refines.bind (.refl _) fun v => ih.addTo f v t.2) ts f
  | neg a =>
    rw [addTo, addTo]
    exact checked
  | mul a b =>
    rw [addTo, addTo]
    split
    · exact checked
    · exact checked
    · exact whole
  | bool _ | int _ | var _ | negVar _ | and _ | or _ | implies _ _ | not _ | sub _ _ | cmp _ _ _
  | constraint _ | function _ | call _ =>
    rw [addTo, addTo] <;> first | exact whole | simp

theorem operand_deepens (e : Expr) : Refines (operand (d + 1) e) (operand (d' + 1) e) := by
  rw [operand, operand]
  split
  · exact .refl _
  · split
    · exact (ih.truth e).bind fun _ => .refl _
    · exact (ih.side e).bind fun _ => .refl _

omit ih

theorem deepens (h : d ≤ d') : Deepens d d' := by
  induction d generalizing d' with
  | zero => exact {
      constraint := fun _ => Defining.refines_tooDeep _
      truth := fun _ => Defining.refines_tooDeep _
      literals := fun _ _ => Defining.refines_tooDeep _
      literal := fun _ => Defining.refines_tooDeep _
      comparison := fun _ _ _ _ => Defining.refines_tooDeep _
      reification := fun _ _ _ _ => Defining.refines_tooDeep _
      side := fun _ => Defining.refines_tooDeep _
      affine := fun _ => Defining.refines_tooDeep _
      addTo := fun _ _ _ => Defining.refines_tooDeep _
      operand := fun _ => Defining.refines_tooDeep _ }
  | succ d ih =>
    obtain ⟨d', rfl⟩ := Nat.exists_eq_add_one_of_ne_zero (Nat.ne_of_gt (Nat.zero_lt_of_lt h))
    have ih := ih (Nat.le_of_succ_le_succ h)
    exact {
      constraint := constraint_deepens ih
      truth := truth_deepens ih
      literals := literals_deepens ih
      literal := literal_deepens ih
      comparison := comparison_deepens ih
      reification := reification_deepens ih
      side := side_deepens ih
      affine := affine_deepens ih
      addTo := addTo_deepens ih
      operand := operand_deepens ih }

end Flat

namespace Supported

open Defining (Refines)

variable {caps : Capabilities}

structure Deepens (caps : Capabilities) (d d' : Nat) : Prop where
  expr (context : Context) (e : Expr) : Refines (expr caps d context e) (expr caps d' context e)
  comparison (context : Context) (r : Relation) (a b : Expr) :
    Refines (comparison caps d context r a b) (comparison caps d' context r a b)
  parts (context : Context) (D : Decomposition) : Refines (parts caps d context D) (parts caps d' context D)

variable {d d' : Nat} (ih : Deepens caps d d')

include ih

theorem expr_deepens (context : Context) (e : Expr) :
    Refines (expr caps (d + 1) context e) (expr caps (d' + 1) context e) := by
  have args (a : Expr) := ih.expr (argContext context a) a
  have rest (hcall : ∀ d, e ≠ .call d) : Refines (e.mapArgsM fun a => expr caps d (argContext context a) a)
      (e.mapArgsM fun a => expr caps d' (argContext context a) a) := Defining.refinement.mapArgsM args hcall
  cases e with
  | constraint c =>
    rw [expr, expr]
    refine .bind (Defining.refinement.constraint_mapM args c) fun c => ?_
    split
    · exact .refl _
    · exact .bind (.refl _) fun D => ih.parts context D
  | function g =>
    rw [expr, expr]
    exact .bind (Defining.refinement.function_mapM args g) fun g => .refl _
  | cmp r a b =>
    rw [expr, expr]
    exact ih.comparison context r a b
  | bool _ | int _ | var _ | negVar _ | call _ =>
    rw [expr, expr]
    exact .refl _
  | _ =>
    rw [expr, expr] <;> first | exact rest (by simp) | simp

theorem comparison_deepens (context : Context) (r : Relation) (a b : Expr) :
    Refines (comparison caps (d + 1) context r a b) (comparison caps (d' + 1) context r a b) := by
  rw [comparison, comparison]
  refine .bind (.refl _) fun found? => ?_
  split
  · refine .bind (Defining.refinement.function_mapM (fun a => ih.expr (argContext context a) a) _) fun g => ?_
    exact .bind (ih.expr _ _) fun rhs => .bind (.refl _) fun D => ih.parts context D
  · exact .bind (ih.expr _ a) fun a => .bind (ih.expr _ b) fun b => .refl _

theorem parts_deepens (context : Context) (D : Decomposition) :
    Refines (parts caps (d + 1) context D) (parts caps (d' + 1) context D) := by
  rw [parts, parts]
  exact .bind (Defining.refinement.mapM (ih.expr context) _) fun _ => .refl _

omit ih

theorem deepens (h : d ≤ d') : Deepens caps d d' := by
  induction d generalizing d' with
  | zero => exact {
      expr := fun _ _ => Defining.refines_tooDeep _
      comparison := fun _ _ _ _ => Defining.refines_tooDeep _
      parts := fun _ _ => Defining.refines_tooDeep _ }
  | succ d ih =>
    obtain ⟨d', rfl⟩ := Nat.exists_eq_add_one_of_ne_zero (Nat.ne_of_gt (Nat.zero_lt_of_lt h))
    have ih := ih (Nat.le_of_succ_le_succ h)
    exact { expr := expr_deepens ih, comparison := comparison_deepens ih, parts := parts_deepens ih }

variable (cs : List Expr)

theorem examine_refines (n k : Nat) : (examine caps n cs).Refines (examine caps (n + k) cs) := by
  induction n generalizing cs with
  | zero =>
    cases cs with
    | nil => exact fun _ => .inr (by simp only [examine])
    | cons c cs => exact fun σ => .inl ⟨σ, rfl⟩
  | succ n ih =>
    cases cs with
    | nil => exact fun _ => .inr (by simp only [examine])
    | cons c cs =>
      rw [Nat.succ_add, examine, examine] <;> try simp
      exact Lowering.refinement.bind (Lowering.refinement.refl _) fun p =>
        Lowering.refinement.bind (ih p.2) fun _ => Lowering.refinement.refl _

theorem examineFlat_refines (n k : Nat) : (examineFlat caps n cs).Refines (examineFlat caps (n + k) cs) := by
  induction n generalizing cs with
  | zero =>
    cases cs with
    | nil =>
      refine fun _ => .inr ?_
      cases k <;> rfl
    | cons c cs => exact fun σ => .inl ⟨σ, rfl⟩
  | succ n ih =>
    rw [Nat.succ_add, examineFlat, examineFlat]
    refine Lowering.refinement.bind (Lowering.refinement.mapM (fun e => ?_) cs) fun _ => Lowering.refinement.refl _
    refine Lowering.refinement.bind (Lowering.refinement.refl _) fun es? => ?_
    split
    · exact Lowering.refinement.refl _
    · exact Lowering.refinement.bind (Lowering.refinement.refl _) ih

end Supported

def Lowering.Terminates (x : Lowering α) : Prop := ∀ σ τ, x σ ≠ .error .tooDeep τ

theorem Lowering.Refines.eq_of_terminates {x y : Lowering α} (h : x.Refines y) (hx : x.Terminates) : y = x := by
  funext σ
  rcases h σ with ⟨τ, hτ⟩ | hσ
  · exact absurd hτ (hx σ τ)
  · exact hσ.symm

theorem Defining.Refines.eq_of_terminates {x y : Defining α} (h : x.Refines y)
    (hx : ∀ D, (x.run D).Terminates) : y = x :=
  funext fun D => (h D).eq_of_terminates (hx D)

def Start.anywhere (σ : Store) : Start := ⟨σ, fun _ => True, False, False.elim⟩

theorem Expr.uses_anywhere {σ τ : Store} {e : Expr} : e.Uses ((Start.anywhere σ).Allows τ) := fun _ _ => False.elim

theorem Lowering.Stays.terminates {x : Lowering α} {Q : Store → α → Store → Prop}
    (h : ∀ σ, x.Stays (Start.anywhere σ) σ (Q σ)) : x.Terminates := by
  intro σ τ hτ
  have hrun := h σ (.refl σ)
  rw [hτ] at hrun
  exact hrun.2 rfl

section

variable {caps : Capabilities} {cs : List Expr}

theorem flatten_terminates : (flatten cs).Terminates :=
  Stays.terminates fun _ => flatten_stays (K := greatest (cs.map (Expr.nesting 0))) fun _ hc =>
    Expr.uses_anywhere.sized (le_greatest_map hc)

theorem decomposeTree_terminates : (decomposeTree caps cs).Terminates :=
  Stays.terminates fun _ => decomposeTree_stays fun _ _ => Expr.uses_anywhere

theorem decomposeFlat_terminates : (decomposeFlat caps cs).Terminates :=
  Stays.terminates fun _ => decomposeFlat_stays fun _ _ => Expr.uses_anywhere

theorem Flat.constraint_terminates (e : Expr) (D : Array Expr) : ((constraint (depth e) e).run D).Terminates := by
  refine Stays.terminates fun σ => (Flat.confined (Start.anywhere σ)
    (max (e.nesting 0) (greatest (D.toList.map (Expr.nesting 0)))) _).constraint σ e
      (Expr.uses_anywhere.sized (le_max_left _ _)) ?_ D fun d hd => Expr.uses_anywhere.sized ?_
  · unfold depth
    split <;> omega
  · exact (le_greatest_map hd).trans (le_max_right _ _)

theorem Supported.expr_terminates (context : Context) (e : Expr) (D : Array Expr) :
    ((expr caps (depth e) context e).run D).Terminates := by
  refine Stays.terminates fun σ => (Supported.confined caps (Start.anywhere σ)
    (max (e.nesting 1) (greatest (D.toList.map (Expr.nesting 1)) + 1)) _).expr σ context e
      Expr.uses_anywhere (le_max_left _ _) ?_ D fun d hd => ⟨d.nesting 1, ?_, Expr.uses_anywhere.sized le_rfl⟩
  · unfold depth
    omega
  · have hle : d.nesting 1 ≤ _ := le_greatest_map hd
    exact (Nat.lt_succ_of_le hle).trans_le (le_max_right _ _)

end

/-- Flattening constraints and replacing what a backend does not take reach an
end for all constraints, also for ill-typed ones. The bounds on the recursion
are no restriction: no run reaches them, and larger ones change nothing. -/
theorem rewriting_terminates (caps : Capabilities) (cs : List Expr) :
    (flatten cs).Terminates ∧ (decomposeTree caps cs).Terminates ∧ (decomposeFlat caps cs).Terminates ∧
      (∀ e n, Flat.constraint (Flat.depth e + n) e = Flat.constraint (Flat.depth e) e) ∧
      (∀ context e n, Supported.expr caps (Supported.depth e + n) context e =
        Supported.expr caps (Supported.depth e) context e) ∧
      (∀ n, Supported.examine caps (Supported.rounds cs + n) cs = decomposeTree caps cs) ∧
      ∀ n, Supported.examineFlat caps (Supported.flatRounds cs + n) cs = decomposeFlat caps cs := by
  refine ⟨flatten_terminates, decomposeTree_terminates, decomposeFlat_terminates,
    fun e n => ?_, fun context e n => ?_, fun n => ?_,
    fun n => ?_⟩
  · exact ((Flat.deepens (Nat.le_add_right _ n)).constraint e).eq_of_terminates (Flat.constraint_terminates e)
  · exact ((Supported.deepens (Nat.le_add_right _ n)).expr context e).eq_of_terminates
      (Supported.expr_terminates context e)
  · exact (Supported.examine_refines cs _ n).eq_of_terminates decomposeTree_terminates
  · exact (Supported.examineFlat_refines cs _ n).eq_of_terminates decomposeFlat_terminates

end ConstraintModel
