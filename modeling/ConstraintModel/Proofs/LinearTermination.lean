import ConstraintModel.Proofs.Sessions
import ConstraintModel.Proofs.Termination

namespace ConstraintModel

open Lowering (Stays)

variable {caps : Capabilities}

namespace Linear

open Defining (Refines)

structure Deepens (caps : Capabilities) (d d' : Nat) : Prop where
  constraint (reified : Bool) (e : Expr) : Refines (constraint caps d reified e) (constraint caps d' reified e)
  implication (l a : Expr) : Refines (implication caps d l a) (implication caps d' l a)
  guarded (l a : Expr) : Refines (guarded caps d l a) (guarded caps d' l a)
  comparison (reified : Bool) (r : Relation) (a b : Expr) :
    Refines (comparison caps d reified r a b) (comparison caps d' reified r a b)
  sum (reified : Bool) (r : Relation) (ts : List (Int × Expr)) (b : Expr) :
    Refines (sum caps d reified r ts b) (sum caps d' reified r ts b)
  relation (reified : Bool) (r : Relation) (a b : Expr) :
    Refines (relation caps d reified r a b) (relation caps d' reified r a b)
  strict (reified : Bool) (r : Relation) (delta : Int) (a b : Expr) :
    Refines (strict caps d reified r delta a b) (strict caps d' reified r delta a b)
  bigM (a b : Expr) : Refines (bigM caps d a b) (bigM caps d' a b)
  termsOf (a : Expr) : Refines (termsOf caps d a) (termsOf caps d' a)
  functionComparison (reified : Bool) (g : Function Expr) (r : Relation) (b : Expr) :
    Refines (functionComparison caps d reified g r b) (functionComparison caps d' reified g r b)
  element (as : List Expr) (i : Expr) (r : Relation) (b : Expr) :
    Refines (element caps d as i r b) (element caps d' as i r b)
  allDifferent (as : List Expr) : Refines (allDifferent caps d as) (allDifferent caps d' as)
  reformulate (cs : List Expr) : Refines (reformulate caps d cs) (reformulate caps d' cs)

variable {d d' : Nat} (ih : Deepens caps d d')

include ih

theorem constraint_deepens (reified : Bool) (e : Expr) :
    Refines (constraint caps (d + 1) reified e) (constraint caps (d' + 1) reified e) := by
  cases e with
  | and as | or as =>
    rw [constraint, constraint]
    exact ih.comparison reified .ge (.sum as) _
  | implies l a =>
    rw [constraint, constraint]
    split
    · exact .refl _
    · exact ih.implication l a
  | cmp r a b =>
    rw [constraint, constraint]
    exact ih.comparison reified r a b
  | constraint c =>
    unfold constraint
    dsimp only
    split
    · exact .refl _
    · split
      · split
        · exact .refl _
        · exact ih.allDifferent _
      · exact .refl _
  | bool _ | int _ | var _ | negVar _ | not _ | sum _ | wsum _ | sub _ _ | mul _ _ | neg _ | function _ | call _ =>
    rw [constraint, constraint]
    exact .refl _

theorem implication_deepens (l a : Expr) :
    Refines (implication caps (d + 1) l a) (implication caps (d' + 1) l a) := by
  rw [implication, implication]
  split
  · exact .refl _
  · split
    · exact ih.constraint false _
    · split
      · exact .bind (.refl _) fun _ => ih.reformulate _
      · exact ih.guarded l a

theorem guarded_deepens (l a : Expr) : Refines (guarded caps (d + 1) l a) (guarded caps (d' + 1) l a) := by
  rw [guarded, guarded]
  refine (ih.constraint true a).bind fun es => ?_
  split
  · exact ih.constraint false _
  · exact .refl _

theorem comparison_deepens (reified : Bool) (r : Relation) (a b : Expr) :
    Refines (comparison caps (d + 1) reified r a b) (comparison caps (d' + 1) reified r a b) := by
  unfold comparison
  split
  · exact .refl _
  · exact ih.comparison reified r.converse b a
  · split
    · exact .refl _
    · have reference (a : Expr) : Refines
          (if b.isConstant then relation caps d reified r a b else sum caps d reified r [(1, a)] b)
          (if b.isConstant then relation caps d' reified r a b else sum caps d' reified r [(1, a)] b) := by
        split
        · exact ih.relation reified r a b
        · exact ih.sum reified r [(1, a)] b
      split
      · exact reference _
      · exact reference _
      · split
        · exact ih.relation reified r _ b
        · exact ih.functionComparison reified _ r b
      · split
        · exact ih.sum reified r _ b
        · split
          · exact ih.relation reified r _ b
          · exact .refl _

theorem sum_deepens (reified : Bool) (r : Relation) (ts : List (Int × Expr)) (b : Expr) :
    Refines (sum caps (d + 1) reified r ts b) (sum caps (d' + 1) reified r ts b) := by
  rw [sum, sum]
  refine .bind (.refl _) fun p => ?_
  dsimp only
  split
  · exact .refl _
  · exact ih.relation reified r _ _

theorem relation_deepens (reified : Bool) (r : Relation) (a b : Expr) :
    Refines (relation caps (d + 1) reified r a b) (relation caps (d' + 1) reified r a b) := by
  cases r with
  | eq | le | ge =>
    rw [relation, relation]
    exact .refl _
  | lt =>
    rw [relation, relation]
    exact ih.strict reified .le (-1) a b
  | gt =>
    rw [relation, relation]
    exact ih.strict reified .ge 1 a b
  | ne =>
    rw [relation, relation]
    split
    · exact ih.bigM a b
    · exact .bind (.refl _) fun z => (ih.implication z _).bind fun _ =>
        (ih.implication z.negated _).bind fun _ => .refl _

theorem strict_deepens (reified : Bool) (r : Relation) (delta : Int) (a b : Expr) :
    Refines (strict caps (d + 1) reified r delta a b) (strict caps (d' + 1) reified r delta a b) := by
  rw [strict, strict]
  split
  · exact .bind (.refl _) fun _ => ih.comparison reified r a _
  · refine .bind (.refl _) fun range => .bind (.refl _) fun shifted => .bind (.refl _) fun x => ?_
    exact (ih.comparison false .eq _ _).bind fun _ => .bind (.refl _) fun _ => ih.comparison reified r a x

theorem bigM_deepens (a b : Expr) : Refines (bigM caps (d + 1) a b) (bigM caps (d' + 1) a b) := by
  rw [bigM, bigM]
  exact (ih.termsOf a).bind fun _ => .refl _

theorem termsOf_deepens (a : Expr) : Refines (termsOf caps (d + 1) a) (termsOf caps (d' + 1) a) := by
  rw [termsOf, termsOf]
  split
  · exact .refl _
  · split
    · exact .refl _
    · exact .bind (.refl _) fun _ => .bind (.refl _) fun x => .bind (.refl _) fun total =>
        (ih.comparison false .eq a x).bind fun _ => .refl _

theorem functionComparison_deepens (reified : Bool) (g : Function Expr) (r : Relation) (b : Expr) :
    Refines (functionComparison caps (d + 1) reified g r b) (functionComparison caps (d' + 1) reified g r b) := by
  unfold functionComparison
  split
  · exact .refl _
  · split
    · exact ih.element _ _ r b
    · exact .bind (.refl _) fun _ => ih.reformulate _

theorem element_deepens (as : List Expr) (i : Expr) (r : Relation) (b : Expr) :
    Refines (element caps (d + 1) as i r b) (element caps (d' + 1) as i r b) := by
  rw [element, element]
  refine .bind (.refl _) fun is => (ih.comparison false .eq _ _).bind fun one => ?_
  refine (ih.comparison false .eq _ i).bind fun position => ?_
  exact .bind (Defining.refinement.mapM (fun p : Expr × Expr => ih.implication p.1 (.cmp r p.2 b)) _) fun _ => .refl _

theorem allDifferent_deepens (as : List Expr) :
    Refines (allDifferent caps (d + 1) as) (allDifferent caps (d' + 1) as) := by
  rw [allDifferent, allDifferent]
  refine .bind (.refl _) fun bs => ?_
  split
  · exact .refl _
  · refine .bind (.refl _) fun rows => .bind (Defining.refinement.mapM (fun p => ?_) _) fun assigned => ?_
    · exact (ih.comparison false .eq _ _).bind fun _ => (ih.comparison false .eq _ _).bind fun _ => .refl _
    · exact .bind (Defining.refinement.mapM (fun _ => ih.comparison false .le _ _) _) fun _ => .refl _

theorem reformulate_deepens (cs : List Expr) :
    Refines (reformulate caps (d + 1) cs) (reformulate caps (d' + 1) cs) := by
  rw [reformulate, reformulate]
  exact .bind (.refl _) fun _ => .bind (.refl _) fun guarded =>
    .bind (Defining.refinement.mapM (ih.constraint false) guarded) fun _ => .refl _

omit ih

theorem deepens (h : d ≤ d') : Deepens caps d d' := by
  induction d generalizing d' with
  | zero => exact {
      constraint := fun _ _ => Defining.refines_tooDeep _
      implication := fun _ _ => Defining.refines_tooDeep _
      guarded := fun _ _ => Defining.refines_tooDeep _
      comparison := fun _ _ _ _ => Defining.refines_tooDeep _
      sum := fun _ _ _ _ => Defining.refines_tooDeep _
      relation := fun _ _ _ _ => Defining.refines_tooDeep _
      strict := fun _ _ _ _ _ => Defining.refines_tooDeep _
      bigM := fun _ _ => Defining.refines_tooDeep _
      termsOf := fun _ => Defining.refines_tooDeep _
      functionComparison := fun _ _ _ _ => Defining.refines_tooDeep _
      element := fun _ _ _ _ => Defining.refines_tooDeep _
      allDifferent := fun _ => Defining.refines_tooDeep _
      reformulate := fun _ => Defining.refines_tooDeep _ }
  | succ d ih =>
    obtain ⟨d', rfl⟩ := Nat.exists_eq_add_one_of_ne_zero (Nat.ne_of_gt (Nat.zero_lt_of_lt h))
    have ih := ih (Nat.le_of_succ_le_succ h)
    exact {
      constraint := constraint_deepens ih
      implication := implication_deepens ih
      guarded := guarded_deepens ih
      comparison := comparison_deepens ih
      sum := sum_deepens ih
      relation := relation_deepens ih
      strict := strict_deepens ih
      bigM := bigM_deepens ih
      termsOf := termsOf_deepens ih
      functionComparison := functionComparison_deepens ih
      element := element_deepens ih
      allDifferent := allDifferent_deepens ih
      reformulate := reformulate_deepens ih }

theorem constraint_terminates (e : Expr) (D : Array Expr) : ((constraint caps (depth e) false e).run D).Terminates := by
  refine Stays.terminates fun σ => (confined caps (Start.anywhere σ) _).constraint σ false e Expr.uses_anywhere ?_ D
    fun _ _ => Expr.uses_anywhere
  refine constraintDepth_le.trans ?_
  unfold depth
  omega

end Linear

/-- No pass ends because its recursion is too deep, whatever it is run on. -/
theorem Pass.run_terminates (p : Pass) (m : Model) : (p.run m).Terminates :=
  Stays.terminates fun _ => Pass.run_keeps fun _ _ => Expr.uses_anywhere

/-- The bound on the recursion is no restriction for linearizing either, also
when the constraints are not flat. -/
theorem linearizing_terminates (caps : Capabilities) (cs : List Expr) : (linearize caps cs).Terminates ∧
    ∀ e n, Linear.constraint caps (Linear.depth e + n) false e = Linear.constraint caps (Linear.depth e) false e :=
  ⟨Stays.terminates fun _ => linearize_keeps fun _ _ => Expr.uses_anywhere, fun e n =>
    ((Linear.deepens (Nat.le_add_right _ n)).constraint false e).eq_of_terminates (Linear.constraint_terminates e)⟩

end ConstraintModel
