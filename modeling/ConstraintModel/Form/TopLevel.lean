import ConstraintModel.Expr.Basic

namespace ConstraintModel

def Expr.conjuncts : Expr → List Expr
  | bool true => []
  | and as => as.flatMap conjuncts
  | e => [e]
termination_by e => sizeOf e

def topLevel (constraints : List Expr) : List Expr := constraints.flatMap Expr.conjuncts

namespace Expr

@[simp] theorem conjuncts_true : (bool true).conjuncts = [] := by rw [conjuncts]

@[simp] theorem conjuncts_and (as : List Expr) : (and as).conjuncts = as.flatMap conjuncts := by
  rw [conjuncts]

theorem conjuncts_eq {e : Expr} (ht : e ≠ bool true) (ha : ∀ as, e ≠ and as) :
    e.conjuncts = [e] := by
  rw [conjuncts] <;> assumption

end Expr

end ConstraintModel
