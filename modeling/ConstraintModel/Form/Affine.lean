import ConstraintModel.Expr.Basic

namespace ConstraintModel

structure Affine where
  terms : Array (Int × Expr)
  constant : Int

namespace Affine

def zero : Affine := ⟨#[], 0⟩

def addConstant (f : Affine) (n : Int) : Checked Affine :=
  return { f with constant := ← Checked.add f.constant n }

def addTerm (f : Affine) (w : Int) (e : Expr) : Affine :=
  if w = 0 then f else { f with terms := f.terms.push (w, e) }

def addMultiple (f : Affine) (w : Int) (e : Expr) : Checked Affine :=
  match e.constant? with
  | some n => do f.addConstant (← Checked.mul w n)
  | none => return f.addTerm w e

def toExpr (f : Affine) : Expr :=
  let rest := if f.constant = 0 then [] else [(1, .int f.constant)]
  let terms := f.terms.toList ++ rest
  if f.terms.isEmpty then .int f.constant
  else if terms.all fun t => t.1 == 1 then
    match terms with
    | [(_, e)] => e
    | terms => .sum (terms.map Prod.snd)
  else .wsum terms

end Affine

end ConstraintModel
