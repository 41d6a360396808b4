import ConstraintModel.Expr.Equality
import ConstraintModel.Lowering

namespace ConstraintModel

namespace Positive

abbrev Views := List (Variable × Expr)

abbrev Replacing := StateT Views Lowering

def positive (e : Expr) : Replacing Expr := do
  match e with
  | .negVar x =>
    match (← get).lookup x with
    | some y => return y
    | none => do
      let y ← freshBool
      modify (· ++ [(x, y)])
      return y
  | e => return e

def isView : Expr → Bool
  | .negVar _ => true
  | _ => false

/-- Replaces the views in a sum by their variables with opposite weights, and
adds up the weights of the views. -/
def straighten (terms : List (Int × Expr)) : Checked (List (Int × Expr) × Int) := do
  let straight ← terms.mapM fun (w, a) =>
    match a with
    | .negVar x => return (← Checked.neg w, .var x)
    | a => return (w, a)
  return (straight, ← Checked.sum ((terms.filter fun t => isView t.2).map Prod.fst))

def sum (r : Relation) (terms : List (Int × Expr)) (b : Expr) : Replacing Expr := do
  let (terms, offset) ← straighten terms
  match b.constant? with
  | some k => return .cmp r (.wsum terms) (.int (← Checked.sub k offset))
  | none => do
    let b ← positive b
    return .cmp r (.wsum (terms ++ [(-1, b)])) (.int (← Checked.neg offset))

def comparison (r : Relation) (a b : Expr) : Replacing Expr := do
  let replaced : Replacing Expr := do
    let a ← a.mapArgsM positive
    return .cmp r a (← positive b)
  match a with
  | .negVar _ => sum r [(1, a)] b
  | .sum as => if as.any isView then sum r (as.map (1, ·)) b else replaced
  | .wsum ts => sum r ts b
  | _ => replaced

def constraint (e : Expr) : Replacing Expr :=
  match e with
  | .bool _ | .call _ => return e
  | .cmp r a b => comparison r a b
  | .implies l a => do
    let l ← positive l
    return .implies l (← constraint a)
  | .constraint c => return .constraint (← c.mapM positive)
  | _ => throw (.unsupported e)

def definition (x : Variable) (y : Expr) : Expr := .cmp .eq (.sum [.var x, y]) (.int 1)

end Positive

/-- Removes the negated views from linear constraints. The definitions of the
variables that replace views come last. -/
def removeViews (constraints : List Expr) : Lowering (List Expr) := do
  let (positive, views) ← (constraints.mapM Positive.constraint).run []
  return positive ++ views.map fun (x, y) => Positive.definition x y

end ConstraintModel
