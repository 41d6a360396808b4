import ConstraintModel.Form.Flat

namespace ConstraintModel

namespace Guarded

/-- Whether an expression is a reification that can be split. The negation of
a global constraint or a call cannot be expressed. -/
def isSplit (a l : Expr) : Bool :=
  match a with
  | .constraint _ | .call _ => false
  | a => a.isBool && !a.isLiteral && l.isLiteral

def halves (a l : Expr) : List Expr := [.implies l a, .implies l.negated a.negated]

def constraint (e : Expr) : Lowering (List Expr) :=
  match e with
  | .cmp .eq a l => if isSplit a l then flatten (halves a l) else return [e]
  | e => return [e]

end Guarded

def splitReifications (constraints : List Expr) : Lowering (List Expr) :=
  return (← constraints.mapM Guarded.constraint).flatten

end ConstraintModel
