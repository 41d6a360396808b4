import ConstraintModel.Expr.Basic

namespace ConstraintModel.Expr

/-- The negation of a Boolean expression is pushed through connectives into
comparisons and literals. What cannot take it in is wrapped by it. -/
def negated : Expr → Expr
  | bool b => bool !b
  | var x => if x.isBool then negVar x else not (var x)
  | negVar x => var x
  | cmp r a b => cmp r.negated a b
  | and as => or (as.map negated)
  | or as => and (as.map negated)
  | implies a b => and [a, b.negated]
  | not a => a
  | e => not e
termination_by e => sizeOf e

end ConstraintModel.Expr
