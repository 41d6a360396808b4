import ConstraintModel.Expr.Build
import ConstraintModel.Expr.Negation
import ConstraintModel.Lowering

namespace ConstraintModel

namespace Xor

def holds (values : List Int) : Checked Bool := return (← Checked.sum values).tmod 2 == 1

def decompose (args : List Expr) : Decomposition :=
  .direct [(args.drop 2).foldl (fun acc a => .cmp .eq (.sum [acc, a]) (.int 1))
    (.cmp .eq (.sum (args.take 2)) (.int 1))]

end Xor

namespace IfThenElse

def decompose (condition ifTrue ifFalse : Expr) : Decomposition :=
  .direct [.implies condition ifTrue, .implies condition.negated ifFalse]

end IfThenElse

namespace Expr

/-- A constant comes first when there are two arguments. -/
def xor (args : List Expr) : Build Expr := do
  checkBoolean "xor" args
  match args with
  | [a, b] =>
    if b.isConstant && !a.isConstant then return constraint (.xor [b, a])
    else return constraint (.xor [a, b])
  | args => return constraint (.xor args)

def ifThenElse (condition ifTrue ifFalse : Expr) : Build Expr := do
  checkBoolean "ite" [condition, ifTrue, ifFalse]
  return constraint (.ifThenElse condition ifTrue ifFalse)

end Expr

end ConstraintModel
