import ConstraintModel.Function.Counting
import ConstraintModel.Function.Element
import ConstraintModel.Function.Extremum

namespace ConstraintModel

def Function.decompose (g : Function Expr) (r : Relation) (rhs : Expr) : Lowering Decomposition :=
  match g with
  | abs x => Abs.decompose x r rhs
  | minimum as => do Extremum.decompose as (← (Expr.function g).bounds) .le r rhs
  | maximum as => do Extremum.decompose as (← (Expr.function g).bounds) .ge r rhs
  | count as v => return Count.decompose as v r rhs
  | distinct as => Distinct.decompose as r rhs
  | element as i => Element.decompose as i r rhs

end ConstraintModel
