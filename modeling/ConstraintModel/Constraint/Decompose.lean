import ConstraintModel.Constraint.Cardinality
import ConstraintModel.Constraint.Cycle
import ConstraintModel.Constraint.Distinct
import ConstraintModel.Constraint.Inverse
import ConstraintModel.Constraint.Logic
import ConstraintModel.Constraint.Membership
import ConstraintModel.Constraint.Schedule

namespace ConstraintModel

def Constraint.decompose : Constraint Expr → Lowering Decomposition
  | allDifferent as => return AllDifferent.decompose as
  | allDifferentExceptZero as => return AllDifferentExceptZero.decompose as
  | allEqual as => return AllEqual.decompose as
  | monotone order as => return order.decompose as
  | circuit succ => Circuit.decompose succ
  | subcircuit succ => Subcircuit.decompose succ
  | subcircuitThrough succ start => return Subcircuit.decomposeThrough succ start
  | inverse fs bs => Inverse.decompose fs bs
  | cumulative ss ds es rs capacity => Cumulative.decompose ss ds es rs capacity
  | cardinality xs vs ns => return Cardinality.decompose xs vs ns
  | table xs rows => return Table.decompose xs rows
  | memberOfSet a set => Member.decomposeSet a set
  | memberOfList a vs => Member.decomposeList a vs
  | xor as => return Xor.decompose as
  | ifThenElse c t e => return IfThenElse.decompose c t e

end ConstraintModel
