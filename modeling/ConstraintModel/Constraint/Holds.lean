import ConstraintModel.Constraint.Decompose
import ConstraintModel.Evaluation

namespace ConstraintModel

def Constraint.holds : Constraint (Eval Int) → Eval Bool
  | allDifferent as => return AllDifferent.holds (← as.mapM id)
  | allDifferentExceptZero as => return AllDifferentExceptZero.holds (← as.mapM id)
  | allEqual as => return AllEqual.holds (← as.mapM id)
  | monotone order as => return order.holds (← as.mapM id)
  | circuit succ => return Circuit.holds (← succ.mapM id)
  | subcircuit succ => return Subcircuit.holds (← succ.mapM id)
  | subcircuitThrough succ start => do
    let first ← (succ[start]?).getD failure
    return Subcircuit.holds (← succ.mapM id) && first != start
  | inverse fs bs => return Inverse.holds (← fs.mapM id) (← bs.mapM id)
  | cumulative ss ds es rs capacity => do
    Cumulative.holds (← ss.mapM id) (← ds.mapM id) (← es.mapM id) (← rs.mapM id) (← capacity)
  | cardinality xs vs ns =>
    return Cardinality.holds (← xs.mapM id) (← vs.mapM id) (← ns.mapM id)
  | table xs rows => return Table.holds (← xs.mapM id) rows
  | memberOfSet a set => return set.contains (← a)
  | memberOfList a vs => do
    let n ← a
    return (← vs.mapM id).contains n
  | xor as => do Xor.holds (← as.mapM id)
  | ifThenElse c t e => do if ← c.isTrue then t.isTrue else e.isTrue

end ConstraintModel
