import ConstraintModel.Evaluation
import ConstraintModel.Function.Decompose

namespace ConstraintModel

def Function.value : Function (Eval Int) → Eval Int
  | abs a => do Checked.abs (← a)
  | minimum as => do Eval.ofOption (← as.mapM id).min?
  | maximum as => do Eval.ofOption (← as.mapM id).max?
  | count as v => do
    let n ← v
    return Count.value (← as.mapM id) n
  | distinct as => return Distinct.value (← as.mapM id)
  | element as i => do (entryAt? as (← i)).getD failure

end ConstraintModel
