import ConstraintModel.Expr.Build
import ConstraintModel.Lowering

namespace ConstraintModel

namespace Cardinality

def holds (vars vals occurrences : List Int) : Bool :=
  (vals.zip occurrences).all fun (v, n) => (vars.count v : Int) == n

def decompose (vars vals occurrences : List Expr) : Decomposition :=
  .direct ((vals.zip occurrences).map fun (v, n) => .cmp .eq (.function (.count vars v)) n)

end Cardinality

def Expr.cardinality (vars vals occurrences : List Expr) : Build Expr := do
  checkInteger "gcc" vars
  checkInteger "gcc" vals
  checkInteger "gcc" occurrences
  checkLength "gcc" vals.length occurrences.length
  return constraint (.cardinality vars vals occurrences)

end ConstraintModel
