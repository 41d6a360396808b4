import ConstraintModel.Position

namespace ConstraintModel

namespace Element

def decompose (array : List Expr) (index : Expr) (r : Relation) (rhs : Expr) :
    Checked Decomposition := do
  match index.constant? with
  | some i =>
    return .direct [((entryAt? array i).map fun a => .cmp r a rhs).getD (.bool false)]
  | none =>
    let range ← index.inRange array.length
    let b ← index.bounds
    let reachable := (indexed array).filter fun (i, _) => i ∈ b
    return .direct (range ++ reachable.map fun (i, a) =>
      .implies (.cmp .eq index (.int i)) (.cmp r a rhs))

end Element

def Expr.element (array : List Expr) (index : Expr) : Expr := function (.element array index)

end ConstraintModel
