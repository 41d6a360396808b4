import ConstraintModel.Expr.Build
import ConstraintModel.Position

namespace ConstraintModel

namespace Inverse

def holds (forward backward : List Int) : Bool :=
  (indexed forward).all fun (i, x) => entryAt? backward x == some i

/-- The range of the entry is required along with the element function, so
that the channel is defined for all values of the entry. -/
def channel (backward : List Expr) (i : Int) (x : Expr) : Checked Expr :=
  match x.constant? with
  | some c =>
    return match entryAt? backward c with
      | some y => .cmp .eq y (.int i)
      | none => .bool false
  | none =>
    return .all ((← x.inRange backward.length) ++
      [.cmp .eq (.function (.element backward x)) (.int i)])

def decompose (forward backward : List Expr) : Checked Decomposition :=
  return .direct [.all (← (indexed forward).mapM fun (i, x) => channel backward i x)]

end Inverse

def Expr.inverse (forward backward : List Expr) : Build Expr := do
  checkInteger "inverse" forward
  checkInteger "inverse" backward
  checkLength "inverse" forward.length backward.length
  return constraint (.inverse forward backward)

end ConstraintModel
