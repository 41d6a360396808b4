import ConstraintModel.Expr.Build
import ConstraintModel.Lowering

namespace ConstraintModel

namespace Abs

def decompose (x : Expr) (r : Relation) (rhs : Expr) : Lowering Decomposition := do
  let b ← x.bounds
  if 0 ≤ b.lower then
    return .direct [.cmp r x rhs]
  else if b.upper ≤ 0 then
    return .direct [.cmp r (← x.minus) rhs]
  else
    let y ← freshInt (← b.abs)
    return ⟨[.cmp r y rhs],
      [.implies (.cmp .ge x (.int 0)) (.cmp .eq x y),
        .implies (.cmp .lt x (.int 0)) (.cmp .eq (← x.minus) y)]⟩

end Abs

namespace Extremum

def decompose (args : List Expr) (b : Bounds) (side r : Relation) (rhs : Expr) :
    Lowering Decomposition := do
  let y ← freshInt b
  return ⟨[.cmp r y rhs],
    [.all (args.map fun a => .cmp side y a), .any (args.map fun a => .cmp .eq y a)]⟩

end Extremum

namespace Expr

def abs (x : Expr) : Expr := function (.abs x)

def checkExtremum (name : String) (args : List Expr) : Build Unit := do
  checkInteger name args
  checkCount name 1 args.length

def minimum (args : List Expr) : Build Expr := do
  checkExtremum "min" args
  return function (.minimum args)

def maximum (args : List Expr) : Build Expr := do
  checkExtremum "max" args
  return function (.maximum args)

end Expr

end ConstraintModel
