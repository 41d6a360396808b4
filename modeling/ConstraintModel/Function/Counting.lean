import ConstraintModel.Lowering

namespace ConstraintModel

namespace Count

def value (array : List Int) (n : Int) : Int := array.count n

def decompose (array : List Expr) (value : Expr) (r : Relation) (rhs : Expr) : Decomposition :=
  .direct [.cmp r (.sum (array.map fun a => .cmp .eq a value)) rhs]

end Count

namespace Distinct

def value (array : List Int) : Int := array.eraseDups.length

def decompose (array : List Expr) (r : Relation) (rhs : Expr) : Checked Decomposition := do
  let hull := Bounds.hull? (← array.mapM Expr.bounds)
  let values := hull.elim [] Bounds.values
  return .direct [.cmp r
    (.sum (values.map fun n => .any (array.map fun a => .cmp .eq a (.int n)))) rhs]

end Distinct

namespace Expr

def count (array : List Expr) (value : Expr) : Expr := function (.count array value)

def distinct (array : List Expr) : Expr := function (.distinct array)

end Expr

end ConstraintModel
