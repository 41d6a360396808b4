import ConstraintModel.Position

namespace ConstraintModel

namespace AllDifferent

def holds (values : List Int) : Bool := decide values.Nodup

def decompose (args : List Expr) : Decomposition :=
  .direct ((pairs args).map fun (a, b) => .cmp .ne a b)

end AllDifferent

namespace AllDifferentExceptZero

def holds (values : List Int) : Bool := decide (values.filter (· ≠ 0)).Nodup

def decompose (args : List Expr) : Decomposition :=
  .direct ((pairs args).map fun (a, b) => .implies (.cmp .eq a b) (.cmp .eq a (.int 0)))

end AllDifferentExceptZero

namespace AllEqual

def holds (values : List Int) : Bool := (neighbours values).all fun (a, b) => a == b

def decompose (args : List Expr) : Decomposition :=
  .direct ((neighbours args).map fun (a, b) => .cmp .eq a b)

end AllEqual

namespace Monotonicity

def holds (order : Monotonicity) (values : List Int) : Bool :=
  (neighbours values).all fun (a, b) => order.relation.holds a b

def decompose (order : Monotonicity) (args : List Expr) : Decomposition :=
  .direct ((neighbours args).map fun (a, b) => .cmp order.relation a b)

end Monotonicity

namespace Expr

def allDifferent (args : List Expr) : Expr := constraint (.allDifferent args)

def allDifferentExceptZero (args : List Expr) : Expr := constraint (.allDifferentExceptZero args)

def allEqual (args : List Expr) : Expr := constraint (.allEqual args)

def monotone (order : Monotonicity) (args : List Expr) : Expr := constraint (.monotone order args)

end Expr

end ConstraintModel
