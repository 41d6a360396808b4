import ConstraintModel.Expr.Build
import ConstraintModel.Lowering

namespace ConstraintModel

namespace Table

def holds (values : List Int) (rows : List (List Int)) : Bool := rows.contains values

def decompose (vars : List Expr) (rows : List (List Int)) : Decomposition :=
  .direct [.any (rows.map fun row => .all ((vars.zip row).map fun (x, n) => .cmp .eq x (.int n)))]

end Table

namespace Member

def target (arg : Expr) : Lowering (Expr × List Expr) := do
  if arg.isSimple then
    return (arg, [])
  else
    let x ← freshFor arg
    return (x, [.cmp .eq x arg])

def decomposeSet (arg : Expr) (set : IntervalSet) : Lowering Decomposition := do
  let (x, defining) ← target arg
  let excluded := (← x.bounds).values.filter fun n => !set.contains n
  return ⟨excluded.map fun n => .cmp .ne x (.int n), defining⟩

def decomposeList (arg : Expr) (values : List Expr) : Lowering Decomposition := do
  let (x, defining) ← target arg
  return ⟨[.any (values.map fun a => .cmp .eq x a)], defining⟩

end Member

namespace Expr

def table (vars : List Expr) (rows : List (List Int)) : Build Expr := do
  match rows.find? fun row => row.length != vars.length with
  | some row => throw (.lengthMismatch "table" vars.length row.length)
  | none => return constraint (.table vars rows)

def memberOfSet (arg : Expr) (set : IntervalSet) : Expr := constraint (.memberOfSet arg set)

def memberOf (arg : Expr) (values : List Expr) : Checked Expr :=
  match values.mapM constant? with
  | some ns => return memberOfSet arg (← IntervalSet.ofValues ns)
  | none => return constraint (.memberOfList arg values)

end Expr

end ConstraintModel
