import ConstraintModel.Expr.Build
import ConstraintModel.Lowering

namespace ConstraintModel

namespace Cumulative

def usage (start finish demand : List Int) (time : Int) : Checked Int :=
  Checked.sum (((start.zip (finish.zip demand)).filter fun (s, e, _) => s ≤ time && time < e).map
    fun (_, _, r) => r)

/-- Whether a check succeeds for a number of consecutive times, tried in
order until the first failure. -/
def throughout (check : Int → Checked Bool) (time : Int) : Nat → Checked Bool
  | 0 => return true
  | k + 1 => do
    if ← check time then throughout check (time + 1) k else return false

def consistent (start duration finish : List Int) : Checked Bool :=
  (start.zip (duration.zip finish)).allM fun (s, d, e) => return (← Checked.add s d) == e

def holds (start duration finish demand : List Int) (capacity : Int) : Checked Bool := do
  if ← consistent start duration finish then
    match start.min?, finish.max? with
    | some first, some last =>
      throughout (fun t => return decide ((← usage start finish demand t) ≤ capacity)) first
        (last - first + 1).toNat
    | _, _ => return true
  else
    return false

def runsAt (s e : Expr) (time : Int) : Expr := .and [.cmp .le s (.int time), .cmp .gt e (.int time)]

def decompose (start duration finish demand : List Expr) (capacity : Expr) :
    Checked Decomposition := do
  let first := Bounds.least (← start.mapM Expr.bounds)
  let last := Bounds.greatest (← finish.mapM Expr.bounds)
  let times := match first, last with
    | some lower, some upper => (Bounds.mk lower upper).values
    | _, _ => []
  let ends := (start.zip (duration.zip finish)).map fun (s, d, e) => Expr.cmp .eq (s.plus d) e
  let limits := times.map fun t =>
    Expr.cmp .le
      (.sum ((start.zip (finish.zip demand)).map fun (s, e, r) => .mul r (runsAt s e t))) capacity
  return .direct (ends ++ limits)

end Cumulative

def checkDuration (name : String) (duration : Expr) : Build Unit := do
  if (← duration.bounds).lower < 0 then throw (.negativeDuration name duration)

def Expr.cumulative (start duration finish demand : List Expr) (capacity : Expr) : Build Expr := do
  let demand := match demand with
    | [r] => List.replicate start.length r
    | demand => demand
  checkLength "cumulative" start.length duration.length
  checkLength "cumulative" start.length finish.length
  checkLength "cumulative" start.length demand.length
  duration.forM (checkDuration "cumulative")
  return constraint (.cumulative start duration finish demand capacity)

end ConstraintModel
