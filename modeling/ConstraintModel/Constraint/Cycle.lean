import ConstraintModel.Expr.Build
import ConstraintModel.Position

namespace ConstraintModel

/-- The successor of a node, where a value in the hull that is no position is
its own successor. The element function in it is total on the hull. -/
def successor (succ : List Expr) (hull : Bounds) (node : Expr) : Expr :=
  .function (.element (hull.values.map fun p => (entryAt? succ p).getD (.int p))
    (if hull.lower = 0 then node else .sub node (.int hull.lower)))

def successorsInRange (succ : List Expr) : Checked (List Expr) :=
  return (← succ.mapM fun s => s.inRange succ.length).flatten

def hullWith (args : List Expr) (b : Bounds) : Checked Bounds :=
  return (← args.mapM Expr.bounds).foldl .union b

def chain (succ : List Expr) (hull : Bounds) (nodes : List Expr) : List Expr :=
  (neighbours nodes).map fun (a, b) => .cmp .eq b (successor succ hull a)

namespace Circuit

/-- Whether following the successors from a node reaches position 0 after
exactly the given number of steps, and not before. -/
def closesAfter (succ : List Int) : Nat → Int → Bool
  | 0, _ => false
  | k + 1, node =>
    match entryAt? succ node with
    | none => false
    | some next => if next = 0 then k = 0 else closesAfter succ k next

def holds (succ : List Int) : Bool := closesAfter succ succ.length 0

def decompose (succ : List Expr) : Lowering Decomposition := do
  let hull ← hullWith succ (.point 0)
  let order ← freshInts hull succ.length
  let first := (order.zip succ).head?.toList.map fun (o, s) => .cmp .eq o s
  let last := order.getLast?.toList.map fun o => .cmp .eq o (.int 0)
  return {
    constraining := (← successorsInRange succ) ++
      [.constraint (.allDifferent succ), .constraint (.allDifferent order)] ++ last
    defining := first ++ chain succ hull order }

end Circuit

namespace Subcircuit

/-- The nodes that are visited when the successors are followed from a start
back to it, unless another node comes up twice or there is no successor. -/
def cycle (succ : List Int) (start : Int) : Nat → Int → List Int → Option (List Int)
  | 0, _, _ => none
  | k + 1, node, visited =>
    match entryAt? succ node with
    | none => none
    | some next =>
      if next = start then some visited
      else if next ∈ visited then none
      else cycle succ start k next (next :: visited)

def holds (succ : List Int) : Bool :=
  match (indexed succ).find? fun (i, s) => s ≠ i with
  | none => true
  | some (start, _) =>
    decide succ.Nodup &&
      match cycle succ start (succ.length + 1) start [start] with
      | none => false
      | some visited => (indexed succ).all fun (i, s) => decide (i ∈ visited) || s == i

def candidates (succ : List Expr) : List Expr :=
  (indexed succ).map fun (i, s) =>
    .plus (.mul (.int (succ.length - i)) (.cmp .eq s (.int i))) (.int i)

/-- The cycle is followed from its smallest position, or from one past the
last position if there is no cycle. -/
def decompose (succ : List Expr) : Lowering Decomposition := do
  let hull ← hullWith succ ⟨0, succ.length⟩
  let start ← freshInt ⟨0, succ.length⟩
  let visits ← freshInts hull succ.length
  let first := visits.head?.toList.map fun v => .cmp .eq v start
  let onCycle := (indexed succ).map fun (i, s) =>
    .implies (.cmp .ne s (.int i)) (.any (visits.map fun v => .cmp .eq v (.int i)))
  return {
    constraining := (← successorsInRange succ) ++ [.constraint (.allDifferent succ)] ++ onCycle
    defining := .cmp .eq start (.function (.minimum (candidates succ))) ::
      first ++ chain succ hull visits }

def decomposeThrough (succ : List Expr) (start : Nat) : Decomposition :=
  .direct (.constraint (.subcircuit succ) ::
    succ[start]?.toList.map fun s => .cmp .ne s (.int start))

end Subcircuit

namespace Expr

def checkSuccessors (name : String) (succ : List Expr) : Build Unit := do
  checkInteger name succ
  checkCount name 2 succ.length

def circuit (succ : List Expr) : Build Expr := do
  checkSuccessors "circuit" succ
  return constraint (.circuit succ)

def subcircuit (succ : List Expr) : Build Expr := do
  checkSuccessors "subcircuit" succ
  return constraint (.subcircuit succ)

def subcircuitThrough (succ : List Expr) (start : Nat) : Build Expr := do
  checkSuccessors "subcircuitwithstart" succ
  if start < succ.length then
    return constraint (.subcircuitThrough succ start)
  else
    throw (.indexOutOfRange "subcircuitwithstart" start succ.length)

end Expr

end ConstraintModel
