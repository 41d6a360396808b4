import ConstraintModel.Expr.Bounds
import ConstraintModel.Failure

namespace ConstraintModel

/-- A lowering step extends the store by auxiliary variables. What it has
created before it fails stays in the store. -/
abbrev Lowering := EStateM LoweringError Store

instance : MonadLift Checked Lowering where
  monadLift
    | .ok a => pure a
    | .error _ => throw .overflow

def fresh (bounds : Bounds) (kind : Kind) : Lowering Variable :=
  modifyGet fun s => s.add ⟨bounds, kind, .auxiliary⟩

def freshBool : Lowering Expr := return .var (← fresh .boolean .bool)

def freshBools (n : Nat) : Lowering (List Expr) := (List.replicate n freshBool).mapM id

def freshInt (bounds : Bounds) : Lowering Expr := return .var (← fresh bounds .int)

def freshInts (bounds : Bounds) (n : Nat) : Lowering (List Expr) :=
  (List.replicate n (freshInt bounds)).mapM id

def freshFor (e : Expr) : Lowering Expr := do
  if e.isBool then freshBool else freshInt (← e.bounds)

/-- A lowering step that also collects constraints defining the auxiliary
variables it creates. These can always be posted at the top level. -/
abbrev Defining := StateT (Array Expr) Lowering

def define (e : Expr) : Defining Unit := modify (·.push e)

def defineAll (es : List Expr) : Defining Unit := modify (·.append es.toArray)

def Defining.collect {α : Type} (step : Defining α) : Lowering (α × List Expr) := do
  let (result, definitions) ← step.run #[]
  return (result, definitions.toList)

/-- What a constraint is replaced by: the constraining part takes its place
and the defining part can be posted at the top level. -/
structure Decomposition where
  constraining : List Expr
  defining : List Expr

namespace Decomposition

def toList (d : Decomposition) : List Expr := d.constraining ++ d.defining

def direct (constraining : List Expr) : Decomposition := ⟨constraining, []⟩

end Decomposition

end ConstraintModel
