import ConstraintModel.Expr.Build
import ConstraintModel.Form.Linear
import ConstraintModel.Form.Positive
import ConstraintModel.Form.Supported

namespace ConstraintModel

/-- Whether constraints are decomposed before they are flattened or, at the
cost of further variables, only afterwards. -/
inductive Strategy where
  | tree | flat
  deriving DecidableEq, Repr

structure Model where
  store : Store
  constraints : List Expr

namespace Model

def empty : Model := ⟨.empty, []⟩

def post (m : Model) (e : Expr) : Model := { m with constraints := m.constraints ++ [e] }

def addBool (m : Model) : Variable × Model :=
  let (x, store) := m.store.add ⟨.boolean, .bool, .user⟩
  (x, { m with store })

def addInt (m : Model) (domain : Bounds) : Build (Variable × Model) :=
  if domain.upper < domain.lower then
    throw (.emptyDomain domain)
  else
    let (x, store) := m.store.add ⟨domain, .int, .user⟩
    return (x, { m with store })

def toPrimitive (m : Model) (caps : Capabilities) (strategy : Strategy) :
    Lowering (List Expr) := do
  let constraints := topLevel m.constraints
  let flat ←
    match strategy with
    | .tree => do flatten (← decomposeTree caps constraints)
    | .flat => flatten constraints
  decomposeFlat caps flat

def toLinear (m : Model) (caps : Capabilities) : Lowering (List Expr) := do
  let flat ← m.toPrimitive caps .tree
  removeViews (← linearize caps (← splitReifications flat))

end Model

end ConstraintModel
