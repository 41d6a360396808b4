import ConstraintModel.Failure

namespace ConstraintModel

abbrev Build := Except ModelError

instance : MonadLift Checked Build where
  monadLift
    | .ok a => .ok a
    | .error _ => .error .overflow

def checkBoolean (name : String) (args : List Expr) : Build Unit :=
  match args.find? fun a => !a.isBool with
  | some a => .error (.nonBooleanArgument name a)
  | none => .ok ()

def checkInteger (name : String) (args : List Expr) : Build Unit :=
  match args.find? Expr.isBool with
  | some a => .error (.nonIntegerArgument name a)
  | none => .ok ()

def checkLength (name : String) (expected found : Nat) : Build Unit :=
  if expected = found then .ok () else .error (.lengthMismatch name expected found)

def checkCount (name : String) (least found : Nat) : Build Unit :=
  if least ≤ found then .ok () else .error (.tooFewArguments name least found)

def Expr.weighted (weights : List Int) (args : List Expr) : Build Expr := do
  checkLength "wsum" weights.length args.length
  return wsum (weights.zip args)

end ConstraintModel
