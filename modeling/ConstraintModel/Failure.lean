import ConstraintModel.Expr.Text

namespace ConstraintModel

inductive ModelError where
  | emptyDomain (domain : Bounds)
  | indexOutOfRange (name : String) (index length : Nat)
  | lengthMismatch (name : String) (expected found : Nat)
  | negativeDuration (name : String) (arg : Expr)
  | nonBooleanArgument (name : String) (arg : Expr)
  | nonIntegerArgument (name : String) (arg : Expr)
  | tooFewArguments (name : String) (least found : Nat)
  | overflow

/-- Why a list of constraints cannot be brought into a form. The last cause
does not arise from the bounds on the depth that the passes compute. -/
inductive LoweringError where
  | noDecomposition (e : Expr)
  | unsupported (e : Expr)
  | overflow
  | tooDeep

def ModelError.message : ModelError → String
  | emptyDomain d =>
    "cannot create a variable with the empty domain " ++ toString d.lower ++ "..=" ++
      toString d.upper
  | indexOutOfRange name index length =>
    name ++ " expects an index in the range 0.." ++ toString length ++ ", but was given " ++
      toString index
  | lengthMismatch name expected found =>
    name ++ " expects " ++ toString expected ++ " elements, but was given " ++ toString found
  | negativeDuration name arg =>
    name ++ " requires non-negative durations, but `" ++ arg.text ++ "` can be negative"
  | nonBooleanArgument name arg =>
    name ++ " only accepts Boolean arguments, but was given `" ++ arg.text ++ "`"
  | nonIntegerArgument name arg =>
    name ++ " only accepts integer arguments, but was given `" ++ arg.text ++ "`"
  | tooFewArguments name least found =>
    name ++ " requires at least " ++ toString least ++ " arguments, but was given " ++
      toString found
  | overflow => "the result of an operation does not fit in 64 bits"

def LoweringError.message : LoweringError → String
  | noDecomposition e =>
    "`" ++ e.text ++ "` is not supported by the backend, and cannot be decomposed"
  | unsupported e => "`" ++ e.text ++ "` cannot be reformulated into the requested form"
  | overflow => "the result of an operation does not fit in 64 bits"
  | tooDeep => "the expression is nested too deeply"

end ConstraintModel
