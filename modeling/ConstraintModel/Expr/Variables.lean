import ConstraintModel.Expr.Basic

namespace ConstraintModel.Expr

def occurrences (e : Expr) : List Variable :=
  match e with
  | var x | negVar x => [x]
  | e => e.args.attach.flatMap fun ⟨a, _⟩ => a.occurrences
termination_by sizeOf e
decreasing_by exact sizeOf_lt_of_mem_args ‹_›

def vars (e : Expr) : List Variable := e.occurrences.eraseDups

end ConstraintModel.Expr
