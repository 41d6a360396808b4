import ConstraintModel.Constraint.Holds
import ConstraintModel.Expr.Variables
import ConstraintModel.Function.Value

namespace ConstraintModel

def Expr.assigned (e : Expr) : Eval Bool := return e.vars.all (← read).assigns

def Expr.value (e : Expr) : Eval Int :=
  match e with
  | bool b => return b.toInt
  | int n => return n
  | var x => .lookup x
  | negVar x => do Checked.complement (← Eval.lookup x)
  | and as => (Eval.conjunction (as.map value)).ofBool
  | or as => (Eval.disjunction (as.map value)).ofBool
  | implies a b => (Eval.implication a.value b.value).ofBool
  | not a => Eval.ofBool do return !(← a.value.isTrue)
  | sum as => .sum (as.map value)
  | wsum ts => .weightedSum (ts.map fun t => (t.1, t.2.value))
  | sub a b => do Checked.sub (← a.value) (← b.value)
  | mul a b => do Checked.mul (← a.value) (← b.value)
  | neg a => do Checked.neg (← a.value)
  | cmp r a b => (Eval.comparison r e.assigned a.value b.value).ofBool
  | constraint c => (c.attach.map fun ⟨a, _⟩ => a.value).holds.ofBool
  | function g => (g.attach.map fun ⟨a, _⟩ => a.value).value
  | call _ => failure
termination_by sizeOf e
decreasing_by
  all_goals simp_wf
  all_goals first
    | omega
    | (have hlt := sizeOf_lt_of_mem_terms ‹_ ∈ ts›; omega)
    | (have hlt := List.sizeOf_lt_of_mem ‹_ ∈ as›; omega)
    | (have hlt := Constraint.sizeOf_lt_of_mem_args ‹_ ∈ c.args›; omega)
    | (have hlt := Function.sizeOf_lt_of_mem_args ‹_ ∈ g.args›; omega)

end ConstraintModel
