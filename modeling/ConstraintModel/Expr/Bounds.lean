import ConstraintModel.Expr.Basic

namespace ConstraintModel

def Expr.bounds : Expr → Checked Bounds
  | bool b => return .point b.toInt
  | int n => return .point n
  | var x => return x.bounds
  | negVar x => x.bounds.complement
  | and _ | or _ | implies _ _ | not _ | cmp _ _ _ | constraint _ | call _ => return .boolean
  | sum as => do Bounds.sum (← as.mapM bounds)
  | wsum ts => do Bounds.sum (← ts.mapM fun t => do (← t.2.bounds).scale t.1)
  | sub a b => do (← a.bounds).sub (← b.bounds)
  | mul a b => do (← a.bounds).mul (← b.bounds)
  | neg a => do (← a.bounds).neg
  | function g => (g.attach.map fun ⟨a, _⟩ => a.bounds).bounds
termination_by e => sizeOf e
decreasing_by
  all_goals simp_wf
  all_goals first
    | omega
    | (have hlt := sizeOf_lt_of_mem_terms ‹_ ∈ ts›; omega)
    | (have hlt := List.sizeOf_lt_of_mem ‹_ ∈ as›; omega)
    | (have hlt := Function.sizeOf_lt_of_mem_args ‹_ ∈ g.args›; omega)

def Function.isTotal (g : Function Expr) : Checked Bool := (g.map Expr.bounds).totalWithin

end ConstraintModel
