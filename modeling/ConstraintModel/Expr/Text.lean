import ConstraintModel.Expr.Basic

namespace ConstraintModel

def commaSeparated (texts : List String) : String := ", ".intercalate texts

def bracketed (texts : List String) : String := "[" ++ commaSeparated texts ++ "]"

def Constraint.text (c : Constraint String) : String :=
  match c with
  | inverse fs bs => c.name ++ "(" ++ commaSeparated [bracketed fs, bracketed bs] ++ ")"
  | cumulative ss ds es rs cap =>
    c.name ++ "(" ++ commaSeparated [bracketed ss, bracketed ds, bracketed es, bracketed rs, cap]
      ++ ")"
  | cardinality xs vs os =>
    c.name ++ "(" ++ commaSeparated [bracketed xs, bracketed vs, bracketed os] ++ ")"
  | table as rows =>
    c.name ++ "(" ++ commaSeparated [bracketed as,
      bracketed (rows.map fun row => bracketed (row.map toString))] ++ ")"
  | subcircuitThrough as start =>
    c.name ++ "(" ++ commaSeparated as ++ ", start = " ++ toString start ++ ")"
  | memberOfSet a s => a ++ " in " ++ s.text
  | memberOfList a vs => a ++ " in " ++ bracketed vs
  | allDifferent as | allDifferentExceptZero as | allEqual as | monotone _ as | circuit as
  | subcircuit as | xor as => c.name ++ "(" ++ commaSeparated as ++ ")"
  | ifThenElse a t e => c.name ++ "(" ++ commaSeparated [a, t, e] ++ ")"

def Function.text (g : Function String) : String :=
  match g with
  | count as v | element as v => g.name ++ "(" ++ commaSeparated [bracketed as, v] ++ ")"
  | abs a => g.name ++ "(" ++ a ++ ")"
  | minimum as | maximum as | distinct as => g.name ++ "(" ++ commaSeparated as ++ ")"

def Argument.text : Argument String → String
  | single a => a
  | array as => bracketed as

def Call.text (d : Call String) : String :=
  d.name ++ "(" ++ commaSeparated (d.arguments.map Argument.text) ++ ")"

namespace Expr

def isOperator : Expr → Bool
  | cmp _ _ _ | implies _ _ | sub _ _ | mul _ _ | neg _ => true
  | _ => false

def operandText (e : Expr) (text : String) : String :=
  if e.isOperator then "(" ++ text ++ ")" else text

def text : Expr → String
  | bool b => if b then "true" else "false"
  | int n => toString n
  | var x => x.text
  | negVar x => "~" ++ x.text
  | and as => "and(" ++ bracketed (as.map text) ++ ")"
  | or as => "or(" ++ bracketed (as.map text) ++ ")"
  | implies a b => a.operandText a.text ++ " -> " ++ b.operandText b.text
  | not a => "not(" ++ a.text ++ ")"
  | sum as => "sum(" ++ bracketed (as.map text) ++ ")"
  | wsum ts =>
    "sum(" ++ bracketed (ts.map fun t => toString t.1) ++ " * " ++
      bracketed (ts.map fun t => t.2.text) ++ ")"
  | sub a b => a.operandText a.text ++ " - " ++ b.operandText b.text
  | mul a b => a.operandText a.text ++ " * " ++ b.operandText b.text
  | neg a => "-" ++ a.operandText a.text
  | cmp r a b => a.operandText a.text ++ " " ++ r.symbol ++ " " ++ b.operandText b.text
  | constraint c => (c.attach.map fun ⟨a, _⟩ => a.text).text
  | function g => (g.attach.map fun ⟨a, _⟩ => a.text).text
  | call d => (d.attach.map fun ⟨a, _⟩ => a.text).text
termination_by e => sizeOf e
decreasing_by
  all_goals simp_wf
  all_goals first
    | omega
    | (have hlt := sizeOf_lt_of_mem_terms ‹_ ∈ ts›; omega)
    | (have hlt := List.sizeOf_lt_of_mem ‹_ ∈ as›; omega)
    | (have hlt := Constraint.sizeOf_lt_of_mem_args ‹_ ∈ c.args›; omega)
    | (have hlt := Function.sizeOf_lt_of_mem_args ‹_ ∈ g.args›; omega)
    | (have hlt := Call.sizeOf_lt_of_mem_args ‹_ ∈ d.args›; omega)

instance : ToString Expr := ⟨text⟩

end Expr

end ConstraintModel
