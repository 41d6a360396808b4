import ConstraintModel.Call
import ConstraintModel.Constraint
import ConstraintModel.Function
import ConstraintModel.Variable

namespace ConstraintModel

/-- A symbolic expression over decision variables. Boolean expressions have
the values 0 and 1. -/
inductive Expr where
  | bool (b : Bool)
  | int (n : Int)
  | var (x : Variable)
  /-- The view `1 - x` of a Boolean variable `x`. -/
  | negVar (x : Variable)
  | and (args : List Expr)
  | or (args : List Expr)
  | implies (a b : Expr)
  | not (a : Expr)
  | sum (args : List Expr)
  /-- A sum of products of a weight and an expression. -/
  | wsum (terms : List (Int × Expr))
  | sub (a b : Expr)
  | mul (a b : Expr)
  | neg (a : Expr)
  | cmp (r : Relation) (lhs rhs : Expr)
  | constraint (c : Constraint Expr)
  | function (g : Function Expr)
  | call (d : Call Expr)
  deriving Repr

namespace Expr

instance : Inhabited Expr := ⟨bool true⟩

def args : Expr → List Expr
  | bool _ | int _ | var _ | negVar _ => []
  | and as | or as | sum as => as
  | wsum ts => ts.map Prod.snd
  | implies a b | sub a b | mul a b | cmp _ a b => [a, b]
  | not a | neg a => [a]
  | constraint c => c.args
  | function g => g.args
  | call d => d.args

def mapArgsM {m : Type → Type} [Monad m] (f : Expr → m Expr) : Expr → m Expr
  | and as => return and (← as.mapM f)
  | or as => return or (← as.mapM f)
  | implies a b => return implies (← f a) (← f b)
  | not a => return not (← f a)
  | sum as => return sum (← as.mapM f)
  | wsum ts => return wsum (← ts.mapM fun (w, t) => return (w, ← f t))
  | sub a b => return sub (← f a) (← f b)
  | mul a b => return mul (← f a) (← f b)
  | neg a => return neg (← f a)
  | cmp r a b => return cmp r (← f a) (← f b)
  | constraint c => return constraint (← c.mapM f)
  | function g => return function (← g.mapM f)
  | call d => return call (← d.substituteM f)
  | e => return e

def isBool : Expr → Bool
  | bool _ | negVar _ | and _ | or _ | implies _ _ | not _ | cmp _ _ _ | constraint _
  | call _ => true
  | var x => x.isBool
  | int _ | sum _ | wsum _ | sub _ _ | mul _ _ | neg _ | function _ => false

def isLiteral : Expr → Bool
  | var x => x.isBool
  | negVar _ => true
  | _ => false

def isSimple : Expr → Bool
  | bool _ | int _ | var _ | negVar _ => true
  | _ => false

def hasCompoundArg (e : Expr) : Bool := e.args.any fun a => !a.isSimple

def constant? : Expr → Option Int
  | bool b => some b.toInt
  | int n => some n
  | _ => none

def isConstant (e : Expr) : Bool := e.constant?.isSome

def var? : Expr → Option Variable
  | var x => some x
  | _ => none

def isNot : Expr → Bool
  | not _ => true
  | _ => false

def name : Expr → String
  | bool _ => "bool"
  | int _ => "int"
  | var x => if x.isBool then "boolvar" else "intvar"
  | negVar _ => "negboolview"
  | and _ => "and"
  | or _ => "or"
  | implies _ _ => "->"
  | not _ => "not"
  | sum _ => "sum"
  | wsum _ => "wsum"
  | sub _ _ => "sub"
  | mul _ _ => "mul"
  | neg _ => "-"
  | cmp r _ _ => r.symbol
  | constraint c => c.name
  | function g => g.name
  | call d => d.name

def all : List Expr → Expr
  | [] => bool true
  | [e] => e
  | es => and es

def any : List Expr → Expr
  | [] => bool false
  | [e] => e
  | es => or es

def plus : Expr → Expr → Expr
  | sum as, b => sum (as ++ [b])
  | a, b => sum [a, b]

def minus : Expr → Checked Expr
  | int n => return int (← Checked.neg n)
  | e => return neg e

theorem sizeOf_lt_of_mem_terms {ts : List (Int × Expr)} {t : Int × Expr} (h : t ∈ ts) :
    sizeOf t.2 < sizeOf ts := by
  have := List.sizeOf_lt_of_mem h
  cases t
  simp at *
  omega

theorem sizeOf_lt_of_mem_args {e a : Expr} (h : a ∈ e.args) : sizeOf a < sizeOf e := by
  cases e <;> simp only [args, List.mem_cons, List.not_mem_nil, or_false, List.mem_map] at h
  case constraint c => have := c.sizeOf_lt_of_mem_args h; simp; omega
  case function g => have := g.sizeOf_lt_of_mem_args h; simp; omega
  case call d => have := d.sizeOf_lt_of_mem_args h; simp; omega
  case wsum ts =>
    obtain ⟨t, ht, rfl⟩ := h
    have := sizeOf_lt_of_mem_terms ht
    simp
    omega
  case and | or | sum => have := List.sizeOf_lt_of_mem h; simp; omega
  case not | neg => subst h; simp
  case implies | sub | mul | cmp =>
    rcases h with rfl | rfl <;>
      (simp only [implies.sizeOf_spec, sub.sizeOf_spec, mul.sizeOf_spec, cmp.sizeOf_spec]; omega)

/-- Every expression is built from its direct subexpressions. -/
theorem induction_args {p : Expr → Prop} (h : ∀ e, (∀ a ∈ e.args, p a) → p e) (e : Expr) : p e :=
  h e fun a ha => have := sizeOf_lt_of_mem_args ha; induction_args h a
termination_by sizeOf e

end Expr

end ConstraintModel
