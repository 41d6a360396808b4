import ConstraintModel.Expr.Equality
import ConstraintModel.Expr.Negation
import ConstraintModel.Expr.Nesting
import ConstraintModel.Form.Affine
import ConstraintModel.Form.TopLevel
import ConstraintModel.Lowering

namespace ConstraintModel

namespace Flat

/-- Finds a literal for each argument of a connective. The neutral constant is
dropped, and there is no list of literals when the absorbing constant comes
up. -/
def gather (absorbing : Bool) (literal : Expr → Defining Expr) :
    List Expr → Defining (Option (List Expr))
  | [] => return some []
  | a :: as => do
    match ← literal a with
    | .bool b => if b = absorbing then return none else gather absorbing literal as
    | l => return (← gather absorbing literal as).map (l :: ·)

def liftBool (e : Expr) : Defining Expr := do
  if e.isSimple then
    return e
  else
    let x ← freshBool
    define (.cmp .eq e x)
    return x

def liftInt (e : Expr) : Defining Expr := do
  if e.isSimple then
    return e
  else
    let x ← freshInt (← e.bounds)
    define (.cmp .eq e x)
    return x

def compare (r : Relation) (a b : Expr) : Expr :=
  match a.constant?, b.constant? with
  | some m, some n => .bool (r.holds m n)
  | some _, none => .cmp r.converse b a
  | none, _ => .cmp r a b

def equate (e l : Expr) : Expr :=
  match e with
  | .bool true => l
  | .bool false => l.negated
  | e => .cmp .eq e l

def toInt : Expr → Expr
  | .bool b => .int b.toInt
  | e => e

def toBool : Expr → Expr
  | .int n => .bool (n != 0)
  | e => e

/-- Whether a comparison relates two truth values, not both of them simple. -/
def isReification (r : Relation) (a b : Expr) : Bool :=
  (r == .eq || r == .ne) && a.isBool && b.isBool && !(a.isSimple && b.isSimple)

def orient (r : Relation) (a b : Expr) : Relation × Expr × Expr :=
  if a.isConstant || (a.isSimple && !b.isSimple) then (r.converse, b, a) else (r, a, b)

def isLifted (reified : Bool) : Expr → Checked Bool
  | .function g => if reified then g.isTotal else return false
  | _ => return false

mutual

def constraint (depth : Nat) (e : Expr) : Defining (List Expr) :=
  match depth with
  | 0 => throw .tooDeep
  | depth + 1 =>
    match e with
    | .bool true => return []
    | .bool false | .negVar _ | .call _ => return [e]
    | .var x => if x.isBool then return [e] else throw (.unsupported e)
    | .and as => return (← as.mapM (constraint depth)).flatten
    | .or as => return (← literals depth true as).toList.map .any
    | .implies a b => do
      match ← literal depth a with
      | .bool false => return []
      | .bool true => constraint depth b
      | l =>
        match ← truth depth b with
        | .bool true => return []
        | .bool false => return [l.negated]
        | b => return [.implies l b]
    -- What cannot take in its negation is given a literal.
    | .not a => do
      if a.negated.isNot then
        return [(← literal depth a).negated]
      else
        constraint depth a.negated
    | .cmp r a b => return (← comparison depth false r a b).conjuncts
    | .constraint c => return [.constraint (← c.mapM (operand depth))]
    | .int _ | .sum _ | .wsum _ | .sub _ _ | .mul _ _ | .neg _ | .function _ =>
      throw (.unsupported e)

def truth (depth : Nat) (e : Expr) : Defining Expr :=
  match depth with
  | 0 => throw .tooDeep
  | depth + 1 =>
    match e with
    | .bool _ | .var _ | .negVar _ | .call _ => return e
    | .and as => return ((← literals depth false as).map .all).getD (.bool false)
    | .or as => return ((← literals depth true as).map .any).getD (.bool true)
    | .implies a b => return ((← literals depth true [a.negated, b]).map .any).getD (.bool true)
    | .not a => do
      if a.negated.isNot then
        return (← literal depth a).negated
      else
        truth depth a.negated
    | .cmp r a b => comparison depth true r a b
    | .constraint c => return .constraint (← c.mapM (operand depth))
    | .int _ | .sum _ | .wsum _ | .sub _ _ | .mul _ _ | .neg _ | .function _ =>
      throw (.unsupported e)

/-- The literals of a disjunction or conjunction, whose absorbing constant is
given, unless it has the value of that constant. -/
def literals (depth : Nat) (absorbing : Bool) (args : List Expr) :
    Defining (Option (List Expr)) :=
  match depth with
  | 0 => throw .tooDeep
  | depth + 1 =>
    if args.contains (.bool absorbing) then return none
    else gather absorbing (literal depth) args

def literal (depth : Nat) (e : Expr) : Defining Expr :=
  match depth with
  | 0 => throw .tooDeep
  | depth + 1 => return toBool (← operand depth e)

/-- Flattens a comparison. When it is used as a truth value, a function that
can be undefined is kept in it, so that it does not have to be defined when
the comparison is false. -/
def comparison (depth : Nat) (reified : Bool) (r : Relation) (a b : Expr) : Defining Expr :=
  match depth with
  | 0 => throw .tooDeep
  | depth + 1 =>
    match a.constant?, b.constant? with
    | some m, some n => return .bool (r.holds m n)
    | _, _ =>
      if isReification r a b then
        reification depth reified r a b
      else do
        let (r, a, b) := orient r a b
        let a ← if ← isLifted reified a then operand depth a else side depth a
        let b ← operand depth b
        return compare r a (toInt b)

def reification (depth : Nat) (reified : Bool) (r : Relation) (a b : Expr) : Defining Expr :=
  match depth with
  | 0 => throw .tooDeep
  | depth + 1 => do
    let (e, l) ←
      if a.isSimple then pure (b, a)
      else if b.isSimple then pure (a, b)
      else pure (a, ← literal depth b)
    let l := if r = .ne then l.negated else l
    match l with
    | .bool true => truth depth e
    | .bool false => truth depth e.negated
    | l => do
      let e ← truth depth e
      -- A literal implies or equals a truth value, but not an equality of two.
      let e ← if reified then liftBool e else pure e
      return equate e l

def side (depth : Nat) (e : Expr) : Defining Expr :=
  match depth with
  | 0 => throw .tooDeep
  | depth + 1 =>
    match e with
    | .bool _ | .int _ | .var _ | .negVar _ => return e
    | .sum _ | .wsum _ | .neg _ => affine depth e
    | .mul a b => do
      if a.isConstant || b.isConstant then
        affine depth e
      else
        let a ← operand depth a
        let b ← operand depth b
        -- A factor can turn out to be constant only now.
        if a.isConstant || b.isConstant then affine depth (.mul a b) else return .mul a b
    | .sub a b => return .sub (← operand depth a) (← operand depth b)
    | .function g => return .function (← g.mapM (operand depth))
    | .and _ | .or _ | .implies _ _ | .not _ | .cmp _ _ _ | .constraint _ | .call _ =>
      operand depth e

def affine (depth : Nat) (e : Expr) : Defining Expr :=
  match depth with
  | 0 => throw .tooDeep
  | depth + 1 => return (← addTo depth .zero 1 e).toExpr

def addTo (depth : Nat) (f : Affine) (w : Int) (e : Expr) : Defining Affine :=
  match depth with
  | 0 => throw .tooDeep
  | depth + 1 =>
    match e with
    | .sum as => as.foldlM (fun f a => addTo depth f w a) f
    | .wsum ts => ts.foldlM (fun f (v, a) => do addTo depth f (← Checked.mul w v) a) f
    | .neg a => do addTo depth f (← Checked.neg w) a
    | .mul a b =>
      match a.constant?, b.constant? with
      | some n, _ => do addTo depth f (← Checked.mul w n) b
      | none, some n => do addTo depth f (← Checked.mul w n) a
      | none, none => do f.addMultiple w (← operand depth e)
    | e => do f.addMultiple w (← operand depth e)

def operand (depth : Nat) (e : Expr) : Defining Expr :=
  match depth with
  | 0 => throw .tooDeep
  | depth + 1 =>
    if e.isSimple then return e
    else if e.isBool then do liftBool (← truth depth e)
    else do liftInt (← side depth e)

end

/-- A bound on the depth of the recursion. -/
def depth (e : Expr) : Nat := 10 * (2 * e.height + 2)

end Flat

/-- Every constraint is followed by the definitions of the auxiliary variables
that occur in its flat form. -/
def flatten (constraints : List Expr) : Lowering (List Expr) := do
  let parts ← (topLevel constraints).mapM fun e => do
    let (flat, definitions) ← (Flat.constraint (Flat.depth e) e).collect
    return flat ++ definitions
  return parts.flatten

end ConstraintModel
