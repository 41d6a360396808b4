import ConstraintModel.Capabilities
import ConstraintModel.Constraint.Decompose
import ConstraintModel.Form.Flat
import ConstraintModel.Function.Decompose

namespace ConstraintModel

namespace Supported

variable (caps : Capabilities)

/-- Whether a backend takes the function. One that can be undefined is taken
inside another expression only when it is supported there. -/
def takes (context : Context) (g : Function Expr) : Checked Bool :=
  if !caps.supports .top g.name then return false
  else if context = .top then return true
  else return (← g.isTotal) || caps.supports .nested g.name

def untaken? (context : Context) : Expr → Checked (Option (Function Expr))
  | .function g => return if ← takes caps context g then none else some g
  | _ => return none

def untakenSide? (context : Context) (r : Relation) (a b : Expr) :
    Checked (Option (Function Expr × Relation × Expr)) := do
  match ← untaken? caps context a, ← untaken? caps context b with
  | some g, _ => return some (g, r, b)
  | none, some g => return some (g, r.converse, a)
  | none, none => return none

/-- Boolean arguments are nested, and integer arguments occur where the
expression around them does. -/
def argContext (context : Context) (a : Expr) : Context :=
  if a.isBool then .nested else context

mutual

/-- Replaces the constraints and functions that the backend does not take.
Definitions that they leave behind are not examined. -/
def expr (depth : Nat) (context : Context) (e : Expr) : Defining Expr :=
  match depth with
  | 0 => throw .tooDeep
  | depth + 1 =>
    match e with
    | .bool _ | .int _ | .var _ | .negVar _ => return e
    | .cmp r a b => comparison depth context r a b
    | .constraint c => do
      let c ← c.mapM fun a => expr depth (argContext context a) a
      if caps.supports context c.name then
        return .constraint c
      else
        parts depth context (← c.decompose)
    | .function g => do
      let g ← g.mapM fun a => expr depth (argContext context a) a
      if ← takes caps context g then
        return .function g
      else
        -- The variable is defined at the top level, where the function has to
        -- have a value.
        let x ← freshInt (← (Expr.function g).bounds)
        defineAll (← g.decompose .eq x).toList
        return x
    | .call d =>
      if context = .top || caps.supports .nested d.name then return e
      else throw (.noDecomposition e)
    | e => e.mapArgsM fun a => expr depth (argContext context a) a

def comparison (depth : Nat) (context : Context) (r : Relation) (a b : Expr) : Defining Expr :=
  match depth with
  | 0 => throw .tooDeep
  | depth + 1 => do
    match ← untakenSide? caps context r a b with
    | some (g, r, other) => do
      let g ← g.mapM fun a => expr depth (argContext context a) a
      let other ← expr depth (argContext context other) other
      parts depth context (← g.decompose r other)
    | none =>
      return .cmp r (← expr depth (argContext context a) a) (← expr depth (argContext context b) b)

def parts (depth : Nat) (context : Context) (d : Decomposition) : Defining Expr :=
  match depth with
  | 0 => throw .tooDeep
  | depth + 1 => do
    let conjuncts ← d.constraining.mapM (expr depth context)
    defineAll d.defining
    return .all conjuncts

end

def depth (e : Expr) : Nat := 4 * (e.nesting 1 + 1)

def rounds (constraints : List Expr) : Nat := greatest (constraints.map (Expr.nesting 1)) + 1

/-- Definitions left behind are examined in the next round. -/
def examine : Nat → List Expr → Lowering (List Expr)
  | _, [] => return []
  | 0, _ => throw .tooDeep
  | n + 1, constraints => do
    let examined : Defining (List (List Expr)) := (topLevel constraints).mapM fun e =>
      return (← expr caps (depth e) .top e).conjuncts
    let (kept, definitions) ← examined.collect
    return kept.flatten ++ (← examine n definitions)

def replacement? (e : Expr) : Lowering (Option Decomposition) :=
  match e with
  | .constraint c => do
    if caps.supports .nested c.name then return none else return some (← c.decompose)
  | .cmp r (.function g) b => do
    if caps.supports .nested g.name then return none else return some (← g.decompose r b)
  | .call d => if caps.supports .nested d.name then return none else throw (.noDecomposition e)
  | _ => return none

def replacements? (e : Expr) : Lowering (Option (List Expr)) :=
  match e with
  | .constraint c => do
    if caps.supports .top c.name then return none else return some (← c.decompose).toList
  | .cmp r a b => do
    if r = .eq && a.isBool then
      return (← replacement? caps a).map fun d =>
        .cmp .eq (.all d.constraining) b :: d.defining
    else match a with
      | .function g =>
        if caps.supports .top g.name then return none else return some (← g.decompose r b).toList
      | _ => return none
  | .implies l a => do
    return (← replacement? caps a).map fun d => .implies l (.all d.constraining) :: d.defining
  | _ => return none

def examineFlat : Nat → List Expr → Lowering (List Expr)
  | 0, constraints => if constraints.isEmpty then return [] else throw .tooDeep
  | n + 1, constraints => do
    let parts ← constraints.mapM fun e => do
      match ← replacements? caps e with
      | none => return [e]
      | some es => examineFlat n (← flatten es)
    return parts.flatten

def flatRounds (constraints : List Expr) : Nat := greatest (constraints.map (Expr.nesting 0)) + 1

end Supported

def decomposeTree (caps : Capabilities) (constraints : List Expr) : Lowering (List Expr) :=
  Supported.examine caps (Supported.rounds constraints) constraints

def decomposeFlat (caps : Capabilities) (constraints : List Expr) : Lowering (List Expr) :=
  Supported.examineFlat caps (Supported.flatRounds constraints) constraints

end ConstraintModel
