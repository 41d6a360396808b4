import ConstraintModel.Capabilities
import ConstraintModel.Form.Guarded
import ConstraintModel.Function.Decompose

namespace ConstraintModel

def Expr.terms? : Expr → Option (List (Int × Expr))
  | sum as => some (as.map (1, ·))
  | wsum ts => some ts
  | _ => none

def Expr.ofTerms (terms : List (Int × Expr)) : Expr :=
  if terms.all fun t => t.1 == 1 then sum (terms.map Prod.snd) else wsum terms

namespace Linear

variable (caps : Capabilities)

def decided (holds : Bool) : List Expr := if holds then [] else [.bool false]

def asTerms? : Expr → Option (List (Int × Expr))
  | .sub a b => some [(1, a), (-1, b)]
  | .neg a => some [(-1, a)]
  | .mul a b =>
    match a.constant?, b.constant? with
    | some n, _ => some [(n, b)]
    | none, some n => some [(n, a)]
    | none, none => none
  | e => e.terms?

def isProduct : Expr → Bool
  | .mul _ _ => true
  | _ => false

def separate (terms : List (Int × Expr)) : Checked (List (Int × Expr) × Int) := do
  let constants := terms.filterMap fun (w, a) => a.constant?.map (w, ·)
  let k ← constants.foldlM (fun k (w, n) => do Checked.sub k (← Checked.mul w n)) 0
  return (terms.filter fun t => !t.2.isConstant, k)

def balance (terms : List (Int × Expr)) (b : Expr) : Checked (List (Int × Expr) × Int) := do
  let (kept, k) ← separate terms
  match b.constant? with
  | some n => return (kept, ← Checked.add k n)
  | none => return (kept ++ [(-1, b)], k)

/-- A linear form that is below or above a constant, as an indicator with a
large enough weight selects. Both constraints exclude the constant. -/
def separated (terms : List (Int × Expr)) (k : Int) (indicator : Expr) (b : Bounds) :
    Checked (List Expr) := do
  let m ← Checked.add (max (← Checked.sub b.upper k) (← Checked.sub k b.lower)) 1
  let lhs := Expr.wsum (terms ++ [(← Checked.neg m, indicator)])
  return [.cmp .le lhs (.int (← Checked.sub k 1)),
    .cmp .ge lhs (.int (← Checked.add (← Checked.sub k m) 1))]

def subtract (terms : List (Int × Expr)) (b : Expr) : List (Int × Expr) × Int :=
  match b.constant? with
  | some k => (terms, k)
  | none => (terms ++ [(-1, b)], 0)

def isTotal : Expr → Checked Bool
  | .function g => g.isTotal
  | _ => return true

def nonlinear? : Expr → Option (Function Expr × Relation × Expr)
  | .cmp r (.function g) b => if caps.isLinear g.name then none else some (g, r, b)
  | _ => none

def positions (indicators : List Expr) : Expr := .wsum (indexed indicators)

def valueOf (values : List Int) (indicators : List Expr) : Expr := .wsum (values.zip indicators)

def columns (length : Nat) (rows : List (List Expr)) : List (List Expr) :=
  rows.foldr (List.zipWith List.cons) (List.replicate length [])

mutual

def constraint (depth : Nat) (reified : Bool) (e : Expr) : Defining (List Expr) :=
  match depth with
  | 0 => throw .tooDeep
  | depth + 1 =>
    match e with
    | .bool b => return decided b
    | .var x => if x.isBool then return [.cmp .ge (.sum [e]) (.int 1)] else throw (.unsupported e)
    | .negVar x => return [.cmp .le (.sum [.var x]) (.int 0)]
    | .and as => comparison depth reified .ge (.sum as) (.int as.length)
    | .or as => comparison depth reified .ge (.sum as) (.int 1)
    | .implies l a => if reified then throw (.unsupported e) else implication depth l a
    | .cmp r a b => comparison depth reified r a b
    | .constraint c =>
      if caps.isLinear c.name then return [e]
      else match c with
        | .allDifferent as => if reified then throw (.unsupported e) else allDifferent depth as
        | _ => throw (.unsupported e)
    | .call _ => return [e]
    | .int _ | .not _ | .sum _ | .wsum _ | .sub _ _ | .mul _ _ | .neg _ | .function _ =>
      throw (.unsupported e)

/-- Linearizes the implication of a flat Boolean expression by a literal. A
function that is not linear is decomposed under the literal. -/
def implication (depth : Nat) (l a : Expr) : Defining (List Expr) :=
  match depth with
  | 0 => throw .tooDeep
  | depth + 1 =>
    if !l.isLiteral then throw (.unsupported (.implies l a))
    else if a.isLiteral then constraint depth false (.any [l.negated, a])
    else match nonlinear? caps a with
      | some (g, r, b) => do
        let d ← g.decompose r b
        reformulate depth (.implies l (.all d.constraining) :: d.defining)
      | none => guarded depth l a

/-- Guards the linear form of an expression by a literal, which has to be
false if there is none. -/
def guarded (depth : Nat) (l a : Expr) : Defining (List Expr) :=
  match depth with
  | 0 => throw .tooDeep
  | depth + 1 => do
    let constraints ← constraint depth true a
    if constraints.contains (.bool false) then constraint depth false l.negated
    else return constraints.map (.implies l)

def comparison (depth : Nat) (reified : Bool) (r : Relation) (a b : Expr) :
    Defining (List Expr) :=
  match depth with
  | 0 => throw .tooDeep
  | depth + 1 =>
    match a.constant?, b.constant? with
    | some m, some n => return decided (r.holds m n)
    | some _, none => comparison depth reified r.converse b a
    | none, _ =>
      if r = .ne && a.isLiteral && b.isLiteral then return [.cmp .eq (.sum [a, b]) (.int 1)]
      else match a with
        | .var _ | .negVar _ =>
          if b.isConstant then relation depth reified r a b
          else sum depth reified r [(1, a)] b
        | .function g =>
          if caps.isLinear g.name then relation depth reified r a b
          else functionComparison depth reified g r b
        | a =>
          match asTerms? a with
          | some terms => sum depth reified r terms b
          | none =>
            if isProduct a && caps.isLinear a.name then relation depth reified r a b
            else throw (.unsupported (.cmp r a b))

def sum (depth : Nat) (reified : Bool) (r : Relation) (terms : List (Int × Expr)) (b : Expr) :
    Defining (List Expr) :=
  match depth with
  | 0 => throw .tooDeep
  | depth + 1 => do
    let (terms, k) ← balance terms b
    if terms.isEmpty then return decided (r.holds 0 k)
    else relation depth reified r (.ofTerms terms) (.int k)

def relation (depth : Nat) (reified : Bool) (r : Relation) (a b : Expr) : Defining (List Expr) :=
  match depth with
  | 0 => throw .tooDeep
  | depth + 1 =>
    match r with
    | .eq | .le | .ge => return [.cmp r a b]
    | .lt => strict depth reified .le (-1) a b
    | .gt => strict depth reified .ge 1 a b
    | .ne =>
      if reified || (a.terms?.isNone && !a.isSimple) then bigM depth a b
      else do
        let z ← freshBool
        return (← implication depth z (.cmp .lt a b)) ++
          (← implication depth z.negated (.cmp .gt a b))

def strict (depth : Nat) (reified : Bool) (r : Relation) (delta : Int) (a b : Expr) :
    Defining (List Expr) :=
  match depth with
  | 0 => throw .tooDeep
  | depth + 1 =>
    match b.constant? with
    | some k => do comparison depth reified r a (.int (← Checked.add k delta))
    | none => do
      let range ← b.bounds
      let x ← freshInt (← range.add (.point delta))
      defineAll (← comparison depth false .eq (.wsum [(1, x), (-1, b)]) (.int delta))
      comparison depth reified r a x

/-- Linearizes a disequality by an indicator that selects one of its strict
sides. -/
def bigM (depth : Nat) (a b : Expr) : Defining (List Expr) :=
  match depth with
  | 0 => throw .tooDeep
  | depth + 1 => do
    let (terms, definition) ← termsOf depth a
    let (terms, k) := subtract terms b
    let range ← (Expr.wsum terms).bounds
    return definition ++ (← separated terms k (← freshBool) range)

/-- The terms of the first side of a disequality. Another expression than a
sum or a variable gets a variable of its own, whose definition takes its place
when it can be undefined. -/
def termsOf (depth : Nat) (a : Expr) : Defining (List (Int × Expr) × List Expr) :=
  match depth with
  | 0 => throw .tooDeep
  | depth + 1 =>
    match a.terms? with
    | some terms => return (terms, [])
    | none =>
      if a.isSimple then return ([(1, a)], [])
      else do
        let x ← freshInt (← a.bounds)
        let total ← isTotal a
        let definition ← comparison depth false .eq a x
        if total then
          defineAll definition
          return ([(1, x)], [])
        else
          return ([(1, x)], definition)

def functionComparison (depth : Nat) (reified : Bool) (g : Function Expr) (r : Relation)
    (b : Expr) : Defining (List Expr) :=
  match depth with
  | 0 => throw .tooDeep
  | depth + 1 =>
    if reified then throw (.unsupported (.cmp r (.function g) b))
    else match g with
      | .element array index => element depth array index r b
      | g => do reformulate depth (← g.decompose r b).toList

def element (depth : Nat) (array : List Expr) (index : Expr) (r : Relation) (b : Expr) :
    Defining (List Expr) :=
  match depth with
  | 0 => throw .tooDeep
  | depth + 1 => do
    let indicators ← freshBools array.length
    let one ← comparison depth false .eq (.sum indicators) (.int 1)
    let position ← comparison depth false .eq (positions indicators) index
    let entries ← (indicators.zip array).mapM fun (l, a) => implication depth l (.cmp r a b)
    return one ++ position ++ entries.flatten

def allDifferent (depth : Nat) (args : List Expr) : Defining (List Expr) :=
  match depth with
  | 0 => throw .tooDeep
  | depth + 1 => do
    match Bounds.hull? (← args.mapM fun a => (a.bounds : Defining Bounds)) with
    | none => return []
    | some hull => do
      let values := hull.values
      let rows ← args.mapM fun _ => (freshBools values.length : Defining (List Expr))
      let assigned ← (args.zip rows).mapM fun (a, row) => do
        let one ← comparison depth false .eq (.sum row) (.int 1)
        return one ++ (← comparison depth false .eq (valueOf values row) a)
      let taken ← (columns values.length rows).mapM fun column =>
        comparison depth false .le (.sum column) (.int 1)
      return assigned.flatten ++ taken.flatten

def reformulate (depth : Nat) (constraints : List Expr) : Defining (List Expr) :=
  match depth with
  | 0 => throw .tooDeep
  | depth + 1 => do
    let guarded ← splitReifications (← flatten constraints)
    return (← guarded.mapM (constraint depth false)).flatten

end

def depth (e : Expr) : Nat := 24 * (e.nesting 0 + 1)

end Linear

def linearize (caps : Capabilities) (constraints : List Expr) : Lowering (List Expr) := do
  let parts ← constraints.mapM fun e => do
    let (linear, definitions) ← (Linear.constraint caps (Linear.depth e) false e).collect
    return linear ++ definitions
  return parts.flatten

end ConstraintModel
