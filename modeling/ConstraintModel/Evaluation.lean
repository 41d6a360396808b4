import ConstraintModel.Relation
import ConstraintModel.Variable

namespace ConstraintModel

/-- Values for some of the variables, by index. They need not lie within the
domains of the variables. -/
structure Assignment where
  get? : Nat → Option Int

namespace Assignment

def empty : Assignment := ⟨fun _ => none⟩

def value? (s : Assignment) (x : Variable) : Option Int := s.get? x.index

def assigns (s : Assignment) (x : Variable) : Bool := (s.value? x).isSome

def assign (s : Assignment) (x : Variable) (n : Int) : Assignment :=
  ⟨fun i => if i = x.index then some n else s.get? i⟩

def unassign (s : Assignment) (x : Variable) : Assignment :=
  ⟨fun i => if i = x.index then none else s.get? i⟩

theorem value?_assign (s : Assignment) (x y : Variable) (n : Int) :
    (s.assign x n).value? y = if y.index = x.index then some n else s.value? y := rfl

end Assignment

/-- An evaluation looks up variables in an assignment. Its outcome is a
value, no value, or an overflow. An overflow ends it at once, so it matters
which arguments are evaluated at all. -/
abbrev Eval := ReaderT Assignment (OptionT Checked)

namespace Eval

def outcome {α : Type} (a : Eval α) (s : Assignment) : Checked (Option α) := (a s).run

def ofOption {α : Type} (value : Option α) : Eval α := fun _ => OptionT.mk (pure value)

def lookup (x : Variable) : Eval Int := fun s => OptionT.mk (pure (s.value? x))

def attempt {α : Type} (a : Eval α) : Eval (Option α) := fun s => OptionT.lift (a.outcome s)

def isTrue (a : Eval Int) : Eval Bool := return (← a) != 0

def outcomes (args : List (Eval Int)) : Eval (List (Option Bool)) :=
  args.mapM fun a => a.isTrue.attempt

instance : LawfulBEq (Option Bool) := inferInstance

def conjunction (args : List (Eval Int)) : Eval Bool := do
  let values ← outcomes args
  if some false ∈ values then return false
  else if none ∈ values then failure
  else return true

def disjunction (args : List (Eval Int)) : Eval Bool := do
  let values ← outcomes args
  if some true ∈ values then return true
  else if none ∈ values then failure
  else return false

def implication (a b : Eval Int) : Eval Bool := do
  if ← a.isTrue then b.isTrue else return true

def sum (args : List (Eval Int)) : Eval Int :=
  args.foldlM (fun total a => do Checked.add total (← a)) 0

def weightedSum (terms : List (Int × Eval Int)) : Eval Int :=
  terms.foldlM (fun total (w, a) => do Checked.add total (← Checked.mul w (← a))) 0

/-- A comparison is false when a side has no value even though all the
variables are assigned. -/
def comparison (r : Relation) (assigned : Eval Bool) (a b : Eval Int) : Eval Bool := do
  match ← a.attempt, ← b.attempt with
  | some m, some n => return r.holds m n
  | _, _ => if ← assigned then return false else failure

def ofBool (a : Eval Bool) : Eval Int := return (← a).toInt

end Eval

end ConstraintModel
