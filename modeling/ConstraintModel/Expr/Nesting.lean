import ConstraintModel.Expr.Basic

namespace ConstraintModel

def greatest (ns : List Nat) : Nat := ns.foldr max 0

theorem le_greatest {ns : List Nat} {n : Nat} (h : n ∈ ns) : n ≤ greatest ns := by
  induction ns with
  | nil => simp at h
  | cons m ms ih =>
    simp only [greatest, List.foldr_cons]
    rcases List.mem_cons.1 h with rfl | h
    · exact Nat.le_max_left _ _
    · exact Nat.le_trans (ih h) (Nat.le_max_right _ _)

theorem greatest_le {ns : List Nat} {n : Nat} (h : ∀ m ∈ ns, m ≤ n) : greatest ns ≤ n := by
  induction ns with
  | nil => simp [greatest]
  | cons m ms ih =>
    exact Nat.max_le.2 ⟨h m (List.mem_cons_self ..), ih fun k hk => h k (List.mem_cons_of_mem _ hk)⟩

/-- A measure of the constraints that a constraint over variables decomposes
into. A constraint with a decomposition by others weighs more than they do. -/
def Constraint.weight {α : Type} : Constraint α → Nat
  | allDifferent _ | allDifferentExceptZero _ | allEqual _ | monotone _ _ | table _ _
  | memberOfSet _ _ | memberOfList _ _ | ifThenElse _ _ _ => 16
  | xor as => 16 + 2 * as.length
  | inverse _ _ | cumulative _ _ _ _ _ | cardinality _ _ _ => 40
  | circuit _ | subcircuit _ => 60
  | subcircuitThrough _ _ => 70

namespace Expr

/-- The height of the syntax tree, in which a negation counts less than any
other operation. Pushing a negation into an expression adds at most one. -/
def height (e : Expr) : Nat :=
  match e with
  | bool _ | int _ | var _ | negVar _ => 1
  | not a => a.height + 1
  | e => greatest (e.args.attach.map fun ⟨a, _⟩ => a.height) + 2
termination_by sizeOf e
decreasing_by
  · simp
  · exact sizeOf_lt_of_mem_args ‹_›

/-- How deeply the decompositions of the constraints and functions in an
expression can be nested. Operators around them count `step` each, and the
two sides of a comparison or an implication count together because a
decomposition can move one into the other. -/
def nesting (step : Nat) (e : Expr) : Nat :=
  match e with
  | bool _ | int _ | var _ | negVar _ | call _ => 0
  | constraint c => c.weight + 8 * greatest (c.args.attach.map fun ⟨a, _⟩ => a.nesting step)
  | function g => 8 + 4 * greatest (g.args.attach.map fun ⟨a, _⟩ => a.nesting step)
  | cmp _ a b | implies a b => step + a.nesting step + b.nesting step
  | e => step + greatest (e.args.attach.map fun ⟨a, _⟩ => a.nesting step)
termination_by sizeOf e
decreasing_by
  · have := Constraint.sizeOf_lt_of_mem_args ‹_ ∈ c.args›; simp; omega
  · have := Function.sizeOf_lt_of_mem_args ‹_ ∈ g.args›; simp; omega
  all_goals first | exact sizeOf_lt_of_mem_args ‹_› | (simp; omega) | simp

end Expr

end ConstraintModel
