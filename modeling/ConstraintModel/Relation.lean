namespace ConstraintModel

inductive Relation where
  | eq | ne | lt | le | gt | ge
  deriving DecidableEq, Repr

namespace Relation

def holds : Relation → Int → Int → Bool
  | eq, a, b => a == b
  | ne, a, b => a != b
  | lt, a, b => a < b
  | le, a, b => a ≤ b
  | gt, a, b => b < a
  | ge, a, b => b ≤ a

def converse : Relation → Relation
  | eq => eq
  | ne => ne
  | lt => gt
  | le => ge
  | gt => lt
  | ge => le

def negated : Relation → Relation
  | eq => ne
  | ne => eq
  | lt => ge
  | le => gt
  | gt => le
  | ge => lt

def symbol : Relation → String
  | eq => "=="
  | ne => "!="
  | lt => "<"
  | le => "<="
  | gt => ">"
  | ge => ">="

theorem converse_holds (r : Relation) (a b : Int) : r.converse.holds b a = r.holds a b := by
  cases r <;> simp [converse, holds, Bool.beq_eq_decide_eq, bne, eq_comm (a := a)]

theorem negated_holds (r : Relation) (a b : Int) : r.negated.holds a b = !r.holds a b := by
  cases r <;> rw [Bool.eq_iff_iff] <;> simp [negated, holds]

theorem negated_negated (r : Relation) : r.negated.negated = r := by cases r <;> rfl

end Relation

end ConstraintModel
