import ConstraintModel.IntervalSet
import ConstraintModel.Relation

namespace ConstraintModel

inductive Monotonicity where
  | increasing | strictlyIncreasing | decreasing | strictlyDecreasing
  deriving DecidableEq, Repr

namespace Monotonicity

def relation : Monotonicity → Relation
  | increasing => .le
  | strictlyIncreasing => .lt
  | decreasing => .ge
  | strictlyDecreasing => .gt

end Monotonicity

inductive Constraint (α : Type) where
  | allDifferent (args : List α)
  | allDifferentExceptZero (args : List α)
  | allEqual (args : List α)
  | monotone (order : Monotonicity) (args : List α)
  | circuit (succ : List α)
  | subcircuit (succ : List α)
  | subcircuitThrough (succ : List α) (start : Nat)
  | inverse (forward backward : List α)
  | cumulative (start duration finish demand : List α) (capacity : α)
  | cardinality (vars vals occurrences : List α)
  | table (vars : List α) (rows : List (List Int))
  | memberOfSet (arg : α) (set : IntervalSet)
  | memberOfList (arg : α) (values : List α)
  | xor (args : List α)
  | ifThenElse (condition ifTrue ifFalse : α)
  deriving DecidableEq, Repr

namespace Constraint

variable {α β : Type}

def name : Constraint α → String
  | allDifferent _ => "alldifferent"
  | allDifferentExceptZero _ => "alldifferent_except0"
  | allEqual _ => "allequal"
  | monotone .increasing _ => "increasing"
  | monotone .strictlyIncreasing _ => "strictly_increasing"
  | monotone .decreasing _ => "decreasing"
  | monotone .strictlyDecreasing _ => "strictly_decreasing"
  | circuit _ => "circuit"
  | subcircuit _ => "subcircuit"
  | subcircuitThrough _ _ => "subcircuitwithstart"
  | inverse _ _ => "inverse"
  | cumulative _ _ _ _ _ => "cumulative"
  | cardinality _ _ _ => "gcc"
  | table _ _ => "table"
  | memberOfSet _ _ | memberOfList _ _ => "InDomain"
  | xor _ => "xor"
  | ifThenElse _ _ _ => "ite"

def args : Constraint α → List α
  | allDifferent as | allDifferentExceptZero as | allEqual as | monotone _ as | circuit as
  | subcircuit as | subcircuitThrough as _ | table as _ | xor as => as
  | inverse fs bs => fs ++ bs
  | cumulative ss ds es rs c => ss ++ ds ++ es ++ rs ++ [c]
  | cardinality xs vs os => xs ++ vs ++ os
  | memberOfSet a _ => [a]
  | memberOfList a vs => a :: vs
  | ifThenElse c t f => [c, t, f]

def map (f : α → β) : Constraint α → Constraint β
  | allDifferent as => allDifferent (as.map f)
  | allDifferentExceptZero as => allDifferentExceptZero (as.map f)
  | allEqual as => allEqual (as.map f)
  | monotone o as => monotone o (as.map f)
  | circuit as => circuit (as.map f)
  | subcircuit as => subcircuit (as.map f)
  | subcircuitThrough as s => subcircuitThrough (as.map f) s
  | inverse fs bs => inverse (fs.map f) (bs.map f)
  | cumulative ss ds es rs c => cumulative (ss.map f) (ds.map f) (es.map f) (rs.map f) (f c)
  | cardinality xs vs os => cardinality (xs.map f) (vs.map f) (os.map f)
  | table as rows => table (as.map f) rows
  | memberOfSet a s => memberOfSet (f a) s
  | memberOfList a vs => memberOfList (f a) (vs.map f)
  | xor as => xor (as.map f)
  | ifThenElse c t e => ifThenElse (f c) (f t) (f e)

def attach (c : Constraint α) : Constraint { a // a ∈ c.args } :=
  match c with
  | allDifferent as => allDifferent as.attach
  | allDifferentExceptZero as => allDifferentExceptZero as.attach
  | allEqual as => allEqual as.attach
  | monotone o as => monotone o as.attach
  | circuit as => circuit as.attach
  | subcircuit as => subcircuit as.attach
  | subcircuitThrough as s => subcircuitThrough as.attach s
  | inverse fs bs =>
    inverse (fs.attachWith _ fun _ h => List.mem_append_left _ h)
      (bs.attachWith _ fun _ h => List.mem_append_right _ h)
  | cumulative ss ds es rs c =>
    have hs {a} (h : a ∈ ss ++ ds) : a ∈ (cumulative ss ds es rs c).args :=
      List.mem_append_left _ (List.mem_append_left _ (List.mem_append_left _ h))
    have he {a} (h : a ∈ es ++ rs) : a ∈ (cumulative ss ds es rs c).args :=
      List.mem_append_left _ (List.append_assoc .. ▸ List.mem_append_right _ h)
    cumulative (ss.attachWith _ fun _ h => hs (List.mem_append_left _ h))
      (ds.attachWith _ fun _ h => hs (List.mem_append_right _ h))
      (es.attachWith _ fun _ h => he (List.mem_append_left _ h))
      (rs.attachWith _ fun _ h => he (List.mem_append_right _ h))
      ⟨c, List.mem_append_right _ (List.mem_singleton_self c)⟩
  | cardinality xs vs os =>
    cardinality (xs.attachWith _ fun _ h => List.mem_append_left _ (List.mem_append_left _ h))
      (vs.attachWith _ fun _ h => List.mem_append_left _ (List.mem_append_right _ h))
      (os.attachWith _ fun _ h => List.mem_append_right _ h)
  | table as rows => table as.attach rows
  | memberOfSet a s => memberOfSet ⟨a, List.mem_singleton_self a⟩ s
  | memberOfList a vs =>
    memberOfList ⟨a, List.mem_cons_self ..⟩ (vs.attachWith _ fun _ h => List.mem_cons_of_mem _ h)
  | xor as => xor as.attach
  | ifThenElse c t e =>
    ifThenElse ⟨c, List.mem_cons_self ..⟩ ⟨t, List.mem_cons_of_mem _ (List.mem_cons_self ..)⟩
      ⟨e, List.mem_cons_of_mem _ (List.mem_cons_of_mem _ (List.mem_singleton_self e))⟩

/-- Replaces the arguments one after the other. The values of a membership
constraint come before the expression that is restricted to them. -/
def mapM {m : Type → Type} [Monad m] (f : α → m β) : Constraint α → m (Constraint β)
  | allDifferent as => return allDifferent (← as.mapM f)
  | allDifferentExceptZero as => return allDifferentExceptZero (← as.mapM f)
  | allEqual as => return allEqual (← as.mapM f)
  | monotone o as => return monotone o (← as.mapM f)
  | circuit as => return circuit (← as.mapM f)
  | subcircuit as => return subcircuit (← as.mapM f)
  | subcircuitThrough as s => return subcircuitThrough (← as.mapM f) s
  | inverse fs bs => return inverse (← fs.mapM f) (← bs.mapM f)
  | cumulative ss ds es rs c =>
    return cumulative (← ss.mapM f) (← ds.mapM f) (← es.mapM f) (← rs.mapM f) (← f c)
  | cardinality xs vs os => return cardinality (← xs.mapM f) (← vs.mapM f) (← os.mapM f)
  | table as rows => return table (← as.mapM f) rows
  | memberOfSet a s => return memberOfSet (← f a) s
  | memberOfList a vs => do
    let vs ← vs.mapM f
    return memberOfList (← f a) vs
  | xor as => return xor (← as.mapM f)
  | ifThenElse c t e => return ifThenElse (← f c) (← f t) (← f e)

theorem map_attach (f : α → β) (c : Constraint α) : (c.attach.map fun a => f a.1) = c.map f := by
  cases c <;> simp only [attach, map] <;> congr 1 <;>
    first | exact List.attach_map_val | exact List.attachWith_map_val _

theorem args_map (f : α → β) (c : Constraint α) : (c.map f).args = c.args.map f := by
  cases c <;> simp [map, args]

theorem sizeOf_lt_of_mem_args [SizeOf α] {c : Constraint α} {a : α} (h : a ∈ c.args) :
    sizeOf a < sizeOf c := by
  cases c with
  | allDifferent as =>
    rw [allDifferent.sizeOf_spec]
    have : sizeOf a < sizeOf as := List.sizeOf_lt_of_mem h
    omega
  | allDifferentExceptZero as =>
    rw [allDifferentExceptZero.sizeOf_spec]
    have : sizeOf a < sizeOf as := List.sizeOf_lt_of_mem h
    omega
  | allEqual as =>
    rw [allEqual.sizeOf_spec]
    have : sizeOf a < sizeOf as := List.sizeOf_lt_of_mem h
    omega
  | monotone o as =>
    rw [monotone.sizeOf_spec]
    have : sizeOf a < sizeOf as := List.sizeOf_lt_of_mem h
    omega
  | circuit as =>
    rw [circuit.sizeOf_spec]
    have : sizeOf a < sizeOf as := List.sizeOf_lt_of_mem h
    omega
  | subcircuit as =>
    rw [subcircuit.sizeOf_spec]
    have : sizeOf a < sizeOf as := List.sizeOf_lt_of_mem h
    omega
  | subcircuitThrough as s =>
    rw [subcircuitThrough.sizeOf_spec]
    have : sizeOf a < sizeOf as := List.sizeOf_lt_of_mem h
    omega
  | table as rows =>
    rw [table.sizeOf_spec]
    have : sizeOf a < sizeOf as := List.sizeOf_lt_of_mem h
    omega
  | xor as =>
    rw [xor.sizeOf_spec]
    have : sizeOf a < sizeOf as := List.sizeOf_lt_of_mem h
    omega
  | inverse fs bs =>
    rw [inverse.sizeOf_spec]
    rcases List.mem_append.1 h with h | h <;> have := List.sizeOf_lt_of_mem h <;> omega
  | cumulative ss ds es rs c =>
    rw [cumulative.sizeOf_spec]
    simp only [args, List.mem_append, List.mem_singleton] at h
    rcases h with (((h | h) | h) | h) | h
    · have := List.sizeOf_lt_of_mem h; omega
    · have := List.sizeOf_lt_of_mem h; omega
    · have := List.sizeOf_lt_of_mem h; omega
    · have := List.sizeOf_lt_of_mem h; omega
    · rw [h]; omega
  | cardinality xs vs os =>
    rw [cardinality.sizeOf_spec]
    simp only [args, List.mem_append] at h
    rcases h with (h | h) | h <;> have := List.sizeOf_lt_of_mem h <;> omega
  | memberOfSet b s =>
    rw [memberOfSet.sizeOf_spec, List.mem_singleton.1 h]
    omega
  | memberOfList b vs =>
    rw [memberOfList.sizeOf_spec]
    rcases List.mem_cons.1 h with h | h
    · rw [h]; omega
    · have := List.sizeOf_lt_of_mem h; omega
  | ifThenElse b t e =>
    rw [ifThenElse.sizeOf_spec]
    simp only [args, List.mem_cons, List.not_mem_nil, or_false] at h
    rcases h with h | h | h <;> rw [h] <;> omega

end Constraint

end ConstraintModel
