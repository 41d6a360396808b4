import ConstraintModel.Expr.Value
import Mathlib.Algebra.Order.Ring.Int

namespace ConstraintModel

namespace Checked

theorem ok_of_foldlM_add {values : List Int} {total n : Int}
    (h : values.foldlM add total = .ok n) : n = total + values.sum := by
  induction values generalizing total with
  | nil => cases h; simp
  | cons v values ih =>
    rw [List.foldlM_cons] at h
    obtain ⟨m, hm, h⟩ := bind_eq_ok.1 h
    rw [ih h, ← (add_eq_ok.1 hm).2, List.sum_cons]
    omega

theorem ok_of_sum {values : List Int} {n : Int} (h : sum values = .ok n) : n = values.sum := by
  simpa using ok_of_foldlM_add h

/-- No partial sum is larger than the sum of the magnitudes. -/
theorem foldlM_add_eq_ok {values : List Int} {total : Int}
    (h : total.natAbs + (values.map Int.natAbs).sum < limit) : values.foldlM add total = .ok (total + values.sum) := by
  induction values generalizing total with
  | nil => simp [pure, Except.pure]
  | cons v values ih =>
    simp only [List.map_cons, List.sum_cons] at h ih ⊢
    have hadd : add total v = .ok (total + v) := add_eq_ok.2 ⟨fits_of_natAbs_lt (by omega), rfl⟩
    rw [List.foldlM_cons, ← Int.add_assoc]
    exact bind_eq_ok.2 ⟨total + v, hadd, ih (by omega)⟩

end Checked

namespace Exact

variable {α β : Type}

def truth (v : Option Int) : Option Bool := v.map (· != 0)

def ofTruth (b : Option Bool) : Option Int := b.map Bool.toInt

def connective (absorbing : Bool) (vs : List (Option Int)) : Option Bool :=
  if some absorbing ∈ vs.map truth then some absorbing
  else if none ∈ vs.map truth then none
  else some !absorbing

def conjunction : List (Option Int) → Option Bool := connective false

def disjunction : List (Option Int) → Option Bool := connective true

def implication (a b : Option Int) : Option Bool :=
  (truth a).bind fun holds => if holds then truth b else some true

def sum (vs : List (Option Int)) : Option Int := (vs.mapM id).map List.sum

def weightedSum (ts : List (Int × Option Int)) : Option Int :=
  (ts.mapM fun t : Int × Option Int => t.2.map (t.1 * ·)).map List.sum

theorem foldlM_eq_sum {γ : Type} (as : List γ) (g : γ → Option Int) (n : Int) :
    as.foldlM (fun total a => (g a).map (total + ·)) n = (as.mapM g).map (n + ·.sum) := by
  induction as generalizing n with
  | nil => simp
  | cons a as ih =>
    rw [List.foldlM_cons, List.mapM_cons]
    cases g a with
    | none => rfl
    | some m =>
      simp only [Option.map_some, Option.bind_eq_bind, Option.bind_some, ih]
      cases as.mapM g <;> simp [Int.add_assoc]

def comparison (r : Relation) (assigned : Bool) (a b : Option Int) : Option Bool :=
  match a, b with
  | some m, some n => some (r.holds m n)
  | _, _ => if assigned then some false else none

end Exact

namespace Cumulative

def load (start finish demand : List Int) (time : Int) : Int :=
  (((start.zip (finish.zip demand)).filter fun (s, e, _) => s ≤ time && time < e).map
    fun (_, _, r) => r).sum

def fits (start duration finish demand : List Int) (capacity : Int) : Bool :=
  ((start.zip (duration.zip finish)).all fun (s, d, e) => s + d == e) &&
    match start.min?, finish.max? with
    | some first, some last =>
      (Bounds.mk first last).values.all fun t => decide (load start finish demand t ≤ capacity)
    | _, _ => true

end Cumulative

def Constraint.exact : Constraint (Option Int) → Option Bool
  | allDifferent as => return AllDifferent.holds (← as.mapM id)
  | allDifferentExceptZero as => return AllDifferentExceptZero.holds (← as.mapM id)
  | allEqual as => return AllEqual.holds (← as.mapM id)
  | monotone order as => return order.holds (← as.mapM id)
  | circuit succ => return Circuit.holds (← succ.mapM id)
  | subcircuit succ => return Subcircuit.holds (← succ.mapM id)
  | subcircuitThrough succ start => do
    let first ← (succ[start]?).getD none
    return Subcircuit.holds (← succ.mapM id) && first != start
  | inverse fs bs => return Inverse.holds (← fs.mapM id) (← bs.mapM id)
  | cumulative ss ds es rs capacity => do
    return Cumulative.fits (← ss.mapM id) (← ds.mapM id) (← es.mapM id) (← rs.mapM id) (← capacity)
  | cardinality xs vs ns =>
    return Cardinality.holds (← xs.mapM id) (← vs.mapM id) (← ns.mapM id)
  | table xs rows => return Table.holds (← xs.mapM id) rows
  | memberOfSet a set => return set.contains (← a)
  | memberOfList a vs => do
    let n ← a
    return (← vs.mapM id).contains n
  | xor as => return (← as.mapM id).sum.tmod 2 == 1
  | ifThenElse c t e => do if ← Exact.truth c then Exact.truth t else Exact.truth e

def Function.exact : Function (Option Int) → Option Int
  | abs a => return (← a).natAbs
  | minimum as => do (← as.mapM id).min?
  | maximum as => do (← as.mapM id).max?
  | count as v => do
    let n ← v
    return Count.value (← as.mapM id) n
  | distinct as => return Distinct.value (← as.mapM id)
  | element as i => do (entryAt? as (← i)).getD none

/-- The value of an expression when no operation can overflow. -/
def Expr.exact (s : Assignment) (e : Expr) : Option Int :=
  match e with
  | bool b => some b.toInt
  | int n => some n
  | var x => s.value? x
  | negVar x => (s.value? x).map (1 - ·)
  | and as => Exact.ofTruth (Exact.conjunction (as.map (exact s)))
  | or as => Exact.ofTruth (Exact.disjunction (as.map (exact s)))
  | implies a b => Exact.ofTruth (Exact.implication (a.exact s) (b.exact s))
  | not a => Exact.ofTruth ((Exact.truth (a.exact s)).map Bool.not)
  | sum as => Exact.sum (as.map (exact s))
  | wsum ts => Exact.weightedSum (ts.map fun t => (t.1, t.2.exact s))
  | sub a b => (a.exact s).bind fun m => (b.exact s).map (m - ·)
  | mul a b => (a.exact s).bind fun m => (b.exact s).map (m * ·)
  | neg a => (a.exact s).map (- ·)
  | cmp r a b =>
    Exact.ofTruth (Exact.comparison r ((cmp r a b).vars.all s.assigns) (a.exact s) (b.exact s))
  | constraint c => Exact.ofTruth (c.attach.map fun ⟨a, _⟩ => a.exact s).exact
  | function g => (g.attach.map fun ⟨a, _⟩ => a.exact s).exact
  | call _ => none
termination_by sizeOf e
decreasing_by
  all_goals simp_wf
  all_goals first
    | omega
    | (have hlt := sizeOf_lt_of_mem_terms ‹_ ∈ ts›; omega)
    | (have hlt := List.sizeOf_lt_of_mem ‹_ ∈ as›; omega)
    | (have hlt := Constraint.sizeOf_lt_of_mem_args ‹_ ∈ c.args›; omega)
    | (have hlt := Function.sizeOf_lt_of_mem_args ‹_ ∈ g.args›; omega)

namespace Expr

variable (s : Assignment)

/-- The value of an expression from the values of its arguments. -/
theorem exact_eq (e : Expr) : e.exact s = match e with
    | bool b => some b.toInt
    | int n => some n
    | var x => s.value? x
    | negVar x => (s.value? x).map (1 - ·)
    | and as => Exact.ofTruth (Exact.conjunction (as.map (exact s)))
    | or as => Exact.ofTruth (Exact.disjunction (as.map (exact s)))
    | implies a b => Exact.ofTruth (Exact.implication (a.exact s) (b.exact s))
    | not a => Exact.ofTruth ((Exact.truth (a.exact s)).map Bool.not)
    | sum as => Exact.sum (as.map (exact s))
    | wsum ts => Exact.weightedSum (ts.map fun t => (t.1, t.2.exact s))
    | sub a b => (a.exact s).bind fun m => (b.exact s).map (m - ·)
    | mul a b => (a.exact s).bind fun m => (b.exact s).map (m * ·)
    | neg a => (a.exact s).map (- ·)
    | cmp r a b =>
      Exact.ofTruth (Exact.comparison r ((cmp r a b).vars.all s.assigns) (a.exact s) (b.exact s))
    | constraint c => Exact.ofTruth (c.map (exact s)).exact
    | function g => (g.map (exact s)).exact
    | call _ => none := by
  cases e with
  | constraint c => rw [exact, c.map_attach]
  | function g => rw [exact, g.map_attach]
  | _ => rw [exact]

@[simp] theorem exact_bool (b : Bool) : (bool b).exact s = some b.toInt := exact_eq s _

@[simp] theorem exact_int (n : Int) : (int n).exact s = some n := exact_eq s _

@[simp] theorem exact_var (x : Variable) : (var x).exact s = s.value? x := exact_eq s _

@[simp] theorem exact_negVar (x : Variable) :
    (negVar x).exact s = (s.value? x).map (1 - ·) := exact_eq s _

theorem exact_and (as : List Expr) :
    (and as).exact s = Exact.ofTruth (Exact.conjunction (as.map (exact s))) := exact_eq s _

theorem exact_or (as : List Expr) :
    (or as).exact s = Exact.ofTruth (Exact.disjunction (as.map (exact s))) := exact_eq s _

theorem exact_implies (a b : Expr) : (implies a b).exact s =
    Exact.ofTruth (Exact.implication (a.exact s) (b.exact s)) := exact_eq s _

theorem exact_not (a : Expr) :
    (not a).exact s = Exact.ofTruth ((Exact.truth (a.exact s)).map Bool.not) := exact_eq s _

theorem exact_sum (as : List Expr) : (sum as).exact s = Exact.sum (as.map (exact s)) :=
  exact_eq s _

theorem exact_wsum (ts : List (Int × Expr)) :
    (wsum ts).exact s = Exact.weightedSum (ts.map fun t => (t.1, t.2.exact s)) := exact_eq s _

theorem exact_sub (a b : Expr) : (sub a b).exact s =
    (a.exact s).bind fun m => (b.exact s).map (m - ·) := exact_eq s _

theorem exact_mul (a b : Expr) : (mul a b).exact s =
    (a.exact s).bind fun m => (b.exact s).map (m * ·) := exact_eq s _

theorem exact_neg (a : Expr) : (neg a).exact s = (a.exact s).map (- ·) := exact_eq s _

theorem exact_cmp (r : Relation) (a b : Expr) : (cmp r a b).exact s = Exact.ofTruth
    (Exact.comparison r ((cmp r a b).vars.all s.assigns) (a.exact s) (b.exact s)) := exact_eq s _

theorem exact_constraint (c : Constraint Expr) :
    (constraint c).exact s = Exact.ofTruth (c.map (exact s)).exact := exact_eq s _

theorem exact_function (g : Function Expr) :
    (function g).exact s = (g.map (exact s)).exact := exact_eq s _

@[simp] theorem exact_call (d : Call Expr) : (call d).exact s = none := exact_eq s _

end Expr

end ConstraintModel
