namespace ConstraintModel

inductive Overflow where
  | overflow
  deriving DecidableEq, Repr

abbrev Checked := Except Overflow

namespace Checked

def limit : Int := 9223372036854775808

def Fits (n : Int) : Prop := -limit ≤ n ∧ n < limit

instance (n : Int) : Decidable (Fits n) := inferInstanceAs (Decidable (_ ∧ _))

/-- Every operation computes its exact result and fails when that does not
fit. Integers themselves are unbounded. -/
def ofInt (n : Int) : Checked Int := if Fits n then .ok n else .error .overflow

def add (a b : Int) : Checked Int := ofInt (a + b)

def sub (a b : Int) : Checked Int := ofInt (a - b)

def mul (a b : Int) : Checked Int := ofInt (a * b)

def neg (a : Int) : Checked Int := ofInt (-a)

def abs (a : Int) : Checked Int := ofInt a.natAbs

/-- Partial sums are taken from the left, and each of them has to fit. -/
def sum (values : List Int) : Checked Int := values.foldlM add 0

/-- The value `1 - a` of a negated view, computed as `a * -1 + 1`. -/
def complement (a : Int) : Checked Int := do add (← mul a (-1)) 1

theorem bind_eq_ok {α β : Type} {a : Checked α} {f : α → Checked β} {b : β} :
    a >>= f = .ok b ↔ ∃ x, a = .ok x ∧ f x = .ok b := by
  cases a with
  | error e => simp [bind, Except.bind]
  | ok x => simp [bind, Except.bind]

theorem ofInt_eq_ok {n m : Int} : ofInt n = .ok m ↔ Fits n ∧ n = m := by
  unfold ofInt
  split <;> simp_all

theorem add_eq_ok {a b c : Int} : add a b = .ok c ↔ Fits (a + b) ∧ a + b = c := ofInt_eq_ok

theorem sub_eq_ok {a b c : Int} : sub a b = .ok c ↔ Fits (a - b) ∧ a - b = c := ofInt_eq_ok

theorem mul_eq_ok {a b c : Int} : mul a b = .ok c ↔ Fits (a * b) ∧ a * b = c := ofInt_eq_ok

theorem neg_eq_ok {a c : Int} : neg a = .ok c ↔ Fits (-a) ∧ -a = c := ofInt_eq_ok

theorem fits_of_natAbs_lt {n : Int} (h : n.natAbs < limit) : Fits n := ⟨by omega, by omega⟩

theorem ok_of_complement {a n : Int} (h : complement a = .ok n) : n = 1 - a := by
  obtain ⟨m, hm, h⟩ := bind_eq_ok.1 h
  have := (mul_eq_ok.1 hm).2
  have := (add_eq_ok.1 h).2
  omega

theorem complement_eq_ok {a : Int} (hneg : Fits (-a)) (hsub : Fits (1 - a)) : complement a = .ok (1 - a) := by
  refine bind_eq_ok.2 ⟨-a, mul_eq_ok.2 ⟨?_, ?_⟩, add_eq_ok.2 ⟨?_, ?_⟩⟩
  · rwa [Int.mul_neg_one]
  · exact Int.mul_neg_one a
  · rwa [Int.add_comm, ← Int.sub_eq_add_neg]
  · rw [Int.add_comm, ← Int.sub_eq_add_neg]

end Checked

end ConstraintModel
