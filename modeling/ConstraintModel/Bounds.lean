import ConstraintModel.Checked

namespace ConstraintModel

structure Bounds where
  lower : Int
  upper : Int
  deriving DecidableEq, Repr

namespace Bounds

def point (n : Int) : Bounds := ⟨n, n⟩

def boolean : Bounds := ⟨0, 1⟩

instance : Membership Int Bounds := ⟨fun b n => b.lower ≤ n ∧ n ≤ b.upper⟩

instance (n : Int) (b : Bounds) : Decidable (n ∈ b) :=
  inferInstanceAs (Decidable (b.lower ≤ n ∧ n ≤ b.upper))

def values (b : Bounds) : List Int :=
  (List.range (b.upper - b.lower + 1).toNat).map (fun k : Nat => b.lower + k)

def add (a b : Bounds) : Checked Bounds :=
  return ⟨← Checked.add a.lower b.lower, ← Checked.add a.upper b.upper⟩

def sub (a b : Bounds) : Checked Bounds :=
  return ⟨← Checked.sub a.lower b.upper, ← Checked.sub a.upper b.lower⟩

def neg (b : Bounds) : Checked Bounds :=
  return ⟨← Checked.neg b.upper, ← Checked.neg b.lower⟩

def scale (w : Int) (b : Bounds) : Checked Bounds :=
  if 0 ≤ w then
    return ⟨← Checked.mul w b.lower, ← Checked.mul w b.upper⟩
  else
    return ⟨← Checked.mul w b.upper, ← Checked.mul w b.lower⟩

def mul (a b : Bounds) : Checked Bounds := do
  let p ← Checked.mul a.lower b.lower
  let q ← Checked.mul a.lower b.upper
  let r ← Checked.mul a.upper b.lower
  let s ← Checked.mul a.upper b.upper
  return ⟨min (min p q) (min r s), max (max p q) (max r s)⟩

def complement (b : Bounds) : Checked Bounds :=
  return ⟨← Checked.complement b.upper, ← Checked.complement b.lower⟩

def abs (b : Bounds) : Checked Bounds :=
  if 0 ≤ b.lower then
    return b
  else if b.upper ≤ 0 then
    b.neg
  else
    return ⟨0, max b.upper (← Checked.neg b.lower)⟩

def sum (summands : List Bounds) : Checked Bounds := summands.foldlM add (point 0)

def union (a b : Bounds) : Bounds := ⟨min a.lower b.lower, max a.upper b.upper⟩

def least (bs : List Bounds) : Option Int := (bs.map lower).min?

def greatest (bs : List Bounds) : Option Int := (bs.map upper).max?

def hull? (bs : List Bounds) : Option Bounds := do
  return ⟨← least bs, ← greatest bs⟩

def minimum (bs : List Bounds) : Bounds :=
  ⟨(least bs).getD 0, ((bs.map upper).min?).getD 0⟩

def maximum (bs : List Bounds) : Bounds :=
  ⟨((bs.map lower).max?).getD 0, (greatest bs).getD 0⟩

theorem mem_iff {b : Bounds} {n : Int} : n ∈ b ↔ b.lower ≤ n ∧ n ≤ b.upper := Iff.rfl

theorem mem_values {b : Bounds} {n : Int} : n ∈ b.values ↔ n ∈ b := by
  simp only [values, List.mem_map, List.mem_range, mem_iff]
  constructor
  · rintro ⟨k, hk, rfl⟩
    omega
  · rintro ⟨hl, hu⟩
    exact ⟨(n - b.lower).toNat, by omega, by omega⟩

end Bounds

end ConstraintModel
