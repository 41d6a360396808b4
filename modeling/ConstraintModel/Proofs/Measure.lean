import ConstraintModel.Expr.Nesting
import ConstraintModel.Proofs.WellFormed

namespace ConstraintModel

theorem le_greatest_map {α : Type} {f : α → Nat} {l : List α} {a : α} (h : a ∈ l) :
    f a ≤ greatest (l.map f) := le_greatest (List.mem_map_of_mem h)

theorem greatest_map_le {α : Type} {f : α → Nat} {as : List α} {n : Nat}
    (h : ∀ a ∈ as, f a ≤ n) : greatest (as.map f) ≤ n :=
  greatest_le (by simpa using h)

/-- The same data apart from the arguments, and as many of these. -/
theorem Constraint.weight_eq {α β : Type} {c : Constraint α} {d : Constraint β}
    (h : c.map (fun _ => ()) = d.map fun _ => ()) : c.weight = d.weight := by
  cases c <;> cases d <;> simp [map] at h <;> simp_all [weight]

theorem Constraint.weight_pos {α : Type} (c : Constraint α) : 0 < c.weight := by
  cases c <;> simp [weight]

namespace Expr

section Height

variable {e a b : Expr} {as : List Expr}

theorem height_of_isSimple (h : e.isSimple) : e.height = 1 := by
  cases e with
  | bool _ | int _ | var _ | negVar _ => rw [height.eq_def]
  | _ => cases h

@[simp] theorem height_not : (not a).height = a.height + 1 := by rw [height]

theorem height_eq (hs : e.isSimple = false) (hn : e.isNot = false) :
    e.height = greatest (e.args.map height) + 2 := by
  rw [height.eq_def]
  cases e with
  | bool _ | int _ | var _ | negVar _ => cases hs
  | not _ => cases hn
  | _ => simp [List.map_subtype, List.unattach_attach]

theorem height_arg (ha : a ∈ e.args) (hn : e.isNot = false) : a.height + 2 ≤ e.height := by
  have hs : e.isSimple = false := by cases e <;> first | rfl | simp [args] at ha
  have : a.height ≤ _ := le_greatest_map ha
  rw [height_eq hs hn]
  omega

theorem one_le_height (e : Expr) : 1 ≤ e.height := by
  rw [height.eq_def]
  split <;> omega

theorem height_negated_le (e : Expr) : e.negated.height ≤ e.height + 1 := by
  induction e using induction_args with
  | h e ih =>
    have list {as : List Expr} (has : ∀ a ∈ as, a.negated.height ≤ a.height + 1) :
        greatest ((as.map negated).map height) ≤ greatest (as.map height) + 1 := by
      rw [List.map_map]
      exact greatest_map_le fun a ha => (has a ha).trans (Nat.succ_le_succ (le_greatest_map ha))
    cases e with
    | and as =>
      have := list ih
      rw [negated_and, height_eq rfl rfl, height_eq rfl rfl]
      simp only [args] at *
      omega
    | or as =>
      have := list ih
      rw [negated_or, height_eq rfl rfl, height_eq rfl rfl]
      simp only [args] at *
      omega
    | implies a b =>
      have := ih b (by simp [args])
      rw [negated_implies, height_eq rfl rfl, height_eq rfl rfl]
      simp only [args, List.map_cons, List.map_nil, greatest, List.foldr_cons, List.foldr_nil]
      omega
    | bool _ => rw [negated_bool, height_of_isSimple rfl, height_of_isSimple rfl]; omega
    | negVar _ => rw [negated_negVar, height_of_isSimple rfl, height_of_isSimple rfl]; omega
    | not _ => rw [negated_not, height_not]; omega
    | cmp r a b => rw [negated_cmp, height_eq rfl rfl, height_eq rfl rfl]; simp [args]
    | var x =>
      rw [negated]
      split
      · rw [height_of_isSimple rfl, height_of_isSimple rfl]; omega
      · rw [height_not]
    | int _ | sum _ | wsum _ | sub _ _ | mul _ _ | neg _ | constraint _ | function _ | call _ =>
      rw [negated, height_not] <;> simp

end Height

section Nesting

variable {k n : Nat} {e a b : Expr} {as : List Expr}

/-- The nesting of an expression from the nesting of its arguments. -/
theorem nesting_eq (e : Expr) : e.nesting k = match e with
    | bool _ | int _ | var _ | negVar _ | call _ => 0
    | constraint c => c.weight + 8 * greatest (c.args.map (nesting k))
    | function g => 8 + 4 * greatest (g.args.map (nesting k))
    | cmp _ a b | implies a b => k + a.nesting k + b.nesting k
    | e => k + greatest (e.args.map (nesting k)) := by
  rw [nesting.eq_def]
  cases e <;> simp [List.map_subtype, List.unattach_attach]

theorem nesting_of_isSimple (h : e.isSimple) : e.nesting k = 0 := by
  cases e with
  | bool _ | int _ | var _ | negVar _ => exact nesting_eq _
  | _ => cases h

@[simp] theorem nesting_var {x : Variable} : (var x).nesting k = 0 := nesting_eq _

@[simp] theorem nesting_negVar {x : Variable} : (negVar x).nesting k = 0 := nesting_eq _

@[simp] theorem nesting_int {n : Int} : (int n).nesting k = 0 := nesting_eq _

@[simp] theorem nesting_bool {b : Bool} : (bool b).nesting k = 0 := nesting_eq _

@[simp] theorem nesting_constraint {c : Constraint Expr} :
    (constraint c).nesting k = c.weight + 8 * greatest (c.args.map (nesting k)) := nesting_eq _

@[simp] theorem nesting_function {g : Function Expr} :
    (function g).nesting k = 8 + 4 * greatest (g.args.map (nesting k)) := nesting_eq _

@[simp] theorem nesting_cmp {r : Relation} :
    (cmp r a b).nesting k = k + a.nesting k + b.nesting k := nesting_eq _

@[simp] theorem nesting_implies : (implies a b).nesting k = k + a.nesting k + b.nesting k :=
  nesting_eq _

@[simp] theorem nesting_and : (and as).nesting k = k + greatest (as.map (nesting k)) := nesting_eq _

@[simp] theorem nesting_or : (or as).nesting k = k + greatest (as.map (nesting k)) := nesting_eq _

@[simp] theorem nesting_not : (not a).nesting k = k + a.nesting k := by
  simp [nesting_eq (not a), args, greatest]

@[simp] theorem nesting_sum : (sum as).nesting k = k + greatest (as.map (nesting k)) := nesting_eq _

@[simp] theorem nesting_wsum {ts : List (Int × Expr)} :
    (wsum ts).nesting k = k + greatest (ts.map fun t => t.2.nesting k) := by
  simp [nesting_eq (wsum ts), args, Function.comp_def]

@[simp] theorem nesting_sub : (sub a b).nesting k = k + max (a.nesting k) (b.nesting k) := by
  simp [nesting_eq (sub a b), args, greatest]

@[simp] theorem nesting_mul : (mul a b).nesting k = k + max (a.nesting k) (b.nesting k) := by
  simp [nesting_eq (mul a b), args, greatest]

@[simp] theorem nesting_neg : (neg a).nesting k = k + a.nesting k := by
  simp [nesting_eq (neg a), args, greatest]

theorem nesting_arg_add (ha : a ∈ e.args) (he : ∀ d, e ≠ call d) :
    a.nesting k + min 1 k ≤ e.nesting k := by
  cases e with
  | bool _ | int _ | var _ | negVar _ => simp [args] at ha
  | constraint c =>
    have := le_greatest_map (f := nesting k) (l := c.args) ha
    have := c.weight_pos
    rw [nesting_constraint]
    omega
  | function g =>
    have := le_greatest_map (f := nesting k) (l := g.args) ha
    rw [nesting_function]
    omega
  | and as | or as | sum as =>
    have := le_greatest_map (f := nesting k) (l := as) ha
    simp only [nesting_and, nesting_or, nesting_sum]
    omega
  | wsum ts =>
    obtain ⟨t, ht, rfl⟩ := List.mem_map.1 ha
    have := le_greatest_map (f := fun t : Int × Expr => t.2.nesting k) ht
    rw [nesting_wsum]
    omega
  | implies x y | cmp _ x y | sub x y | mul x y =>
    simp only [args, List.mem_cons, List.not_mem_nil, or_false] at ha
    rcases ha with rfl | rfl <;> simp only [nesting_implies, nesting_cmp, nesting_sub, nesting_mul] <;>
      omega
  | not x | neg x =>
    simp only [args, List.mem_cons, List.not_mem_nil, or_false] at ha
    subst ha
    simp only [nesting_not, nesting_neg]
    omega
  | call d => exact absurd rfl (he d)

theorem nesting_arg (ha : a ∈ e.args) (he : ∀ d, e ≠ call d) : a.nesting k ≤ e.nesting k := by
  have := nesting_arg_add (k := k) ha he
  omega

theorem nesting_all_le (h : ∀ a ∈ as, a.nesting k ≤ n) : (all as).nesting k ≤ k + n := by
  match as with
  | [] => simp [all]
  | [a] => exact (h a (List.mem_singleton_self a)).trans (Nat.le_add_left _ _)
  | a :: b :: as =>
    change (and (a :: b :: as)).nesting k ≤ k + n
    rw [nesting_and]
    exact Nat.add_le_add_left (greatest_map_le h) k

theorem nesting_any_le (h : ∀ a ∈ as, a.nesting k ≤ n) : (any as).nesting k ≤ k + n := by
  match as with
  | [] => simp [any]
  | [a] => exact (h a (List.mem_singleton_self a)).trans (Nat.le_add_left _ _)
  | a :: b :: as =>
    change (or (a :: b :: as)).nesting k ≤ k + n
    rw [nesting_or]
    exact Nat.add_le_add_left (greatest_map_le h) k

theorem nesting_negated_le (e : Expr) : e.negated.nesting k ≤ e.nesting k + k := by
  induction e using induction_args with
  | h e ih =>
    have list (l : List Expr) (hl : ∀ a ∈ l, a.negated.nesting k ≤ a.nesting k + k) :
        greatest ((l.map negated).map (nesting k)) ≤ greatest (l.map (nesting k)) + k := by
      rw [List.map_map]
      exact greatest_map_le fun a ha => (hl a ha).trans (Nat.add_le_add_right (le_greatest_map ha) k)
    cases e with
    | and as =>
      have := list as ih
      rw [negated_and, nesting_or, nesting_and]
      omega
    | or as =>
      have := list as ih
      rw [negated_or, nesting_or, nesting_and]
      omega
    | implies a b =>
      have := ih b (by simp [args])
      simp only [negated_implies, nesting_and, nesting_implies, List.map_cons, List.map_nil, greatest,
        List.foldr_cons, List.foldr_nil]
      omega
    | bool _ => simp
    | negVar _ => simp
    | not _ => rw [negated_not, nesting_not]; omega
    | cmp r a b => simp
    | var x =>
      rw [negated]
      split <;> simp
    | int _ | sum _ | wsum _ | sub _ _ | mul _ _ | neg _ | constraint _ | function _ | call _ =>
      rw [negated, nesting_not] <;> first | omega | simp

end Nesting

end Expr

end ConstraintModel
