import ConstraintModel.Proofs.Positions
import ConstraintModel.Proofs.Sound

namespace ConstraintModel

theorem entryAt?_eq_some {α : Type} {as : List α} {i : Int} {a : α} :
    entryAt? as i = some a ↔ 0 ≤ i ∧ as[i.toNat]? = some a := by
  unfold entryAt?
  split <;> simp_all

theorem entryAt?_eq_none {α : Type} {as : List α} {i : Int} :
    entryAt? as i = none ↔ ¬(0 ≤ i ∧ i < as.length) := by
  unfold entryAt?
  split
  · rw [List.getElem?_eq_none_iff]
    omega
  · simp_all

theorem mem_indexed_iff {α : Type} {as : List α} {i : Int} {a : α} :
    (i, a) ∈ indexed as ↔ entryAt? as i = some a := by
  rw [mem_indexed, entryAt?_eq_some]
  constructor
  · rintro ⟨k, rfl, h⟩
    exact ⟨Int.natCast_nonneg k, by rwa [Int.toNat_natCast]⟩
  · rintro ⟨h0, h⟩
    exact ⟨i.toNat, (Int.toNat_of_nonneg h0).symm, h⟩

/-- The entries of an interval are found by their distance to its lower end. -/
theorem entryAt?_values {b : Bounds} {n : Int} (h : n ∈ b) : entryAt? b.values (n - b.lower) = some n := by
  rw [Bounds.mem_iff] at h
  have hlt : (n - b.lower).toNat < (b.upper - b.lower + 1).toNat := by omega
  rw [entryAt?_eq_some, Bounds.values, List.getElem?_map, List.getElem?_range hlt]
  refine ⟨by omega, ?_⟩
  rw [Option.map_some, Option.some_inj]
  omega

theorem Bounds.length_values (b : Bounds) : b.values.length = (b.upper - b.lower + 1).toNat := by
  simp [values]

namespace Expr

variable {q : Prop} {w : World} {s : Assignment} {e x : Expr} {as : List Expr} {length : Nat}

theorem values_num (h : ∀ a ∈ as, a.Valued s) : (as.map (exact s)).mapM id = some (as.map (num s)) := by
  rw [Exact.values_eq_some, List.forall₂_map_right_iff, List.forall₂_same]
  exact fun a ha => (h a ha).exact_eq

@[simp] theorem num_int {n : Int} : (int n).num s = n := num_eq (exact_int ..)

theorem num_sub {a b : Expr} (ha : a.Valued s) (hb : b.Valued s) :
    (sub a b).exact s = some (a.num s - b.num s) := by
  rw [exact_sub, ha.exact_eq, hb.exact_eq]
  rfl

theorem exact_element {i a : Expr} {n : Int} (hi : i.exact s = some n) (ha : entryAt? as n = some a) :
    (function (.element as i)).exact s = a.exact s := by
  simp [exact_function, Function.map, Function.exact, hi, entryAt?_map, ha]

theorem holds_allDifferent (h : ∀ a ∈ as, a.Valued s) :
    (constraint (.allDifferent as)).Holds s ↔ (as.map (num s)).Nodup := by
  simp [holds_constraint, Constraint.map, Constraint.exact, values_num h, AllDifferent.holds]

theorem exact_circuit (h : ∀ a ∈ as, a.Valued s) :
    (constraint (.circuit as)).exact s = some (Circuit.holds (as.map (num s))).toInt := by
  simp [exact_constraint, Constraint.map, Constraint.exact, values_num h, Exact.ofTruth]

/-- The guards restrict a value in the range of the expression to the positions
of a list. -/
theorem holds_guards (hv : x.Valued s) (hr : x.num s ∈ x.range) :
    (∀ g ∈ x.guards length, g.Holds s) ↔ 0 ≤ x.num s ∧ x.num s < length := by
  have hint (n : Int) : (int n).Valued s := valued_of_eq (exact_int ..)
  rw [Bounds.mem_iff] at hr
  unfold guards
  split_ifs
  · simp [holds_cmp_num hv (hint _), Relation.holds]
  · simp only [List.append_nil, List.forall_mem_singleton, holds_cmp_num hv (hint _), Relation.holds, num_int,
      decide_eq_true_eq]
    omega
  · simp only [List.nil_append, List.forall_mem_singleton, holds_cmp_num hv (hint _), Relation.holds, num_int,
      decide_eq_true_eq]
    omega
  · simp only [List.append_nil, List.not_mem_nil, false_imp_iff, implies_true, true_iff]
    omega

theorem mem_guards {g : Expr} (h : g ∈ x.guards length) :
    g = cmp .ge x (int 0) ∨ g = cmp .lt x (int length) := by
  unfold guards at h
  split_ifs at h <;> simp_all

theorem sound_guards (h : x.Sound q w) : ∀ g ∈ x.guards length, g.isBool ∧ g.Sound q w := by
  intro g hg
  rcases mem_guards hg with rfl | rfl <;> exact ⟨rfl, sound_cmp h sound_int⟩

end Expr

theorem Bounds.subset_union_left (b c : Bounds) : b ⊆ b.union c := ⟨min_le_left .., le_max_left ..⟩

theorem Bounds.subset_union_right (b c : Bounds) : c ⊆ b.union c := ⟨min_le_right .., le_max_right ..⟩

theorem subset_hullAround (args : List Expr) (b : Bounds) : b ⊆ hullAround args b := by
  unfold hullAround
  induction args generalizing b with
  | nil => exact Bounds.subset_refl b
  | cons c args ih => exact Bounds.subset_trans (b.subset_union_left _) (ih _)

/-- Every range lies in the hull around the ranges. -/
theorem range_subset_hullAround {args : List Expr} {a : Expr} (h : a ∈ args) (b : Bounds) :
    a.range ⊆ hullAround args b := by
  induction args generalizing b with
  | nil => cases h
  | cons c args ih =>
    rcases List.mem_cons.1 h with rfl | h
    · exact Bounds.subset_trans (b.subset_union_right _) (subset_hullAround args _)
    · exact ih h _

end ConstraintModel
