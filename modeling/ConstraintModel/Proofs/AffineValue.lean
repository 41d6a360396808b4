import ConstraintModel.Form.Affine
import ConstraintModel.Proofs.Stands
import Mathlib.Algebra.GroupWithZero.Action.Defs
import Mathlib.Tactic.Ring

namespace ConstraintModel

namespace Bounds

variable {a b : Bounds} {v w n : Int}

instance : AddCommMonoid Bounds where
  add_assoc _ _ _ := by simp [add_def, add_assoc]
  add_comm _ _ := by simp [add_def, add_comm]
  zero_add _ := by simp [add_def, zero_def]
  add_zero _ := by simp [add_def, zero_def]
  nsmul := nsmulRec

theorem mul_smul_eq (w v : Int) (a : Bounds) : (w * v) • a = w • (v • a) := by
  simp only [smul_def]
  rcases lt_trichotomy w 0 with hw | rfl | hw
  · rcases lt_trichotomy v 0 with hv | rfl | hv
    · rw [if_neg (by omega : ¬0 ≤ v), if_neg (by omega : ¬0 ≤ w),
        if_pos (mul_nonneg_of_nonpos_of_nonpos hw.le hv.le)]
      simp [mul_assoc]
    · simp
    · rw [if_pos (by omega : 0 ≤ v), if_neg (by omega : ¬0 ≤ w),
        if_neg (not_le.2 (mul_neg_of_neg_of_pos hw hv))]
      simp [mul_assoc]
  · simp
  · rcases lt_trichotomy v 0 with hv | rfl | hv
    · rw [if_neg (by omega : ¬0 ≤ v), if_pos (by omega : 0 ≤ w),
        if_neg (not_le.2 (mul_neg_of_pos_of_neg hw hv))]
      simp [mul_assoc]
    · simp
    · rw [if_pos (by omega : 0 ≤ v), if_pos (by omega : 0 ≤ w), if_pos (mul_nonneg hw.le hv.le)]
      simp [mul_assoc]

instance : DistribMulAction Int Bounds where
  one_smul _ := by simp [smul_def]
  mul_smul := mul_smul_eq
  smul_zero _ := by simp [smul_def, zero_def]
  smul_add w _ _ := by
    simp only [smul_def, add_def]
    split <;> simp only [mul_add]

theorem zero_smul_eq (a : Bounds) : (0 : Int) • a = 0 := by simp [smul_def, zero_def]

theorem smul_point (w n : Int) : w • point n = point (w * n) := by simp [smul_def, point]

theorem point_zero : point 0 = 0 := rfl

theorem point_add (m n : Int) : point (m + n) = point m + point n := rfl

theorem neg_eq_smul (a : Bounds) : -a = (-1 : Int) • a := by simp [smul_def, neg_def]

theorem point_mul (n : Int) (h : b.lower ≤ b.upper) : point n * b = n • b := by
  simp only [mul_def, smul_def, point, min_self, max_self]
  split
  · have := Int.mul_le_mul_of_nonneg_left h ‹0 ≤ n›
    rw [min_eq_left this, max_eq_right this]
  · have := Int.mul_le_mul_of_nonpos_left (show n ≤ 0 by omega) h
    rw [min_eq_right this, max_eq_left this]

theorem mul_point (n : Int) (h : b.lower ≤ b.upper) : b * point n = n • b := by
  rw [← point_mul n h]
  simp only [mul_def, point, min_self, max_self, mul_comm n]

end Bounds

namespace Affine

def total (f : Affine) (s : Assignment) : Int :=
  (f.terms.toList.map fun t => t.1 * t.2.num s).sum + f.constant

def range (f : Affine) : Bounds :=
  (f.terms.toList.map fun t => t.1 • t.2.range).sum + .point f.constant

end Affine

namespace Expr

variable {s : Assignment} {e : Expr} {n : Int}

theorem exact_of_constant (h : e.constant? = some n) : e.exact s = some n := by
  cases e <;> simp_all [constant?]

theorem num_of_constant (h : e.constant? = some n) : e.num s = n := num_eq (exact_of_constant h)

theorem range_of_constant (h : e.constant? = some n) : e.range = .point n := by
  cases e with
  | bool b =>
    cases h
    rw [range]
  | int m =>
    cases h
    rw [range]
  | _ => cases h

theorem exact_sum_num {as : List Expr} (h : ∀ a ∈ as, a.Valued s) :
    (sum as).exact s = some (as.map (num s)).sum := by
  have hvalues : (as.map (exact s)).mapM id = some (as.map (num s)) := by
    rw [Exact.values_eq_some, List.forall₂_map_right_iff, List.forall₂_same]
    exact fun a ha => (h a ha).exact_eq
  rw [exact_sum, Exact.sum, hvalues]
  rfl

theorem exact_wsum_num {ts : List (Int × Expr)} (h : ∀ t ∈ ts, t.2.Valued s) :
    (wsum ts).exact s = some (ts.map fun t => t.1 * t.2.num s).sum := by
  have hvalues : (ts.map fun t => (t.1, t.2.exact s)).mapM (fun t : Int × Option Int => t.2.map (t.1 * ·)) =
      some (ts.map fun t => t.1 * t.2.num s) := by
    rw [List.mapM_map, Exact.mapM_eq_some, List.forall₂_map_right_iff, List.forall₂_same]
    intro t ht
    simp [(h t ht).exact_eq]
  rw [exact_wsum, Exact.weightedSum, hvalues]
  rfl

end Expr

namespace Affine

variable {f g : Affine} {w : Int} {e : Expr} {s : Assignment}

theorem total_addMultiple (h : f.addMultiple w e = .ok g) (s : Assignment) :
    g.total s = f.total s + w * e.num s := by
  unfold addMultiple at h
  split at h
  · rename_i n hn
    obtain ⟨m, hm, h⟩ := Checked.bind_eq_ok.1 h
    obtain ⟨k, hk, h⟩ := Checked.bind_eq_ok.1 h
    cases h
    rw [Expr.num_of_constant hn, total, total, ← (Checked.add_eq_ok.1 hk).2,
      ← (Checked.mul_eq_ok.1 hm).2]
    ring
  · cases h
    unfold addTerm
    split
    · rename_i hw
      rw [hw, zero_mul, add_zero]
    · simp only [total, Array.toList_push, List.map_append, List.map_cons, List.map_nil, List.sum_append,
        List.sum_cons, List.sum_nil]
      ring

theorem range_addMultiple (h : f.addMultiple w e = .ok g) : g.range = f.range + w • e.range := by
  unfold addMultiple at h
  split at h
  · rename_i n hn
    obtain ⟨m, hm, h⟩ := Checked.bind_eq_ok.1 h
    obtain ⟨k, hk, h⟩ := Checked.bind_eq_ok.1 h
    cases h
    rw [Expr.range_of_constant hn, Bounds.smul_point, range, range, ← (Checked.add_eq_ok.1 hk).2,
      ← (Checked.mul_eq_ok.1 hm).2, Bounds.point_add, add_assoc]
  · cases h
    unfold addTerm
    split
    · rename_i hw
      rw [hw, Bounds.zero_smul_eq, add_zero]
    · simp only [range, Array.toList_push, List.map_append, List.map_cons, List.map_nil,
        List.sum_append, List.sum_cons, List.sum_nil, add_zero, add_right_comm]

def written (f : Affine) : List (Int × Expr) :=
  f.terms.toList ++ if f.constant = 0 then [] else [(1, .int f.constant)]

theorem sum_written (f : Affine) (s : Assignment) :
    (f.written.map fun t => t.1 * t.2.num s).sum = f.total s := by
  rw [written, total, List.map_append, List.sum_append]
  split
  · simp [*]
  · simp [Expr.num_eq (Expr.exact_int s f.constant)]

theorem sum_range_written (f : Affine) : (f.written.map fun t => t.1 • t.2.range).sum = f.range := by
  rw [written, range, List.map_append, List.sum_append]
  split
  · simp [*, Bounds.point_zero]
  · simp [Expr.range]

theorem toExpr_eq (f : Affine) : f.toExpr =
    if f.terms.isEmpty then .int f.constant
    else if f.written.all fun t => t.1 == 1 then
      match f.written with
      | [(_, e)] => e
      | terms => .sum (terms.map Prod.snd)
    else .wsum f.written := rfl

theorem weights_eq_one {ts : List (Int × Expr)} (h : ts.all fun t => t.1 == 1) : ∀ t ∈ ts, t.1 = 1 := by
  simpa using h

theorem exact_toExpr (h : ∀ t ∈ f.terms.toList, t.2.Valued s) : f.toExpr.exact s = some (f.total s) := by
  have hwritten : ∀ t ∈ f.written, t.2.Valued s := by
    refine List.forall_mem_append.2 ⟨h, ?_⟩
    split <;> simp [Expr.Valued]
  rw [toExpr_eq]
  split
  · rename_i hempty
    rw [Expr.exact_int, total, Array.isEmpty_iff.1 hempty]
    simp
  · split
    · rename_i hone
      have hone := weights_eq_one hone
      rw [← sum_written]
      split
      · rename_i w e hsingle
        rw [hsingle] at hwritten hone ⊢
        have := hone _ (List.mem_singleton_self _)
        simp [(hwritten _ (List.mem_singleton_self _)).exact_eq, show w = 1 from this]
      · rw [Expr.exact_sum_num (List.forall_mem_map.2 hwritten), List.map_map]
        congr 2
        exact List.map_congr_left fun t ht => by simp [hone t ht]
    · rw [Expr.exact_wsum_num hwritten, sum_written]

theorem range_toExpr (f : Affine) : f.toExpr.range = f.range := by
  rw [toExpr_eq]
  split
  · rename_i hempty
    rw [range, Array.isEmpty_iff.1 hempty, Expr.range]
    exact (zero_add _).symm
  · rw [← sum_range_written]
    split
    · rename_i hone
      have hone := weights_eq_one hone
      split
      · rename_i w e hsingle
        rw [hsingle] at hone ⊢
        have := hone _ (List.mem_singleton_self _)
        simp [show w = 1 from this]
      · rw [Expr.range, List.map_map]
        congr 1
        exact List.map_congr_left fun t ht => by simp [hone t ht]
    · rw [Expr.range]

end Affine

end ConstraintModel
