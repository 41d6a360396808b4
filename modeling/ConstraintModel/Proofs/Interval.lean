import ConstraintModel.Proofs.Related
import ConstraintModel.Bounds
import Mathlib.Algebra.Order.Ring.Int
import Mathlib.Tactic.Linarith

namespace ConstraintModel.Bounds

/-! Interval arithmetic on unbounded integers. -/

instance : Zero Bounds := ⟨point 0⟩

instance : Add Bounds := ⟨fun a b => ⟨a.lower + b.lower, a.upper + b.upper⟩⟩

instance : Neg Bounds := ⟨fun b => ⟨-b.upper, -b.lower⟩⟩

instance : Sub Bounds := ⟨fun a b => ⟨a.lower - b.upper, a.upper - b.lower⟩⟩

instance : Mul Bounds := ⟨fun a b =>
  ⟨min (min (a.lower * b.lower) (a.lower * b.upper)) (min (a.upper * b.lower) (a.upper * b.upper)),
    max (max (a.lower * b.lower) (a.lower * b.upper)) (max (a.upper * b.lower) (a.upper * b.upper))⟩⟩

instance : SMul Int Bounds := ⟨fun w b =>
  if 0 ≤ w then ⟨w * b.lower, w * b.upper⟩ else ⟨w * b.upper, w * b.lower⟩⟩

instance : HasSubset Bounds := ⟨fun a b => b.lower ≤ a.lower ∧ a.upper ≤ b.upper⟩

instance (a b : Bounds) : Decidable (a ⊆ b) := inferInstanceAs (Decidable (_ ∧ _))

def magnitude (b : Bounds) : Bounds :=
  if 0 ≤ b.lower then b
  else if b.upper ≤ 0 then -b
  else ⟨0, max b.upper (-b.lower)⟩

def opposite (b : Bounds) : Bounds := ⟨1 - b.upper, 1 - b.lower⟩

theorem add_def (a b : Bounds) : a + b = ⟨a.lower + b.lower, a.upper + b.upper⟩ := rfl

theorem neg_def (b : Bounds) : -b = ⟨-b.upper, -b.lower⟩ := rfl

theorem sub_def (a b : Bounds) : a - b = ⟨a.lower - b.upper, a.upper - b.lower⟩ := rfl

theorem mul_def (a b : Bounds) : a * b =
    ⟨min (min (a.lower * b.lower) (a.lower * b.upper)) (min (a.upper * b.lower) (a.upper * b.upper)),
      max (max (a.lower * b.lower) (a.lower * b.upper))
        (max (a.upper * b.lower) (a.upper * b.upper))⟩ := rfl

theorem smul_def (w : Int) (b : Bounds) :
    w • b = if 0 ≤ w then ⟨w * b.lower, w * b.upper⟩ else ⟨w * b.upper, w * b.lower⟩ := rfl

theorem zero_def : (0 : Bounds) = ⟨0, 0⟩ := rfl

theorem subset_iff {a b : Bounds} : a ⊆ b ↔ b.lower ≤ a.lower ∧ a.upper ≤ b.upper := Iff.rfl

@[refl] theorem subset_refl (a : Bounds) : a ⊆ a := ⟨le_refl _, le_refl _⟩

theorem subset_trans {a b c : Bounds} (hab : a ⊆ b) (hbc : b ⊆ c) : a ⊆ c :=
  ⟨le_trans hbc.1 hab.1, le_trans hab.2 hbc.2⟩

theorem mem_of_subset {a b : Bounds} {n : Int} (h : a ⊆ b) (hn : n ∈ a) : n ∈ b :=
  ⟨le_trans h.1 hn.1, le_trans hn.2 h.2⟩

/-! The checked operations compute the exact ones. -/

section Checked

variable {a b c : Bounds}

theorem of_add (h : a.add b = .ok c) : c = a + b := by
  obtain ⟨l, hl, h⟩ := Checked.bind_eq_ok.1 h
  obtain ⟨u, hu, h⟩ := Checked.bind_eq_ok.1 h
  cases h
  rw [← (Checked.add_eq_ok.1 hl).2, ← (Checked.add_eq_ok.1 hu).2, add_def]

theorem of_sub (h : a.sub b = .ok c) : c = a - b := by
  obtain ⟨l, hl, h⟩ := Checked.bind_eq_ok.1 h
  obtain ⟨u, hu, h⟩ := Checked.bind_eq_ok.1 h
  cases h
  rw [← (Checked.sub_eq_ok.1 hl).2, ← (Checked.sub_eq_ok.1 hu).2, sub_def]

theorem of_neg (h : b.neg = .ok c) : c = -b := by
  obtain ⟨l, hl, h⟩ := Checked.bind_eq_ok.1 h
  obtain ⟨u, hu, h⟩ := Checked.bind_eq_ok.1 h
  cases h
  rw [← (Checked.neg_eq_ok.1 hl).2, ← (Checked.neg_eq_ok.1 hu).2, neg_def]

theorem of_scale {w : Int} (h : b.scale w = .ok c) : c = w • b := by
  unfold scale at h
  rw [smul_def]
  split at h
  · obtain ⟨l, hl, h⟩ := Checked.bind_eq_ok.1 h
    obtain ⟨u, hu, h⟩ := Checked.bind_eq_ok.1 h
    cases h
    rw [if_pos ‹_›, ← (Checked.mul_eq_ok.1 hl).2, ← (Checked.mul_eq_ok.1 hu).2]
  · obtain ⟨l, hl, h⟩ := Checked.bind_eq_ok.1 h
    obtain ⟨u, hu, h⟩ := Checked.bind_eq_ok.1 h
    cases h
    rw [if_neg ‹_›, ← (Checked.mul_eq_ok.1 hl).2, ← (Checked.mul_eq_ok.1 hu).2]

theorem of_mul (h : a.mul b = .ok c) : c = a * b := by
  obtain ⟨p, hp, h⟩ := Checked.bind_eq_ok.1 h
  obtain ⟨q, hq, h⟩ := Checked.bind_eq_ok.1 h
  obtain ⟨r, hr, h⟩ := Checked.bind_eq_ok.1 h
  obtain ⟨s, hs, h⟩ := Checked.bind_eq_ok.1 h
  cases h
  rw [mul_def, ← (Checked.mul_eq_ok.1 hp).2, ← (Checked.mul_eq_ok.1 hq).2,
    ← (Checked.mul_eq_ok.1 hr).2, ← (Checked.mul_eq_ok.1 hs).2]

theorem of_complement (h : b.complement = .ok c) : c = b.opposite := by
  obtain ⟨l, hl, h⟩ := Checked.bind_eq_ok.1 h
  obtain ⟨u, hu, h⟩ := Checked.bind_eq_ok.1 h
  cases h
  rw [Checked.ok_of_complement hl, Checked.ok_of_complement hu, opposite]

theorem of_abs (h : b.abs = .ok c) : c = b.magnitude := by
  unfold abs at h
  unfold magnitude
  split at h
  · cases h
    rw [if_pos ‹_›]
  · rw [if_neg ‹_›]
    split at h
    · rw [if_pos ‹_›, of_neg h]
    · obtain ⟨l, hl, h⟩ := Checked.bind_eq_ok.1 h
      cases h
      rw [if_neg ‹_›, ← (Checked.neg_eq_ok.1 hl).2]

theorem of_foldlM_add {bs : List Bounds} (h : bs.foldlM add a = .ok c) : c = a + bs.sum := by
  induction bs generalizing a with
  | nil =>
    cases h
    simp [add_def, zero_def]
  | cons b bs ih =>
    obtain ⟨d, hd, h⟩ := Checked.bind_eq_ok.1 h
    rw [ih h, of_add hd, List.sum_cons]
    simp only [add_def, add_assoc]

theorem of_sum {bs : List Bounds} (h : sum bs = .ok c) : c = bs.sum := by
  rw [of_foldlM_add h]
  simp [add_def, point]

end Checked

/-! Every operation encloses the results of the operation on integers. -/

section Membership

variable {a b : Bounds} {m n w : Int}

theorem add_mem (hm : m ∈ a) (hn : n ∈ b) : m + n ∈ a + b := by
  simp only [mem_iff, add_def] at *
  omega

theorem neg_mem (hm : m ∈ a) : -m ∈ -a := by
  simp only [mem_iff, neg_def] at *
  omega

theorem sub_mem (hm : m ∈ a) (hn : n ∈ b) : m - n ∈ a - b := by
  simp only [mem_iff, sub_def] at *
  omega

theorem opposite_mem (hm : m ∈ a) : 1 - m ∈ a.opposite := by
  simp only [mem_iff, opposite] at *
  omega

theorem smul_mem (w : Int) (hm : m ∈ a) : w * m ∈ w • a := by
  rw [smul_def]
  simp only [mem_iff] at *
  split
  · exact ⟨Int.mul_le_mul_of_nonneg_left hm.1 ‹_›, Int.mul_le_mul_of_nonneg_left hm.2 ‹_›⟩
  · have hw : w ≤ 0 := by omega
    exact ⟨Int.mul_le_mul_of_nonpos_left hw hm.2, Int.mul_le_mul_of_nonpos_left hw hm.1⟩

theorem magnitude_mem (hm : m ∈ a) : (m.natAbs : Int) ∈ a.magnitude := by
  unfold magnitude
  simp only [mem_iff] at *
  split
  · constructor <;> omega
  · split
    · simp only [neg_def]
      omega
    · constructor <;> dsimp only <;> omega

/-- A multiple of a value lies between the multiples of the two ends. -/
theorem mul_between (hm : m ∈ a) (n : Int) :
    min (a.lower * n) (a.upper * n) ≤ m * n ∧ m * n ≤ max (a.lower * n) (a.upper * n) := by
  rcases le_total 0 n with hn | hn
  · exact ⟨(min_le_left _ _).trans (Int.mul_le_mul_of_nonneg_right hm.1 hn),
      (Int.mul_le_mul_of_nonneg_right hm.2 hn).trans (le_max_right _ _)⟩
  · exact ⟨(min_le_right _ _).trans (Int.mul_le_mul_of_nonpos_right hm.2 hn),
      (Int.mul_le_mul_of_nonpos_right hm.1 hn).trans (le_max_left _ _)⟩

theorem mul_mem (hm : m ∈ a) (hn : n ∈ b) : m * n ∈ a * b := by
  have h := mul_between hm n
  have hl := mul_between hn a.lower
  have hu := mul_between hn a.upper
  simp only [mul_comm n, mul_comm b.lower, mul_comm b.upper] at hl hu
  rw [mul_def, mem_iff]
  exact ⟨(min_le_min hl.1 hu.1).trans h.1, h.2.trans (max_le_max hl.2 hu.2)⟩

theorem sum_mem {ns : List Int} {bs : List Bounds} (h : List.Forall₂ (· ∈ ·) ns bs) :
    ns.sum ∈ bs.sum := by
  induction h with
  | nil => exact ⟨le_refl _, le_refl _⟩
  | cons hab _ ih =>
    rw [List.sum_cons, List.sum_cons]
    exact add_mem hab ih

end Membership

section Inclusion

variable {a a' b b' : Bounds}

theorem add_subset (ha : a ⊆ a') (hb : b ⊆ b') : a + b ⊆ a' + b' :=
  ⟨add_le_add ha.1 hb.1, add_le_add ha.2 hb.2⟩

theorem sub_subset (ha : a ⊆ a') (hb : b ⊆ b') : a - b ⊆ a' - b' :=
  ⟨sub_le_sub ha.1 hb.2, sub_le_sub ha.2 hb.1⟩

theorem neg_subset (h : b ⊆ b') : -b ⊆ -b' := ⟨neg_le_neg h.2, neg_le_neg h.1⟩

theorem smul_subset (w : Int) (h : b ⊆ b') : w • b ⊆ w • b' := by
  simp only [smul_def]
  split
  · exact ⟨Int.mul_le_mul_of_nonneg_left h.1 ‹_›, Int.mul_le_mul_of_nonneg_left h.2 ‹_›⟩
  · have hw : w ≤ 0 := by omega
    exact ⟨Int.mul_le_mul_of_nonpos_left hw h.2, Int.mul_le_mul_of_nonpos_left hw h.1⟩

theorem mul_subset (ha : a ⊆ a') (hb : b ⊆ b') (hane : a.lower ≤ a.upper)
    (hbne : b.lower ≤ b.upper) : a * b ⊆ a' * b' := by
  have hal : a.lower ∈ a' := mem_of_subset ha ⟨le_refl _, hane⟩
  have hau : a.upper ∈ a' := mem_of_subset ha ⟨hane, le_refl _⟩
  have hbl : b.lower ∈ b' := mem_of_subset hb ⟨le_refl _, hbne⟩
  have hbu : b.upper ∈ b' := mem_of_subset hb ⟨hbne, le_refl _⟩
  rw [mul_def a b, subset_iff]
  exact ⟨le_min (le_min (mul_mem hal hbl).1 (mul_mem hal hbu).1)
      (le_min (mul_mem hau hbl).1 (mul_mem hau hbu).1),
    max_le (max_le (mul_mem hal hbl).2 (mul_mem hal hbu).2)
      (max_le (mul_mem hau hbl).2 (mul_mem hau hbu).2)⟩

theorem magnitude_subset (h : b ⊆ b') (hne : b.lower ≤ b.upper) : b.magnitude ⊆ b'.magnitude := by
  unfold magnitude
  split_ifs <;> simp only [subset_iff, neg_def] at * <;> omega

theorem sum_subset {as bs : List Bounds} (h : List.Forall₂ (· ⊆ ·) as bs) : as.sum ⊆ bs.sum := by
  induction h with
  | nil => exact subset_refl _
  | cons hab _ ih =>
    rw [List.sum_cons, List.sum_cons]
    exact add_subset hab ih

end Inclusion

section Extremes

variable {ns ms : List Int} {n : Int}

theorem min?_getD_le (h : n ∈ ns) : ns.min?.getD 0 ≤ n := by
  cases hm : ns.min? with
  | none => rw [List.min?_eq_none_iff.1 hm] at h; cases h
  | some m => exact (List.min?_eq_some_iff.1 hm).2 n h

theorem le_max?_getD (h : n ∈ ns) : n ≤ ns.max?.getD 0 := by
  cases hm : ns.max? with
  | none => rw [List.max?_eq_none_iff.1 hm] at h; cases h
  | some m => exact (List.max?_eq_some_iff.1 hm).2 n h

theorem min?_getD_mono (h : List.Forall₂ (· ≤ ·) ns ms) : ns.min?.getD 0 ≤ ms.min?.getD 0 := by
  cases hm : ms.min? with
  | none =>
    rw [List.min?_eq_none_iff.1 hm, List.forall₂_nil_right_iff] at h
    rw [h]
    rfl
  | some m =>
    obtain ⟨n, hn, hle⟩ := forall₂_mem_right h (List.min?_eq_some_iff.1 hm).1
    exact (min?_getD_le hn).trans hle

theorem max?_getD_mono (h : List.Forall₂ (· ≤ ·) ns ms) : ns.max?.getD 0 ≤ ms.max?.getD 0 := by
  cases hn : ns.max? with
  | none =>
    rw [List.max?_eq_none_iff.1 hn, List.forall₂_nil_left_iff] at h
    rw [h]
    rfl
  | some n =>
    obtain ⟨m, hm, hle⟩ := forall₂_mem_left h (List.max?_eq_some_iff.1 hn).1
    exact hle.trans (le_max?_getD hm)

end Extremes

section Hull

variable {bs cs : List Bounds} {b : Bounds} {ns : List Int} {n : Int}

def hull (bs : List Bounds) : Bounds := ⟨(least bs).getD 0, (greatest bs).getD 0⟩

theorem subset_hull (h : b ∈ bs) : b ⊆ hull bs :=
  ⟨min?_getD_le (List.mem_map_of_mem h), le_max?_getD (List.mem_map_of_mem h)⟩

theorem map_lower_le (h : List.Forall₂ (· ⊆ ·) bs cs) :
    List.Forall₂ (· ≤ ·) (cs.map lower) (bs.map lower) :=
  List.forall₂_map_left_iff.2 (List.forall₂_map_right_iff.2 (h.imp fun _ _ h => h.1).flip)

theorem map_upper_le (h : List.Forall₂ (· ⊆ ·) bs cs) :
    List.Forall₂ (· ≤ ·) (bs.map upper) (cs.map upper) :=
  List.forall₂_map_left_iff.2 (List.forall₂_map_right_iff.2 (h.imp fun _ _ h => h.2))

theorem hull_subset (h : List.Forall₂ (· ⊆ ·) bs cs) : hull bs ⊆ hull cs :=
  ⟨min?_getD_mono (map_lower_le h), max?_getD_mono (map_upper_le h)⟩

theorem minimum_subset (h : List.Forall₂ (· ⊆ ·) bs cs) : minimum bs ⊆ minimum cs :=
  ⟨min?_getD_mono (map_lower_le h), min?_getD_mono (map_upper_le h)⟩

theorem maximum_subset (h : List.Forall₂ (· ⊆ ·) bs cs) : maximum bs ⊆ maximum cs :=
  ⟨max?_getD_mono (map_lower_le h), max?_getD_mono (map_upper_le h)⟩

theorem lower_le_of_mem (h : List.Forall₂ (· ∈ ·) ns bs) :
    List.Forall₂ (· ≤ ·) (bs.map lower) ns :=
  List.forall₂_map_left_iff.2 (h.imp fun _ _ h => h.1).flip

theorem le_upper_of_mem (h : List.Forall₂ (· ∈ ·) ns bs) :
    List.Forall₂ (· ≤ ·) ns (bs.map upper) :=
  List.forall₂_map_right_iff.2 (h.imp fun _ _ h => h.2)

theorem min?_mem (h : List.Forall₂ (· ∈ ·) ns bs) (hn : ns.min? = some n) : n ∈ minimum bs := by
  have hl := min?_getD_mono (lower_le_of_mem h)
  have hu := min?_getD_mono (le_upper_of_mem h)
  rw [hn] at hl hu
  exact ⟨hl, hu⟩

theorem max?_mem (h : List.Forall₂ (· ∈ ·) ns bs) (hn : ns.max? = some n) : n ∈ maximum bs := by
  have hl := max?_getD_mono (lower_le_of_mem h)
  have hu := max?_getD_mono (le_upper_of_mem h)
  rw [hn] at hl hu
  exact ⟨hl, hu⟩

end Hull

end ConstraintModel.Bounds
