import ConstraintModel.Form.Linear
import ConstraintModel.Proofs.Sound

namespace ConstraintModel

def IsBit (n : Int) : Prop := n = 0 ∨ n = 1

section Bits

variable {ns : List Int}

theorem sum_bits_nonneg (h : ∀ n ∈ ns, IsBit n) : 0 ≤ ns.sum := by
  induction ns with
  | nil => exact le_refl _
  | cons n ns ih =>
    obtain ⟨hn, hns⟩ := List.forall_mem_cons.1 h
    have := ih hns
    rw [List.sum_cons]
    rcases hn with rfl | rfl <;> omega

theorem sum_bits_le_length (h : ∀ n ∈ ns, IsBit n) : ns.sum ≤ ns.length := by
  induction ns with
  | nil => exact le_refl _
  | cons n ns ih =>
    obtain ⟨hn, hns⟩ := List.forall_mem_cons.1 h
    have := ih hns
    rw [List.sum_cons, List.length_cons]
    rcases hn with rfl | rfl <;> omega

theorem length_le_sum_bits (h : ∀ n ∈ ns, IsBit n) : ns.length ≤ ns.sum ↔ ∀ n ∈ ns, n = 1 := by
  induction ns with
  | nil => simp
  | cons n ns ih =>
    obtain ⟨hn, hns⟩ := List.forall_mem_cons.1 h
    have := sum_bits_le_length hns
    rw [List.forall_mem_cons, ← ih hns, List.sum_cons, List.length_cons]
    rcases hn with rfl | rfl <;> omega

theorem one_le_sum_bits (h : ∀ n ∈ ns, IsBit n) : 1 ≤ ns.sum ↔ ∃ n ∈ ns, n = 1 := by
  induction ns with
  | nil => simp
  | cons n ns ih =>
    obtain ⟨hn, hns⟩ := List.forall_mem_cons.1 h
    have := sum_bits_nonneg hns
    simp only [List.mem_cons, exists_eq_or_imp]
    rw [← ih hns, List.sum_cons]
    rcases hn with rfl | rfl <;> omega

theorem sum_bits_eq_zero (h : ∀ n ∈ ns, IsBit n) (hs : ns.sum = 0) : ns = List.replicate ns.length 0 := by
  refine List.eq_replicate_of_mem fun n hn => (h n hn).resolve_right fun h1 => ?_
  have := (one_le_sum_bits h).2 ⟨n, hn, h1⟩
  omega

end Bits

def indicators : Nat → Nat → List Int
  | 0, _ => []
  | n + 1, 0 => 1 :: List.replicate n 0
  | n + 1, k + 1 => 0 :: indicators n k

section Indicators

variable {α : Type} {n k : Nat} {ns : List Int}

@[simp] theorem length_indicators : (indicators n k).length = n := by
  induction n generalizing k with
  | zero => rfl
  | succ n ih => cases k <;> simp [indicators, ih]

theorem isBit_of_mem_indicators : ∀ m ∈ indicators n k, IsBit m := by
  induction n generalizing k with
  | zero => simp [indicators]
  | succ n ih =>
    cases k with
    | zero => simp [indicators, IsBit]
    | succ k => simpa [indicators, IsBit] using ih

theorem sum_indicators (h : k < n) : (indicators n k).sum = 1 := by
  induction n generalizing k with
  | zero => omega
  | succ n ih =>
    cases k with
    | zero => simp [indicators]
    | succ k => simpa [indicators] using ih (by omega)

/-- Bits whose sum is one select a position. -/
theorem eq_indicators (h : ∀ n ∈ ns, IsBit n) (hs : ns.sum = 1) :
    ∃ k < ns.length, ns = indicators ns.length k := by
  induction ns with
  | nil => cases hs
  | cons n ns ih =>
    obtain ⟨hn, hns⟩ := List.forall_mem_cons.1 h
    rw [List.sum_cons] at hs
    rcases hn with rfl | rfl
    · obtain ⟨k, hk, heq⟩ := ih hns (by omega)
      exact ⟨k + 1, by simpa using hk, by rw [List.length_cons, indicators, ← heq]⟩
    · exact ⟨0, by simp, by rw [List.length_cons, indicators, ← sum_bits_eq_zero hns (by omega)]⟩

/-- The weight of the selected position. -/
theorem sum_zipWith_indicators {ws : List Int} {w : Int} (h : ws[k]? = some w) :
    (List.zipWith (· * ·) ws (indicators ws.length k)).sum = w := by
  induction ws generalizing k with
  | nil => simp at h
  | cons v ws ih =>
    cases k with
    | zero =>
      have hzero (us : List Int) : (List.zipWith (· * ·) us (List.replicate us.length 0)).sum = 0 := by
        induction us with
        | nil => rfl
        | cons u us ih => simpa [List.replicate_succ] using ih
      simp_all [indicators]
    | succ k => simpa [indicators] using ih (by simpa using h)

theorem forall_mem_zip_indicators {as : List α} {P : α → Prop} :
    (∀ p ∈ (indicators as.length k).zip as, p.1 = 1 → P p.2) ↔ ∀ a, as[k]? = some a → P a := by
  induction as generalizing k with
  | nil => simp [indicators]
  | cons b as ih =>
    cases k with
    | zero =>
      have hzero : ∀ p ∈ (List.replicate as.length (0 : Int)).zip as, p.1 = 1 → P p.2 := by
        intro p hp h1
        rw [List.eq_of_mem_replicate (List.of_mem_zip hp).1] at h1
        cases h1
      rw [List.length_cons, indicators, List.zip_cons_cons, List.forall_mem_cons, and_iff_left hzero]
      simp
    | succ k => simpa [indicators] using ih

theorem indicators_eq_map (n k : Nat) : indicators n k = (List.range n).map fun j => if j = k then 1 else 0 := by
  induction n generalizing k with
  | zero => rfl
  | succ n ih =>
    rw [List.range_succ_eq_map, List.map_cons, List.map_map]
    cases k with
    | zero =>
      rw [indicators, if_pos rfl]
      refine congrArg _ (Eq.symm ?_)
      rw [List.eq_replicate_iff]
      simp
    | succ k => simp [indicators, ih, Function.comp_def]

open Linear (columns)

/-- The columns of rows of indicators count how often the positions are
selected. -/
theorem sum_columns {n : Nat} {rows : List (List Expr)} {f : Expr → Int} {ks : List Nat}
    (h : rows.map (List.map f) = ks.map (indicators n)) :
    (columns n rows).map (fun column => (column.map f).sum) = (List.range n).map fun j => (ks.count j : Int) := by
  induction rows generalizing ks with
  | nil =>
    rw [eq_comm, List.map_nil, List.map_eq_nil_iff] at h
    subst h
    simp [columns]
  | cons row rows ih =>
    cases ks with
    | nil => cases h
    | cons k ks =>
      obtain ⟨hrow, hrows⟩ := List.cons.inj h
      change (List.zipWith List.cons row (columns n rows)).map _ = _
      have hzip : (List.zipWith List.cons row (columns n rows)).map (fun column => (column.map f).sum) =
          List.zipWith (· + ·) (row.map f) ((columns n rows).map fun column => (column.map f).sum) := by
        rw [List.map_zipWith, List.zipWith_map]
        simp
      rw [hzip, ih hrows, hrow, indicators_eq_map, List.zipWith_map, List.zipWith_self]
      refine List.map_congr_left fun j _ => ?_
      rw [List.count_cons]
      by_cases hj : j = k
      · simp [hj, add_comm]
      · simp [hj, Ne.symm hj]

end Indicators

end ConstraintModel
