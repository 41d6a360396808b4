import ConstraintModel.Proofs.FlatMeaning
import ConstraintModel.Proofs.Indicators
import ConstraintModel.Proofs.LinearShape

namespace ConstraintModel

namespace Relation

variable {r : Relation} {m n k l : Int}

/-- Relations are invariant under shifts. -/
theorem holds_of_sub_eq (h : m - n = k - l) : r.holds m n = r.holds k l := by
  cases r <;> rw [Bool.eq_iff_iff] <;> simp only [holds, beq_iff_eq, bne_iff_ne, decide_eq_true_eq] <;> omega

end Relation

namespace Expr

variable {σ : Store} {s : Assignment} {e a b : Expr} {as : List Expr} {r : Relation}

structure Operand (σ : Store) (e : Expr) : Prop where
  simple : e.isSimple
  proper : e.Proper σ.Owns

namespace Operand

theorem valued (h : e.Operand σ) (hs : s.Within σ) : e.Valued s := valued_of_isSimple h.simple h.proper hs

theorem holds_iff_num (h : e.Operand σ) (hb : e.isBool) (hs : s.Within σ) : e.Holds s ↔ e.num s = 1 :=
  (h.valued hs).holds_iff_num h.proper hb hs

theorem num_boolean (h : e.Operand σ) (hb : e.isBool) (hs : s.Within σ) : e.num s = 0 ∨ e.num s = 1 :=
  h.proper.num_boolean hb hs (h.valued hs).exact_eq

theorem num_mem_range (h : e.Operand σ) (hs : s.Within σ) : e.num s ∈ e.range :=
  (h.valued hs).num_mem_range (Over.inBounds h.proper.scope hs)

theorem mono {τ : Store} (h : e.Operand σ) (hg : σ.Grows τ) : e.Operand τ :=
  ⟨h.simple, h.proper.imp fun _ hx => hx.mono hg⟩

end Operand

theorem operand_int {n : Int} : (int n).Operand σ := ⟨rfl, proper_int⟩

theorem operand_var {x : Variable} (h : σ.Owns x) : (var x).Operand σ := ⟨rfl, proper_var.2 h⟩

theorem operand_negated (h : e.Operand σ) (hb : e.isBool) : e.negated.Operand σ :=
  ⟨isSimple_negated h.simple hb, proper_negated hb h.proper⟩

theorem holds_negated (h : e.Operand σ) (hb : e.isBool) (hs : s.Within σ) : e.negated.Holds s ↔ ¬e.Holds s := by
  exact ((regular_of_isSimple h.simple h.proper hs).invertible hb).trans (h.valued hs).fails_iff

theorem holds_cmp_converse : (cmp r.converse b a).Holds s ↔ (cmp r a b).Holds s := by
  simp only [holds_cmp]
  constructor
  · rintro ⟨m, n, hm, hn, hr⟩
    exact ⟨n, m, hn, hm, by rwa [← Relation.converse_holds]⟩
  · rintro ⟨m, n, hm, hn, hr⟩
    exact ⟨n, m, hn, hm, by rwa [Relation.converse_holds]⟩

/-- A comparison with an operand, which always has a value. -/
theorem holds_cmp_operand (hb : b.Valued s) :
    (cmp r a b).Holds s ↔ ∃ m, a.exact s = some m ∧ r.holds m (b.num s) := by
  rw [holds_cmp, hb.exact_eq]
  simp

theorem holds_cmp_constants {m n : Int} (hm : a.constant? = some m) (hn : b.constant? = some n) :
    (cmp r a b).Holds s ↔ r.holds m n := by
  rw [holds_cmp_num (valued_of_eq (exact_of_constant hm)) (valued_of_eq (exact_of_constant hn)), num_of_constant hm,
    num_of_constant hn]

/-- Truth values whose sum is compared. -/
theorem holds_cmp_sum (h : ∀ a ∈ as, a.Valued s) {n : Int} :
    (cmp r (sum as) (int n)).Holds s ↔ r.holds (as.map (num s)).sum n := by
  rw [holds_cmp_num (valued_of_eq (exact_sum_num h)) (valued_of_eq (exact_int ..)),
    num_eq (exact_sum_num h), num_eq (exact_int ..)]

theorem forall_num_eq_one (h : ∀ a ∈ as, a.isBool ∧ a.Operand σ) (hs : s.Within σ) :
    (∀ n ∈ as.map (num s), n = 1) ↔ ∀ a ∈ as, a.Holds s := by
  rw [List.forall_mem_map]
  exact forall₂_congr fun a ha => ((h a ha).2.holds_iff_num (h a ha).1 hs).symm

theorem isBit_nums (h : ∀ a ∈ as, a.isBool ∧ a.Operand σ) (hs : s.Within σ) :
    ∀ n ∈ as.map (num s), IsBit n :=
  List.forall_mem_map.2 fun a ha => (h a ha).2.num_boolean (h a ha).1 hs

theorem holds_and_iff_sum (h : ∀ a ∈ as, a.isBool ∧ a.Operand σ) (hs : s.Within σ) :
    (cmp .ge (sum as) (int as.length)).Holds s ↔ (and as).Holds s := by
  have hlength := length_le_sum_bits (isBit_nums h hs)
  rw [List.length_map] at hlength
  rw [holds_cmp_sum fun a ha => (h a ha).2.valued hs, holds_and, ← forall_num_eq_one h hs, ← hlength,
    Relation.holds, decide_eq_true_eq]

theorem holds_or_iff_sum (h : ∀ a ∈ as, a.isBool ∧ a.Operand σ) (hs : s.Within σ) :
    (cmp .ge (sum as) (int 1)).Holds s ↔ (or as).Holds s := by
  rw [holds_cmp_sum fun a ha => (h a ha).2.valued hs, holds_or, Relation.holds, decide_eq_true_eq,
    one_le_sum_bits (isBit_nums h hs)]
  simp only [List.mem_map, exists_exists_and_eq_and]
  exact exists_congr fun a => and_congr_right fun ha => ((h a ha).2.holds_iff_num (h a ha).1 hs).symm

end Expr

namespace Linear

open ConstraintModel.Expr (Operand Valued num)

variable {ts kept : List (Int × Expr)} {k : Int} {s t : Assignment} {e b : Expr} {σ : Store}

def weight (ts : List (Int × Expr)) (s : Assignment) : Int := (ts.map fun t => t.1 * t.2.num s).sum

@[simp] theorem weight_nil : weight [] s = 0 := rfl

@[simp] theorem weight_cons {t : Int × Expr} : weight (t :: ts) s = t.1 * t.2.num s + weight ts s := rfl

theorem weight_append {us : List (Int × Expr)} : weight (ts ++ us) s = weight ts s + weight us s := by
  rw [weight, List.map_append, List.sum_append]
  rfl

theorem weight_congr (h : ∀ t ∈ ts, t.2.Operand σ) (hst : s.Agrees σ.size t) : weight ts s = weight ts t := by
  rw [weight, weight]
  exact congrArg _ (List.map_congr_left fun u hu => by rw [(h u hu).proper.num_congr hst])

theorem exact_wsum_weight (h : ∀ t ∈ ts, t.2.Valued s) : (Expr.wsum ts).exact s = some (weight ts s) :=
  Expr.exact_wsum_num h

theorem exact_sum_weight {as : List Expr} (h : ∀ a ∈ as, a.Valued s) :
    (Expr.sum as).exact s = some (weight (as.map (1, ·)) s) := by
  rw [Expr.exact_sum_num h, weight, List.map_map]
  congr 2
  exact List.map_congr_left fun a _ => (one_mul _).symm

theorem exact_ofTerms (h : ∀ t ∈ ts, t.2.Valued s) : (Expr.ofTerms ts).exact s = some (weight ts s) := by
  unfold Expr.ofTerms
  split
  · rename_i hone
    have hone := Affine.weights_eq_one hone
    have hmap : (ts.map Prod.snd).map (1, ·) = ts := by
      have hid : ∀ t ∈ ts, ((1, ·) ∘ Prod.snd) t = id t := fun t ht => Prod.ext (hone t ht).symm rfl
      rw [List.map_map, List.map_congr_left hid, List.map_id]
    rw [exact_sum_weight (List.forall_mem_map.2 h), hmap]
  · exact exact_wsum_weight h

theorem exact_asTerms? (h : asTerms? e = some ts) (hv : ∀ t ∈ ts, t.2.Valued s) :
    e.exact s = some (weight ts s) := by
  cases e with
  | sum as =>
    cases h
    exact exact_sum_weight (by simpa using hv)
  | wsum us =>
    cases h
    exact exact_wsum_weight hv
  | sub a b =>
    cases h
    obtain ⟨ha, hb, -⟩ : a.Valued s ∧ b.Valued s ∧ True := by simpa using hv
    rw [Expr.exact_sub, ha.exact_eq, hb.exact_eq, Option.bind_some, Option.map_some, Option.some_inj]
    simp only [weight_cons, weight_nil]
    omega
  | neg a =>
    cases h
    have ha : a.Valued s := by simpa using hv
    rw [Expr.exact_neg, ha.exact_eq, Option.map_some, Option.some_inj]
    simp
  | mul a b =>
    simp only [asTerms?] at h
    split at h <;> cases h
    · rename_i n hn
      have hb : b.Valued s := by simpa using hv
      rw [Expr.exact_mul, Expr.exact_of_constant hn, hb.exact_eq]
      simp
    · rename_i n _ hn
      have ha : a.Valued s := by simpa using hv
      rw [Expr.exact_mul, Expr.exact_of_constant hn, ha.exact_eq]
      simp [mul_comm]
  | _ => exact absurd h (by simp [asTerms?, Expr.terms?])

/-- What is left of a sum and the constant that is moved to the other side. -/
theorem weight_separate (h : separate ts = .ok (kept, k)) (s : Assignment) : weight kept s - k = weight ts s := by
  obtain ⟨k', hk, h⟩ := Checked.bind_eq_ok.1 h
  cases h
  suffices hgen : ∀ start, ((ts.filterMap fun t => t.2.constant?.map (t.1, ·)).foldlM
      (fun k p => do Checked.sub k (← Checked.mul p.1 p.2)) start : Checked Int) = .ok k →
      weight (ts.filter fun t => !t.2.isConstant) s - k = weight ts s - start by
    simpa using hgen 0 hk
  clear hk h
  induction ts with
  | nil =>
    intro start hk
    cases hk
    rfl
  | cons t ts ih =>
    intro start hk
    obtain ⟨w, a⟩ := t
    cases ha : a.constant? with
    | none =>
      have := ih start (by simpa [ha] using hk)
      have hc : a.isConstant = false := by simp [Expr.isConstant, ha]
      simp only [List.filter_cons, hc, Bool.not_false, if_true, weight_cons]
      omega
    | some n =>
      simp only [List.filterMap_cons, ha, Option.map_some, List.foldlM_cons] at hk
      obtain ⟨l, hl, hk⟩ := Checked.bind_eq_ok.1 hk
      obtain ⟨m, hm, hl⟩ := Checked.bind_eq_ok.1 hl
      have := ih l hk
      have hc : a.isConstant = true := by simp [Expr.isConstant, ha]
      simp only [List.filter_cons, hc, Bool.not_true, Bool.false_eq_true, if_false, weight_cons,
        Expr.num_of_constant ha]
      rw [← (Checked.mul_eq_ok.1 hm).2, Checked.sub_eq_ok] at hl
      omega

theorem weight_balance (h : balance ts b = .ok (kept, k)) (s : Assignment) :
    weight kept s - k = weight ts s - b.num s := by
  obtain ⟨⟨us, l⟩, hsep, h⟩ := Checked.bind_eq_ok.1 h
  have hus := weight_separate hsep s
  dsimp only at h
  split at h
  · rename_i n hn
    obtain ⟨m, hm, h⟩ := Checked.bind_eq_ok.1 h
    cases h
    rw [Expr.num_of_constant hn, ← (Checked.add_eq_ok.1 hm).2]
    omega
  · cases h
    rw [weight_append]
    simp only [weight_cons, weight_nil]
    omega

theorem holds_balance {r : Relation} (h : balance ts b = .ok (kept, k)) (s : Assignment) :
    r.holds (weight kept s) k ↔ r.holds (weight ts s) (b.num s) := by
  rw [Relation.holds_of_sub_eq (weight_balance h s)]

theorem holds_cmp_balance {r : Relation} (h : balance ts b = .ok (kept, k)) (hv : ∀ t ∈ kept, t.2.Valued s) :
    (Expr.cmp r (.ofTerms kept) (.int k)).Holds s ↔ r.holds (weight ts s) (b.num s) := by
  have hexact := exact_ofTerms hv
  have hk : (Expr.int k).exact s = some k := Expr.exact_int ..
  rw [Expr.holds_cmp_num (Expr.valued_of_eq hexact) (Expr.valued_of_eq hk), Expr.num_eq hexact, Expr.num_eq hk,
    holds_balance h]

theorem weight_subtract (ts : List (Int × Expr)) (b : Expr) (s : Assignment) :
    weight (subtract ts b).1 s - (subtract ts b).2 = weight ts s - b.num s := by
  unfold subtract
  split
  · rename_i k hk
    rw [Expr.num_of_constant hk]
  · rw [weight_append]
    simp only [weight_cons, weight_nil]
    omega

theorem formed_separated {range : Bounds} {z : Expr} {es : List Expr} (h : separated ts k z range = .ok es)
    (hv : ∀ t ∈ ts, t.2.Operand σ) (hz : z.Operand σ) : ∀ e ∈ es, e.isBool ∧ e.Proper σ.Owns := by
  obtain ⟨m, -, rfl⟩ := separated_eq_ok h
  have hside : (Expr.wsum (ts ++ [(-m, z)])).Proper σ.Owns :=
    Expr.proper_wsum.2 (List.forall_mem_append.2 ⟨fun t ht => (hv t ht).proper, by simpa using hz.proper⟩)
  simpa [Expr.isBool] using hside

/-- A bit with a large enough weight selects the side of a constant on which a
sum lies. -/
theorem holds_separated {range : Bounds} {z : Expr} {es : List Expr} (h : separated ts k z range = .ok es)
    (hv : ∀ t ∈ ts, t.2.Valued s) (hz : z.Valued s) (hbit : IsBit (z.num s)) (hr : weight ts s ∈ range) :
    (∀ e ∈ es, e.Holds s) ↔ if z.num s = 0 then weight ts s < k else k < weight ts s := by
  obtain ⟨m, hm, rfl⟩ := separated_eq_ok h
  have hside : ∀ t ∈ ts ++ [(-m, z)], t.2.Valued s := List.forall_mem_append.2 ⟨hv, by simpa using hz⟩
  have hcmp (r : Relation) (n : Int) : (Expr.cmp r (.wsum (ts ++ [(-m, z)])) (.int n)).Holds s ↔
      r.holds (weight ts s - m * z.num s) n := by
    rw [Expr.holds_cmp_num (Expr.valued_of_eq (exact_wsum_weight hside)) (Expr.valued_of_eq (Expr.exact_int ..)),
      Expr.num_eq (exact_wsum_weight hside), Expr.num_eq (Expr.exact_int ..), weight_append]
    simp [sub_eq_add_neg]
  rw [Bounds.mem_iff] at hr
  simp only [List.forall_mem_cons, List.not_mem_nil, false_imp_iff, implies_true, and_true, hcmp,
    Relation.holds, decide_eq_true_eq]
  rcases hbit with h0 | h1
  · rw [h0, if_pos rfl, mul_zero]
    omega
  · rw [h1, if_neg one_ne_zero, mul_one]
    omega

end Linear

end ConstraintModel
