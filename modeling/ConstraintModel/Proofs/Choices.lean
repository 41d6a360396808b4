import ConstraintModel.Proofs.Functions
import ConstraintModel.Proofs.Indicators

namespace ConstraintModel

open ConstraintModel.Expr (num)

/-- Two lists agree on their common positions exactly if they are equal. -/
theorem map_eq_iff_zip {α β : Type} {f : α → β} {as : List α} {bs : List β} (h : as.length = bs.length) :
    as.map f = bs ↔ ∀ p ∈ as.zip bs, f p.1 = p.2 := by
  induction as generalizing bs with
  | nil => cases bs <;> simp_all
  | cons a as ih =>
    cases bs with
    | nil => cases h
    | cons b bs =>
      rw [List.map_cons, List.cons.injEq, List.zip_cons_cons, List.forall_mem_cons,
        ih (Nat.succ_injective h)]

variable {q : Prop} {w : World} {τ : Store} {as vs xs defining : List Expr} {a b c x e : Expr} {s : Assignment}

namespace Expr

theorem holds_table {rows : List (List Int)} (h : ∀ x ∈ xs, x.Valued s) :
    (constraint (.table xs rows)).Holds s ↔ xs.map (num s) ∈ rows := by
  simp [holds_constraint, Constraint.map, Constraint.exact, values_num h, Table.holds]

theorem holds_memberOfSet {set : IntervalSet} (h : a.Valued s) :
    (constraint (.memberOfSet a set)).Holds s ↔ set.contains (a.num s) := by
  simp [holds_constraint, Constraint.map, Constraint.exact, h.exact_eq]

theorem holds_memberOfList (h : a.Valued s) (hvs : ∀ v ∈ vs, v.Valued s) :
    (constraint (.memberOfList a vs)).Holds s ↔ a.num s ∈ vs.map (num s) := by
  simp [holds_constraint, Constraint.map, Constraint.exact, h.exact_eq, values_num hvs]

theorem holds_xor (h : ∀ a ∈ as, a.Valued s) :
    (constraint (.xor as)).Holds s ↔ (as.map (num s)).sum.tmod 2 = 1 := by
  simp [holds_constraint, Constraint.map, Constraint.exact, values_num h]

theorem holds_ifThenElse (h : c.Valued s) : (constraint (.ifThenElse c a b)).Holds s ↔
    (c.Holds s → a.Holds s) ∧ (c.Fails s → b.Holds s) := by
  rw [holds_constraint]
  simp only [Constraint.map, Constraint.exact, Holds, Fails, h.exact_eq, Exact.truth, Option.map_some,
    Option.bind_eq_bind, Option.bind_some, Option.some_inj]
  cases c.num s != 0 <;> simp

theorem holds_cmp_int {r : Relation} {n : Int} (h : a.Valued s) : (cmp r a (int n)).Holds s ↔ r.holds (a.num s) n := by
  rw [holds_cmp_num h (valued_of_eq (exact_int ..)), num_int]

end Expr

theorem Table.replaces {rows : List (List Int)} (hxs : ∀ x ∈ xs, x.Sound q w)
    (hrows : ∀ row ∈ rows, row.length = xs.length) :
    (decompose xs rows).Replaces q w w.store (.constraint (.table xs rows)) := by
  have hrow (row : List Int) : ∀ a ∈ (xs.zip row).map fun p => Expr.cmp .eq p.1 (.int p.2), a.isBool ∧ a.Sound q w :=
    List.forall_mem_map.2 fun p hp => ⟨rfl, Expr.sound_cmp (hxs _ (List.of_mem_zip hp).1) Expr.sound_int⟩
  have hrows' : ∀ a ∈ rows.map fun row => Expr.all ((xs.zip row).map fun p => .cmp .eq p.1 (.int p.2)),
      a.isBool ∧ a.Sound q w :=
    List.forall_mem_map.2 fun row _ => ⟨Expr.isBool_all fun a ha => (hrow row a ha).1,
      Expr.sound_all (fun a ha => (hrow row a ha).1) fun a ha => (hrow row a ha).2⟩
  refine Decomposition.replaces_direct ?_ ?_ fun t ht => ?_
  · exact List.forall_mem_singleton.2 (Expr.isBool_any fun a ha => (hrows' a ha).1)
  · exact List.forall_mem_singleton.2 (Expr.sound_any (fun a ha => (hrows' a ha).1) fun a ha => (hrows' a ha).2)
  · have hv : ∀ x ∈ xs, x.Valued t := fun x hx => (hxs x hx).valued ht
    rw [List.forall_mem_singleton, Expr.holds_any, Expr.holds_table hv]
    simp only [List.mem_map, exists_exists_and_eq_and, Expr.holds_all, forall_exists_index, and_imp,
      forall_apply_eq_imp_iff₂]
    constructor
    · rintro ⟨row, hrow, hall⟩
      convert hrow
      refine (map_eq_iff_zip (hrows row hrow).symm).2 fun p hp => ?_
      have := hall p hp
      rw [Expr.holds_cmp_int (hv _ (List.of_mem_zip hp).1)] at this
      simpa [Relation.holds] using this
    · intro hmem
      refine ⟨_, hmem, fun p hp => ?_⟩
      rw [Expr.holds_cmp_int (hv _ (List.of_mem_zip hp).1)]
      simpa [Relation.holds] using (map_eq_iff_zip (by simp)).1 rfl p hp

namespace Member

/-- What stands for a restricted expression is defined to have its value. -/
theorem Target.refines (h : Target w.store a x defining τ) (hw : w.Inhabited) (ha : a.Sound q w) :
    ∃ hg : w.store.Grows τ, x.Sound q (w.widen τ hg) ∧
      (∀ d ∈ defining, d.isBool ∧ d.Sound q (w.widen τ hg)) ∧
      ∃ w' : World, w'.store = τ ∧ w'.constraints = w.constraints ++ defining ∧ w.Refines True w' ∧
        ∀ t, w'.Admits t → x.num t = a.num t := by
  cases h with
  | simple hs => exact ⟨.refl _, ha, by simp, w, rfl, by simp, .refl w, fun _ _ => rfl⟩
  | @fresh x _ hs hx hb hbounds =>
    have hvar : (Expr.var x).Sound q (w.widen τ hx.grows) := Expr.sound_var hx.owns
    have hdef : (Expr.cmp .eq (.var x) a).Sound q (w.widen τ hx.grows) :=
      Expr.sound_cmp hvar (ha.mono (World.le_widen hx.grows))
    let w' : World := (w.widen τ hx.grows).post [.cmp .eq (.var x) a] (List.forall_mem_singleton.2 hdef.proper)
    have hmem (t : Assignment) (ht : w.Admits t) : a.num t ∈ x.bounds := by
      by_cases hba : a.isBool
      · rw [hx.boolean (hb.trans hba)]
        rcases ha.num_boolean hba ht with h | h <;> rw [h] <;> decide
      · rw [hbounds hba]
        exact ha.num_mem_range ht
    have hr : w.Refines True w' :=
      World.refines_define hw hx ha.proper (fun t ht => ⟨ha.valued ht, hmem t ht⟩) (.inr rfl) rfl
    refine ⟨hx.grows, hvar, List.forall_mem_singleton.2 ⟨rfl, hdef⟩, w', rfl, rfl, hr, fun t ht => ?_⟩
    have hholds : (Expr.cmp .eq (.var x) a).Holds t := ht.holds _ (List.mem_append_right _ (List.mem_singleton_self _))
    rw [Expr.holds_cmp_num (World.valued_var hx.owns.1 ht.within) (ha.valued (hr.sound t ht))] at hholds
    simpa [Relation.holds] using hholds

/-- The restricted expression is replaced by what is defined to have its value. -/
theorem Target.replaces {cs : List Expr} (h : Target w.store a x defining τ) (hw : w.Inhabited) (ha : a.Sound q w)
    (hcs : ∀ v, w ≤ v → x.Sound q v → ∀ c ∈ cs, c.isBool ∧ c.Sound q v)
    (hiff : ∀ t, w.Admits t → x.Valued t → x.num t = a.num t → x.num t ∈ x.range →
      ((∀ c ∈ cs, c.Holds t) ↔ e.Holds t)) : (Decomposition.mk cs defining).Replaces q w τ e := by
  obtain ⟨hg, hx, hdefining, w', rfl, hw', hr, hnum⟩ := h.refines hw ha
  have hsound : ∀ c ∈ cs ++ defining, c.isBool ∧ c.Sound q (w.widen w'.store hg) :=
    List.forall_mem_append.2 ⟨hcs _ (World.le_widen hg) hx, hdefining⟩
  refine ⟨hg, fun c hc => (hsound c hc).1, fun c hc => (hsound c hc).2, w', rfl, hw', hr, fun t ht => ?_⟩
  have hx := hx.mono (World.widen_le hr.le)
  exact hiff t (hr.sound t ht) (hx.valued ht) (hnum t ht) (hx.num_mem_range ht)

theorem replaces_set {set : IntervalSet} (h : Target w.store a x defining τ) (hw : w.Inhabited) (ha : a.Sound q w) :
    (Decomposition.mk ((x.range.values.filter fun n => !set.contains n).map fun n => .cmp .ne x (.int n))
      defining).Replaces q w τ (.constraint (.memberOfSet a set)) := by
  refine h.replaces hw ha (fun v _ hx => ?_) fun t ht hv hnum hmem => ?_
  · exact List.forall_mem_map.2 fun n _ => ⟨rfl, Expr.sound_cmp hx Expr.sound_int⟩
  · rw [Expr.holds_memberOfSet (ha.valued ht), List.forall_mem_map, ← hnum]
    simp only [List.mem_filter, Bounds.mem_values, Expr.holds_cmp_int hv, Relation.holds, bne_iff_ne, ne_eq, and_imp,
      Bool.not_eq_true']
    constructor
    · intro hall
      by_contra hset
      exact hall _ hmem (Bool.eq_false_of_not_eq_true hset) rfl
    · rintro hset n - hn rfl
      rw [hset] at hn
      cases hn

theorem replaces_list (h : Target w.store a x defining τ) (hw : w.Inhabited) (ha : a.Sound q w)
    (hvs : ∀ v ∈ vs, v.Sound q w) : (Decomposition.mk [.any (vs.map fun v => .cmp .eq x v)] defining).Replaces q w τ
      (.constraint (.memberOfList a vs)) := by
  refine h.replaces hw ha (fun v hle hx => ?_) fun t ht hv hnum _ => ?_
  · have hcmp : ∀ c ∈ vs.map fun v => Expr.cmp .eq x v, c.isBool ∧ c.Sound q v :=
      List.forall_mem_map.2 fun y hy => ⟨rfl, Expr.sound_cmp hx ((hvs y hy).mono hle)⟩
    exact List.forall_mem_singleton.2 ⟨Expr.isBool_any fun c hc => (hcmp c hc).1,
      Expr.sound_any (fun c hc => (hcmp c hc).1) fun c hc => (hcmp c hc).2⟩
  · rw [List.forall_mem_singleton, Expr.holds_any,
      Expr.holds_memberOfList (ha.valued ht) fun v hv => (hvs v hv).valued ht, List.mem_map, ← hnum]
    simp only [List.mem_map, exists_exists_and_eq_and]
    exact exists_congr fun v => and_congr_right fun hv' => by
      rw [Expr.holds_cmp_num hv ((hvs v hv').valued ht), Relation.holds, beq_iff_eq, eq_comm]

end Member

namespace Xor

theorem toInt_odd {m n : Int} (hmod : m % 2 = n % 2) (hm : 0 ≤ m ∧ m ≤ 2) : (m == 1).toInt = n % 2 := by
  rcases (by omega : m = 0 ∨ m = 1 ∨ m = 2) with rfl | rfl | rfl
  all_goals
    rw [← hmod]
    rfl

/-- The truth value of an exclusive or of further arguments. -/
theorem sound_foldl (has : ∀ a ∈ as, a.isBool ∧ a.Sound q w) (he : e.isBool ∧ e.Sound q w) {n : Assignment → Int}
    (hn : ∀ t, w.Admits t → 0 ≤ n t ∧ e.num t = n t % 2) :
    let f := as.foldl (fun acc a => .cmp .eq (.sum [acc, a]) (.int 1)) e
    (f.isBool ∧ f.Sound q w) ∧ ∀ t, w.Admits t → f.num t = (n t + (as.map (num t)).sum) % 2 := by
  induction as generalizing e n with
  | nil => exact ⟨he, fun t ht => by simpa using (hn t ht).2⟩
  | cons a as ih =>
    obtain ⟨ha, has⟩ := List.forall_mem_cons.1 has
    have hargs : ∀ b ∈ [e, a], b.Sound q w := by simpa using ⟨he.2, ha.2⟩
    have hstep : (Expr.cmp .eq (.sum [e, a]) (.int 1)).Sound q w := Expr.sound_cmp (Expr.sound_sum hargs) Expr.sound_int
    obtain ⟨hsound, hnum⟩ := ih has (n := fun t => n t + a.num t) ⟨rfl, hstep⟩ fun t ht => by
      have hbit := ha.2.num_boolean ha.1 ht
      have hvs : ∀ b ∈ [e, a], b.Valued t := fun b hb => (hargs b hb).valued ht
      obtain ⟨hpos, hmod⟩ := hn t ht
      refine ⟨by omega, ?_⟩
      rw [Expr.num_cmp (Expr.valued_sum hvs) (Expr.valued_of_eq (Expr.exact_int ..)), Expr.num_sum hvs, Expr.num_int]
      simp only [List.map_cons, List.map_nil, List.sum_cons, List.sum_nil, Relation.holds, hmod]
      exact toInt_odd (by omega) (by omega)
    refine ⟨hsound, fun t ht => ?_⟩
    have := hnum t ht
    rw [List.foldl_cons, this, List.map_cons, List.sum_cons, add_assoc]

theorem replaces (has : ∀ a ∈ as, a.isBool ∧ a.Sound q w) :
    (decompose as).Replaces q w w.store (.constraint (.xor as)) := by
  have hfirst : ∀ a ∈ as.take 2, a.isBool ∧ a.Sound q w := fun a ha => has a (List.mem_of_mem_take ha)
  have hsum : (Expr.sum (as.take 2)).Sound q w := Expr.sound_sum fun a ha => (hfirst a ha).2
  have bits {t : Assignment} (ht : w.Admits t) (bs : List Expr) (hbs : ∀ b ∈ bs, b.isBool ∧ b.Sound q w) :
      0 ≤ (bs.map (num t)).sum ∧ (bs.map (num t)).sum ≤ bs.length := by
    have hbits : ∀ n ∈ bs.map (num t), IsBit n :=
      List.forall_mem_map.2 fun b hb => (hbs b hb).2.num_boolean (hbs b hb).1 ht
    exact ⟨sum_bits_nonneg hbits, by simpa using sum_bits_le_length hbits⟩
  obtain ⟨hsound, hnum⟩ := sound_foldl (n := fun t => ((as.take 2).map (num t)).sum)
    (fun a ha => has a (List.mem_of_mem_drop ha)) ⟨rfl, Expr.sound_cmp hsum Expr.sound_int⟩ fun t ht => by
      have hv : ∀ a ∈ as.take 2, a.Valued t := fun a ha => (hfirst a ha).2.valued ht
      obtain ⟨hpos, hle⟩ := bits ht _ hfirst
      refine ⟨hpos, ?_⟩
      rw [Expr.num_cmp (r := .eq) (y := .int 1) (Expr.valued_sum hv) (Expr.valued_of_eq (Expr.exact_int ..)),
        Expr.num_sum hv, Expr.num_int]
      exact toInt_odd rfl ⟨hpos, hle.trans (by simp)⟩
  refine Decomposition.replaces_direct ?_ ?_ fun t ht => ?_
  · exact List.forall_mem_singleton.2 hsound.1
  · exact List.forall_mem_singleton.2 hsound.2
  · rw [List.forall_mem_singleton, hsound.2.holds_iff_num hsound.1 ht, hnum t ht,
      Expr.holds_xor fun a ha => (has a ha).2.valued ht, ← List.sum_append, ← List.map_append, List.take_append_drop,
      Int.tmod_eq_emod_of_nonneg (bits ht as has).1]

end Xor

theorem IfThenElse.replaces (hb : c.isBool ∧ a.isBool ∧ b.isBool) (hc : c.Sound q w) (ha : a.Sound q w)
    (hb' : b.Sound q w) :
    (decompose c a b).Replaces q w w.store (.constraint (.ifThenElse c a b)) := by
  have hn := hc.negated hb.1
  have hbn := Expr.isBool_negated hb.1 hc.proper
  refine Decomposition.replaces_direct ?_ ?_ fun t ht => ?_
  · simp [Expr.isBool]
  · simp only [List.forall_mem_cons, List.not_mem_nil, false_imp_iff, implies_true, and_true]
    exact ⟨Expr.sound_implies hb.1 hb.2.1 hc ha, Expr.sound_implies hbn hb.2.2 hn hb'⟩
  · have hinv : c.negated.Holds t ↔ c.Fails t := (hc.regular t ht).invertible hb.1
    simp only [List.forall_mem_cons, List.not_mem_nil, false_imp_iff, implies_true, and_true]
    rw [Expr.holds_ifThenElse (hc.valued ht), Expr.holds_implies_iff (hc.valued ht),
      Expr.holds_implies_iff (hn.valued ht),
      hinv]

end ConstraintModel
