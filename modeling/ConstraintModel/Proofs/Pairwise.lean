import ConstraintModel.Proofs.Functions

namespace ConstraintModel

open ConstraintModel.Expr (num)

/-- The elements with a property are all different if no two equal ones have
it. -/
theorem nodup_filter_iff_pairs {α : Type} {as : List α} {p : α → Bool} :
    (as.filter p).Nodup ↔ ∀ c ∈ pairs as, c.1 = c.2 → ¬p c.1 := by
  induction as with
  | nil => simp [pairs]
  | cons a as ih =>
    rw [pairs, List.forall_mem_append, List.forall_mem_map, ← ih, List.filter_cons]
    by_cases ha : p a
    · rw [if_pos ha, List.nodup_cons, List.mem_filter]
      refine and_congr_left fun _ => ⟨fun h b hb hab _ => h ⟨?_, ha⟩, fun h hmem => h a hmem.1 rfl ha⟩
      exact (show a = b from hab) ▸ hb
    · rw [if_neg ha]
      exact (and_iff_right fun _ _ _ => ha).symm

variable {q : Prop} {w : World} {as xs vs ns : List Expr} {r : Relation} {s : Assignment}

namespace Expr

theorem holds_allDifferentExceptZero (h : ∀ a ∈ as, a.Valued s) :
    (constraint (.allDifferentExceptZero as)).Holds s ↔
      ∀ p ∈ pairs (as.map (num s)), p.1 = p.2 → p.1 = 0 := by
  simp [holds_constraint, Constraint.map, Constraint.exact, values_num h, AllDifferentExceptZero.holds,
    nodup_filter_iff_pairs]

theorem holds_allEqual (h : ∀ a ∈ as, a.Valued s) :
    (constraint (.allEqual as)).Holds s ↔ ∀ p ∈ neighbours (as.map (num s)), p.1 = p.2 := by
  simp [holds_constraint, Constraint.map, Constraint.exact, values_num h, AllEqual.holds]

theorem holds_monotone {order : Monotonicity} (h : ∀ a ∈ as, a.Valued s) :
    (constraint (.monotone order as)).Holds s ↔
      ∀ p ∈ neighbours (as.map (num s)), order.relation.holds p.1 p.2 := by
  simp [holds_constraint, Constraint.map, Constraint.exact, values_num h, Monotonicity.holds]

theorem holds_cardinality (hxs : ∀ x ∈ xs, x.Valued s) (hvs : ∀ v ∈ vs, v.Valued s) (hns : ∀ n ∈ ns, n.Valued s) :
    (constraint (.cardinality xs vs ns)).Holds s ↔
      ∀ p ∈ vs.zip ns, ((xs.map (num s)).count (p.1.num s) : Int) = p.2.num s := by
  simp only [holds_constraint, Constraint.map, Constraint.exact, values_num hxs, values_num hvs, values_num hns,
    Option.bind_eq_bind, Option.bind_some, Option.pure_def, Option.some_inj, Cardinality.holds, List.all_eq_true,
    List.zip_map, List.forall_mem_map, beq_iff_eq, Prod.map_fst, Prod.map_snd]

end Expr

/-- Each of the given pairs of expressions is compared. -/
theorem replaces_pairs {e : Expr} {ps : List (Expr × Expr)} (hps : ∀ p ∈ ps, p.1.Sound q w ∧ p.2.Sound q w)
    (h : ∀ t, w.Admits t → (e.Holds t ↔ ∀ p ∈ ps, r.holds (p.1.num t) (p.2.num t))) :
    (Decomposition.direct (ps.map fun (a, b) => .cmp r a b)).Replaces q w w.store e := by
  refine Decomposition.replaces_direct ?_ ?_ fun t ht => ?_
  · exact List.forall_mem_map.2 fun p _ => rfl
  · exact List.forall_mem_map.2 fun p hp => Expr.sound_cmp (hps p hp).1 (hps p hp).2
  · rw [h t ht, List.forall_mem_map]
    exact forall₂_congr fun p hp => Expr.holds_cmp_num ((hps p hp).1.valued ht) ((hps p hp).2.valued ht)

variable (has : ∀ a ∈ as, a.Sound q w)

include has

theorem AllDifferent.replaces : (decompose as).Replaces q w w.store (.constraint (.allDifferent as)) := by
  refine replaces_pairs (fun p hp => ⟨has _ (mem_of_pairs hp).1, has _ (mem_of_pairs hp).2⟩) fun t ht => ?_
  rw [Expr.holds_allDifferent fun a ha => (has a ha).valued ht, nodup_iff_pairs, pairs_map, List.forall_mem_map]
  simp [Relation.holds]

theorem AllDifferentExceptZero.replaces :
    (decompose as).Replaces q w w.store (.constraint (.allDifferentExceptZero as)) := by
  have hpairs (p : Expr × Expr) (hp : p ∈ pairs as) : p.1.Sound q w ∧ p.2.Sound q w :=
    ⟨has _ (mem_of_pairs hp).1, has _ (mem_of_pairs hp).2⟩
  refine Decomposition.replaces_direct ?_ ?_ fun t ht => ?_
  · exact List.forall_mem_map.2 fun p _ => rfl
  · exact List.forall_mem_map.2 fun p hp => Expr.sound_implies rfl rfl
      (Expr.sound_cmp (hpairs p hp).1 (hpairs p hp).2) (Expr.sound_cmp (hpairs p hp).1 Expr.sound_int)
  · rw [Expr.holds_allDifferentExceptZero fun a ha => (has a ha).valued ht, pairs_map, List.forall_mem_map,
      List.forall_mem_map]
    refine forall₂_congr fun p hp => ?_
    have hfirst := (hpairs p hp).1.valued ht
    have hsecond := (hpairs p hp).2.valued ht
    rw [Expr.holds_implies_iff (Expr.valued_of_eq (Expr.exact_cmp_num hfirst hsecond)),
      Expr.holds_cmp_num hfirst hsecond, Expr.holds_cmp_num hfirst (Expr.valued_of_eq (Expr.exact_int ..))]
    simp [Relation.holds]

theorem AllEqual.replaces : (decompose as).Replaces q w w.store (.constraint (.allEqual as)) := by
  refine replaces_pairs (fun p hp => ⟨has _ (mem_of_neighbours hp).1, has _ (mem_of_neighbours hp).2⟩) fun t ht => ?_
  rw [Expr.holds_allEqual fun a ha => (has a ha).valued ht, neighbours_map, List.forall_mem_map]
  simp [Relation.holds]

theorem Monotonicity.replaces (order : Monotonicity) :
    (order.decompose as).Replaces q w w.store (.constraint (.monotone order as)) := by
  refine replaces_pairs (fun p hp => ⟨has _ (mem_of_neighbours hp).1, has _ (mem_of_neighbours hp).2⟩) fun t ht => ?_
  rw [Expr.holds_monotone fun a ha => (has a ha).valued ht, neighbours_map, List.forall_mem_map]

omit has in
theorem Cardinality.replaces (hxs : ∀ x ∈ xs, x.Sound q w) (hvs : ∀ v ∈ vs, v.Sound q w)
    (hns : ∀ n ∈ ns, n.Sound q w) :
    (decompose xs vs ns).Replaces q w w.store (.constraint (.cardinality xs vs ns)) := by
  have hzip (p : Expr × Expr) (hp : p ∈ vs.zip ns) : p.1.Sound q w ∧ p.2.Sound q w :=
    ⟨hvs _ (List.of_mem_zip hp).1, hns _ (List.of_mem_zip hp).2⟩
  have hcount {v : Expr} (hv : v.Sound q w) : (Expr.function (.count xs v)).Sound q w :=
    Expr.sound_function trivial trivial (by simpa [Function.args, or_imp, forall_and] using ⟨hxs, hv⟩)
  have hpairs : decompose xs vs ns = .direct (((vs.zip ns).map fun p =>
      (Expr.function (.count xs p.1), p.2)).map fun (a, b) => .cmp .eq a b) := by
    rw [List.map_map]
    rfl
  rw [hpairs]
  refine replaces_pairs (List.forall_mem_map.2 fun p hp => ⟨hcount (hzip p hp).1, (hzip p hp).2⟩) fun t ht => ?_
  have valued {ys : List Expr} (hys : ∀ y ∈ ys, y.Sound q w) : ∀ y ∈ ys, y.Valued t := fun y hy => (hys y hy).valued ht
  rw [Expr.holds_cardinality (valued hxs) (valued hvs) (valued hns), List.forall_mem_map]
  refine forall₂_congr fun p hp => ?_
  rw [Expr.num_eq (Expr.exact_count (valued hxs) ((hzip p hp).1.valued ht)), Relation.holds, beq_iff_eq]

end ConstraintModel
