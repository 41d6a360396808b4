import ConstraintModel.Proofs.Functions

namespace ConstraintModel

open ConstraintModel.Expr (num)

namespace Inverse

variable {w : World} {fs bs : List Expr} {x : Expr} {i : Int} {s : Assignment}

theorem holds_inverse (hfs : ∀ a ∈ fs, a.Valued s) (hbs : ∀ b ∈ bs, b.Valued s) :
    (Expr.constraint (.inverse fs bs)).Holds s ↔
      ∀ p ∈ indexed fs, entryAt? (bs.map (num s)) (p.2.num s) = some p.1 := by
  simp only [Expr.holds_constraint, Constraint.map, Constraint.exact, Expr.values_num hfs, Expr.values_num hbs,
    Option.bind_eq_bind, Option.bind_some, Option.pure_def, Option.some_inj, holds, List.all_eq_true, indexed_map,
    List.forall_mem_map, beq_iff_eq]

def entry (bs : List Expr) (i : Int) (x : Expr) : Expr := .cmp .eq (.function (.element bs x)) (.int i)

section

variable (hbs : ∀ b ∈ bs, b.Sound False w) (hx : x.Sound False w)

include hbs hx

theorem sound_args : ∀ a ∈ (Function.element bs x).args, a.Sound False w := by
  simpa [Function.args, or_imp, forall_and] using ⟨hbs, hx⟩

theorem proper_entry : (entry bs i x).Proper w.store.Owns :=
  Expr.proper_cmp.2 ⟨Expr.proper_function.2 ⟨trivial, fun a ha => (sound_args hbs hx a ha).proper⟩, Expr.proper_int⟩

theorem tame_entry (hs : w.Admits s) : (entry bs i x).Tame s := by
  have hargs := fun a ha => (sound_args hbs hx a ha).regular s hs
  have hint := Expr.regular_of_isSimple (σ := w.store) (e := .int i) rfl Expr.proper_int hs.within
  refine Expr.tame_iff.2 ⟨⟨⟨nofun, .inl ⟨⟨_, rfl⟩, rfl⟩⟩, nofun, hint.valued⟩, ?_⟩
  simp only [entry, Expr.args, List.forall_mem_cons, List.not_mem_nil, false_imp_iff, implies_true, and_true]
  exact ⟨Expr.tame_iff.2 ⟨fun a ha => ⟨(hargs a ha).valued, (hargs a ha).invertible⟩, fun a ha => (hargs a ha).tame⟩,
    hint.tame⟩

/-- The position belongs to the array where the comparison can be negated. -/
theorem invertible_entry (hs : w.Admits s) (hpos : 0 ≤ x.num s ∧ x.num s < bs.length) :
    (entry bs i x).Invertible s := by
  have hargs := fun a ha => (sound_args hbs hx a ha).regular s hs
  have hp := Expr.proper_cmp.1 (proper_entry hbs hx (i := i))
  refine Expr.invertible_of_args (proper_entry hbs hx) rfl hs.within ?_
  simp only [entry, Expr.args, List.forall_mem_cons, List.not_mem_nil, false_imp_iff, implies_true, and_true]
  refine ⟨⟨Expr.valued_of_args hp.1 hs.within (fun a ha => (hargs a ha).valued) ?_, by simp [Expr.isBool]⟩,
    Expr.valued_of_eq (Expr.exact_int ..), by simp [Expr.isBool]⟩
  rintro _ _ ⟨⟩
  exact hpos

/-- The guards fail where the entry does not exist, so that the link has a value
and can be negated in all cases. -/
theorem sound_link : (link bs i x).isBool ∧ (link bs i x).Sound False w := by
  unfold link
  split
  · split
    · rename_i y hy
      exact ⟨rfl, Expr.sound_cmp (hbs y (mem_of_entryAt? hy)) Expr.sound_int⟩
    · exact ⟨rfl, Expr.sound_bool⟩
  · have hguards : ∀ g ∈ x.guards bs.length, g.isBool ∧ g.Sound False w := Expr.sound_guards hx
    have hmembers : ∀ a ∈ x.guards bs.length ++ [entry bs i x], a.isBool ∧ a.Proper w.store.Owns ∧
        ∀ s, w.Admits s → a.Tame s :=
      List.forall_mem_append.2 ⟨fun g hg => ⟨(hguards g hg).1, (hguards g hg).2.proper, fun s => (hguards g hg).2.tame⟩,
        List.forall_mem_singleton.2 ⟨rfl, proper_entry hbs hx, fun s => tame_entry hbs hx⟩⟩
    have hb := Expr.isBool_all fun a ha => (hmembers a ha).1
    have hp := Expr.proper_all (fun a ha => (hmembers a ha).1) fun a ha => (hmembers a ha).2.1
    refine ⟨hb, hp, fun s hs => ?_, False.elim⟩
    have hvalued : ∀ a ∈ x.guards bs.length ++ [entry bs i x], a.Valued s := fun a ha =>
      ((hmembers a ha).2.2 s hs).valued (hmembers a ha).2.1 (hmembers a ha).1 hs.within
    have htame := Expr.tame_all fun a ha => ⟨(hmembers a ha).2.2 s hs, hvalued a ha⟩
    refine ⟨htame, htame.valued hp hb hs.within, fun _ => Expr.invertible_all ?_ fun a ha =>
      ((hmembers a ha).2.2 s hs).fails_of_negated (hmembers a ha).2.1 (hmembers a ha).1 hs.within⟩
    by_cases hall : ∀ g ∈ x.guards bs.length, g.Holds s
    · have hpos := (Expr.holds_guards (hx.valued hs) (hx.num_mem_range hs)).1 hall
      rintro ⟨a, ha, hf⟩
      refine ⟨a, ha, hf, ?_⟩
      rcases List.mem_append.1 ha with hg | ha
      · exact ((hguards a hg).2.regular s hs).invertible (hguards a hg).1
      · rw [List.mem_singleton.1 ha]
        exact invertible_entry hbs hx hs hpos
    · simp only [not_forall] at hall
      obtain ⟨g, hg, hholds⟩ := hall
      exact fun _ => ⟨g, List.mem_append_left _ hg, ((hguards g hg).2.valued hs).fails_iff.2 hholds,
        ((hguards g hg).2.regular s hs).invertible (hguards g hg).1⟩

theorem holds_link (hs : w.Admits s) : (link bs i x).Holds s ↔ entryAt? (bs.map (num s)) (x.num s) = some i := by
  have hv : ∀ b ∈ bs, b.Valued s := fun b hb => (hbs b hb).valued hs
  have hint : (Expr.int i).Valued s := Expr.valued_of_eq (Expr.exact_int ..)
  rw [entryAt?_map, Option.map_eq_some_iff]
  unfold link
  split
  · rename_i c hc
    rw [Expr.num_of_constant hc]
    split
    · rename_i y hy
      rw [Expr.holds_cmp_num (hv y (mem_of_entryAt? hy)) hint, hy]
      simp [Relation.holds]
    · rename_i hnone
      simp [hnone, Expr.holds_bool]
  · rw [Expr.holds_all, List.forall_mem_append, List.forall_mem_singleton,
      Expr.holds_guards (hx.valued hs) (hx.num_mem_range hs), Function.holds_element hv (hx.valued hs) hint]
    simp only [Relation.holds, Expr.num_int, beq_iff_eq]
    refine and_iff_right_of_imp ?_
    rintro ⟨a, ha, -⟩
    obtain ⟨hpos, hget⟩ := entryAt?_eq_some.1 ha
    obtain ⟨hlt, -⟩ := List.getElem?_eq_some_iff.1 hget
    exact ⟨hpos, by omega⟩

end

theorem replaces (hfs : ∀ a ∈ fs, a.Sound False w) (hbs : ∀ b ∈ bs, b.Sound False w) :
    (Decomposition.direct [.all ((indexed fs).map fun (i, x) => link bs i x)]).Replaces False w w.store
      (.constraint (.inverse fs bs)) := by
  have hlinks : ∀ a ∈ (indexed fs).map fun p => link bs p.1 p.2, a.isBool ∧ a.Sound False w :=
    List.forall_mem_map.2 fun p hp => sound_link hbs (hfs _ (mem_of_indexed hp))
  refine Decomposition.replaces_direct ?_ ?_ fun t ht => ?_
  · exact List.forall_mem_singleton.2 (Expr.isBool_all fun a ha => (hlinks a ha).1)
  · exact List.forall_mem_singleton.2 (Expr.sound_all (fun a ha => (hlinks a ha).1) fun a ha => (hlinks a ha).2)
  · rw [List.forall_mem_singleton, Expr.holds_all, List.forall_mem_map,
      holds_inverse (fun a ha => (hfs a ha).valued ht) fun b hb => (hbs b hb).valued ht]
    exact forall₂_congr fun p hp => holds_link hbs (hfs _ (mem_of_indexed hp)) ht

end Inverse

end ConstraintModel
