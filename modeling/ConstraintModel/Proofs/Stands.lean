import ConstraintModel.Proofs.Defined
import ConstraintModel.Proofs.Mapped
import ConstraintModel.Proofs.World

namespace ConstraintModel

theorem Bounds.sum_lower_le_upper {bs : List Bounds} (h : ∀ b ∈ bs, b.lower ≤ b.upper) :
    bs.sum.lower ≤ bs.sum.upper := by
  induction bs with
  | nil => exact le_refl 0
  | cons b bs ih =>
    obtain ⟨hb, hbs⟩ := List.forall_mem_cons.1 h
    rw [List.sum_cons]
    exact add_le_add hb (ih hbs)

theorem Bounds.min?_getD_le_max?_getD {ns ms : List Int} (h : List.Forall₂ (· ≤ ·) ns ms) :
    ns.min?.getD 0 ≤ ms.max?.getD 0 := by
  cases h with
  | nil => exact le_refl 0
  | cons hle _ =>
    exact (min?_getD_le (List.mem_cons_self ..)).trans (hle.trans (le_max?_getD (List.mem_cons_self ..)))

theorem Bounds.lower_le_upper_of_forall {bs : List Bounds} (h : ∀ b ∈ bs, b.lower ≤ b.upper) :
    List.Forall₂ (· ≤ ·) (bs.map lower) (bs.map upper) := by
  rw [List.forall₂_map_left_iff, List.forall₂_map_right_iff, List.forall₂_same]
  exact h

theorem Function.lower_le_upper {g : Function Bounds} (h : ∀ b ∈ g.args, b.lower ≤ b.upper) :
    g.range.lower ≤ g.range.upper := by
  cases g with
  | abs b =>
    have := h b (by simp [args])
    rw [range, Bounds.magnitude]
    split_ifs
    · exact this
    · exact neg_le_neg this
    · exact (show 0 ≤ -b.lower by omega).trans (le_max_right _ _)
  | minimum bs => exact Bounds.min?_getD_mono (Bounds.lower_le_upper_of_forall h)
  | maximum bs => exact Bounds.max?_getD_mono (Bounds.lower_le_upper_of_forall h)
  | count bs b => exact Int.natCast_nonneg _
  | distinct bs => exact min_le_left ..
  | element bs b =>
    exact Bounds.min?_getD_le_max?_getD
      (Bounds.lower_le_upper_of_forall fun b hb => h b (List.mem_append_left _ hb))

theorem Function.range_subset {g h : Function Bounds} (hgh : g.Related (· ⊆ ·) h)
    (hne : ∀ b ∈ g.args, b.lower ≤ b.upper) : g.range ⊆ h.range := by
  obtain ⟨hshape, hargs⟩ := hgh
  cases g <;> cases h <;> simp only [map, reduceCtorEq, minimum.injEq, maximum.injEq,
    count.injEq, distinct.injEq, element.injEq] at hshape <;> simp only [args] at hargs hne
  case abs.abs => exact Bounds.magnitude_subset (List.forall₂_cons.1 hargs).1 (hne _ (by simp))
  case minimum.minimum => exact Bounds.minimum_subset hargs
  case maximum.maximum => exact Bounds.maximum_subset hargs
  case count.count =>
    simp only [range, length_eq_of_unit hshape.1]
    exact Bounds.subset_refl _
  case distinct.distinct =>
    simp only [range, length_eq_of_unit hshape]
    exact Bounds.subset_refl _
  case element.element =>
    exact Bounds.hull_subset (forall₂_of_append hargs (length_eq_of_unit hshape.1)).1

namespace Expr

variable {σ : Store} {e : Expr}

/-- The range of an expression is not empty if no domain is. -/
theorem lower_le_upper (e : Expr) (h : ∀ x ∈ e.occurrences, x.bounds.lower ≤ x.bounds.upper) :
    e.range.lower ≤ e.range.upper := by
  induction e using induction_args with
  | h e ih =>
    replace ih := fun a ha => ih a ha fun x hx => h x (mem_occurrences_of_arg ha hx)
    cases e with
    | bool _ | int _ => rw [range]; exact le_refl _
    | var x => rw [range]; exact h x (by simp [occurrences_var])
    | negVar x => rw [range]; exact sub_le_sub_left (h x (by simp [occurrences_negVar])) 1
    | and _ | or _ | implies _ _ | not _ | cmp _ _ _ | constraint _ | call _ => rw [range]; decide
    | sum as =>
      rw [range]
      exact Bounds.sum_lower_le_upper (List.forall_mem_map.2 ih)
    | wsum ts =>
      rw [range]
      refine Bounds.sum_lower_le_upper (List.forall_mem_map.2 fun t ht => ?_)
      have := Bounds.smul_mem t.1 (Bounds.mem_iff.2 ⟨le_refl _, ih t.2 (List.mem_map_of_mem ht)⟩)
      exact this.1.trans this.2
    | sub a b =>
      rw [range]
      exact sub_le_sub (ih a (by simp [args])) (ih b (by simp [args]))
    | mul a b =>
      rw [range]
      exact (min_le_left _ _).trans ((min_le_left _ _).trans ((le_max_left _ _).trans (le_max_left _ _)))
    | neg a =>
      rw [range]
      exact neg_le_neg (ih a (by simp [args]))
    | function g =>
      rw [range_function]
      refine Function.lower_le_upper ?_
      rw [Function.args_map]
      exact List.forall_mem_map.2 ih

theorem Proper.lower_le_upper (h : e.Proper σ.Owns) (hσ : σ.Habitable) : e.range.lower ≤ e.range.upper := by
  obtain ⟨s, hs⟩ := hσ
  exact e.lower_le_upper fun x hx => hs.lower_le_upper (h.scope x hx).1

end Expr

structure World.Stands (w : World) (e f : Expr) : Prop where
  proper : f.Proper w.store.Owns
  isBool : e.isBool → f.isBool
  range : f.range ⊆ e.range
  exact : ∀ t, w.Admits t → f.exact t = e.exact t

namespace World.Stands

open ConstraintModel.Expr

variable {u : Prop} {w w' : World} {e f g : Expr} {s : Assignment}

theorem refl (h : e.Proper w.store.Owns) : w.Stands e e := ⟨h, id, Bounds.subset_refl _, fun _ _ => rfl⟩

theorem trans (h : w.Stands e f) (h' : w.Stands f g) : w.Stands e g :=
  ⟨h'.proper, fun hb => h'.isBool (h.isBool hb), Bounds.subset_trans h'.range h.range,
    fun t ht => (h'.exact t ht).trans (h.exact t ht)⟩

theorem mono (h : w.Stands e f) (hw : w ≤ w') : w'.Stands e f :=
  ⟨h.proper.imp fun _ hx => hx.mono hw.1, h.isBool, h.range, fun t ht => h.exact t (hw.2 t ht)⟩

theorem valued (h : w.Stands e f) (ht : w.Admits s) (he : e.Valued s) : f.Valued s := by
  rwa [Expr.Valued, h.exact s ht]

theorem num_eq (h : w.Stands e f) (ht : w.Admits s) : f.num s = e.num s := by
  rw [num, num, h.exact s ht]

theorem holds_iff (h : w.Stands e f) (ht : w.Admits s) : f.Holds s ↔ e.Holds s := by
  rw [Holds, Holds, h.exact s ht]

theorem fails_iff (h : w.Stands e f) (ht : w.Admits s) : f.Fails s ↔ e.Fails s := by
  rw [Fails, Fails, h.exact s ht]

/-- Boolean expressions that hold together stand for each other. -/
theorem of_holds (he : e.Proper w.store.Owns) (hbe : e.isBool) (hf : f.Proper w.store.Owns) (hbf : f.isBool)
    (hrange : f.range ⊆ e.range)
    (h : ∀ t, w.Admits t → e.Valued t ∧ f.Valued t ∧ (f.Holds t ↔ e.Holds t)) : w.Stands e f :=
  ⟨hf, fun _ => hbf, hrange, fun t ht => by
    obtain ⟨hve, hvf, hiff⟩ := h t ht
    exact exact_eq_of_holds hf hbf he hbe ht.within ht.within hvf hve hiff⟩

/-- Expressions built from arguments that stand for others. -/
theorem mapped (h : e.Mapped w.Stands f) (he : e.Proper w.store.Owns) (hw : w.store.Habitable) :
    w.Stands e f := by
  have hargs : ∀ b ∈ f.args, b.Proper w.store.Owns := by
    intro b hb
    obtain ⟨a, -, hab⟩ := h.args b hb
    exact hab.proper
  have hp : f.Proper w.store.Owns := by
    rcases h.eq_or_isSimple with ⟨rfl, -⟩ | hs
    · exact he
    · exact (proper_iff (ne_var_of_isSimple hs)).2 ⟨h.typedHere (fun a b hab => hab.isBool) he.typed.here, hargs⟩
  have nonempty : ∀ b ∈ f.args, b.range.lower ≤ b.range.upper := fun b hb => (hargs b hb).lower_le_upper hw
  have exacts {as bs : List Expr} (h : List.Forall₂ w.Stands as bs) {t} (ht : w.Admits t) :
      bs.map (Expr.exact t) = as.map (Expr.exact t) :=
    (forall₂_map_eq (fun a b hab => (hab.exact t ht).symm) h).symm
  have ranges {as bs : List Expr} (h : List.Forall₂ w.Stands as bs) :
      List.Forall₂ (· ⊆ ·) (bs.map Expr.range) (as.map Expr.range) := by
    rw [List.forall₂_map_left_iff, List.forall₂_map_right_iff]
    exact (h.imp fun _ _ hab => hab.range).flip
  refine ⟨hp, fun hb => by rwa [h.isBool_eq], ?_, fun t ht => ?_⟩
  · cases h with
    | simple => exact Bounds.subset_refl _
    | and | or | implies | not | cmp | constraint => rw [Expr.range, Expr.range]
    | sum h => rw [Expr.range, Expr.range]; exact Bounds.sum_subset (ranges h)
    | wsum h =>
      rw [Expr.range, Expr.range]
      refine Bounds.sum_subset ?_
      rw [List.forall₂_map_left_iff, List.forall₂_map_right_iff]
      refine List.Forall₂.flip (h.imp fun t u htu => ?_)
      change u.1 • u.2.range ⊆ t.1 • t.2.range
      rw [htu.1]
      exact Bounds.smul_subset t.1 htu.2.range
    | sub h₁ h₂ => rw [Expr.range, Expr.range]; exact Bounds.sub_subset h₁.range h₂.range
    | mul h₁ h₂ =>
      rw [Expr.range, Expr.range]
      exact Bounds.mul_subset h₁.range h₂.range (nonempty _ (by simp [args])) (nonempty _ (by simp [args]))
    | neg h => rw [Expr.range, Expr.range]; exact Bounds.neg_subset h.range
    | function h =>
      rw [range_function, range_function]
      refine Function.range_subset ⟨?_, ?_⟩ ?_
      · rw [Function.map_map, Function.map_map, h.shape]
      · rw [Function.args_map, Function.args_map]
        exact ranges h.args
      · rw [Function.args_map]
        exact List.forall_mem_map.2 nonempty
  · cases h with
    | simple => rfl
    | and h => rw [exact_and, exact_and, exacts h ht]
    | or h => rw [exact_or, exact_or, exacts h ht]
    | implies h₁ h₂ => rw [exact_implies, exact_implies, h₁.exact t ht, h₂.exact t ht]
    | not h => rw [exact_not, exact_not, h.exact t ht]
    | sum h => rw [exact_sum, exact_sum, exacts h ht]
    | wsum h =>
      rw [exact_wsum, exact_wsum]
      congr 1
      exact (forall₂_map_eq (fun t' u htu => by rw [htu.1, htu.2.exact t ht]) h).symm
    | sub h₁ h₂ => rw [exact_sub, exact_sub, h₁.exact t ht, h₂.exact t ht]
    | mul h₁ h₂ => rw [exact_mul, exact_mul, h₁.exact t ht, h₂.exact t ht]
    | neg h => rw [exact_neg, exact_neg, h.exact t ht]
    | cmp r h₁ h₂ =>
      rw [exact_cmp, exact_cmp, h₁.exact t ht, h₂.exact t ht, Over.assigned hp.scope ht.within,
        Over.assigned he.scope ht.within]
    | constraint h =>
      rw [exact_constraint, exact_constraint, h.map_eq fun a b hab => (hab.exact t ht).symm]
    | function h =>
      rw [exact_function, exact_function, h.map_eq fun a b hab => (hab.exact t ht).symm]

end World.Stands

namespace World

open ConstraintModel.Expr

variable {u : Prop} {w w' : World} {x : Variable} {e d : Expr}

def IsDefinition (x : Variable) (e d : Expr) : Prop := d = cmp .eq e (var x) ∨ d = cmp .eq (var x) e

theorem IsDefinition.holds_iff (hd : IsDefinition x e d) {t : Assignment} (he : e.Valued t)
    (hx : (var x).Valued t) : d.Holds t ↔ t.value? x = some (e.num t) := by
  have hvalue : t.value? x = some ((var x).num t) := by rw [← exact_var, hx.exact_eq]
  rw [hvalue, Option.some_inj]
  rcases hd with rfl | rfl
  · rw [holds_cmp_num he hx, Relation.holds, beq_iff_eq, eq_comm]
  · rw [holds_cmp_num hx he, Relation.holds, beq_iff_eq]

theorem valued_var {t : Assignment} (hx : w'.store.Has x) (ht : t.Within w'.store) : (var x).Valued t := by
  obtain ⟨n, -, hn⟩ := ht.value hx
  exact valued_of_eq (by rw [exact_var, hn])

/-- A new variable is given the value of an expression. -/
theorem refines_define (hw : w.Inhabited) (hx : w.store.Creates x w'.store)
    (hp : e.Proper w.store.Owns) (he : ∀ t, w.Admits t → e.Valued t ∧ e.num t ∈ x.bounds)
    (hd : IsDefinition x e d) (hw' : w'.constraints = w.constraints ++ [d]) : w.Refines u w' := by
  refine refines_create (v := fun s => e.num s) hw hx hw' (fun t ht => (he t ht).2) (fun s t hst => ?_) ?_
  · rw [num, num, Over.exact_congr hp.scope hst]
  · intro t ht hwt
    rw [List.forall_mem_singleton]
    exact hd.holds_iff (he t hwt).1 (valued_var hx.owns.1 ht)

theorem stands_define (hr : w.Refines u w') (hx : w.store.Creates x w'.store) (hb : e.isBool → x.isBool)
    (hrange : x.bounds ⊆ e.range) (he : ∀ t, w.Admits t → e.Valued t)
    (hd : IsDefinition x e d) (hw' : w'.constraints = w.constraints ++ [d]) : w'.Stands e (var x) := by
  refine ⟨proper_var.2 hx.owns, hb, ?_, fun t ht => ?_⟩
  · rwa [range]
  · have hv := he t (hr.sound t ht)
    have hholds : d.Holds t := ht.holds d (by simp [hw'])
    rw [exact_var, (hd.holds_iff hv (valued_var hx.owns.1 ht.within)).1 hholds, hv.exact_eq]

end World

end ConstraintModel
