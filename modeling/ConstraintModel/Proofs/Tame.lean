import ConstraintModel.Proofs.Decompose
import ConstraintModel.Proofs.Defined

namespace ConstraintModel

def Constraint.Lasting : Constraint Expr → Prop
  | cumulative _ ds _ _ _ => ∀ d ∈ ds, 0 ≤ d.range.lower
  | _ => True

/-- Durations with smaller ranges are not negative either. -/
theorem Constraint.Lasting.related {c d : Constraint Expr} (hc : c.Lasting)
    (h : c.Related (fun a b => b.range ⊆ a.range) d) : d.Lasting := by
  obtain ⟨hshape, hargs⟩ := h
  cases c <;> cases d <;> simp only [map, reduceCtorEq, cumulative.injEq] at hshape <;> try trivial
  obtain ⟨hs, hd, he, hr, -⟩ := hshape
  simp only [args, List.append_assoc] at hargs
  have hrest := (forall₂_of_append hargs (length_eq_of_unit hs)).2
  have hds := (forall₂_of_append hrest (length_eq_of_unit hd)).1
  intro b hb
  obtain ⟨a, ha, hab⟩ := forall₂_mem_right hds hb
  exact (hc a ha).trans hab.1

namespace Expr

/-- What flattening and decomposing rely on. The arguments have values, apart
from a function that is compared with a variable or constant, and negations can
be pushed into the arguments that they can reach. -/
def TameHere (s : Assignment) : Expr → Prop
  | implies a b => a.Invertible s ∧ a.Valued s ∧ b.Valued s
  | not a => a.Invertible s ∧ a.Valued s
  | cmp _ a b => ((a.isBool → a.Invertible s) ∧ ((∃ g, a = function g) ∧ b.isSimple ∨ a.Valued s)) ∧
    (b.isBool → b.Invertible s) ∧ b.Valued s
  | constraint c => c.Lasting ∧ ∀ a ∈ c.args, a.Valued s ∧ (a.isBool → a.Invertible s)
  | function g => ∀ a ∈ g.args, a.Valued s ∧ (a.isBool → a.Invertible s)
  | e => ∀ a ∈ e.args, a.Valued s

def Tame (s : Assignment) (e : Expr) : Prop := e.Everywhere (TameHere s)

/-- Functions are defined for all values in the ranges of their arguments, and
the durations of tasks are not negative. -/
def TotalHere : Expr → Prop
  | function (.element as i) => 0 ≤ i.range.lower ∧ i.range.upper < as.length
  | constraint c => c.Lasting
  | _ => True

structure Regular (s : Assignment) (e : Expr) : Prop where
  tame : e.Tame s
  valued : e.Valued s
  invertible : e.isBool → e.Invertible s

variable {σ : Store} {e a b : Expr} {as : List Expr} {s t : Assignment}

theorem tame_iff : e.Tame s ↔ e.TameHere s ∧ ∀ a ∈ e.args, a.Tame s := everywhere_iff

theorem tame_of_isSimple (h : e.isSimple) : e.Tame s := by
  have hargs := args_of_isSimple h
  refine tame_iff.2 ⟨?_, by simp [hargs]⟩
  cases e with
  | bool _ | int _ | var _ | negVar _ => intro a ha; cases ha
  | _ => cases h

theorem valued_of_isSimple (h : e.isSimple) (hp : e.Proper σ.Owns) (hs : s.Within σ) : e.Valued s :=
  valued_of_args hp hs (by simp [args_of_isSimple h]) fun as i he => by simp [he, isSimple] at h

/-- Only what is compared need not have a value. -/
theorem TameHere.valued (h : e.TameHere s) (hc : ∀ r a b, e ≠ cmp r a b) : ∀ a ∈ e.args, a.Valued s := by
  intro a ha
  cases e with
  | implies x y =>
    simp only [args, List.mem_cons, List.not_mem_nil, or_false] at ha
    rcases ha with rfl | rfl
    · exact h.2.1
    · exact h.2.2
  | not x => rw [List.mem_singleton.1 ha]; exact h.2
  | cmp r x y => exact absurd rfl (hc r x y)
  | constraint c => exact (h.2 a ha).1
  | function g => exact (h a ha).1
  | _ => exact h a ha

/-- A Boolean expression that is tame has a value. -/
theorem Tame.valued (h : e.Tame s) (hp : e.Proper σ.Owns) (hb : e.isBool) (hs : s.Within σ) :
    e.Valued s := by
  by_cases hc : ∃ r a b, e = cmp r a b
  · obtain ⟨r, a, b, rfl⟩ := hc
    exact valued_cmp hp hs
  · exact valued_of_args hp hs (h.here.valued fun r a b he => hc ⟨r, a, b, he⟩) fun as i he => by
      rw [he] at hb
      cases hb

theorem invertible_constraint {c : Constraint Expr} : (constraint c).Invertible s := by
  rw [Invertible, negated_constraint, holds_not]

/-- Pushing a negation into a tame expression leaves it tame. -/
theorem Tame.negated (h : e.Tame s) (hp : e.Proper σ.Owns) (hb : e.isBool) (hs : s.Within σ) :
    e.negated.Tame s := by
  induction e using induction_args with
  | h e ih =>
    have valued {a : Expr} (ha : a ∈ e.args) (hba : a.isBool) : a.negated.Valued s :=
      (ih a ha (h.arg ha) (hp.arg ha) hba).valued (proper_negated hba (hp.arg ha))
        (isBool_negated hba (hp.arg ha)) hs
    cases e with
    | bool b => rw [negated_bool]; exact tame_of_isSimple rfl
    | var x => rw [negated_var hb]; exact tame_of_isSimple rfl
    | negVar x => rw [negated_negVar]; exact tame_of_isSimple rfl
    | and as =>
      have hbs := (proper_and.1 hp).1
      rw [negated_and, tame_iff]
      exact ⟨List.forall_mem_map.2 fun a ha => valued ha (hbs a ha),
        List.forall_mem_map.2 fun a ha => ih a ha (h.arg ha) (hp.arg ha) (hbs a ha)⟩
    | or as =>
      have hbs := (proper_or.1 hp).1
      rw [negated_or, tame_iff]
      exact ⟨List.forall_mem_map.2 fun a ha => valued ha (hbs a ha),
        List.forall_mem_map.2 fun a ha => ih a ha (h.arg ha) (hp.arg ha) (hbs a ha)⟩
    | implies a b =>
      have hba := (proper_implies.1 hp).1
      have ha : a ∈ (implies a b).args := by simp [args]
      have hb : b ∈ (implies a b).args := by simp [args]
      have hargs : ∀ c ∈ [a, b.negated], c.Valued s ∧ c.Tame s := by
        simp only [List.forall_mem_cons, List.not_mem_nil, false_imp_iff, implies_true, and_true]
        exact ⟨⟨h.here.2.1, h.arg ha⟩, valued hb hba.2, ih b hb (h.arg hb) (hp.arg hb) hba.2⟩
      rw [negated_implies, tame_iff]
      exact ⟨fun c hc => (hargs c hc).1, fun c hc => (hargs c hc).2⟩
    | not a => rw [negated_not]; exact h.arg (by simp [args])
    | cmp r a b =>
      rw [negated_cmp, tame_iff]
      exact ⟨h.here, fun c hc => h.arg hc⟩
    | constraint c =>
      rw [negated_constraint, tame_iff]
      refine ⟨⟨invertible_constraint, h.valued hp rfl hs⟩, ?_⟩
      simpa [args] using h
    | call d => exact absurd hp proper_call
    | int _ | sum _ | wsum _ | sub _ _ | mul _ _ | neg _ | function _ => cases hb

/-- The negation of a tame expression holds only where the expression fails. -/
theorem Tame.fails_of_negated (h : e.Tame s) (hp : e.Proper σ.Owns) (hb : e.isBool) (hs : s.Within σ)
    (hn : e.negated.Holds s) : e.Fails s := by
  induction e using induction_args with
  | h e ih =>
    cases e with
    | bool b => cases b <;> simp_all [holds_bool, fails_bool]
    | var x =>
      obtain ⟨n, -, hv⟩ := hs.value (proper_var.1 hp).1
      have := hp.num_boolean hb hs (by rw [exact_var, hv])
      rw [negated_var hb, Holds, exact_negVar, hv] at hn
      rw [Fails, exact_var, hv]
      rcases this with rfl | rfl
      · rfl
      · cases hn
    | negVar x =>
      obtain ⟨n, -, hv⟩ := hs.value (proper_negVar.1 hp).2.1
      have := (proper_var.2 (proper_negVar.1 hp).2).num_boolean (proper_negVar.1 hp).1 hs (by rw [exact_var, hv])
      rw [negated_negVar, Holds, exact_var, hv] at hn
      rw [Fails, exact_negVar, hv]
      rcases this with rfl | rfl
      · cases hn
      · rfl
    | and as =>
      rw [negated_and, holds_or] at hn
      obtain ⟨_, hmem, hn⟩ := hn
      obtain ⟨a, ha, rfl⟩ := List.mem_map.1 hmem
      exact fails_and.2 ⟨a, ha, ih a ha (h.arg ha) (hp.arg ha) ((proper_and.1 hp).1 a ha) hn⟩
    | or as =>
      rw [negated_or, holds_and, List.forall_mem_map] at hn
      exact fails_or.2 fun a ha => ih a ha (h.arg ha) (hp.arg ha) ((proper_or.1 hp).1 a ha) (hn a ha)
    | implies a b =>
      have hb : b ∈ (implies a b).args := by simp [args]
      rw [negated_implies, holds_and] at hn
      exact fails_implies.2 ⟨hn a (by simp),
        ih b hb (h.arg hb) (hp.arg hb) (proper_implies.1 hp).1.2 (hn _ (by simp))⟩
    | not a =>
      rw [negated_not] at hn
      exact fails_not.2 hn
    | cmp r a b =>
      rw [negated_cmp, holds_cmp] at hn
      obtain ⟨m, n, hm, hn, hr⟩ := hn
      rw [(valued_cmp hp hs).fails_iff, holds_cmp_num (valued_of_eq hm) (valued_of_eq hn), num_eq hm, num_eq hn]
      simpa [Relation.negated_holds] using hr
    | constraint c => exact invertible_constraint.1 hn
    | call d => exact absurd hp proper_call
    | int _ | sum _ | wsum _ | sub _ _ | mul _ _ | neg _ | function _ => cases hb

/-- Negating a tame expression twice does not change when it holds. -/
theorem Tame.holds_negated_negated (h : e.Tame s) (hp : e.Proper σ.Owns) (hb : e.isBool) :
    e.negated.negated.Holds s ↔ e.Holds s := by
  induction e using induction_args with
  | h e ih =>
    cases e with
    | bool b => rw [negated_bool, negated_bool, Bool.not_not]
    | var x => rw [negated_var hb, negated_negVar]
    | negVar x => rw [negated_negVar, negated_var (proper_negVar.1 hp).1]
    | and as =>
      rw [negated_and, negated_or, holds_and, holds_and]
      simp only [List.forall_mem_map]
      exact forall₂_congr fun a ha => ih a ha (h.arg ha) (hp.arg ha) ((proper_and.1 hp).1 a ha)
    | or as =>
      rw [negated_or, negated_and, holds_or, holds_or]
      simp only [List.mem_map, exists_exists_and_eq_and]
      exact exists_congr fun a => and_congr_right fun ha =>
        ih a ha (h.arg ha) (hp.arg ha) ((proper_or.1 hp).1 a ha)
    | implies a b =>
      have hb' : b ∈ (implies a b).args := by simp [args]
      have hinv : a.negated.Holds s ↔ a.Fails s := h.here.1
      rw [negated_implies, negated_and, holds_or, holds_implies]
      simp only [List.map_cons, List.map_nil, List.mem_cons, List.not_mem_nil, or_false, exists_eq_or_imp,
        exists_eq_left, hinv, ih b hb' (h.arg hb') (hp.arg hb') (proper_implies.1 hp).1.2, h.here.2.1.fails_iff]
      tauto
    | not a =>
      have hinv : a.negated.Holds s ↔ a.Fails s := h.here.1
      rw [negated_not, hinv, holds_not]
    | cmp r a b => rw [negated_cmp, negated_cmp, Relation.negated_negated]
    | constraint c => rw [negated_constraint, negated_not]
    | call d => exact absurd hp proper_call
    | int _ | sum _ | wsum _ | sub _ _ | mul _ _ | neg _ | function _ => cases hb

/-- Whether an expression is tame depends only on the values of its variables. -/
theorem Tame.congr (h : e.Tame s) (hp : e.Proper fun x => s.value? x = t.value? x) : e.Tame t := by
  have hvalued {a : Expr} (ha : a.Proper fun x => s.value? x = t.value? x) : a.Valued s → a.Valued t := by
    rw [Valued, Valued, exact_congr a ha.scope]
    exact id
  have hinvertible {a : Expr} (ha : a.Proper fun x => s.value? x = t.value? x) (hb : a.isBool) :
      a.Invertible s → a.Invertible t := by
    rw [Invertible, Invertible, Holds, Holds, Fails, Fails, exact_congr a ha.scope,
      exact_congr _ (proper_negated hb ha).scope]
    exact id
  induction e using induction_args with
  | h e ih =>
    refine tame_iff.2 ⟨?_, fun a ha => ih a ha (h.arg ha) (hp.arg ha)⟩
    cases e with
    | implies a b =>
      obtain ⟨⟨hba, -⟩, hpa, hpb⟩ := proper_implies.1 hp
      exact ⟨hinvertible hpa hba h.here.1, hvalued hpa h.here.2.1, hvalued hpb h.here.2.2⟩
    | not a =>
      obtain ⟨hba, hpa⟩ := proper_not.1 hp
      exact ⟨hinvertible hpa hba h.here.1, hvalued hpa h.here.2⟩
    | cmp r a b =>
      obtain ⟨hpa, hpb⟩ := proper_cmp.1 hp
      exact ⟨⟨fun hb => hinvertible hpa hb (h.here.1.1 hb), h.here.1.2.imp_right (hvalued hpa)⟩,
        fun hb => hinvertible hpb hb (h.here.2.1 hb), hvalued hpb h.here.2.2⟩
    | constraint c =>
      exact ⟨h.here.1, fun a ha => ⟨hvalued (hp.arg ha) (h.here.2 a ha).1,
        fun hb => hinvertible (hp.arg ha) hb ((h.here.2 a ha).2 hb)⟩⟩
    | function g =>
      exact fun a ha => ⟨hvalued (hp.arg ha) (h.here a ha).1,
        fun hb => hinvertible (hp.arg ha) hb ((h.here a ha).2 hb)⟩
    | _ => exact fun a ha => hvalued (hp.arg ha) (h.here a ha)

/-- Negations reach the values of an expression through its arguments. -/
theorem invertible_of_args (hp : e.Proper σ.Owns) (hb : e.isBool) (hs : s.Within σ)
    (h : ∀ a ∈ e.args, a.Valued s ∧ (a.isBool → a.Invertible s)) : e.Invertible s := by
  unfold Invertible
  cases e with
  | bool b => cases b <;> simp [holds_bool, fails_bool]
  | var x =>
    obtain ⟨n, hn, hv⟩ := hs.value (proper_var.1 hp).1
    have := hp.num_boolean hb hs (by rw [exact_var, hv])
    rw [negated_var hb, Holds, Fails, exact_negVar, exact_var, hv]
    rcases this with rfl | rfl <;> decide
  | negVar x =>
    obtain ⟨n, hn, hv⟩ := hs.value (proper_negVar.1 hp).2.1
    have := (proper_var.2 (proper_negVar.1 hp).2).num_boolean (proper_negVar.1 hp).1 hs (by rw [exact_var, hv])
    rw [negated_negVar, Holds, Fails, exact_negVar, exact_var, hv]
    rcases this with rfl | rfl <;> decide
  | and as =>
    have hbs := (proper_and.1 hp).1
    rw [negated_and, holds_or, fails_and]
    simp only [List.mem_map, exists_exists_and_eq_and]
    exact exists_congr fun a => and_congr_right fun ha => (h a ha).2 (hbs a ha)
  | or as =>
    have hbs := (proper_or.1 hp).1
    rw [negated_or, holds_and, fails_or, List.forall_mem_map]
    exact forall₂_congr fun a ha => (h a ha).2 (hbs a ha)
  | implies a b =>
    have hb : b.negated.Holds s ↔ b.Fails s := (h b (by simp [args])).2 (proper_implies.1 hp).1.2
    rw [negated_implies, holds_and, fails_implies]
    simp [hb]
  | not a => rw [negated_not, fails_not]
  | cmp r a b =>
    have ha := (h a (by simp [args])).1
    have hb := (h b (by simp [args])).1
    rw [negated_cmp, (valued_cmp hp hs).fails_iff, holds_cmp_num ha hb, holds_cmp_num ha hb,
      Relation.negated_holds, Bool.not_eq_true', Bool.not_eq_true]
  | constraint c => exact invertible_constraint
  | call d => exact absurd hp proper_call
  | int _ | sum _ | wsum _ | sub _ _ | mul _ _ | neg _ | function _ => cases hb

theorem valued_of_total (hp : e.Proper σ.Owns) (here : e.TotalHere) (hs : s.Within σ)
    (h : ∀ a ∈ e.args, a.Valued s) : e.Valued s := by
  refine valued_of_args hp hs h fun as i he => ?_
  subst he
  have hi : i ∈ (function (.element as i)).args := List.mem_append_right _ (List.mem_singleton_self i)
  have hmem := (h i hi).num_mem_range (Over.inBounds (hp.arg hi).scope hs)
  simp only [TotalHere] at here
  rw [Bounds.mem_iff] at hmem
  omega

/-- An expression is regular if its parts are. -/
theorem regular_of_args (hp : e.Proper σ.Owns) (here : e.TotalHere) (hs : s.Within σ)
    (h : ∀ a ∈ e.args, a.Regular s) : e.Regular s := by
  have hv : ∀ a ∈ e.args, a.Valued s := fun a ha => (h a ha).valued
  refine ⟨tame_iff.2 ⟨?_, fun a ha => (h a ha).tame⟩, valued_of_total hp here hs hv, fun hb =>
    invertible_of_args hp hb hs fun a ha => ⟨hv a ha, (h a ha).invertible⟩⟩
  cases e with
  | implies a b =>
    exact ⟨(h a (by simp [args])).invertible (proper_implies.1 hp).1.1, hv a (by simp [args]),
      hv b (by simp [args])⟩
  | not a => exact ⟨(h a (by simp [args])).invertible (proper_not.1 hp).1, hv a (by simp [args])⟩
  | cmp r a b =>
    exact ⟨⟨(h a (by simp [args])).invertible, .inr (hv a (by simp [args]))⟩,
      (h b (by simp [args])).invertible, hv b (by simp [args])⟩
  | constraint c => exact ⟨here, fun a ha => ⟨hv a ha, (h a ha).invertible⟩⟩
  | function g => exact fun a ha => ⟨hv a ha, (h a ha).invertible⟩
  | _ => exact hv

theorem regular_of_isSimple (h : e.isSimple) (hp : e.Proper σ.Owns) (hs : s.Within σ) : e.Regular s := by
  refine regular_of_args hp ?_ hs (by simp [args_of_isSimple h])
  cases e with
  | constraint _ | function _ => cases h
  | _ => trivial

end Expr

end ConstraintModel
