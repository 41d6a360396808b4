import ConstraintModel.Form.Flat
import ConstraintModel.Proofs.Measure
import ConstraintModel.Proofs.Yields

namespace ConstraintModel

namespace Expr

def IsFlatSide : Expr → Prop
  | var _ | negVar _ => True
  | sum as => ∀ a ∈ as, a.isSimple
  | wsum ts => ∀ t ∈ ts, t.2.isSimple
  | sub a b | mul a b => a.isSimple ∧ b.isSimple
  | function g => ∀ a ∈ g.args, a.isSimple
  | _ => False

def IsFlatTruth : Expr → Prop
  | and as | or as => ∀ a ∈ as, a.isLiteral
  | cmp _ a b => a.IsFlatSide ∧ b.isSimple
  | constraint c => ∀ a ∈ c.args, a.isSimple
  | e => e.isLiteral

def IsFlat : Expr → Prop
  | bool b => b = false
  | or as => ∀ a ∈ as, a.isLiteral
  | implies l a => l.isLiteral ∧ a.IsFlatTruth
  | cmp r a b => a.IsFlatSide ∧ b.isSimple ∨ r = .eq ∧ a.IsFlatTruth ∧ b.isLiteral
  | constraint c => ∀ a ∈ c.args, a.isSimple
  | e => e.isLiteral

/-- No negation of a negation is negated in the expression. -/
def TripleFree (e : Expr) : Prop := e.Everywhere fun a => ∀ x, a ≠ not (not (not x))

variable {V : Variable → Prop} {e a b l : Expr} {as : List Expr}

theorem tripleFree_iff :
    e.TripleFree ↔ (∀ x, e ≠ not (not (not x))) ∧ ∀ a ∈ e.args, a.TripleFree := everywhere_iff

theorem tripleFree_of_isSimple (h : e.isSimple) : e.TripleFree := by
  refine tripleFree_iff.2 ⟨?_, by simp [args_of_isSimple h]⟩
  rintro x rfl
  cases h

theorem TripleFree.negated (h : e.TripleFree) : e.negated.TripleFree := by
  induction e using induction_args with
  | h e ih =>
    replace ih := fun a ha => ih a ha (h.arg ha)
    have wrap (he : ∀ x, e ≠ Expr.not x) : (Expr.not e).TripleFree := by
      refine tripleFree_iff.2 ⟨fun x hx => he (.not x) (by injection hx), fun a ha => ?_⟩
      rwa [List.mem_singleton.1 ha]
    cases e with
    | and as =>
      rw [negated_and, tripleFree_iff]
      exact ⟨by simp, fun a ha => by obtain ⟨c, hc, rfl⟩ := List.mem_map.1 ha; exact ih c hc⟩
    | or as =>
      rw [negated_or, tripleFree_iff]
      exact ⟨by simp, fun a ha => by obtain ⟨c, hc, rfl⟩ := List.mem_map.1 ha; exact ih c hc⟩
    | implies a b =>
      rw [negated_implies, tripleFree_iff]
      refine ⟨by simp, fun c hc => ?_⟩
      simp only [args, List.mem_cons, List.not_mem_nil, or_false] at hc
      rcases hc with rfl | rfl
      · exact h.arg (by simp [args])
      · exact ih b (by simp [args])
    | bool _ => rw [negated_bool]; exact .intro (by simp) (by simp [args])
    | negVar _ => rw [negated_negVar]; exact .intro (by simp) (by simp [args])
    | not _ => rw [negated_not]; exact h.arg (by simp [args])
    | cmp r a b => rw [negated_cmp]; exact .intro (by simp) fun a ha => h.arg ha
    | var x =>
      rw [Expr.negated]
      split
      · exact .intro (by simp) (by simp [args])
      · exact wrap (by simp)
    | int _ | sum _ | wsum _ | sub _ _ | mul _ _ | neg _ | constraint _ | function _ | call _ =>
      rw [Expr.negated] <;> first | exact wrap (by simp) | simp

/-- A Boolean expression without subexpressions is a literal or a constant. -/
theorem isLiteral_or_bool (hs : e.isSimple) (hb : e.isBool) : e.isLiteral ∨ ∃ b, e = bool b := by
  cases e with
  | bool b => exact .inr ⟨b, rfl⟩
  | var x => exact .inl hb
  | negVar x => exact .inl rfl
  | int _ => cases hb
  | _ => cases hs

theorem isSimple_of_isLiteral (h : e.isLiteral) : e.isSimple := by
  cases e <;> first | rfl | cases h

theorem isBool_of_isLiteral (h : e.isLiteral) : e.isBool := by
  cases e <;> first | exact h | rfl

theorem isLiteral_negated (h : e.isLiteral) (he : e.Proper V) : e.negated.isLiteral := by
  cases e with
  | var x => rw [negated_var h]; rfl
  | negVar x => rw [negated_negVar]; exact (proper_negVar.1 he).1
  | _ => cases h

theorem isFlatTruth_of_isLiteral (h : e.isLiteral) : e.IsFlatTruth := by
  cases e <;> first | exact h | cases h

theorem isFlat_of_isLiteral (h : e.isLiteral) : e.IsFlat := by
  cases e <;> first | exact h | cases h

theorem isFlat_any (h : ∀ a ∈ as, a.isLiteral) : (any as).IsFlat := by
  match as with
  | [] => rfl
  | [a] => exact isFlat_of_isLiteral (h a (List.mem_singleton_self a))
  | a :: b :: as => exact h

theorem isFlatTruth_any (h : ∀ a ∈ as, a.isLiteral) :
    (any as).IsFlatTruth ∨ ∃ b, any as = bool b := by
  match as with
  | [] => exact .inr ⟨false, rfl⟩
  | [a] => exact .inl (isFlatTruth_of_isLiteral (h a (List.mem_singleton_self a)))
  | a :: b :: as => exact .inl h

theorem isFlatTruth_all (h : ∀ a ∈ as, a.isLiteral) :
    (all as).IsFlatTruth ∨ ∃ b, all as = bool b := by
  match as with
  | [] => exact .inr ⟨true, rfl⟩
  | [a] => exact .inl (isFlatTruth_of_isLiteral (h a (List.mem_singleton_self a)))
  | a :: b :: as => exact .inl h

theorem isBool_of_isFlatTruth (h : e.IsFlatTruth) : e.isBool := by
  cases e <;> first | rfl | exact h

end Expr

end ConstraintModel
