import ConstraintModel.Model
import ConstraintModel.Proofs.SupportedTree
import Mathlib

namespace ConstraintModel

open Flat (Any)
open Lowering (Yields)

variable {caps : Capabilities} {t : Prop} {cs : List Expr}

theorem Expr.Proper.conjuncts {V : Variable → Prop} {e : Expr} (hb : e.isBool) (h : e.Proper V)
    (ht : t ∨ e.TripleFree) : ∀ c ∈ e.conjuncts, c.isBool ∧ c.Proper V ∧ (t ∨ c.TripleFree) := by
  intro c hc
  have h := (Small.mk (k := 0) h ht le_rfl).conjuncts hb c hc
  exact ⟨h.2, h.1.proper, h.1.tripleFree⟩

theorem decomposeFlat_flatten_yields
    (h : ∀ c ∈ cs, c.isBool ∧ c.Proper Any ∧ (t ∨ c.TripleFree)) :
    (flatten cs >>= decomposeFlat caps).Yields True fun fs =>
      ∀ f ∈ fs, Supported.Primitive caps f ∨ t ∧ f = .bool true := by
  refine (flatten_small (K := greatest (cs.map (Expr.nesting 0))) fun c hc => ?_).bind
    fun fs hfs => decomposeFlat_yields hfs
  exact ⟨⟨(h c hc).2.1, (h c hc).2.2, le_greatest_map hc⟩, (h c hc).1⟩

namespace Model

variable {m : Model} {strategy : Strategy}

theorem toPrimitive_yields
    (h : ∀ c ∈ m.constraints, c.isBool ∧ c.Proper Any ∧ (t ∨ c.TripleFree)) :
    (m.toPrimitive caps strategy).Yields True fun fs =>
      ∀ f ∈ fs, Supported.Primitive caps f ∨ t ∧ f = .bool true := by
  have htop : ∀ c ∈ topLevel m.constraints, c.isBool ∧ c.Proper Any ∧ (t ∨ c.TripleFree) := by
    intro c hc
    obtain ⟨e, he, hc⟩ := List.mem_flatMap.1 hc
    exact Expr.Proper.conjuncts (h e he).1 (h e he).2.1 (h e he).2.2 c hc
  unfold toPrimitive
  cases strategy with
  | tree =>
    dsimp only
    exact (decomposeTree_yields htop).bind fun es hes => decomposeFlat_flatten_yields hes
  | flat => exact decomposeFlat_flatten_yields htop

/-- Apart from overflows, every model has a primitive form. Its constraints are
flat and taken by the backend, but one that is known to hold can be left in it
when a negation of a double negation was posted. -/
theorem toPrimitive_isFlat_isTaken (h : ∀ c ∈ m.constraints, c.WellTyped ∧ c.CallFree) :
    match m.toPrimitive caps strategy m.store with
    | .ok out _ => ∀ e ∈ out, e.IsFlat ∧ e.IsTaken caps ∨
        e = .bool true ∧ ∃ c ∈ m.constraints, ¬c.TripleFree
    | .error e _ => e = .overflow := by
  have hrun : (m.toPrimitive caps strategy).Yields True _ :=
    toPrimitive_yields (t := ∃ c ∈ m.constraints, ¬c.TripleFree) fun c hc => ?_
  · cases hr : m.toPrimitive caps strategy m.store with
    | error e _ => exact (hrun m.store).error hr
    | ok out _ =>
      intro e he
      rcases ((hrun m.store).ok hr).2 e he with hp | ⟨ht, rfl⟩
      · exact .inl ⟨hp.flat, hp.taken⟩
      · exact .inr ⟨rfl, ht⟩
  · obtain ⟨hw, hcall⟩ := h c hc
    refine ⟨hw.isBool, (hw.typed hcall).proper, ?_⟩
    by_cases ht : c.TripleFree
    · exact .inr ht
    · exact .inl ⟨c, hc, ht⟩

def negatedFalsity : Model := empty.post (.not (.not (.not (.cmp .eq (.int 1) (.int 2)))))

theorem toPrimitive_negatedFalsity :
    (∀ c ∈ negatedFalsity.constraints, c.WellTyped ∧ c.CallFree) ∧
      negatedFalsity.toPrimitive .none .tree negatedFalsity.store = .ok [.bool true] .empty ∧
        ∃ c ∈ negatedFalsity.constraints, ¬c.TripleFree := by
  have htyped : ∀ c ∈ negatedFalsity.constraints, c.WellTyped ∧ c.CallFree := by
    simp only [negatedFalsity, post, empty, List.nil_append, List.mem_singleton, forall_eq]
    refine ⟨⟨rfl, ?_, ?_⟩, ?_⟩ <;> simp [Expr.CallFree, Expr.OperandsBoolean, Expr.Built, Expr.isBool]
  have hrun : negatedFalsity.toPrimitive .none .tree negatedFalsity.store =
      .ok [.bool true] .empty := by cbv
  have hresult := @toPrimitive_isFlat_isTaken .none negatedFalsity .tree htyped
  rw [hrun] at hresult
  refine ⟨htyped, hrun, ?_⟩
  rcases hresult (.bool true) (List.mem_singleton_self _) with ⟨h, -⟩ | ⟨-, h⟩
  · exact absurd h (by simp [Expr.IsFlat])
  · exact h

end Model

end ConstraintModel
