import ConstraintModel.Proofs.LinearSolutions
import ConstraintModel.Proofs.PositiveMeaning
import ConstraintModel.Proofs.PrimitiveSolutions

namespace ConstraintModel

open ConstraintModel.Expr (Steady)
open Lowering (Rewrites)

variable {caps : Capabilities} {w : World}

namespace Expr

variable {σ : Store} {s : Assignment} {e a : Expr}

/-- A reified comparison that a backend without reified entries takes is never
undefined. -/
theorem regular_of_isTakenNested (hcaps : "element" ∉ caps.supportedNested) (hf : a.IsFlatTruth)
    (ht : a.IsTakenNested caps) (hc : ∀ c, a ≠ constraint c) (hp : a.Proper σ.Owns) (hs : s.Within σ) :
    a.Regular s := by
  cases a with
  | cmp r a b =>
    obtain ⟨hpa, hpb⟩ := proper_cmp.1 hp
    have ha : a.Regular s := by
      refine regular_of_simple_args hpa hs hf.1.args ?_ ?_
      · rintro c rfl
        cases hf.1
      · rintro as i rfl
        exact hcaps (List.contains_iff_mem.1 ht)
    have hb := regular_of_isSimple hf.2 hpb hs
    exact regular_of_args hp trivial hs (by simpa [args] using ⟨ha, hb⟩)
  | and as | or as =>
    exact regular_of_simple_args hp hs (fun a ha => isSimple_of_isLiteral (hf a ha)) (by simp) (by simp)
  | constraint c => exact absurd rfl (hc c)
  | var _ | negVar _ => exact regular_of_isSimple rfl hp hs
  | _ => cases hf

end Expr

/-- The reifications that are split are never undefined unless the backend takes
reified entries. -/
theorem Guarded.tame_of_isTaken {a l : Expr} {σ : Store} {t : Assignment} (hcaps : "element" ∉ caps.supportedNested)
    (hs : isSplit a l) (h : Supported.Primitive caps (.cmp .eq a l)) (hp : (Expr.cmp .eq a l).Proper σ.Owns)
    (ht : t.Within σ) : (Expr.cmp .eq a l).Tame t := by
  obtain ⟨hba, hl, -⟩ := isSplit_iff hs
  obtain ⟨hpa, hpl⟩ := Expr.proper_cmp.1 hp
  have hf : a.IsFlatTruth := Supported.isFlatTruth_of_isFlat h.flat hba
  have hc (c : Constraint Expr) : a ≠ .constraint c := by
    rintro rfl
    cases hs
  have htaken : a.IsTakenNested caps := by
    have := h.taken
    cases a <;> first | exact this | cases hba
  have ha := Expr.regular_of_isTakenNested hcaps hf htaken hc hpa ht
  have hrl := Expr.regular_of_isSimple (Expr.isSimple_of_isLiteral hl) hpl ht
  exact (Expr.regular_of_args hp trivial ht (by simpa [Expr.args] using ⟨ha, hrl⟩)).tame

/-- Splitting what the backend takes keeps the solutions, and the result can be
linearized. -/
theorem splitReifications_taken_rewrites (hcaps : "element" ∉ caps.supportedNested)
    (h : ∀ e ∈ w.constraints, e.Steady False ∧ (Supported.Primitive caps e ∨ e = .bool true)) :
    (splitReifications w.constraints).Rewrites False
      (fun _ e => e.Steady False ∧ Linear.IsInput e ∧ e.Proper Flat.Any) w := by
  have hflat : ∀ e ∈ w.constraints, (e.IsFlat ∨ e = .bool true) ∧ e.Proper Flat.Any := by
    intro e he
    rcases (h e he).2 with h | rfl
    · exact ⟨.inl h.flat, h.proper⟩
    · exact ⟨.inr rfl, Expr.proper_bool⟩
  refine (splitReifications_rewrites fun e he => ⟨(h e he).1, ?_⟩).relax.and_yields (splitReifications_yields hflat)
  rintro a l rfl hs t ht
  rcases (h _ he).2 with h | h
  · exact Guarded.tame_of_isTaken hcaps hs h (w.proper _ he) ht
  · cases h

namespace Model

variable {m : Model}

/-- The linear form has the solutions of the posted constraints, apart from the
auxiliary variables. -/
theorem toLinear_rewrites (hcaps : "element" ∉ caps.supportedNested) (hw : w.constraints = m.constraints)
    (hb : ∀ e ∈ w.constraints, e.isBool) (hg : w.Grounded) :
    (m.toLinear caps).Rewrites False (fun _ _ => True) w := by
  have hinput : ∀ c ∈ m.constraints, c.isBool ∧ c.Proper Flat.Any ∧ (True ∨ c.TripleFree) :=
    hw ▸ fun c hc => ⟨hb c hc, (w.proper c hc).imp fun _ _ => trivial, .inl trivial⟩
  have hshape : (m.toPrimitive caps .tree).Yields True fun fs =>
    ∀ f ∈ fs, Supported.Primitive caps f ∨ f = .bool true :=
    (toPrimitive_yields hinput).imp fun fs hfs f hf => (hfs f hf).imp_right And.right
  refine ((toPrimitive_rewrites hw hb hg).relax.and_yields hshape).bind fun w₁ _ h₁ => ?_
  refine (splitReifications_taken_rewrites hcaps h₁).bind fun w₂ _ h₂ => ?_
  exact (linearize_rewrites fun e he => (h₂ e he).2.1).bind fun w₃ _ _ => removeViews_rewrites.relax

/-- If the backend does not take reified entries of lists, an assignment
satisfies all posted constraints exactly if it can be extended to the new
variables so that it satisfies the linear form. -/
theorem toLinear_solutions {out : List Expr} {τ : Store} {s : Assignment} (hm : m.store.Valid)
    (hcaps : "element" ∉ caps.supportedNested) (h : ∀ c ∈ m.constraints, c.WellTypedIn m.store ∧ c.FullyDefined)
    (hrun : m.toLinear caps m.store = .ok out τ) (hs : s.Within m.store) :
    (∀ c ∈ m.constraints, c.Holds s) ↔ ∃ t, m.Extends out τ s t := by
  have hterm : ∀ c ∈ m.constraints, c.TermIn m.store := fun c hc => (h c hc).1.termIn (h c hc).2
  let w : World := ⟨m.store, m.constraints, fun c hc => (hterm c hc).proper hm⟩
  have hg : w.Grounded := World.grounded_of_tame fun t ht c hc =>
    ((hterm c hc).total.regular ((hterm c hc).proper hm) ht).tame
  have hrewrites : (m.toLinear caps).Rewrites False (fun _ _ => True) w :=
    toLinear_rewrites hcaps rfl (fun c hc => (h c hc).1.isBool) hg
  obtain ⟨-, w', rfl, rfl, hr, -⟩ := (hrewrites ⟨s, hs⟩).ok hrun
  refine (hr.holds_iff_extends hs).trans (exists_congr fun t => ?_)
  constructor
  · rintro ⟨ht, hst⟩
    exact ⟨ht.within, hst, ht.holds⟩
  · exact fun ht => ⟨⟨ht.within, ht.holds⟩, ht.agrees⟩

def level : Variable := ⟨0, ⟨0, 2⟩, .int⟩

def flag : Variable := ⟨1, .boolean, .bool⟩

def flagged : Model where
  store := ⟨#[⟨level.bounds, level.kind, .user⟩, ⟨flag.bounds, flag.kind, .user⟩]⟩
  constraints := [.cmp .eq (.cmp .ne (.var level) (.int 1)) (.var flag)]

theorem toLinear_flagged : ∃ out τ, flagged.toLinear .none flagged.store = .ok out τ ∧ τ.size = 4 ∧
    (∃ t, flagged.Extends out τ (Assignment.empty.assign level 1 |>.assign flag 0) t) ∧
      ¬∃ t, flagged.Extends out τ (Assignment.empty.assign level 1 |>.assign flag 1) t := by
  have hvalid : flagged.store.Valid := by
    rintro (_ | _ | i) d h hk <;> simp [flagged] at h <;> subst h
    · cases hk
    · rfl
  have htyped : ∀ c ∈ flagged.constraints, c.WellTypedIn flagged.store ∧ c.FullyDefined := by
    rw [flagged, List.forall_mem_singleton]
    refine ⟨⟨⟨rfl, ?operands, ?built⟩, ?scope⟩, ?callFree, ?functions⟩
    case scope =>
      have : flagged.store.Has level ∧ flagged.store.Has flag := ⟨⟨.user, rfl⟩, ⟨.user, rfl⟩⟩
      simpa [Expr.vars, Expr.occurrences_eq, Expr.occurrences_var, Expr.args, flagged] using this
    all_goals simp [Expr.CallFree, Expr.OperandsBoolean, Expr.Built]
  let s (n b : Int) : Assignment := (Assignment.empty.assign level n).assign flag b
  have hs (n b : Int) (hn : n ∈ level.bounds) (hb : b ∈ flag.bounds) : (s n b).Within flagged.store := by
    rintro (_ | _ | i) d h <;> simp [flagged] at h <;> subst h
    · exact ⟨n, hn, rfl⟩
    · exact ⟨b, hb, rfl⟩
  have hholds (n b : Int) : (∀ c ∈ flagged.constraints, c.Holds (s n b)) ↔ (n != 1).toInt = b := by
    have hlevel : (s n b).value? level = some n := rfl
    have hflag : (s n b).value? flag = some b := rfl
    have hreified : (Expr.cmp .ne (.var level) (.int 1)).exact (s n b) = some (n != 1).toInt := by
      rw [Expr.exact_cmp, Expr.exact_var, hlevel, Expr.exact_int]
      rfl
    rw [flagged, List.forall_mem_singleton, Expr.holds_cmp, hreified, Expr.exact_var, hflag]
    simp [Relation.holds]
  obtain ⟨out, τ, hrun, hsize⟩ : ∃ out τ, flagged.toLinear .none flagged.store = .ok out τ ∧ τ.size = 4 :=
    ⟨_, _, by cbv, rfl⟩
  have hcaps : "element" ∉ Capabilities.none.supportedNested := by simp [Capabilities.none]
  refine ⟨out, τ, hrun, hsize, ?_, fun h => ?_⟩
  · exact (toLinear_solutions hvalid hcaps htyped hrun (hs 1 0 (by decide) (by decide))).1 ((hholds 1 0).2 rfl)
  · have := (toLinear_solutions hvalid hcaps htyped hrun (hs 1 1 (by decide) (by decide))).2 h
    exact absurd ((hholds 1 1).1 this) (by decide)

end Model

end ConstraintModel
