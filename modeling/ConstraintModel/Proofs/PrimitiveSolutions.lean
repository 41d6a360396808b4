import ConstraintModel.Proofs.Primitive
import ConstraintModel.Proofs.SupportedSolutions
import ConstraintModel.Proofs.TreeSolutions

namespace ConstraintModel

open ConstraintModel.Expr (Steady)
open Lowering (Rewrites)

variable {caps : Capabilities} {σ : Store} {es : List Expr} {w : World}

theorem flatten_decomposeFlat_renders (caps : Capabilities) (h : ∀ e ∈ es, e.isBool ∧ e.Proper σ.Owns ∧ e.Steady False)
    (hex : ∃ s, s.Within σ ∧ ∀ e ∈ es, Condition.asserted.holds s e) :
    (flatten es >>= decomposeFlat caps).Sat False σ fun out τ => Renders .asserted .any σ es out τ ∧
      ∀ f ∈ out, f.Steady False := by
  have hflat := (flatten_renders h hex).and
    ((flatten_yields_isFlat fun e he => ⟨(h e he).1, (h e he).2.1.imp fun _ _ => trivial⟩).relax σ)
  refine hflat.bind fun fs τ _ ⟨⟨hfs, hsteady⟩, hshape⟩ => ?_
  obtain ⟨s, hs, hasserted⟩ := hex
  obtain ⟨t, ht, -⟩ := hfs.extend s hs hasserted
  refine (decomposeFlat_rewrites (w := ⟨τ, fs, hfs.proper⟩)
    (fun f hf => ⟨(hshape f hf).1, hsteady f hf⟩) ⟨t, ht⟩).imp ?_
  rintro out υ - ⟨w', rfl, rfl, hr, hout⟩
  exact ⟨hfs.followed hr, hout⟩

/-- What the strategy relies on to keep the meaning of constraints under an
assignment. Replacing a function before flattening requires more. -/
def Strategy.condition : Strategy → Condition
  | .tree => .tame
  | .flat => .asserted

theorem Expr.Tame.condition {s : Assignment} {e : Expr} (h : e.Tame s) (strategy : Strategy) :
    strategy.condition.holds s e := by
  cases strategy with
  | tree => exact h
  | flat => exact h.asserted

/-- A constraint over variables of the store whose parts fit together. That is
true of what is posted and of what any of the rewritings makes of it. -/
structure Expr.FormedIn (σ : Store) (e : Expr) : Prop where
  isBool : e.isBool
  proper : e.Proper σ.Has
  lasting : e.Everywhere fun a => ∀ c, a = .constraint c → c.Lasting

theorem Expr.FormedIn.steady {e : Expr} (h : e.FormedIn σ) : e.Steady False :=
  h.lasting.imp fun _ h => ⟨h, False.elim⟩

theorem Expr.WellTypedIn.formedIn {e : Expr} (h : e.WellTypedIn σ) (hc : e.CallFree) : e.FormedIn σ :=
  ⟨h.isBool, h.proper hc, h.steady.imp fun _ h => h.1⟩

namespace Model

variable {m : Model} {strategy : Strategy}

theorem formed (hm : m.store.Valid) (h : ∀ c ∈ m.constraints, c.FormedIn m.store) :
    ∀ c ∈ m.constraints, c.isBool ∧ c.Proper m.store.Owns ∧ c.Steady False := fun c hc =>
  ⟨(h c hc).isBool, (h c hc).proper.owned hm, (h c hc).steady⟩

/-- The primitive form renders the posted constraints. -/
theorem toPrimitive_renders (caps : Capabilities) (strategy : Strategy)
    (h : ∀ c ∈ m.constraints, c.isBool ∧ c.Proper σ.Owns ∧ c.Steady False)
    (hex : ∃ s, s.Within σ ∧ ∀ c ∈ m.constraints, strategy.condition.holds s c) :
    (m.toPrimitive caps strategy).Sat False σ fun out τ =>
      Renders strategy.condition .any σ m.constraints out τ ∧ ∀ f ∈ out, f.Steady False := by
  have hsplit := Expr.forall_topLevel_steady h
  obtain ⟨s, hs, hP⟩ := hex
  replace hP := Condition.forall_topLevel hP
  unfold toPrimitive
  cases strategy with
  | tree =>
    refine (decomposeTree_renders (w := ⟨σ, topLevel m.constraints, fun c hc => (hsplit c hc).2.1⟩)
      (fun c hc => (hsplit c hc).1) ⟨s, hs, hP⟩).bind fun fs τ _ ⟨hfs, hb⟩ => ?_
    obtain ⟨t, ht, -, htame, -⟩ := hfs.extend s hs hP
    have hflat := flatten_decomposeFlat_renders caps (fun f hf =>
      ⟨hb f hf, hfs.proper f hf, Expr.Tame.steady (htame f hf) False.elim⟩)
      ⟨t, ht, fun f hf => Expr.Tame.asserted (htame f hf)⟩
    refine hflat.imp fun out υ _ ⟨hout, hsteady⟩ => ⟨.of_split (hfs.comp (hout.strengthen ?_) ?_), hsteady⟩
    · exact fun _ _ _ => Expr.Tame.asserted
    · exact fun c hc => (hsplit c hc).2.1
  | flat =>
    exact (flatten_decomposeFlat_renders caps hsplit ⟨s, hs, hP⟩).imp fun out τ _ ⟨hout, hsteady⟩ =>
      ⟨.of_split hout, hsteady⟩

/-- The primitive form has the solutions of the posted constraints, and the
auxiliary variables are determined by the others. -/
theorem toPrimitive_rewrites (hw : w.constraints = m.constraints) (hb : ∀ e ∈ w.constraints, e.isBool)
    (hg : w.Grounded) : (m.toPrimitive caps strategy).Rewrites True (fun _ => Steady False) w := by
  refine Lowering.rewrites_of_renders (Q := .any) hg fun ⟨s, hs, htame⟩ => ?_
  have hproper := w.proper
  rw [hw] at *
  refine (toPrimitive_renders caps strategy (fun c hc => ⟨hb c hc, hproper c hc,
    (htame c hc).steady False.elim⟩) ⟨s, hs, fun c hc => (htame c hc).condition strategy⟩).imp ?_
  rintro out τ - ⟨hout, hsteady⟩
  exact ⟨hout.strengthen fun _ _ _ hc => Expr.Tame.condition hc strategy, hsteady⟩

structure Extends (m : Model) (out : List Expr) (τ : Store) (s t : Assignment) : Prop where
  within : t.Within τ
  agrees : s.Agrees m.store.size t
  holds : ∀ f ∈ out, f.Holds t

theorem extends_iff {s t : Assignment} :
    m.Extends w.constraints w.store s t ↔ w.Admits t ∧ s.Agrees m.store.size t :=
  ⟨fun h => ⟨⟨h.within, h.holds⟩, h.agrees⟩, fun h => ⟨h.1.within, h.2, h.1.holds⟩⟩

/-- Wherever the posted constraints meet the condition, they hold if and only if
the new constraints do for some values of the new variables, and there is only
one choice of these. -/
theorem extends_of_renders {P Q : Condition} {out : List Expr} {τ : Store} {s : Assignment}
    (h : Renders P Q m.store m.constraints out τ) (hp : ∀ c ∈ m.constraints, c.Proper m.store.Owns)
    (hs : s.Within m.store) (hP : ∀ c ∈ m.constraints, P.holds s c) :
    ((∀ c ∈ m.constraints, c.Holds s) ↔ ∃ t, m.Extends out τ s t) ∧
      ∀ t t', m.Extends out τ s t → m.Extends out τ s t' → t.Agrees τ.size t' := by
  have hPt {t : Assignment} (ht : m.Extends out τ s t) := Condition.forall_agrees hp hP ht.agrees
  refine ⟨⟨fun hholds => ?_, ?_⟩, fun t t' ht ht' =>
    h.unique t t' ht.within ht'.within (hPt ht) ht.holds ht'.holds (ht.agrees.symm.trans ht'.agrees)⟩
  · obtain ⟨t, ht, hst, -, hout⟩ := h.extend s hs hP
    exact ⟨t, ht, hst, hout hholds⟩
  · rintro ⟨t, ht⟩ c hc
    have hholds := h.sound t ht.within (fun f hf _ => ht.holds f hf) c hc (hPt ht c hc)
    exact (Expr.Over.holds_congr (hp c hc).scope ht.agrees).2 hholds

/-- If all posted constraints hold under an assignment, exactly one extension
to the new variables satisfies the primitive form, and otherwise none does. -/
theorem toPrimitive_solutions {out : List Expr} {τ : Store} {s : Assignment} (hm : m.store.Valid)
    (h : ∀ c ∈ m.constraints, c.WellTypedIn m.store ∧ c.FullyDefined)
    (hrun : m.toPrimitive caps strategy m.store = .ok out τ) (hs : s.Within m.store) :
    ((∀ c ∈ m.constraints, c.Holds s) → ∃ t, m.Extends out τ s t ∧
      ∀ t', m.Extends out τ s t' → t.Agrees τ.size t') ∧
    ((¬∀ c ∈ m.constraints, c.Holds s) → ¬∃ t, m.Extends out τ s t) := by
  have hterm : ∀ c ∈ m.constraints, c.TermIn m.store := fun c hc => (h c hc).1.termIn (h c hc).2
  let w : World := ⟨m.store, m.constraints, fun c hc => (hterm c hc).proper hm⟩
  have hg : w.Grounded := World.grounded_of_tame fun t ht c hc =>
    ((hterm c hc).total.regular ((hterm c hc).proper hm) ht).tame
  have hrewrites : (m.toPrimitive caps strategy).Rewrites True (fun _ => Steady False) w :=
    toPrimitive_rewrites rfl (fun c hc => (h c hc).1.isBool) hg
  obtain ⟨-, w', rfl, rfl, hr, -⟩ := (hrewrites ⟨s, hs⟩).ok hrun
  constructor
  · intro hholds
    obtain ⟨t, ht, hst⟩ := hr.complete s ⟨hs, hholds⟩
    exact ⟨t, ⟨ht.within, hst, ht.holds⟩, fun t' ht' =>
      hr.unique trivial t t' ht ⟨ht'.within, ht'.holds⟩ (hst.symm.trans ht'.agrees)⟩
  · rintro hnot ⟨t, ht⟩
    refine hnot fun c hc => ?_
    have hw := hr.sound t ⟨ht.within, ht.holds⟩
    exact (Expr.Over.holds_congr ((hterm c hc).proper hm).scope ht.agrees).2 (hw.holds c hc)

def signed : Variable := ⟨0, ⟨-2, 1⟩, .int⟩

def ownMagnitude : Model where
  store := ⟨#[⟨signed.bounds, signed.kind, .user⟩]⟩
  constraints := [.not (.allDifferent [.var signed, .abs (.var signed)])]

theorem toPrimitive_ownMagnitude : ∃ out τ,
    ownMagnitude.toPrimitive .none .tree ownMagnitude.store = .ok out τ ∧ τ.size = 5 ∧
      (∃ t, ownMagnitude.Extends out τ ⟨fun _ => some 1⟩ t ∧
        ∀ t', ownMagnitude.Extends out τ ⟨fun _ => some 1⟩ t' → t.Agrees τ.size t') ∧
      ¬∃ t, ownMagnitude.Extends out τ ⟨fun _ => some (-2)⟩ t := by
  have hvalid : ownMagnitude.store.Valid := by
    rintro (_ | i) d h hk <;> simp [ownMagnitude] at h
    subst h
    cases hk
  have htyped : ∀ c ∈ ownMagnitude.constraints, c.WellTypedIn ownMagnitude.store ∧ c.FullyDefined := by
    have habs : (Function.abs (.var signed)).isTotal = .ok true := rfl
    have hscope : ∀ x ∈ (Expr.var signed).occurrences, ownMagnitude.store.Has x := by
      simp only [Expr.occurrences_var, List.mem_singleton, forall_eq]
      exact ⟨.user, rfl⟩
    rw [ownMagnitude, List.forall_mem_singleton]
    refine ⟨⟨⟨rfl, ?operands, ?built⟩, ?scope⟩, ?callFree, ?functions⟩
    case built => simpa [Expr.allDifferent, Expr.abs, Constraint.args, Function.args, Expr.Built] using ⟨rfl, rfl⟩
    case scope =>
      simpa [Expr.allDifferent, Expr.abs, Expr.vars, Expr.occurrences_eq, Expr.args, Constraint.args,
        Function.args, ownMagnitude] using hscope
    case functions => simpa [Expr.allDifferent, Expr.abs, Constraint.args, Function.args] using habs
    all_goals
      simp [Expr.allDifferent, Expr.abs, Constraint.args, Function.args, Expr.CallFree, Expr.OperandsBoolean,
        Expr.isBool]
  have hwithin (n : Int) (hn : n ∈ signed.bounds) : Assignment.Within ownMagnitude.store ⟨fun _ => some n⟩ := by
    rintro (_ | i) d h <;> simp [ownMagnitude] at h
    subst h
    exact ⟨n, hn, rfl⟩
  have hholds (n : Int) : (∀ c ∈ ownMagnitude.constraints, c.Holds ⟨fun _ => some n⟩) ↔ n = |n| := by
    rw [ownMagnitude, List.forall_mem_singleton]
    simp [Expr.Holds, Expr.abs, Expr.allDifferent, Expr.exact_not, Expr.exact_constraint, Expr.exact_function,
      Constraint.map, Constraint.exact, Function.map, Function.exact, Assignment.value?, AllDifferent.holds,
      Exact.truth_ofTruth]
  obtain ⟨out, τ, hrun, hsize⟩ : ∃ out τ,
      ownMagnitude.toPrimitive .none .tree ownMagnitude.store = .ok out τ ∧ τ.size = 5 := ⟨_, _, by cbv, rfl⟩
  refine ⟨out, τ, hrun, hsize, ?_, ?_⟩
  · exact (toPrimitive_solutions hvalid htyped hrun (hwithin 1 (by decide))).1 ((hholds 1).2 rfl)
  · exact (toPrimitive_solutions hvalid htyped hrun (hwithin (-2) (by decide))).2 fun h => by
      have := (hholds (-2)).1 h
      simp at this

end Model

end ConstraintModel
