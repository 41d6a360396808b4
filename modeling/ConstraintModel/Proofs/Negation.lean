import ConstraintModel.Proofs.Enclosure

namespace ConstraintModel

namespace Eval

variable {α β : Type} {s : Assignment} {a b : Eval Int} {as : List (Eval Int)}

def Finishes (a : Eval α) (s : Assignment) : Prop := ∃ v, a.outcome s = .ok v

theorem finishes_pure (x : α) : (pure x : Eval α).Finishes s := ⟨some x, rfl⟩

theorem finishes_failure : (failure : Eval α).Finishes s := ⟨none, rfl⟩

theorem Finishes.first {a : Eval α} {f : α → Eval β} (h : (a >>= f).Finishes s) : a.Finishes s := by
  obtain ⟨w, hw⟩ := h
  rw [outcome_bind] at hw
  obtain ⟨v, hv, -⟩ := Checked.bind_eq_ok.1 hw
  exact ⟨v, hv⟩

theorem Finishes.bind {a : Eval α} {f : α → Eval β} (h : a.Finishes s) (hf : ∀ x, (f x).Finishes s) :
    (a >>= f).Finishes s := by
  obtain ⟨v, hv⟩ := h
  rw [Finishes, outcome_bind, hv]
  cases v with
  | none => exact ⟨none, rfl⟩
  | some x => exact hf x

theorem finishes_bind {a : Eval α} {f : α → Eval β} (hf : ∀ x, (f x).Finishes s) :
    (a >>= f).Finishes s ↔ a.Finishes s := ⟨Finishes.first, fun h => h.bind hf⟩

theorem finishes_isTrue : a.isTrue.Finishes s ↔ a.Finishes s := finishes_bind fun _ => finishes_pure _

theorem finishes_ofBool {a : Eval Bool} : a.ofBool.Finishes s ↔ a.Finishes s :=
  finishes_bind fun _ => finishes_pure _

/-- What follows an argument is evaluated also when that has no value. -/
theorem finishes_attempt_bind {a : Eval α} {f : Option α → Eval β} {p : Prop} (hf : ∀ v, (f v).Finishes s ↔ p) :
    (a.attempt >>= f).Finishes s ↔ a.Finishes s ∧ p := by
  rw [Finishes, Finishes, outcome_bind, outcome_attempt]
  cases a.outcome s with
  | error e => exact iff_of_false (by rintro ⟨w, ⟨⟩⟩) (by rintro ⟨⟨v, ⟨⟩⟩, -⟩)
  | ok v => exact (hf v).trans (iff_and_self.2 fun _ => ⟨v, rfl⟩)

/-- All arguments of a connective are evaluated. -/
theorem finishes_outcomes : (outcomes as).Finishes s ↔ ∀ a ∈ as, a.Finishes s := by
  rw [outcomes]
  induction as with
  | nil => exact iff_of_true (finishes_pure _) (List.forall_mem_nil _)
  | cons a as ih =>
    rw [List.forall_mem_cons, ← ih, ← finishes_isTrue, List.mapM_cons]
    exact finishes_attempt_bind fun v => finishes_bind fun vs => finishes_pure (v :: vs)

theorem finishes_comparison {r : Relation} {assigned : Eval Bool} (hassigned : assigned.Finishes s) :
    (comparison r assigned a b).Finishes s ↔ a.Finishes s ∧ b.Finishes s := by
  refine finishes_attempt_bind fun v =>
    (finishes_attempt_bind fun w => iff_true_intro ?_).trans (iff_of_eq (and_true _))
  split
  · exact finishes_pure _
  · refine hassigned.bind fun holds => ?_
    split
    · exact finishes_pure _
    · exact finishes_failure

theorem finishes_conjunction : (conjunction as).Finishes s ↔ ∀ a ∈ as, a.Finishes s := by
  rw [← finishes_outcomes]
  refine finishes_bind fun vs => ?_
  split
  · exact finishes_pure _
  · split
    · exact finishes_failure
    · exact finishes_pure _

theorem finishes_disjunction : (disjunction as).Finishes s ↔ ∀ a ∈ as, a.Finishes s := by
  rw [← finishes_outcomes]
  refine finishes_bind fun vs => ?_
  split
  · exact finishes_pure _
  · split
    · exact finishes_failure
    · exact finishes_pure _

end Eval

namespace Expr

variable {V : Variable → Prop} {s : Assignment} {σ : Store} {p q : Expr → Prop} {e a b : Expr} {as : List Expr}
  {r : Relation} {x : Variable}

theorem finishes_and : (and as).value.Finishes s ↔ ∀ a ∈ as, a.value.Finishes s := by
  rw [value, Eval.finishes_ofBool, Eval.finishes_conjunction, List.forall_mem_map]

theorem finishes_or : (or as).value.Finishes s ↔ ∀ a ∈ as, a.value.Finishes s := by
  rw [value, Eval.finishes_ofBool, Eval.finishes_disjunction, List.forall_mem_map]

theorem finishes_not : (not a).value.Finishes s ↔ a.value.Finishes s := by
  rw [value, Eval.finishes_ofBool, Eval.finishes_bind fun _ => Eval.finishes_pure _, Eval.finishes_isTrue]

theorem finishes_cmp : (cmp r a b).value.Finishes s ↔ a.value.Finishes s ∧ b.value.Finishes s := by
  rw [value, Eval.finishes_ofBool]
  exact Eval.finishes_comparison ⟨_, rfl⟩

/-- Without its antecedent an implication is not evaluated any further. -/
theorem finishes_antecedent (h : (implies a b).value.Finishes s) : a.value.Finishes s := by
  rw [value, Eval.finishes_ofBool] at h
  exact Eval.finishes_isTrue.1 h.first

def operands : Expr → List Expr
  | and as | or as => as
  | implies a b => [a, b]
  | not a => [a]
  | _ => []

/-- No overflow occurs in a consequent that is reached through connectives
alone, whether or not the antecedent is true. -/
inductive ConsequentsFinish (s : Assignment) : Expr → Prop
  | intro {e : Expr} (here : ∀ a b, e = implies a b → b.value.Finishes s)
      (operands : ∀ a ∈ e.operands, a.ConsequentsFinish s) : ConsequentsFinish s e

theorem ConsequentsFinish.operand (h : e.ConsequentsFinish s) (ha : a ∈ e.operands) : a.ConsequentsFinish s := by
  cases h with
  | intro _ operands => exact operands a ha

theorem ConsequentsFinish.consequent (h : (implies a b).ConsequentsFinish s) : b.value.Finishes s := by
  cases h with
  | intro here _ => exact here a b rfl

theorem consequentsFinish_of_operands (he : ∀ a b, e ≠ implies a b) (h : ∀ a ∈ e.operands, a.ConsequentsFinish s) :
    e.ConsequentsFinish s := .intro (fun a b heq => absurd heq (he a b)) h

def Admits (σ : Store) (s : Assignment) (x : Variable) : Prop :=
  σ.Owns x ∧ ∀ n, s.value? x = some n → n ∈ x.bounds

theorem Admits.boolean {n : Int} (h : Admits σ s x) (hx : x.isBool) (hn : s.value? x = some n) : n = 0 ∨ n = 1 := by
  have hmem := h.2 n hn
  rw [h.1.2 hx, Bounds.mem_iff] at hmem
  simp only [Bounds.boolean] at hmem
  omega

def FunctionsTotal (e : Expr) : Prop := e.Everywhere fun a => ∀ g, a = function g → g.isTotal = .ok true

theorem FunctionsTotal.valued (ht : e.FunctionsTotal) (hp : e.Proper (Admits σ s)) (hs : e.Assigned s) :
    e.Valued s := by
  induction e using induction_args with
  | h e ih =>
    have hargs : ∀ a ∈ e.args, a.Valued s := fun a ha =>
      ih a ha (ht.arg ha) (hp.arg ha) fun x hx => hs x (mem_occurrences_of_arg ha hx)
    refine valued_of_assigned hp hs hargs fun as i he => ?_
    subst he
    have hi : i ∈ (function (.element as i)).args := List.mem_append_right _ (List.mem_singleton_self i)
    have hmem := (hargs i hi).num_mem_range fun x hx => ((hp.arg hi).scope x hx).2
    have here := totalHere_of_isTotal (ht.here _ rfl)
    simp only [TotalHere] at here
    rw [Bounds.mem_iff] at hmem
    omega

/-- A comparison that is decided compares values. It is not decided by a side
without a value, since all its variables would have values then. -/
theorem valued_sides (ht : (cmp r a b).FunctionsTotal) (hp : (cmp r a b).Proper (Admits σ s))
    (h : (cmp r a b).Valued s) : a.Valued s ∧ b.Valued s := by
  have ha : a ∈ (cmp r a b).args := by simp [args]
  have hb : b ∈ (cmp r a b).args := by simp [args]
  rw [Valued, exact_cmp, Exact.ofTruth_isSome] at h
  by_cases hs : (cmp r a b).vars.all s.assigns = true
  · have hassigned {c : Expr} (hc : c ∈ (cmp r a b).args) : c.Assigned s := by
      intro x hx
      exact List.all_eq_true.1 hs x (List.mem_eraseDups.2 (mem_occurrences_of_arg hc hx))
    exact ⟨FunctionsTotal.valued (ht.arg ha) (hp.arg ha) (hassigned ha),
      FunctionsTotal.valued (ht.arg hb) (hp.arg hb) (hassigned hb)⟩
  · rw [Bool.not_eq_true] at hs
    rw [hs] at h
    unfold Valued
    cases hm : a.exact s <;> cases hn : b.exact s <;> simp_all [Exact.comparison]

theorem Holds.valued (h : e.Holds s) : e.Valued s := by
  rw [Valued, ← Exact.truth_isSome, h]
  rfl

theorem Fails.valued (h : e.Fails s) : e.Valued s := by
  rw [Valued, ← Exact.truth_isSome, h]
  rfl

theorem fails_cmp_iff (ha : a.Valued s) (hb : b.Valued s) : (cmp r a b).Fails s ↔ (cmp r.negated a b).Holds s := by
  rw [(valued_of_eq (exact_cmp_num ha hb)).fails_iff, holds_cmp_num ha hb, holds_cmp_num ha hb, Relation.negated_holds]
  simp

/-- On known values the negation has the opposite one. -/
theorem negated_opposite_exact (hb : e.isBool) (hp : e.Proper (Admits σ s)) (ht : e.FunctionsTotal) :
    (e.Holds s → e.negated.Fails s) ∧ (e.Fails s → e.negated.Holds s) := by
  induction e using induction_args with
  | h e ih =>
    replace ih := fun a ha hb => ih a ha hb (hp.arg ha) (ht.arg ha)
    cases e with
    | bool b => simp [holds_bool, fails_bool]
    | var x =>
      have hx := proper_var.1 hp
      rw [negated_var hb, Holds, Fails, Holds, Fails, exact_var, exact_negVar]
      cases hn : s.value? x with
      | none => simp [Exact.truth]
      | some n => rcases hx.boolean hb hn with rfl | rfl <;> simp [Exact.truth]
    | negVar x =>
      obtain ⟨hb, hx⟩ := proper_negVar.1 hp
      rw [negated_negVar, Holds, Fails, Holds, Fails, exact_var, exact_negVar]
      cases hn : s.value? x with
      | none => simp [Exact.truth]
      | some n => rcases hx.boolean hb hn with rfl | rfl <;> simp [Exact.truth]
    | and as =>
      have hbs := (proper_and.1 hp).1
      rw [negated_and, holds_and, fails_and, holds_or, fails_or, List.forall_mem_map]
      refine ⟨fun h a ha => (ih a ha (hbs a ha)).1 (h a ha), ?_⟩
      rintro ⟨a, ha, h⟩
      exact ⟨_, List.mem_map_of_mem ha, (ih a ha (hbs a ha)).2 h⟩
    | or as =>
      have hbs := (proper_or.1 hp).1
      rw [negated_or, holds_or, fails_or, holds_and, fails_and, List.forall_mem_map]
      refine ⟨?_, fun h a ha => (ih a ha (hbs a ha)).2 (h a ha)⟩
      rintro ⟨a, ha, h⟩
      exact ⟨_, List.mem_map_of_mem ha, (ih a ha (hbs a ha)).1 h⟩
    | implies a b =>
      -- Without a value of the antecedent a false conjunct decides the negation,
      -- but nothing decides the implication, so there is no equivalence here.
      obtain ⟨hholds, hfails⟩ := ih b (by simp [args]) (proper_implies.1 hp).1.2
      rw [negated_implies, holds_implies, fails_implies, holds_and, fails_and]
      simp only [List.exists_mem_cons_iff, List.forall_mem_cons, List.not_mem_nil, false_and, exists_false, or_false,
        false_imp_iff, implies_true, and_true]
      exact ⟨Or.imp_right fun h => hholds h.2, And.imp_right hfails⟩
    | not a => rw [negated_not, holds_not, fails_not]; exact ⟨id, id⟩
    | cmp r a b =>
      rw [negated_cmp]
      constructor
      · intro h
        obtain ⟨ha, hb⟩ := valued_sides ht hp h.valued
        rwa [fails_cmp_iff ha hb, Relation.negated_negated]
      · intro h
        obtain ⟨ha, hb⟩ := valued_sides ht hp h.valued
        rwa [← fails_cmp_iff ha hb]
    | constraint c => rw [negated_constraint, holds_not, fails_not]; exact ⟨id, id⟩
    | call d => exact absurd hp proper_call
    | int _ | sum _ | wsum _ | sub _ _ | mul _ _ | neg _ | function _ => cases hb

/-- The complement of a truth value fits. -/
theorem finishes_negVar (hx : Admits σ s x) (hb : x.isBool) : (negVar x).value.Finishes s := by
  rw [value]
  cases hn : s.value? x with
  | none => exact ⟨none, by rw [Eval.outcome_bind, Eval.outcome, Eval.lookup, hn]; rfl⟩
  | some n =>
    have hcomplement : Checked.complement n = .ok (1 - n) := by
      rcases hx.boolean hb hn with rfl | rfl <;> rfl
    refine ⟨some (1 - n), ?_⟩
    rw [Eval.outcome_bind, Eval.outcome, Eval.lookup, hn]
    change (liftM (Checked.complement n) : Eval Int).outcome s = _
    rw [hcomplement]
    rfl

theorem ConsequentsFinish.negated (h : e.ConsequentsFinish s) (hb : e.isBool) (hp : e.Proper V) :
    e.negated.ConsequentsFinish s := by
  induction e using induction_args with
  | h e ih =>
    cases e with
    | bool b => rw [negated_bool]; exact consequentsFinish_of_operands (by simp) (by simp [operands])
    | var x => rw [negated_var hb]; exact consequentsFinish_of_operands (by simp) (by simp [operands])
    | negVar x => rw [negated_negVar]; exact consequentsFinish_of_operands (by simp) (by simp [operands])
    | and as =>
      have hbs := (proper_and.1 hp).1
      rw [negated_and]
      refine consequentsFinish_of_operands (by simp) (List.forall_mem_map.2 fun a ha => ?_)
      exact ih a ha (h.operand ha) (hbs a ha) (hp.arg ha)
    | or as =>
      have hbs := (proper_or.1 hp).1
      rw [negated_or]
      refine consequentsFinish_of_operands (by simp) (List.forall_mem_map.2 fun a ha => ?_)
      exact ih a ha (h.operand ha) (hbs a ha) (hp.arg ha)
    | implies a b =>
      have hb : b ∈ (implies a b).args := by simp [args]
      have hnegated := ih b hb (h.operand hb) (proper_implies.1 hp).1.2 (hp.arg hb)
      rw [negated_implies]
      refine consequentsFinish_of_operands (by simp) ?_
      simpa [operands] using ⟨h.operand (a := a) (by simp [operands]), hnegated⟩
    | not a => rw [negated_not]; exact h.operand (List.mem_singleton_self a)
    | cmp r a b => rw [negated_cmp]; exact consequentsFinish_of_operands (by simp) (by simp [operands])
    | constraint c =>
      rw [negated_constraint]
      exact consequentsFinish_of_operands (by simp) (by simpa [operands] using h)
    | call d => exact absurd hp proper_call
    | int _ | sum _ | wsum _ | sub _ _ | mul _ _ | neg _ | function _ => cases hb

theorem finishes_negated (h : e.value.Finishes s) (hc : e.ConsequentsFinish s) (hb : e.isBool)
    (hp : e.Proper (Admits σ s)) : e.negated.value.Finishes s := by
  induction e using induction_args with
  | h e ih =>
    cases e with
    | bool b =>
      rw [negated_bool, value]
      exact Eval.finishes_pure _
    | var x => rw [negated_var hb]; exact finishes_negVar (proper_var.1 hp) hb
    | negVar x =>
      rw [negated_negVar, value]
      exact ⟨_, rfl⟩
    | and as =>
      have hbs := (proper_and.1 hp).1
      rw [finishes_and] at h
      rw [negated_and, finishes_or, List.forall_mem_map]
      exact fun a ha => ih a ha (h a ha) (hc.operand ha) (hbs a ha) (hp.arg ha)
    | or as =>
      have hbs := (proper_or.1 hp).1
      rw [finishes_or] at h
      rw [negated_or, finishes_and, List.forall_mem_map]
      exact fun a ha => ih a ha (h a ha) (hc.operand ha) (hbs a ha) (hp.arg ha)
    | implies a b =>
      have hb : b ∈ (implies a b).args := by simp [args]
      have hnegated := ih b hb hc.consequent (hc.operand hb) (proper_implies.1 hp).1.2 (hp.arg hb)
      rw [negated_implies, finishes_and]
      simpa using ⟨finishes_antecedent h, hnegated⟩
    | not a => rw [negated_not]; exact finishes_not.1 h
    | cmp r a b => rw [negated_cmp, finishes_cmp]; exact finishes_cmp.1 h
    | constraint c => rw [negated_constraint]; exact finishes_not.2 h
    | call d => exact absurd hp proper_call
    | int _ | sum _ | wsum _ | sub _ _ | mul _ _ | neg _ | function _ => cases hb

structure Formula (σ : Store) (s : Assignment) (e : Expr) : Prop where
  isBool : e.isBool
  proper : e.Proper (Admits σ s)
  total : e.FunctionsTotal

theorem Proper.formula (h : e.Proper σ.Has) (hσ : σ.Valid) (hb : e.isBool) (hd : e.FullyDefined) (hs : e.InBounds s) :
    e.Formula σ s :=
  ⟨hb, ⟨h.typed, fun x hx => ⟨(h.owned hσ).scope x hx, hs x hx⟩⟩, hd.functions⟩

namespace Formula

theorem negated (h : e.Formula σ s) : e.negated.Formula σ s :=
  ⟨isBool_negated h.isBool h.proper, proper_negated h.isBool h.proper,
    Everywhere.negated (fun _ _ hg g he => absurd he (hg g)) h.total h.isBool h.proper⟩

theorem truth_negated {v : Bool} (h : e.Formula σ s) (hv : Exact.truth (e.exact s) = some v) :
    Exact.truth (e.negated.exact s) = some !v := by
  obtain ⟨hholds, hfails⟩ := negated_opposite_exact h.isBool h.proper h.total
  cases v with
  | true => exact hholds hv
  | false => exact hfails hv

end Formula

theorem computes_truth (e : Expr) (s : Assignment) : e.value.isTrue.Computes s (Exact.truth (e.exact s)) := by
  have h : e.value.Gives True s (e.exact s) := e.gives_exact fun hl => absurd trivial hl
  exact h.isTrue.computes

theorem outcome_isTrue_of_finishes {v : Option Bool} (hv : Exact.truth (e.exact s) = v) (h : e.value.Finishes s) :
    e.value.isTrue.outcome s = .ok v := by
  obtain ⟨w, hw⟩ := Eval.finishes_isTrue.2 h
  rw [hw, e.computes_truth s w hw, hv]

end Expr

/-- An expression with a truth value has a negation with the opposite one and a
double negation with the same one, whichever of its variables have values. Only
an overflow can prevent that, and it occurs in a consequent that the evaluation
of an implication passes over. -/
theorem negated_opposite {σ : Store} {e : Expr} {s : Assignment} {v : Bool} (h : e.Proper σ.Has) (hσ : σ.Valid)
    (hb : e.isBool) (hd : e.FullyDefined) (hs : e.InBounds s) (hv : e.value.isTrue.outcome s = .ok (some v)) :
    (∀ w, e.negated.value.isTrue.outcome s = .ok w → w = some !v) ∧
    (∀ w, e.negated.negated.value.isTrue.outcome s = .ok w → w = some v) ∧
    (e.ConsequentsFinish s → e.negated.value.isTrue.outcome s = .ok (some !v) ∧
      e.negated.negated.value.isTrue.outcome s = .ok (some v)) := by
  have hformula := h.formula hσ hb hd hs
  have hnegated := hformula.truth_negated (e.computes_truth s _ hv).symm
  have hdouble : Exact.truth (e.negated.negated.exact s) = some v := by
    rw [hformula.negated.truth_negated hnegated, Bool.not_not]
  refine ⟨fun w hw => ?_, fun w hw => ?_, fun hc => ?_⟩
  · rw [← hnegated]
    exact Expr.computes_truth _ s w hw
  · rw [← hdouble]
    exact Expr.computes_truth _ s w hw
  · have hfinishes : e.negated.value.Finishes s :=
      Expr.finishes_negated (Eval.finishes_isTrue.1 ⟨_, hv⟩) hc hb hformula.proper
    have hagain : e.negated.negated.value.Finishes s :=
      Expr.finishes_negated hfinishes (hc.negated hb hformula.proper) hformula.negated.isBool hformula.negated.proper
    exact ⟨Expr.outcome_isTrue_of_finishes hnegated hfinishes, Expr.outcome_isTrue_of_finishes hdouble hagain⟩

def width : Variable := ⟨0, ⟨0, 4294967296⟩, .int⟩

def square : Variable := ⟨1, .boolean, .bool⟩

def areaStore : Store := ⟨#[⟨⟨0, 4294967296⟩, .int, .user⟩, ⟨.boolean, .bool, .user⟩]⟩

/-- The product may be too large for 64 bits. -/
def areaOfSquare : Expr := .implies (.var square) (.cmp .ge (.mul (.var width) (.var width)) (.int 0))

theorem areaStore_valid : areaStore.Valid := by
  rintro (_ | _ | i) d h hk <;> simp [areaStore] at h <;> subst h
  · cases hk
  · rfl

theorem areaOfSquare_termIn : areaOfSquare.TermIn areaStore := by
  have hwidth : (Expr.var width).TermIn areaStore := Expr.termIn_var ⟨.user, rfl⟩
  have hsquare : (Expr.var square).TermIn areaStore := Expr.termIn_var ⟨.user, rfl⟩
  have harea : (Expr.mul (.var width) (.var width)).TermIn areaStore :=
    Expr.termIn_of_args (by simp) trivial trivial (by simp) (by simp) (by simpa [Expr.args] using hwidth)
  have hcmp : (Expr.cmp .ge (.mul (.var width) (.var width)) (.int 0)).TermIn areaStore :=
    Expr.termIn_of_args (by simp) trivial trivial (by simp) (by simp)
      (by simpa [Expr.args] using ⟨harea, Expr.termIn_int 0⟩)
  exact Expr.termIn_of_args (by simp [areaOfSquare]) ⟨rfl, rfl⟩ trivial (by simp [areaOfSquare])
    (by simp [areaOfSquare]) (by simpa [areaOfSquare, Expr.args] using ⟨hsquare, hcmp⟩)

theorem areaOfSquare_inBounds {s : Assignment} (hwidth : ∀ n, s.value? width = some n → n ∈ width.bounds)
    (hsquare : ∀ n, s.value? square = some n → n ∈ square.bounds) : areaOfSquare.InBounds s := by
  have hvars : areaOfSquare.occurrences = [square, width, width] := by cbv
  rw [Expr.InBounds, hvars]
  simpa using ⟨hsquare, hwidth⟩

/-- The width is not assigned, so the area has no value, and the implication is
true all the same. -/
theorem negated_opposite_unassigned :
    let s := Assignment.empty.assign square 0
    areaOfSquare.Proper areaStore.Has ∧ areaStore.Valid ∧ areaOfSquare.isBool ∧ areaOfSquare.FullyDefined ∧
      areaOfSquare.InBounds s ∧ areaOfSquare.value.isTrue.outcome s = .ok (some true) ∧
      areaOfSquare.ConsequentsFinish s ∧ areaOfSquare.negated.value.isTrue.outcome s = .ok (some false) ∧
      areaOfSquare.negated.negated.value.isTrue.outcome s = .ok (some true) := by
  intro s
  have hinBounds : areaOfSquare.InBounds s := by
    refine areaOfSquare_inBounds nofun fun n hn => ?_
    obtain rfl : 0 = n := Option.some_inj.1 hn
    decide
  have hvalue : areaOfSquare.value.isTrue.outcome s = .ok (some true) := by cbv
  have hconsequents : areaOfSquare.ConsequentsFinish s := by
    refine .intro ?_ ?_
    · rintro a b ⟨⟩
      exact ⟨none, by cbv⟩
    · rw [areaOfSquare, Expr.operands, List.forall_mem_cons, List.forall_mem_singleton]
      exact ⟨Expr.consequentsFinish_of_operands (by simp) (by simp [Expr.operands]),
        Expr.consequentsFinish_of_operands (by simp) (by simp [Expr.operands])⟩
  have hproper := areaOfSquare_termIn.inScope
  have h := negated_opposite hproper areaStore_valid rfl areaOfSquare_termIn.toFullyDefined hinBounds hvalue
  exact ⟨hproper, areaStore_valid, rfl, areaOfSquare_termIn.toFullyDefined, hinBounds, hvalue, hconsequents,
    h.2.2 hconsequents⟩

/-- The implication is true without a look at the area, which its negation
cannot compute. -/
theorem negated_not_opposite_of_overflow :
    ¬∀ (σ : Store) (e : Expr) (s : Assignment) (v : Bool), e.Proper σ.Has → σ.Valid → e.isBool → e.FullyDefined →
      e.InBounds s → e.value.isTrue.outcome s = .ok (some v) →
        e.negated.value.isTrue.outcome s = .ok (some !v) ∧ e.negated.negated.value.isTrue.outcome s = .ok (some v) := by
  intro h
  have hinBounds : areaOfSquare.InBounds ((Assignment.empty.assign square 0).assign width 4294967296) := by
    refine areaOfSquare_inBounds (fun n hn => ?_) fun n hn => ?_
    · obtain rfl : 4294967296 = n := Option.some_inj.1 hn
      decide
    · obtain rfl : 0 = n := Option.some_inj.1 hn
      decide
  obtain ⟨hnegated, -⟩ := h areaStore areaOfSquare _ true areaOfSquare_termIn.inScope areaStore_valid rfl
    areaOfSquare_termIn.toFullyDefined hinBounds (by cbv)
  have hoverflow : areaOfSquare.negated.value.isTrue.outcome
      ((Assignment.empty.assign square 0).assign width 4294967296) = .error .overflow := by cbv
  rw [hoverflow] at hnegated
  cases hnegated

end ConstraintModel
