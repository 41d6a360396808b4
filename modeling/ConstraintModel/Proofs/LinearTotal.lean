import ConstraintModel.Proofs.AffineShape
import ConstraintModel.Proofs.PositiveShape

namespace ConstraintModel

namespace Linear

open Defining (Yields)
open ConstraintModel.Expr (IsReference IsLinear IsLinearSide IsLinearComparison IsAffine IsAffineSide IsAffineTruth)
open Flat (Any)

variable {caps : Capabilities} {depth : Nat} {reified : Bool} {r : Relation} {a b e l : Expr} {k : Int}
  {ts : List (Int × Expr)}

def Succeeds (reified : Bool) (x : Defining (List Expr)) : Prop :=
  x.Yields True (IsLinear IsReference) fun es => ∀ e ∈ es, Stands reified e

theorem Succeeds.single (h : e.IsLinearComparison IsReference) :
    Succeeds reified (Pure.pure [e]) := .pure (by simpa using stands_of_isLinearComparison h)

theorem Succeeds.decided {holds : Bool} : Succeeds reified (Pure.pure (decided holds)) := by
  refine .pure ?_
  cases holds
  · exact fun e he => ⟨by rw [List.mem_singleton.1 he]; rfl, fun _ => .inl (List.mem_singleton.1 he)⟩
  · exact List.forall_mem_nil _

def Relates (caps : Capabilities) (depth : Nat) (reified : Bool) (r : Relation) : Prop :=
  ∀ n, depth ≤ n → ∀ a b, a.IsLinearSide IsReference → b.isConstant →
    Succeeds reified (relation caps n reified r a b)

theorem Relates.mono {m : Nat} (h : Relates caps depth reified r) (hm : depth ≤ m) :
    Relates caps m reified r := fun n hn => h n (hm.trans hn)

theorem relates_weak (h : r = .eq ∨ r = .le ∨ r = .ge) : Relates caps 1 reified r := by
  intro n hn a b ha hb
  obtain ⟨n, rfl⟩ := Nat.exists_eq_add_of_le hn
  rw [Nat.add_comm, relation.eq_def]
  rcases h with rfl | rfl | rfl <;> exact .single ⟨by simp, ha, hb⟩

theorem succeeds_sum (h : Relates caps depth reified r) (hts : ∀ t ∈ ts, t.2.isSimple) (hb : b.isSimple)
    {n : Nat} (hn : depth + 1 ≤ n) : Succeeds reified (sum caps n reified r ts b) := by
  obtain ⟨n, rfl⟩ := Nat.exists_eq_add_of_le' hn
  rw [← Nat.add_assoc, sum]
  refine .bind (.checked (Q := fun p => balance ts b = .ok p) fun _ h => h) fun p hp => ?_
  obtain ⟨kept, k⟩ := p
  dsimp only
  split
  · exact Succeeds.decided
  · rename_i hne
    exact h _ (by omega) _ _ (isLinearSide_ofTerms (by simpa using hne) (forall_balance_isReference hp hts hb)) rfl

theorem terms_of_isAffineSide (h : a.IsAffineSide) :
    a.IsReference ∨ ∃ ts, asTerms? a = some ts ∧ ∀ t ∈ ts, t.2.isSimple := by
  cases a with
  | var _ | negVar _ => exact .inl trivial
  | sum as => exact .inr ⟨_, rfl, List.forall_mem_map.2 h⟩
  | wsum ts => exact .inr ⟨_, rfl, h⟩
  | sub x y => exact .inr ⟨_, rfl, by simpa using And.intro h.1 h.2⟩
  | _ => cases h

theorem succeeds_affine (h : Relates caps depth reified r) (ha : a.IsAffineSide) (hb : b.isSimple)
    {n : Nat} (hn : depth + 2 ≤ n) : Succeeds reified (comparison caps n reified r a b) := by
  obtain ⟨n, rfl⟩ := Nat.exists_eq_add_of_le' hn
  have hsum {ts : List (Int × Expr)} (hts : ∀ t ∈ ts, t.2.isSimple) :
      Succeeds reified (sum caps (n + depth + 1) reified r ts b) := succeeds_sum h hts hb (by omega)
  rw [← Nat.add_assoc, comparison.eq_def]
  dsimp only
  rw [ha.constant?]
  dsimp only
  split
  · rename_i hl
    simp only [Bool.and_eq_true, decide_eq_true_eq] at hl
    refine .single ⟨by simp, ⟨by simp, ?_⟩, rfl⟩
    simpa using And.intro (Expr.isReference_of_isLiteral hl.1.2) (Expr.isReference_of_isLiteral hl.2)
  · cases a with
    | var _ | negVar _ =>
      dsimp only
      split
      · exact h _ (by omega) _ _ trivial ‹_›
      · exact hsum (by simp [Expr.isSimple])
    | sum _ | wsum _ | sub _ _ =>
      obtain ht | ⟨ts, ht, hts⟩ := terms_of_isAffineSide ha
      · cases ht
      · dsimp only
        rw [ht]
        exact hsum hts
    | _ => cases ha

theorem succeeds_comparison (h : Relates caps depth reified r) (h' : Relates caps depth reified r.converse)
    (ha : a.IsAffineSide ∨ a.isConstant) (hb : b.isSimple) {n : Nat} (hn : depth + 3 ≤ n) :
    Succeeds reified (comparison caps n reified r a b) := by
  rcases ha with ha | ha
  · exact succeeds_affine h ha hb (by omega)
  · obtain ⟨n, rfl⟩ := Nat.exists_eq_add_of_le' hn
    obtain ⟨m, hm⟩ := Option.isSome_iff_exists.1 ha
    rw [← Nat.add_assoc, comparison.eq_def]
    dsimp only
    rw [hm]
    cases hk : b.constant? with
    | some k => exact .decided
    | none =>
      have hside := Expr.isAffineSide_of_isSimple hb (by simp [Expr.isConstant, hk])
      exact succeeds_affine h' hside (Flat.isSimple_of_isConstant ha) (by omega)

theorem isAffineSide_of_isLinearSide (h : a.IsLinearSide IsReference) : a.IsAffineSide := by
  cases a with
  | var _ | negVar _ => trivial
  | sum as => exact fun a ha => (h.2 a ha).isSimple
  | wsum ts => exact fun t ht => (h.2 t ht).isSimple
  | _ => cases h

theorem succeeds_strict (hr : r = .le ∨ r = .ge) {delta : Int} (ha : a.IsLinearSide IsReference)
    (hb : b.isConstant) {n : Nat} (hn : 5 ≤ n) : Succeeds reified (strict caps n reified r delta a b) := by
  obtain ⟨n, rfl⟩ := Nat.exists_eq_add_of_le' hn
  obtain ⟨k, hk⟩ := Option.isSome_iff_exists.1 hb
  rw [strict, hk]
  refine .bind (.checked fun _ _ => trivial) fun k' _ => ?_
  have hr : r = .eq ∨ r = .le ∨ r = .ge := .inr hr
  have hr' : r.converse = .eq ∨ r.converse = .le ∨ r.converse = .ge := by
    rcases hr with rfl | rfl | rfl <;> simp [Relation.converse]
  exact succeeds_comparison (relates_weak hr) (relates_weak hr') (.inl (isAffineSide_of_isLinearSide ha))
    rfl (by omega)

theorem relates_strict (h : r = .lt ∨ r = .gt) : Relates caps 6 reified r := by
  intro n hn a b ha hb
  obtain ⟨n, rfl⟩ := Nat.exists_eq_add_of_le' hn
  rw [relation.eq_def]
  rcases h with rfl | rfl <;> exact succeeds_strict (by simp) ha hb (by omega)

theorem relates_ne_reified : Relates caps 3 true .ne := by
  intro n hn a b ha hb
  obtain ⟨n, rfl⟩ := Nat.exists_eq_add_of_le' hn
  rw [relation.eq_def]
  exact bigM_yields (fun _ => Nat.succ_pos _) ha hb

theorem relates_reified : Relates caps 6 true r := by
  cases r with
  | eq | le | ge => exact (relates_weak (by simp)).mono (by omega)
  | lt | gt => exact relates_strict (by simp)
  | ne => exact relates_ne_reified.mono (by omega)

/-- A connective is the comparison of the sum of its literals with a constant. -/
theorem succeeds_literals {as : List Expr} (h : ∀ a ∈ as, a.isLiteral) {n : Nat} (hn : 4 ≤ n) :
    Succeeds reified (comparison caps n reified .ge (.sum as) (.int k)) := by
  have hside : (Expr.sum as).IsAffineSide := fun a ha => Expr.isSimple_of_isLiteral (h a ha)
  exact succeeds_affine (relates_weak (by simp)) hside rfl (by omega)

theorem succeeds_literal (h : l.isLiteral) {n : Nat} (hn : 1 ≤ n) :
    Succeeds reified (constraint caps n reified l) := by
  obtain ⟨n, rfl⟩ := Nat.exists_eq_add_of_le' hn
  cases l with
  | var x =>
    rw [constraint, if_pos (show x.isBool from h)]
    exact .single ⟨by simp, ⟨by simp, by simp [IsReference]⟩, rfl⟩
  | negVar x => exact .single ⟨by simp, ⟨by simp, by simp [IsReference]⟩, rfl⟩
  | _ => cases h

/-- Truths are linearized where all the relations in them are. -/
theorem succeeds_truth (hr : ∀ r, Relates caps depth reified r) (h : e.IsAffineTruth) {n : Nat}
    (hn : depth + 4 ≤ n) (hfive : 5 ≤ n) : Succeeds reified (constraint caps n reified e) := by
  obtain ⟨n, rfl⟩ := Nat.exists_eq_add_of_le' (show 1 ≤ n by omega)
  cases e with
  | and as | or as => exact succeeds_literals h (by omega)
  | cmp r a b => exact succeeds_comparison (hr r) (hr _) (.inl h.1) h.2 (by omega)
  | var _ | negVar _ => exact succeeds_literal h (by omega)
  | _ => cases h

theorem succeeds_guarded (hl : l.isLiteral) (hp : l.Proper Any) (ha : a.IsAffineTruth) {n : Nat}
    (hn : 11 ≤ n) : Succeeds false (guarded caps n l a) := by
  obtain ⟨n, rfl⟩ := Nat.exists_eq_add_of_le' (show 1 ≤ n by omega)
  rw [guarded]
  refine (succeeds_truth (fun _ => relates_reified) ha (by omega) (by omega)).bind fun es hes => ?_
  split
  · exact succeeds_literal (Expr.isLiteral_negated hl hp) (by omega)
  · rename_i hf
    refine .pure (List.forall_mem_map.2 fun e he => ⟨⟨⟨hl, Expr.isReference_of_isLiteral hl⟩, ?_⟩, by simp⟩)
    refine ((hes e he).unguarded rfl).resolve_left ?_
    rintro rfl
    exact hf (by simpa using he)

theorem succeeds_implication (hl : l.isLiteral) (hp : l.Proper Any) (ha : a.IsAffineTruth) {n : Nat}
    (hn : 12 ≤ n) : Succeeds false (implication caps n l a) := by
  obtain ⟨n, rfl⟩ := Nat.exists_eq_add_of_le' (show 1 ≤ n by omega)
  rw [implication, if_neg (by simp [hl])]
  split
  · rename_i hal
    obtain ⟨n, rfl⟩ := Nat.exists_eq_add_of_le' (show 1 ≤ n by omega)
    exact succeeds_literals (by simpa using ⟨Expr.isLiteral_negated hl hp, hal⟩) (by omega)
  · have hnone : nonlinear? caps a = none := by
      cases a with
      | cmp r x y =>
        obtain ⟨hx, -⟩ := ha
        cases x <;> first | rfl | cases hx
      | _ => rfl
    rw [hnone]
    exact succeeds_guarded hl hp ha (by omega)

theorem relates_ne : Relates caps 13 reified .ne := by
  intro n hn a b ha hb
  cases reified with
  | true => exact relates_ne_reified n (by omega) a b ha hb
  | false =>
    obtain ⟨n, rfl⟩ := Nat.exists_eq_add_of_le' (show 1 ≤ n by omega)
    rw [relation]
    split
    · obtain ⟨n, rfl⟩ := Nat.exists_eq_add_of_le' (show 1 ≤ n by omega)
      exact bigM_yields (fun _ => by omega) ha hb
    · have hcmp (s : Relation) : (Expr.cmp s a b).IsAffineTruth :=
        ⟨isAffineSide_of_isLinearSide ha, Flat.isSimple_of_isConstant hb⟩
      refine .bind (.lift .freshBool) fun z hz => ?_
      obtain ⟨x, rfl, hx⟩ := hz
      have hliteral : (Expr.var x).isLiteral := hx
      have hproper : (Expr.var x).Proper Any := Expr.proper_var.2 trivial
      refine (succeeds_implication hliteral hproper (hcmp .lt) (by omega)).bind fun es hes => ?_
      refine (succeeds_implication (Expr.isLiteral_negated hliteral hproper)
        (Expr.proper_negated (Expr.isBool_of_isLiteral hliteral) hproper) (hcmp .gt) (by omega)).bind
          fun fs hfs => .pure (List.forall_mem_append.2 ⟨hes, hfs⟩)

theorem relates (r : Relation) : Relates caps 13 reified r := by
  cases r with
  | eq | le | ge => exact (relates_weak (by simp)).mono (by omega)
  | lt | gt => exact (relates_strict (by simp)).mono (by omega)
  | ne => exact relates_ne

/-- Every constraint about affine forms has a linear form. -/
theorem succeeds_constraint (h : e.IsAffine) (hp : e.Proper Any) {n : Nat} (hn : 17 ≤ n) :
    Succeeds false (constraint caps n false e) := by
  cases e with
  | bool b =>
    obtain ⟨n, rfl⟩ := Nat.exists_eq_add_of_le' (show 1 ≤ n by omega)
    exact .decided
  | implies l a =>
    obtain ⟨n, rfl⟩ := Nat.exists_eq_add_of_le' (show 1 ≤ n by omega)
    exact succeeds_implication h.1 (hp.arg (by simp [Expr.args])) h.2 (by omega)
  | _ => exact succeeds_truth relates (h.truth (by simp) (by simp)) hn (by omega)

end Linear

theorem linearize_isAffine {caps : Capabilities} {cs : List Expr}
    (h : ∀ c ∈ cs, c.IsAffine ∧ c.Proper Flat.Any) :
    (linearize caps cs).Yields True fun es => ∀ e ∈ es, e.IsLinear Expr.IsReference := by
  refine (Lowering.Yields.forall_mapM (Q := fun es => ∀ e ∈ es, e.IsLinear Expr.IsReference)
    fun c hc => ?_).bind fun parts hparts => .pure (List.forall_mem_flatten.2 hparts)
  refine (Linear.succeeds_constraint (h c hc).1 (h c hc).2 ?_).collect.bind fun p hp => .pure ?_
  · unfold Linear.depth
    omega
  · exact List.forall_mem_append.2 ⟨fun e he => (hp.1 e he).isLinear, hp.2⟩

namespace Model

/-- Apart from overflows, every model has a linear form, unless there are calls
or products of two expressions that are not constant in it. -/
theorem toLinear_linearizable {m : Model} {caps : Capabilities} (hs : caps.supported = [])
    (hn : caps.supportedNested = []) (h : ∀ c ∈ m.constraints, c.WellTyped ∧ c.Linearizable) :
    match m.toLinear caps m.store with
    | .ok _ _ => True
    | .error e _ => e = .overflow := by
  have hrun : (m.toLinear caps).Yields True fun es => ∀ e ∈ es, e.IsLinear Expr.IsVariable := by
    refine (toPrimitive_isAffine hs hn fun c hc => ?_).bind fun fs hfs =>
      (splitReifications_isAffine hfs).bind fun gs hgs =>
        (linearize_isAffine hgs).bind fun es hes => removeViews_yields hes
    obtain ⟨hw, hl⟩ := h c hc
    exact ⟨hw.isBool, (hw.typed hl.callFree).proper, hl⟩
  cases hr : m.toLinear caps m.store with
  | error e _ => exact (hrun m.store).error hr
  | ok _ _ => trivial

def doubledMagnitude : Model where
  store := ⟨#[⟨⟨0, 1⟩, .int, .user⟩, ⟨⟨-2, 2⟩, .int, .user⟩]⟩
  constraints := [.cmp .eq (.mul (.int 2) (.var ⟨0, ⟨0, 1⟩, .int⟩)) (.function (.abs (.var ⟨1, ⟨-2, 2⟩, .int⟩)))]

theorem toLinear_doubledMagnitude :
    (∀ c ∈ doubledMagnitude.constraints, c.WellTyped ∧ c.Linearizable) ∧
      (∃ out σ, doubledMagnitude.toLinear .none doubledMagnitude.store = .ok out σ) ∧
        match doubledMagnitude.toLinear .none doubledMagnitude.store with
        | .ok _ _ => True
        | .error e _ => e = .overflow := by
  have htyped : ∀ c ∈ doubledMagnitude.constraints, c.WellTyped ∧ c.Linearizable := by
    simp only [doubledMagnitude, List.mem_singleton, forall_eq]
    refine ⟨⟨rfl, ?_, ?_⟩, ?_⟩
    · simp [Function.args, Expr.OperandsBoolean]
    · simp only [Expr.everywhere_cmp, Expr.everywhere_mul, Expr.everywhere_function, Expr.everywhere_int,
        Expr.everywhere_var, Function.args, List.forall_mem_singleton, Expr.Built, true_and, and_true]
      rfl
    · simp [Function.args, Expr.isConstant, Expr.constant?]
  have hrun : ∃ out σ, (doubledMagnitude.toLinear .none).run doubledMagnitude.store = .ok out σ :=
    ⟨_, _, by cbv⟩
  exact ⟨htyped, hrun, toLinear_linearizable rfl rfl htyped⟩

end Model

end ConstraintModel
