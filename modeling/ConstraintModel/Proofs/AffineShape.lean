import ConstraintModel.Proofs.LinearShape
import ConstraintModel.Proofs.Primitive
import ConstraintModel.Proofs.ProductFree

namespace ConstraintModel

namespace Expr

def IsAffineSide : Expr → Prop
  | var _ | negVar _ => True
  | sum as => ∀ a ∈ as, a.isSimple
  | wsum ts => ∀ t ∈ ts, t.2.isSimple
  | sub a b => a.isSimple ∧ b.isSimple
  | _ => False

def IsAffineTruth : Expr → Prop
  | and as | or as => ∀ a ∈ as, a.isLiteral
  | cmp _ a b => a.IsAffineSide ∧ b.isSimple
  | e => e.isLiteral

def IsAffine : Expr → Prop
  | bool _ => True
  | implies l a => l.isLiteral ∧ a.IsAffineTruth
  | e => e.IsAffineTruth

def IsAffineReification (e : Expr) : Prop :=
  ∃ a l, e = cmp .eq a l ∧ a.IsAffineTruth ∧ l.isLiteral

variable {V : Variable → Prop} {e a b l : Expr} {as : List Expr} {r : Relation}

theorem isAffineSide_of_isSimple (h : e.isSimple) (hc : ¬e.isConstant) : e.IsAffineSide := by
  cases e with
  | var _ | negVar _ => trivial
  | bool _ | int _ => exact absurd rfl hc
  | _ => cases h

theorem isSimple_or_not_isBool (h : e.IsAffineSide) : e.isSimple ∨ e.isBool = false := by
  cases e with
  | var _ | negVar _ => exact .inl rfl
  | sum _ | wsum _ | sub _ _ => exact .inr rfl
  | _ => cases h

theorem IsAffineSide.constant? (h : e.IsAffineSide) : e.constant? = none := by
  cases e with
  | var _ | negVar _ | sum _ | wsum _ | sub _ _ => rfl
  | _ => cases h

theorem isAffineTruth_of_isLiteral (h : e.isLiteral) : e.IsAffineTruth := by
  cases e with
  | var _ | negVar _ => exact h
  | _ => cases h

theorem isBool_of_isAffineTruth (h : e.IsAffineTruth) : e.isBool := by
  cases e with
  | and _ | or _ | cmp _ _ _ => rfl
  | var _ | negVar _ => exact isBool_of_isLiteral h
  | _ => cases h

theorem IsAffineTruth.isAffine (h : e.IsAffineTruth) : e.IsAffine := by
  cases e with
  | implies _ _ | bool _ => cases h
  | _ => exact h

theorem IsAffine.truth (h : e.IsAffine) (hb : ∀ b, e ≠ bool b) (hi : ∀ l a, e ≠ implies l a) :
    e.IsAffineTruth := by
  cases e with
  | bool b => exact absurd rfl (hb b)
  | implies l a => exact absurd rfl (hi l a)
  | _ => exact h

theorem isAffineTruth_all (h : ∀ a ∈ as, a.isLiteral) :
    (all as).IsAffineTruth ∨ ∃ b, all as = bool b := by
  match as with
  | [] => exact .inr ⟨true, rfl⟩
  | [a] => exact .inl (isAffineTruth_of_isLiteral (h a (List.mem_singleton_self a)))
  | a :: b :: as => exact .inl h

theorem isAffineTruth_any (h : ∀ a ∈ as, a.isLiteral) :
    (any as).IsAffineTruth ∨ ∃ b, any as = bool b := by
  match as with
  | [] => exact .inr ⟨false, rfl⟩
  | [a] => exact .inl (isAffineTruth_of_isLiteral (h a (List.mem_singleton_self a)))
  | a :: b :: as => exact .inl h

theorem IsAffineTruth.negated (h : e.IsAffineTruth) (hp : e.Proper V) : e.negated.IsAffineTruth := by
  cases e with
  | and as | or as =>
    rw [Expr.negated]
    exact List.forall_mem_map.2 fun a ha => isLiteral_negated (h a ha) (hp.arg ha)
  | cmp r a b =>
    rw [negated_cmp]
    exact h
  | var _ | negVar _ => exact isAffineTruth_of_isLiteral (isLiteral_negated h hp)
  | _ => cases h

theorem isAffineSide_of_isFlatSide (h : e.IsFlatSide) (hn : e.nesting 0 = 0) (hp : e.ProductFree) :
    e.IsAffineSide := by
  cases e with
  | var _ | negVar _ | sum _ | wsum _ | sub _ _ => exact h
  | mul a b => exact absurd rfl (hp.here a b)
  | function g => simp at hn
  | _ => cases h

theorem isAffineTruth_of_isFlatTruth (h : e.IsFlatTruth) (hn : e.nesting 0 = 0) (hp : e.ProductFree) :
    e.IsAffineTruth := by
  cases e with
  | and _ | or _ => exact h
  | cmp r a b =>
    rw [nesting_cmp] at hn
    exact ⟨isAffineSide_of_isFlatSide h.1 (by omega) (hp.arg (by simp [args])), h.2⟩
  | constraint c =>
    have := c.weight_pos
    rw [nesting_constraint] at hn
    omega
  | var _ | negVar _ => exact h
  | _ => cases h

theorem isAffine_of_isFlat (h : e.IsFlat) (hn : e.nesting 0 = 0) (hp : e.ProductFree) :
    e.IsAffine ∨ e.IsAffineReification := by
  cases e with
  | bool _ => exact .inl trivial
  | or _ => exact .inl h
  | implies l a =>
    rw [nesting_implies] at hn
    exact .inl ⟨h.1, isAffineTruth_of_isFlatTruth h.2 (by omega) (hp.arg (by simp [args]))⟩
  | cmp r a b =>
    rw [nesting_cmp] at hn
    have hpa : a.ProductFree := hp.arg (by simp [args])
    rcases h with ⟨ha, hb⟩ | ⟨rfl, ha, hb⟩
    · exact .inl ⟨isAffineSide_of_isFlatSide ha (by omega) hpa, hb⟩
    · exact .inr ⟨a, b, rfl, isAffineTruth_of_isFlatTruth ha (by omega) hpa, hb⟩
  | constraint c =>
    have := c.weight_pos
    rw [nesting_constraint] at hn
    omega
  | var _ | negVar _ => exact .inl h
  | _ => cases h

end Expr

namespace Flat

open Defining (Yields)
open ConstraintModel.Expr (IsAffineSide IsAffineTruth IsAffine)

variable {depth : Nat} {lift absorbing : Bool} {r : Relation} {e a b l : Expr} {as : List Expr} {f : Affine}
  {w : Int}

abbrev Nothing : Expr → Prop := fun _ => False

theorem operand_eq (h : e.isSimple) : (operand depth e).Yields False Nothing (· = e) := by
  cases depth with
  | zero => exact .throw False.elim
  | succ depth =>
    rw [operand, if_pos h]
    exact .pure rfl

theorem literal_eq (h : e.isLiteral) : (literal depth e).Yields False Nothing (· = e) := by
  cases depth with
  | zero => exact .throw False.elim
  | succ depth =>
    rw [literal]
    refine (operand_eq (Expr.isSimple_of_isLiteral h)).bind fun x hx => .pure ?_
    subst hx
    cases x <;> first | rfl | cases h

theorem literals_isLiteral (h : ∀ a ∈ as, a.isLiteral) :
    (literals depth absorbing as).Yields False Nothing fun ls? =>
      ∀ ls, ls? = some ls → ∀ l ∈ ls, l.isLiteral := by
  have hgather : (gather absorbing (literal depth.pred) as).Yields False Nothing fun ls? =>
      ∀ ls, ls? = some ls → ∀ l ∈ ls, l.isLiteral := by
    induction as with
    | nil => exact .pure (by simp)
    | cons a as ih =>
      replace ih := ih fun a ha => h a (List.mem_cons_of_mem _ ha)
      rw [gather]
      refine (literal_eq (h a (List.mem_cons_self ..))).bind fun l hl => ?_
      split
      · split
        · exact .pure (by simp)
        · exact ih
      · refine ih.bind fun ls? hls => .pure fun ls hsome => ?_
        obtain ⟨ls', rfl, rfl⟩ := Option.map_eq_some_iff.1 hsome
        exact List.forall_mem_cons.2 ⟨hl ▸ h a (List.mem_cons_self ..), hls ls' rfl⟩
  cases depth with
  | zero => exact .throw False.elim
  | succ depth =>
    rw [literals]
    split
    · exact .pure (by simp)
    · exact hgather

def IsReduced (f : Affine) : Prop := ∀ t ∈ f.terms.toList, t.2.isSimple ∧ ¬t.2.isConstant

theorem IsReduced.toExpr (hf : IsReduced f) : f.toExpr.IsAffineSide ∨ f.toExpr.isConstant := by
  have hterms : ∀ u ∈ f.terms.toList ++ (if f.constant = 0 then [] else [(1, .int f.constant)]),
      u.2.isSimple := by
    refine List.forall_mem_append.2 ⟨fun t ht => (hf t ht).1, ?_⟩
    split
    · simp
    · simp [Expr.isSimple]
  unfold Affine.toExpr
  dsimp only
  generalize f.terms.toList ++ (if f.constant = 0 then [] else [(1, .int f.constant)]) = us at hterms
  split
  · exact .inr rfl
  · split
    · split
      · rename_i x _
        by_cases hc : x.isConstant
        · exact .inr hc
        · exact .inl (Expr.isAffineSide_of_isSimple (hterms (_, x) (List.mem_singleton_self _)) hc)
      · exact .inl (List.forall_mem_map.2 hterms)
    · exact .inl hterms

theorem addTo_isReduced (hf : IsReduced f) (h : e.isSimple) :
    (addTo depth f w e).Yields False Nothing IsReduced := by
  have whole : Defining.Yields False Nothing (do f.addMultiple w (← operand depth.pred e)) IsReduced := by
    refine (operand_eq h).bind fun x hx => .checked fun g hg t ht => ?_
    subst hx
    rcases mem_of_addMultiple hg t ht with ht | ⟨rfl, hc⟩
    · exact hf t ht
    · exact ⟨h, hc⟩
  cases depth with
  | zero => exact .throw False.elim
  | succ depth =>
    cases e with
    | bool _ | int _ | var _ | negVar _ => rw [addTo] <;> first | exact whole | simp
    | _ => cases h

theorem affine_isAffineSide (h : e.IsAffineSide) (hr : isLinearRoot e) :
    (affine depth e).Yields False Nothing fun x => x.IsAffineSide ∨ x.isConstant := by
  have hzero : IsReduced .zero := by simp [IsReduced, Affine.zero]
  have hadd : (addTo depth.pred .zero 1 e).Yields False Nothing IsReduced := by
    rcases hd : depth.pred with _ | depth
    · exact .throw False.elim
    · cases e with
      | sum as =>
        rw [addTo]
        exact Yields.foldlM (fun a ha f hf => addTo_isReduced hf (h a ha)) hzero
      | wsum ts =>
        rw [addTo]
        refine Yields.foldlM (fun t ht f hf => ?_) hzero
        exact (Yields.checked fun _ _ => trivial).bind fun v _ => addTo_isReduced hf (h t ht)
      | var _ | negVar _ | sub _ _ => cases hr
      | _ => cases h
  cases depth with
  | zero => exact .throw False.elim
  | succ depth =>
    rw [affine]
    exact hadd.bind fun f hf => .pure hf.toExpr

theorem side_isAffineSide (h : e.IsAffineSide) :
    (side depth e).Yields False Nothing fun x => x.IsAffineSide ∨ x.isConstant := by
  cases depth with
  | zero => exact .throw False.elim
  | succ depth =>
    cases e with
    | var _ | negVar _ => exact .pure (.inl trivial)
    | sum _ | wsum _ =>
      rw [side]
      exact affine_isAffineSide h rfl
    | sub a b =>
      rw [side]
      refine (operand_eq h.1).bind fun x hx => (operand_eq h.2).bind fun y hy => .pure (.inl ?_)
      rw [hx, hy]
      exact h
    | _ => cases h

theorem isAffineTruth_compare (ha : a.IsAffineSide ∨ a.isConstant) (hb : b.isSimple) :
    (compare r a b).IsAffineTruth ∨ ∃ c, compare r a b = .bool c := by
  unfold compare
  split
  · exact .inr ⟨_, rfl⟩
  · rename_i m hm hn
    exact .inl ⟨Expr.isAffineSide_of_isSimple hb (by simp [Expr.isConstant, hn]),
      isSimple_of_isConstant (by simp [Expr.isConstant, hm])⟩
  · rename_i hm
    exact .inl ⟨ha.resolve_right (by simp [Expr.isConstant, hm]), hb⟩

theorem comparison_isAffineTruth (ha : a.IsAffineSide) (hb : b.isSimple) :
    (comparison depth lift r a b).Yields False Nothing fun x => x.IsAffineTruth ∨ ∃ c, x = .bool c := by
  cases depth with
  | zero => exact .throw False.elim
  | succ depth =>
    have hreify : isReification r a b = false := by
      rcases Expr.isSimple_or_not_isBool ha with hs | hs <;> simp [isReification, hs, hb]
    have horient : orient r a b = (r, a, b) := by
      simp [orient, Expr.isConstant, ha.constant?, hb]
    have hlift : isLifted lift a = .ok false := by
      cases a <;> first | rfl | cases ha
    have hfirst : (firstSide depth lift a).Yields False Nothing fun x => x.IsAffineSide ∨ x.isConstant := by
      rw [firstSide, hlift]
      exact side_isAffineSide ha
    rw [comparison_eq, ha.constant?]
    simp only [hreify, horient, Bool.false_eq_true, if_false]
    refine hfirst.bind fun x hx => (operand_eq hb).bind fun y hy => .pure ?_
    subst hy
    refine isAffineTruth_compare hx ?_
    cases y <;> first | rfl | cases hb

theorem truth_isAffineTruth (h : e.IsAffineTruth) :
    (truth depth e).Yields False Nothing fun x => x.IsAffineTruth ∨ ∃ c, x = .bool c := by
  cases depth with
  | zero => exact .throw False.elim
  | succ depth =>
    cases e with
    | and as =>
      rw [truth]
      refine (literals_isLiteral h).bind fun ls? hls => .pure ?_
      cases ls? with
      | none => exact .inr ⟨_, rfl⟩
      | some ls => exact Expr.isAffineTruth_all (hls ls rfl)
    | or as =>
      rw [truth]
      refine (literals_isLiteral h).bind fun ls? hls => .pure ?_
      cases ls? with
      | none => exact .inr ⟨_, rfl⟩
      | some ls => exact Expr.isAffineTruth_any (hls ls rfl)
    | cmp r a b =>
      rw [truth]
      exact comparison_isAffineTruth h.1 h.2
    | var _ | negVar _ => exact .pure (.inl h)
    | _ => cases h

theorem constraint_isAffine (hl : l.isLiteral) (hp : l.Proper Any) (ha : a.IsAffineTruth) :
    (constraint depth (.implies l a)).Yields False Nothing fun es => ∀ e ∈ es, e.IsAffine := by
  cases depth with
  | zero => exact .throw False.elim
  | succ depth =>
    rw [constraint]
    refine (literal_eq hl).bind fun x hx => ?_
    subst hx
    split
    · exact .pure (by simp)
    · cases hl
    · refine (truth_isAffineTruth ha).bind fun b hb => ?_
      split
      · exact .pure (by simp)
      · refine .pure (List.forall_mem_singleton.2 ?_)
        exact (Expr.isAffineTruth_of_isLiteral (Expr.isLiteral_negated hl hp)).isAffine
      · rename_i ht hf
        refine .pure (List.forall_mem_singleton.2 ⟨hl, hb.resolve_right ?_⟩)
        rintro ⟨c, rfl⟩
        cases c
        · exact hf rfl
        · exact ht rfl

end Flat

section Passes

open Lowering (Yields)
open Flat (Any)

variable {caps : Capabilities} {cs : List Expr} {a c l : Expr}

/-- Both implications that a reification is split into. -/
theorem flatten_halves_isAffine (ha : a.IsAffineTruth) (hl : l.isLiteral) (hpa : a.Proper Any)
    (hpl : l.Proper Any) : (flatten (Guarded.halves a l)).Yields False fun fs => ∀ f ∈ fs, f.IsAffine := by
  refine (Yields.forall_mapM (Q := fun fs => ∀ f ∈ fs, f.IsAffine) fun e he => ?_).bind
    fun parts hparts => .pure (List.forall_mem_flatten.2 hparts)
  have hhalf : (Flat.constraint (Flat.depth e) e).Yields False Flat.Nothing fun es => ∀ f ∈ es, f.IsAffine := by
    simp only [topLevel, Guarded.halves, List.mem_flatMap, List.mem_cons, List.not_mem_nil, or_false,
      exists_eq_or_imp, exists_eq_left] at he
    rcases he with he | he <;> rw [Expr.conjuncts_eq (by simp) (by simp), List.mem_singleton] at he <;>
      subst he
    · exact Flat.constraint_isAffine hl hpl ha
    · exact Flat.constraint_isAffine (Expr.isLiteral_negated hl hpl)
        (Expr.proper_negated (Expr.isBool_of_isLiteral hl) hpl) (ha.negated hpa)
  refine hhalf.collect.bind fun p hp => .pure (List.forall_mem_append.2 ⟨hp.1, fun d hd => ?_⟩)
  exact absurd (hp.2 d hd) id

theorem Guarded.constraint_isAffine (h : c.IsAffine ∨ c.IsAffineReification) (hp : c.Proper Any) :
    (constraint c).Yields True fun es => ∀ e ∈ es, e.IsAffine ∧ e.Proper Any := by
  have keep (h : c.IsAffine) : (pure [c] : Lowering (List Expr)).Yields True
      fun es => ∀ e ∈ es, e.IsAffine ∧ e.Proper Any := .pure (by simpa using ⟨h, hp⟩)
  unfold constraint
  split
  · rename_i a l
    split
    · rename_i hs
      have hsplit : a.isBool ∧ ¬a.isLiteral ∧ l.isLiteral := by
        unfold isSplit at hs
        split at hs <;> simp_all
      obtain ⟨hpa, hpl⟩ := Expr.proper_cmp.1 hp
      have ha : a.IsAffineTruth := by
        rcases h with h | ⟨a', l', he, ha, -⟩
        · have := h.1
          cases a with
          | var _ | negVar _ => exact absurd hsplit.1 hsplit.2.1
          | sum _ | wsum _ | sub _ _ => cases hsplit.1
          | _ => cases this
        · cases he
          exact ha
      refine ((flatten_yields_isFlat (proper_halves hs hpa hpl)).and
        (flatten_halves_isAffine ha hsplit.2.2 hpa hpl)).imp fun fs hfs f hf => ?_
      exact ⟨hfs.2 f hf, (hfs.1 f hf).2⟩
    · rename_i hs
      rcases h with h | ⟨_, _, he, ha, hl⟩
      · exact keep h
      · cases he
        have hliteral : a.isLiteral := by
          by_contra hliteral
          refine hs ?_
          unfold isSplit
          split
          · cases ha
          · cases ha
          · simpa [Expr.isBool_of_isAffineTruth ha, hl] using hliteral
        refine keep ⟨Expr.isAffineSide_of_isSimple (Expr.isSimple_of_isLiteral hliteral) ?_,
          Expr.isSimple_of_isLiteral hl⟩
        cases a with
        | var _ | negVar _ => simp [Expr.isConstant, Expr.constant?]
        | _ => cases hliteral
  · rename_i hne
    refine keep (h.resolve_right ?_)
    rintro ⟨a, l, rfl, -, -⟩
    exact hne a l rfl

theorem splitReifications_isAffine
    (h : ∀ c ∈ cs, (c.IsAffine ∨ c.IsAffineReification) ∧ c.Proper Any) :
    (splitReifications cs).Yields True fun es => ∀ e ∈ es, e.IsAffine ∧ e.Proper Any :=
  (Yields.forall_mapM (Q := fun es => ∀ e ∈ es, e.IsAffine ∧ e.Proper Any) fun c hc =>
    Guarded.constraint_isAffine (h c hc).1 (h c hc).2).bind fun _ hparts =>
      .pure (List.forall_mem_flatten.2 hparts)

/-- A list of constraints that a backend takes is left alone. -/
theorem replacements?_affine (h : c.IsAffine ∨ c.IsAffineReification) :
    Supported.replacements? caps c = pure none := by
  have truth {a : Expr} (ha : a.IsAffineTruth) : Supported.replacement? caps a = pure none := by
    cases a with
    | cmp r x y =>
      obtain ⟨hx, -⟩ := ha
      cases x <;> first | rfl | cases hx
    | constraint _ | call _ => cases ha
    | _ => rfl
  have side {r : Relation} {a b : Expr} (ha : a.IsAffineSide) :
      Supported.replacements? caps (.cmp r a b) = pure none := by
    cases a with
    | var _ | negVar _ | sum _ | wsum _ | sub _ _ =>
      unfold Supported.replacements?
      dsimp only
      split <;> rfl
    | _ => cases ha
  rcases h with h | ⟨a, l, rfl, ha, hl⟩
  · cases c with
    | cmp r a b => exact side h.1
    | implies l a =>
      rw [Supported.replacements?, truth h.2]
      rfl
    | constraint _ => cases h
    | _ => rfl
  · rw [Supported.replacements?, truth ha]
    · split <;> rfl
    · rintro g rfl
      cases ha

theorem decomposeFlat_affine (h : ∀ c ∈ cs, c.IsAffine ∨ c.IsAffineReification) :
    (decomposeFlat caps cs).Yields True fun fs => ∀ f ∈ fs, f ∈ cs := by
  rw [decomposeFlat, Supported.flatRounds, Supported.examineFlat]
  refine (Yields.forall_mapM (Q := fun fs => ∀ f ∈ fs, f ∈ cs) fun c hc => ?_).bind
    fun _ hparts => .pure (List.forall_mem_flatten.2 hparts)
  rw [replacements?_affine (h c hc), pure_bind]
  exact .pure (List.forall_mem_singleton.2 hc)

/-- Nothing remains to be decomposed for a backend that takes no global
constraints and no functions. -/
theorem Supported.nesting_of_accepted {context : Context} {e : Expr} (hs : caps.supported = [])
    (hn : caps.supportedNested = []) (h : Accepted caps context e) : e.nesting 0 = 0 := by
  induction e using Expr.induction_args generalizing context with
  | h e ih =>
    have args (hcall : ∀ d, e ≠ .call d) : ∀ a ∈ e.args, a.nesting 0 ≤ 0 :=
      fun a ha => (ih a ha (h.arg hcall ha)).le
    cases e with
    | bool _ | int _ | var _ | negVar _ => exact Expr.nesting_of_isSimple rfl
    | constraint c =>
      have := h.here
      cases context <;> simp [AcceptedHere, Capabilities.supports, hs, hn] at this
    | function g =>
      have := h.here
      simp [AcceptedHere, Capabilities.supports, hs] at this
    | call d => rw [Expr.nesting]
    | cmp r a b | implies a b | sub a b | mul a b | neg a | not a =>
      have := args (by simp)
      simp_all [Expr.args]
    | and as | or as | sum as =>
      simpa [Expr.args] using greatest_map_le (args (by simp))
    | wsum ts =>
      have := greatest_map_le (args (by simp))
      simpa [Expr.args, Function.comp_def] using this

theorem Model.toPrimitive_isAffine {m : Model} (hs : caps.supported = [])
    (hn : caps.supportedNested = [])
    (h : ∀ c ∈ m.constraints, c.isBool ∧ c.Proper Any ∧ c.Linearizable) :
    (m.toPrimitive caps .tree).Yields True fun fs =>
      ∀ f ∈ fs, (f.IsAffine ∨ f.IsAffineReification) ∧ f.Proper Any := by
  have htop : ∀ c ∈ topLevel m.constraints,
      (c.isBool ∧ c.Proper Any ∧ (True ∨ c.TripleFree)) ∧ c.Linearizable := by
    intro c hc
    obtain ⟨e, he, hc⟩ := List.mem_flatMap.1 hc
    exact ⟨Expr.Proper.conjuncts (h e he).1 (h e he).2.1 (.inl trivial) c hc,
      Supported.linearizable_conjuncts (h e he).2.2 c hc⟩
  refine Yields.bind (x := decomposeTree caps (topLevel m.constraints))
    (((decomposeTree_yields fun c hc => (htop c hc).1).and Supported.examine_accepted).and
      (Supported.examine_linearizable fun c hc => (htop c hc).2)) fun es hes => ?_
  obtain ⟨⟨hproper, haccepted⟩, hlinear⟩ := hes
  have hsmall : ∀ c ∈ es, c.Small Any True 0 0 ∧ c.isBool := fun c hc =>
    ⟨⟨(hproper c hc).2.1, .inl trivial, (Supported.nesting_of_accepted hs hn (haccepted c hc).1).le⟩,
      (hproper c hc).1⟩
  refine ((flatten_small hsmall).and (flatten_productFree hlinear)).bind fun fs hfs => ?_
  have hflat : ∀ f ∈ fs, (f.IsAffine ∨ f.IsAffineReification) ∧ f.Proper Any := by
    intro f hf
    rcases hfs.1 f hf with h | ⟨-, rfl⟩
    · exact ⟨Expr.isAffine_of_isFlat h.flat (Nat.le_zero.1 h.nesting) (hfs.2 f hf), h.proper⟩
    · exact ⟨.inl trivial, Expr.proper_bool⟩
  exact (decomposeFlat_affine fun c hc => (hflat c hc).1).imp fun gs hgs g hg => hflat g (hgs g hg)

end Passes

end ConstraintModel
