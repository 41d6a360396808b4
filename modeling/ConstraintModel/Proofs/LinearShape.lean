import ConstraintModel.Form.Linear
import ConstraintModel.Proofs.SupportedTree

namespace ConstraintModel

namespace Expr

def IsReference : Expr → Prop
  | var _ | negVar _ => True
  | _ => False

def IsVariable : Expr → Prop
  | var _ => True
  | _ => False

def IsLinearSide (term : Expr → Prop) : Expr → Prop
  | sum as => as ≠ [] ∧ ∀ a ∈ as, term a
  | wsum ts => ts ≠ [] ∧ ∀ t ∈ ts, term t.2
  | e => term e

def IsLinearComparison (term : Expr → Prop) : Expr → Prop
  | cmp r a b => (r = .eq ∨ r = .le ∨ r = .ge) ∧ a.IsLinearSide term ∧ b.isConstant
  | _ => False

/-- Falsity, or a linear comparison that can be guarded by a literal. -/
def IsLinear (term : Expr → Prop) : Expr → Prop
  | bool b => b = false
  | implies l a => (l.isLiteral ∧ term l) ∧ a.IsLinearComparison term
  | e => e.IsLinearComparison term

variable {term : Expr → Prop} {e : Expr}

theorem IsLinearComparison.isLinear (h : e.IsLinearComparison term) : e.IsLinear term := by
  cases e with
  | cmp _ _ _ => exact h
  | _ => cases h

theorem isReference_of_isLiteral (h : e.isLiteral) : e.IsReference := by
  cases e with
  | var _ | negVar _ => trivial
  | _ => cases h

theorem isReference_or_isConstant (h : e.isSimple) : e.IsReference ∨ e.isConstant := by
  cases e with
  | var _ | negVar _ => exact .inl trivial
  | bool _ | int _ => exact .inr rfl
  | _ => cases h

theorem IsReference.isSimple (h : e.IsReference) : e.isSimple := by
  cases e with
  | var _ | negVar _ => rfl
  | _ => cases h

theorem IsReference.isLinearSide (h : e.IsReference) : e.IsLinearSide IsReference := by
  cases e with
  | var _ | negVar _ => trivial
  | _ => cases h

end Expr

namespace Linear

def IsInputSide (e : Expr) : Prop := e.isBool ∨ ∀ a ∈ e.args, a.isSimple

def IsInputTruth : Expr → Prop
  | .implies _ _ => False
  | .cmp _ a b => IsInputSide a ∧ b.isSimple
  | e => ∀ a ∈ e.args, a.isSimple

def IsInput : Expr → Prop
  | .implies _ a => IsInputTruth a
  | e => IsInputTruth e

section

variable {V : Variable → Prop} {e a l : Expr}

theorem isInputSide_of_isSimple (h : e.isSimple) : IsInputSide e :=
  .inr (by simp [Expr.args_of_isSimple h])

theorem isInputSide_of_isLinearSide (h : e.IsLinearSide Expr.IsReference) : IsInputSide e := by
  cases e with
  | var _ | negVar _ => exact isInputSide_of_isSimple rfl
  | sum as => exact .inr fun a ha => (h.2 a ha).isSimple
  | wsum ts => exact .inr (List.forall_mem_map.2 fun t ht => (h.2 t ht).isSimple)
  | _ => cases h

theorem isInputSide_of_isFlatSide (h : e.IsFlatSide) : IsInputSide e := by
  cases e with
  | var _ | negVar _ => exact isInputSide_of_isSimple rfl
  | sum as => exact .inr h
  | wsum ts => exact .inr (List.forall_mem_map.2 h)
  | sub a b | mul a b => exact .inr (by simpa [Expr.args] using And.intro h.1 h.2)
  | function g => exact .inr h
  | _ => cases h

theorem isInputTruth_of_isLiteral (h : e.isLiteral) : IsInputTruth e := by
  have hs := Expr.isSimple_of_isLiteral h
  cases e with
  | var _ | negVar _ => simp [IsInputTruth, Expr.args]
  | _ => cases h

theorem isInputTruth_of_isFlatTruth (h : e.IsFlatTruth) : IsInputTruth e := by
  cases e with
  | and as | or as => exact fun a ha => Expr.isSimple_of_isLiteral (h a ha)
  | cmp r a b => exact ⟨isInputSide_of_isFlatSide h.1, h.2⟩
  | constraint c => exact h
  | var _ | negVar _ => exact isInputTruth_of_isLiteral h
  | _ => cases h

theorem isInput_of_isFlat (h : e.IsFlat) : IsInput e := by
  cases e with
  | bool _ => simp [IsInput, IsInputTruth, Expr.args]
  | or as => exact fun a ha => Expr.isSimple_of_isLiteral (h a ha)
  | implies l a => exact isInputTruth_of_isFlatTruth h.2
  | cmp r a b =>
    rcases h with ⟨ha, hb⟩ | ⟨-, ha, hb⟩
    · exact ⟨isInputSide_of_isFlatSide ha, hb⟩
    · exact ⟨.inl (Expr.isBool_of_isFlatTruth ha), Expr.isSimple_of_isLiteral hb⟩
  | constraint c => exact h
  | var _ | negVar _ => exact isInputTruth_of_isLiteral h
  | _ => cases h

theorem IsInputTruth.isInput (h : IsInputTruth e) : IsInput e := by
  cases e with
  | implies l a => cases h
  | _ => exact h

theorem args_of_asTerms? {ts : List (Int × Expr)} (h : asTerms? e = some ts) :
    ∀ t ∈ ts, t.2 ∈ e.args := by
  cases e with
  | sum as =>
    cases h
    simp [Expr.args]
  | wsum us =>
    cases h
    exact fun t ht => List.mem_map_of_mem ht
  | sub a b =>
    cases h
    simp [Expr.args]
  | neg a =>
    cases h
    simp [Expr.args]
  | mul a b =>
    simp only [asTerms?] at h
    split at h <;> cases h <;> simp [Expr.args]
  | _ => exact absurd h (by simp [asTerms?, Expr.terms?])

theorem asTerms?_of_isBool (h : e.isBool) : asTerms? e = none := by
  cases e with
  | int _ | sum _ | wsum _ | sub _ _ | mul _ _ | neg _ | function _ => cases h
  | _ => rfl

theorem IsInputSide.terms {ts : List (Int × Expr)} (h : IsInputSide e) (hp : e.Proper V)
    (ht : asTerms? e = some ts) : ∀ t ∈ ts, t.2.isSimple ∧ t.2.Proper V := by
  rcases h with hb | h
  · rw [asTerms?_of_isBool hb] at ht
    cases ht
  · exact fun t hts => ⟨h _ (args_of_asTerms? ht t hts), hp.arg (args_of_asTerms? ht t hts)⟩

end

end Linear

section Guarded

open Lowering (Yields)
open Flat (Any)

variable {K : Nat} {e a l : Expr} {cs : List Expr}

theorem Guarded.proper_halves {V : Variable → Prop} (hs : isSplit a l) (ha : a.Proper V)
    (hl : l.Proper V) : ∀ e ∈ halves a l, e.isBool ∧ e.Proper V := by
  have hb : a.isBool ∧ l.isLiteral := by
    unfold isSplit at hs
    split at hs <;> simp_all
  have hlb := Expr.isBool_of_isLiteral hb.2
  simp only [halves, List.mem_cons, List.not_mem_nil, or_false, forall_eq_or_imp, forall_eq,
    Expr.proper_implies]
  exact ⟨⟨rfl, ⟨hlb, hb.1⟩, hl, ha⟩, rfl,
    ⟨Expr.isBool_negated hlb hl, Expr.isBool_negated hb.1 ha⟩,
    Expr.proper_negated hlb hl, Expr.proper_negated hb.1 ha⟩

theorem isInput_of_flat (h : (e.IsFlat ∨ e = .bool true) ∧ e.Proper Any) :
    Linear.IsInput e ∧ e.Proper Any := by
  rcases h with ⟨h | rfl, hp⟩
  · exact ⟨Linear.isInput_of_isFlat h, hp⟩
  · exact ⟨by simp [Linear.IsInput, Linear.IsInputTruth, Expr.args], hp⟩

theorem splitReifications_yields (h : ∀ c ∈ cs, (c.IsFlat ∨ c = .bool true) ∧ c.Proper Any) :
    (splitReifications cs).Yields True fun es => ∀ e ∈ es, Linear.IsInput e ∧ e.Proper Any := by
  refine (Yields.forall_mapM (Q := fun es => ∀ e ∈ es, Linear.IsInput e ∧ e.Proper Any)
    fun c hc => ?_).bind fun parts hparts => .pure (List.forall_mem_flatten.2 hparts)
  · have keep : (Pure.pure [c] : Lowering (List Expr)).Yields True
        fun es => ∀ e ∈ es, Linear.IsInput e ∧ e.Proper Any :=
      .pure (by simpa using isInput_of_flat (h c hc))
    unfold Guarded.constraint
    split
    · split
      · obtain ⟨-, hp⟩ := h _ hc
        obtain ⟨ha, hl⟩ := Expr.proper_cmp.1 hp
        exact (flatten_yields_isFlat (Guarded.proper_halves ‹_› ha hl)).imp fun fs hfs f hf =>
          isInput_of_flat (hfs f hf)
      · exact keep
    · exact keep

end Guarded

namespace Linear

open Defining (Yields)
open ConstraintModel.Expr (IsReference IsLinear IsLinearSide IsLinearComparison)
open Flat (Any IsOperand)

variable {caps : Capabilities} {V : Variable → Prop} {e a b : Expr} {ts : List (Int × Expr)} {depth : Nat}
  {reified : Bool} {r : Relation} {k : Int}

structure Stands (reified : Bool) (e : Expr) : Prop where
  isLinear : e.IsLinear IsReference
  unguarded : reified → e = .bool false ∨ e.IsLinearComparison IsReference

def Linearizes (reified : Bool) (x : Defining (List Expr)) : Prop :=
  x.Yields False (IsLinear IsReference) fun es => ∀ e ∈ es, Stands reified e

theorem stands_of_isLinearComparison (h : e.IsLinearComparison IsReference) : Stands reified e :=
  ⟨h.isLinear, fun _ => .inr h⟩

theorem Linearizes.single (h : e.IsLinearComparison IsReference) :
    Linearizes reified (Pure.pure [e]) := .pure (by simpa using stands_of_isLinearComparison h)

theorem Linearizes.decided {holds : Bool} : Linearizes reified (Pure.pure (decided holds)) := by
  refine .pure ?_
  cases holds
  · exact fun e he => ⟨by rw [List.mem_singleton.1 he]; rfl, fun _ => .inl (List.mem_singleton.1 he)⟩
  · exact List.forall_mem_nil _

theorem Linearizes.throw {e : LoweringError} :
    Linearizes reified (MonadExcept.throw e : Defining (List Expr)) := Yields.throw False.elim

theorem isLinearSide_ofTerms (hne : ts ≠ []) (h : ∀ t ∈ ts, t.2.IsReference) :
    (Expr.ofTerms ts).IsLinearSide IsReference := by
  unfold Expr.ofTerms
  split
  · exact ⟨by simpa using hne, List.forall_mem_map.2 h⟩
  · exact ⟨hne, h⟩

theorem not_isLinear_constraint {c : Constraint Expr} (h : caps.linear = []) :
    caps.isLinear c.name = false := by
  cases c with
  | monotone order _ => cases order <;> simp [Capabilities.isLinear, h, Constraint.name]
  | _ => simp [Capabilities.isLinear, h, Constraint.name]

theorem not_isLinear_function {g : Function Expr} (h : caps.linear = []) :
    caps.isLinear g.name = false := by
  cases g <;> simp [Capabilities.isLinear, h, Function.name]

theorem not_isLinear_product (h : caps.linear = []) (he : isProduct e) : caps.isLinear e.name = false := by
  cases e with
  | mul _ _ => simp [Capabilities.isLinear, h, Expr.name]
  | _ => cases he

/-- Constants do not remain among the terms. -/
theorem mem_of_separate {kept : List (Int × Expr)} (h : separate ts = .ok (kept, k)) :
    ∀ t ∈ kept, t ∈ ts ∧ ¬t.2.isConstant := by
  obtain ⟨_, -, h⟩ := Checked.bind_eq_ok.1 h
  cases h
  intro t ht
  simpa using ht

theorem mem_of_balance {kept : List (Int × Expr)} (h : balance ts b = .ok (kept, k)) :
    ∀ t ∈ kept, (t ∈ ts ∨ t = (-1, b)) ∧ ¬t.2.isConstant := by
  obtain ⟨⟨us, l⟩, hsep, h⟩ := Checked.bind_eq_ok.1 h
  have hus := mem_of_separate hsep
  dsimp only at h
  split at h
  · obtain ⟨_, -, h⟩ := Checked.bind_eq_ok.1 h
    cases h
    exact fun t ht => (hus t ht).imp_left .inl
  · cases h
    rename_i hc
    simp only [List.forall_mem_append, List.forall_mem_singleton]
    exact ⟨fun t ht => (hus t ht).imp_left .inl, .inr trivial, by simp [Expr.isConstant, hc]⟩

theorem forall_balance {kept : List (Int × Expr)} {P : Expr → Prop} (h : balance ts b = .ok (kept, k))
    (hts : ∀ t ∈ ts, P t.2) (hb : P b) : ∀ t ∈ kept, P t.2 := by
  intro t ht
  rcases (mem_of_balance h t ht).1 with hmem | rfl
  · exact hts t hmem
  · exact hb

theorem forall_balance_isReference {kept : List (Int × Expr)} (h : balance ts b = .ok (kept, k))
    (hts : ∀ t ∈ ts, t.2.isSimple) (hb : b.isSimple) : ∀ t ∈ kept, t.2.IsReference := fun t ht =>
  have hs := forall_balance (P := fun e => e.isSimple) h hts hb t ht
  (Expr.isReference_or_isConstant hs).resolve_right (mem_of_balance h t ht).2

theorem separated_eq_ok {range : Bounds} {z : Expr} {es : List Expr}
    (h : separated ts k z range = .ok es) :
    ∃ m, m = max (range.upper - k) (k - range.lower) + 1 ∧
      es = [.cmp .le (.wsum (ts ++ [(-m, z)])) (.int (k - 1)),
        .cmp .ge (.wsum (ts ++ [(-m, z)])) (.int (k - m + 1))] := by
  obtain ⟨x, hx, h⟩ := Checked.bind_eq_ok.1 h
  obtain ⟨y, hy, h⟩ := Checked.bind_eq_ok.1 h
  obtain ⟨m, hm, h⟩ := Checked.bind_eq_ok.1 h
  obtain ⟨n, hn, h⟩ := Checked.bind_eq_ok.1 h
  obtain ⟨k₁, hk₁, h⟩ := Checked.bind_eq_ok.1 h
  obtain ⟨l, hl, h⟩ := Checked.bind_eq_ok.1 h
  obtain ⟨k₂, hk₂, h⟩ := Checked.bind_eq_ok.1 h
  cases h
  rw [Checked.sub_eq_ok] at hx hy hk₁ hl
  rw [Checked.add_eq_ok] at hm hk₂
  rw [Checked.neg_eq_ok] at hn
  refine ⟨m, ?_, ?_⟩
  · rw [← hm.2, ← hx.2, ← hy.2]
  · rw [← hn.2, ← hk₁.2, ← hk₂.2, ← hl.2]

theorem proper_ofTerms (h : ∀ t ∈ ts, t.2.Proper V) : (Expr.ofTerms ts).Proper V := by
  unfold Expr.ofTerms
  split
  · exact Expr.proper_sum.2 (List.forall_mem_map.2 h)
  · exact Expr.proper_wsum.2 h

theorem proper_of_isConstant (h : e.isConstant) : e.Proper V := by
  cases e with
  | bool _ => exact Expr.proper_bool
  | int _ => exact Expr.proper_int
  | _ => cases h

theorem function_decompose_proper {g : Function Expr} (hs : ∀ a ∈ g.args, a.isSimple) (hb : b.isSimple)
    (hp : (Expr.cmp r (.function g) b).Proper Any) :
    (g.decompose r b).Yields True fun d => ∀ e ∈ d.toList, e.isBool ∧ e.Proper Any := by
  refine (Supported.function_decompose_yields hs hb hp).imp fun d hd e he => ?_
  obtain ⟨_, -, h⟩ := hd e he
  exact ⟨h.isBool, h.small.proper⟩

structure Shapes (caps : Capabilities) (depth : Nat) : Prop where
  constraint (reified : Bool) (e : Expr) : IsInput e → e.Proper Any →
    Linearizes reified (constraint caps depth reified e)
  implication (l a : Expr) : IsInputTruth a → l.Proper Any → a.Proper Any →
    Linearizes false (implication caps depth l a)
  guarded (l a : Expr) : l.isLiteral → IsInputTruth a → l.Proper Any → a.Proper Any →
    Linearizes false (guarded caps depth l a)
  comparison (reified : Bool) (r : Relation) (a b : Expr) : IsInputSide a → a.Proper Any →
    IsOperand b → Linearizes reified (comparison caps depth reified r a b)
  sum (reified : Bool) (r : Relation) (ts : List (Int × Expr)) (b : Expr) :
    (∀ t ∈ ts, IsOperand t.2) → IsOperand b → Linearizes reified (sum caps depth reified r ts b)
  relation (reified : Bool) (r : Relation) (a b : Expr) : a.IsLinearSide IsReference →
    a.Proper Any → b.isConstant → Linearizes reified (relation caps depth reified r a b)
  strict (reified : Bool) (r : Relation) (delta : Int) (a b : Expr) : a.IsLinearSide IsReference →
    a.Proper Any → b.isConstant → Linearizes reified (strict caps depth reified r delta a b)
  bigM (reified : Bool) (a b : Expr) : a.IsLinearSide IsReference → b.isConstant →
    Linearizes reified (bigM caps depth a b)
  functionComparison (reified : Bool) (g : Function Expr) (r : Relation) (b : Expr) :
    (∀ a ∈ g.args, a.isSimple) → (Expr.function g).Proper Any → IsOperand b →
    Linearizes reified (functionComparison caps depth reified g r b)
  element (array : List Expr) (index : Expr) (r : Relation) (b : Expr) :
    (∀ a ∈ array, IsOperand a) → IsOperand index → IsOperand b →
    Linearizes false (element caps depth array index r b)
  allDifferent (as : List Expr) : (∀ a ∈ as, IsOperand a) →
    Linearizes false (allDifferent caps depth as)
  reformulate (cs : List Expr) : (∀ c ∈ cs, c.isBool ∧ c.Proper Any) →
    Linearizes false (reformulate caps depth cs)

section

variable (ih : Shapes caps depth)

include ih

theorem constraint_yields (hcaps : caps.linear = []) (he : IsInput e) (hp : e.Proper Any) :
    Linearizes reified (constraint caps (depth + 1) reified e) := by
  cases e with
  | bool b => exact .decided
  | var x =>
    rw [constraint]
    split
    · exact .single ⟨by simp, ⟨by simp, by simp [IsReference]⟩, rfl⟩
    · exact .throw
  | negVar x => exact .single ⟨by simp, ⟨by simp, by simp [IsReference]⟩, rfl⟩
  | and as =>
    exact ih.comparison reified _ _ _ (.inr he)
      (Expr.proper_sum.2 (Expr.proper_and.1 hp).2) ⟨rfl, Expr.proper_int⟩
  | or as =>
    exact ih.comparison reified _ _ _ (.inr he)
      (Expr.proper_sum.2 (Expr.proper_or.1 hp).2) ⟨rfl, Expr.proper_int⟩
  | implies l a =>
    obtain ⟨-, hl, ha⟩ := Expr.proper_implies.1 hp
    rw [constraint]
    cases reified
    · exact ih.implication l a he hl ha
    · exact .throw
  | cmp r a b =>
    obtain ⟨ha, hb⟩ := Expr.proper_cmp.1 hp
    exact ih.comparison reified r a b he.1 ha ⟨he.2, hb⟩
  | constraint c =>
    unfold constraint
    dsimp only
    rw [if_neg (by simp [not_isLinear_constraint hcaps])]
    cases c with
    | allDifferent as =>
      cases reified
      · exact ih.allDifferent as fun a ha => ⟨he a ha, hp.arg ha⟩
      · exact .throw
    | _ => exact .throw
  | call d => exact absurd hp Expr.proper_call
  | int _ | not _ | sum _ | wsum _ | sub _ _ | mul _ _ | neg _ | function _ => exact .throw

omit ih in
theorem nonlinear?_eq {g : Function Expr} (h : nonlinear? caps a = some (g, r, b)) :
    a = .cmp r (.function g) b := by
  unfold nonlinear? at h
  split at h
  · split at h <;> cases h
    rfl
  · cases h

theorem implication_yields {l : Expr} (ha : IsInputTruth a) (hpl : l.Proper Any) (hpa : a.Proper Any) :
    Linearizes false (implication caps (depth + 1) l a) := by
  rw [implication]
  split
  · exact .throw
  · rename_i hl
    have hl : l.isLiteral := by simpa using hl
    split
    · rename_i hal
      have hlb := Expr.isBool_of_isLiteral hl
      refine ih.constraint false (.or [l.negated, a]) ?_ (Expr.proper_or.2 ⟨?_, ?_⟩)
      · have := Expr.isSimple_of_isLiteral (Expr.isLiteral_negated hl hpl)
        simpa [IsInput, IsInputTruth, Expr.args] using ⟨this, Expr.isSimple_of_isLiteral hal⟩
      · simpa using ⟨Expr.isBool_negated hlb hpl, Expr.isBool_of_isLiteral hal⟩
      · simpa using ⟨Expr.proper_negated hlb hpl, hpa⟩
    · split
      · rename_i g r b hg
        have := nonlinear?_eq hg
        subst this
        obtain ⟨hpg, hpb⟩ := Expr.proper_cmp.1 hpa
        have hargs : ∀ x ∈ g.args, x.isSimple := ha.1.resolve_left (by simp [Expr.isBool])
        refine .bind (.lift (function_decompose_proper hargs ha.2 hpa).relax) fun d hd => ?_
        refine ih.reformulate _ (List.forall_mem_cons.2 ⟨⟨rfl, Expr.proper_implies.2 ?_⟩, ?_⟩)
        · have hc : ∀ e ∈ d.constraining, e.isBool ∧ e.Proper Any :=
            fun e he => hd e (List.mem_append_left _ he)
          exact ⟨⟨Expr.isBool_of_isLiteral hl, Expr.isBool_all fun e he => (hc e he).1⟩, hpl,
            Expr.proper_all (fun e he => (hc e he).1) fun e he => (hc e he).2⟩
        · exact fun e he => hd e (List.mem_append_right _ he)
      · exact ih.guarded l a hl ha hpl hpa

theorem guarded_yields {l : Expr} (hl : l.isLiteral) (ha : IsInputTruth a) (hpl : l.Proper Any)
    (hpa : a.Proper Any) : Linearizes false (guarded caps (depth + 1) l a) := by
  rw [guarded]
  refine (ih.constraint true a ha.isInput hpa).bind fun es hes => ?_
  split
  · have hlb := Expr.isBool_of_isLiteral hl
    exact ih.constraint false _ (isInputTruth_of_isLiteral (Expr.isLiteral_negated hl hpl)).isInput
      (Expr.proper_negated hlb hpl)
  · rename_i hf
    refine .pure (List.forall_mem_map.2 fun e he => ⟨⟨⟨hl, Expr.isReference_of_isLiteral hl⟩, ?_⟩, by simp⟩)
    refine ((hes e he).unguarded rfl).resolve_left ?_
    rintro rfl
    exact hf (by simpa using he)

theorem comparison_yields (hcaps : caps.linear = []) (ha : IsInputSide a) (hpa : a.Proper Any)
    (hb : IsOperand b) :
    Linearizes reified (comparison caps (depth + 1) reified r a b) := by
  unfold comparison
  split
  · exact .decided
  · rename_i hc _
    exact ih.comparison _ _ _ _ (isInputSide_of_isSimple hb.1) hb.2
      ⟨Flat.isSimple_of_isConstant (by simp [Expr.isConstant, hc]), hpa⟩
  · rename_i hc
    split
    · rename_i hl
      simp only [Bool.and_eq_true, decide_eq_true_eq] at hl
      refine .single ⟨by simp, ⟨by simp, ?_⟩, rfl⟩
      simpa using And.intro (Expr.isReference_of_isLiteral hl.1.2) (Expr.isReference_of_isLiteral hl.2)
    · have reference {a : Expr} (hpa : a.Proper Any) (hr : a.IsReference) : Linearizes reified (if b.isConstant then
          relation caps depth reified r a b else sum caps depth reified r [(1, a)] b) := by
        split
        · exact ih.relation _ _ _ _ (Expr.IsReference.isLinearSide hr) hpa ‹_›
        · exact ih.sum _ _ _ _ (by simpa using ⟨Expr.IsReference.isSimple hr, hpa⟩) hb
      split
      · exact reference hpa trivial
      · exact reference hpa trivial
      · rename_i g
        rw [if_neg (by simp [not_isLinear_function hcaps])]
        exact ih.functionComparison _ _ _ _ (ha.resolve_left (by simp [Expr.isBool])) hpa hb
      · split
        · exact ih.sum _ _ _ _ (ha.terms hpa ‹_›) hb
        · split
          · rename_i hm
            rw [Bool.and_eq_true] at hm
            exact absurd hm.2 (by simp [not_isLinear_product hcaps hm.1])
          · exact .throw

theorem sum_yields (hts : ∀ t ∈ ts, IsOperand t.2) (hb : IsOperand b) :
    Linearizes reified (sum caps (depth + 1) reified r ts b) := by
  rw [sum]
  refine .bind (.checked (Q := fun p => balance ts b = .ok p) fun _ h => h) fun p hp => ?_
  obtain ⟨kept, k⟩ := p
  dsimp only
  split
  · exact Linearizes.decided
  · rename_i hne
    exact ih.relation _ _ _ _
      (isLinearSide_ofTerms (by simpa using hne) (forall_balance_isReference hp (fun t ht => (hts t ht).1) hb.1))
      (proper_ofTerms (forall_balance hp (fun t ht => (hts t ht).2) hb.2)) rfl

theorem relation_yields (ha : a.IsLinearSide IsReference) (hpa : a.Proper Any) (hb : b.isConstant) :
    Linearizes reified (relation caps (depth + 1) reified r a b) := by
  cases r with
  | eq | le | ge =>
    rw [relation]
    exact .single ⟨by simp, ha, hb⟩
  | lt | gt =>
    rw [relation]
    exact ih.strict _ _ _ _ _ ha hpa hb
  | ne =>
    rw [relation]
    split
    · exact ih.bigM _ _ _ ha hb
    · rename_i hr
      have hr : reified = false := by simp_all
      subst hr
      have hcmp (s : Relation) : IsInputTruth (.cmp s a b) ∧ (Expr.cmp s a b).Proper Any :=
        ⟨⟨isInputSide_of_isLinearSide ha, Flat.isSimple_of_isConstant hb⟩,
          Expr.proper_cmp.2 ⟨hpa, proper_of_isConstant hb⟩⟩
      refine .bind (.lift .freshBool) fun z hz => ?_
      obtain ⟨x, rfl, hx⟩ := hz
      refine (ih.implication _ _ (hcmp .lt).1 (Expr.proper_var.2 trivial) (hcmp .lt).2).bind fun es hes => ?_
      refine (ih.implication _ _ (hcmp .gt).1 ?_ (hcmp .gt).2).bind fun fs hfs =>
        .pure (List.forall_mem_append.2 ⟨hes, hfs⟩)
      rw [Expr.negated_var hx]
      exact Expr.proper_negVar.2 ⟨hx, trivial⟩

theorem strict_yields {delta : Int} (ha : a.IsLinearSide IsReference) (hpa : a.Proper Any)
    (hb : b.isConstant) : Linearizes reified (strict caps (depth + 1) reified r delta a b) := by
  rw [strict]
  split
  · refine .bind (.checked fun _ _ => trivial) fun k _ => ?_
    exact ih.comparison _ _ _ _ (isInputSide_of_isLinearSide ha) hpa ⟨rfl, Expr.proper_int⟩
  · rename_i hc
    exact absurd hb (by simp [Expr.isConstant, hc])

omit ih in
theorem termsOf_yields {strict : Prop} (hd : strict → 0 < depth) (ha : a.IsLinearSide IsReference) :
    (termsOf caps depth a).Yields strict (IsLinear IsReference) fun p =>
      (∀ t ∈ p.1, t.2.IsReference) ∧ p.2 = [] := by
  cases depth with
  | zero => exact .throw fun h => absurd (hd h) (Nat.lt_irrefl 0)
  | succ depth =>
    rw [termsOf]
    cases a with
    | var _ | negVar _ => exact .pure ⟨by simp [IsReference], rfl⟩
    | sum as => exact .pure ⟨by simpa using ha.2, rfl⟩
    | wsum ts => exact .pure ⟨ha.2, rfl⟩
    | _ => cases ha

omit ih in
theorem bigM_yields {strict : Prop} (hd : strict → 0 < depth) (ha : a.IsLinearSide IsReference)
    (hb : b.isConstant) : (bigM caps (depth + 1) a b).Yields strict (IsLinear IsReference)
      fun es => ∀ e ∈ es, Stands reified e := by
  rw [bigM]
  refine (termsOf_yields hd ha).bind fun p hp => ?_
  obtain ⟨ts, definition⟩ := p
  obtain ⟨hts, rfl⟩ := hp
  obtain ⟨k, hk⟩ := Option.isSome_iff_exists.1 hb
  simp only [subtract, hk]
  refine .bind (.checked fun _ _ => trivial) fun range _ => .bind (.lift .freshBool) fun z hz => ?_
  refine .bind (.checked (Q := fun es => separated ts k z range = .ok es) fun _ h => h) fun es hes => ?_
  obtain ⟨m, -, rfl⟩ := separated_eq_ok hes
  obtain ⟨x, rfl, -⟩ := hz
  have hside : (Expr.wsum (ts ++ [(-m, .var x)])).IsLinearSide IsReference :=
    ⟨by simp, List.forall_mem_append.2 ⟨hts, by simp [IsReference]⟩⟩
  refine .pure ?_
  simp only [List.nil_append, List.forall_mem_cons]
  exact ⟨stands_of_isLinearComparison ⟨by simp, hside, rfl⟩,
    stands_of_isLinearComparison ⟨by simp, hside, rfl⟩, List.forall_mem_nil _⟩

theorem functionComparison_yields {g : Function Expr} (hs : ∀ a ∈ g.args, a.isSimple)
    (hp : (Expr.function g).Proper Any) (hb : IsOperand b) :
    Linearizes reified (functionComparison caps (depth + 1) reified g r b) := by
  have decompose (h : IsInputSide (.function g)) :
      Linearizes false (liftM (g.decompose r b) >>= fun d => reformulate caps depth d.toList) :=
    .bind (.lift (function_decompose_proper hs hb.1 (Expr.proper_cmp.2 ⟨hp, hb.2⟩)).relax)
      fun d hd => ih.reformulate _ hd
  unfold functionComparison
  cases reified
  · cases g with
    | element array index =>
      exact ih.element array index r b
        (fun a ha => ⟨hs a (List.mem_append_left _ ha), hp.arg (List.mem_append_left _ ha)⟩)
        ⟨hs index (by simp [Function.args]), hp.arg (by simp [Expr.args, Function.args])⟩ hb
    | _ => exact decompose (.inr hs)
  · exact .throw

theorem element_yields {array : List Expr} {index : Expr} (ha : ∀ a ∈ array, IsOperand a)
    (hi : IsOperand index) (hb : IsOperand b) :
    Linearizes false (element caps (depth + 1) array index r b) := by
  rw [element]
  refine .bind (.lift (.freshBools _)) fun is his => ?_
  have hvar : ∀ i ∈ is, IsOperand i ∧ i.isLiteral := by
    intro i hi
    obtain ⟨x, rfl, hx⟩ := his.2 i hi
    exact ⟨⟨rfl, Expr.proper_var.2 trivial⟩, hx⟩
  refine (ih.comparison false .eq (.sum is) (.int 1) (.inr fun i hi => (hvar i hi).1.1)
    (Expr.proper_sum.2 fun i hi => (hvar i hi).1.2) ⟨rfl, Expr.proper_int⟩).bind fun one hone => ?_
  refine (ih.comparison false .eq (positions is) index (.inr ?_) (Expr.proper_wsum.2 ?_) hi).bind
    fun position hpos => ?_
  · exact List.forall_mem_map.2 fun p hp => (hvar _ (mem_of_indexed hp)).1.1
  · exact fun p hp => (hvar _ (mem_of_indexed hp)).1.2
  refine (Yields.forall_mapM (Q := fun es => ∀ e ∈ es, Stands false e) fun p hp => ?_).bind
    fun entries hentries => .pure ?_
  · obtain ⟨hl, hx⟩ := List.of_mem_zip hp
    exact ih.implication _ _ ⟨isInputSide_of_isSimple (ha _ hx).1, hb.1⟩ (hvar _ hl).1.2
      (Expr.proper_cmp.2 ⟨(ha _ hx).2, hb.2⟩)
  · simp only [List.forall_mem_append]
    exact ⟨⟨hone, hpos⟩, List.forall_mem_flatten.2 hentries⟩

omit ih in
theorem mem_of_mem_columns {n : Nat} {rows : List (List Expr)} :
    ∀ column ∈ columns n rows, ∀ a ∈ column, ∃ row ∈ rows, a ∈ row := by
  induction rows with
  | nil =>
    intro column hc a ha
    rw [columns, List.foldr_nil, List.mem_replicate] at hc
    rw [hc.2] at ha
    cases ha
  | cons row rows ih =>
    intro column hc a ha
    change column ∈ List.zipWith List.cons row (columns n rows) at hc
    obtain ⟨i, hi, rfl⟩ := List.getElem_of_mem hc
    rw [List.getElem_zipWith, List.mem_cons] at ha
    rcases ha with rfl | ha
    · exact ⟨row, List.mem_cons_self .., List.getElem_mem _⟩
    · obtain ⟨row', hrow, ha⟩ := ih _ (List.getElem_mem _) a ha
      exact ⟨row', List.mem_cons_of_mem _ hrow, ha⟩

theorem allDifferent_yields {as : List Expr} (ha : ∀ a ∈ as, IsOperand a) :
    Linearizes false (allDifferent caps (depth + 1) as) := by
  rw [allDifferent]
  refine (Yields.forall_mapM (Q := fun _ => True) fun a _ => .checked fun _ _ => trivial).bind
    fun bounds _ => ?_
  split
  · exact .pure (by simp)
  · rename_i hull _
    refine (Yields.forall_mapM (Q := fun row => ∀ i ∈ row, IsOperand i) fun a _ =>
      (Yields.lift (.freshBools _)).imp fun row hrow i hi => ?_).bind fun rows hrows => ?_
    · obtain ⟨x, rfl, -⟩ := hrow.2 i hi
      exact ⟨rfl, Expr.proper_var.2 trivial⟩
    have hsum {is : List Expr} (s : Relation) (his : ∀ i ∈ is, IsOperand i) :
        Linearizes false (comparison caps depth false s (.sum is) (.int 1)) :=
      ih.comparison false s (.sum is) (.int 1) (.inr fun i hi => (his i hi).1)
        (Expr.proper_sum.2 fun i hi => (his i hi).2) ⟨rfl, Expr.proper_int⟩
    refine (Yields.forall_mapM (Q := fun es => ∀ e ∈ es, Stands false e) fun p hp => ?_).bind
      fun assigned hassigned => (Yields.forall_mapM (Q := fun es => ∀ e ∈ es, Stands false e)
        fun column hc => hsum .le fun i hi => ?_).bind fun taken htaken => .pure ?_
    · obtain ⟨hpa, hpr⟩ := List.of_mem_zip hp
      have hrow := hrows _ hpr
      refine (hsum .eq hrow).bind fun one hone => ?_
      refine (ih.comparison false .eq (valueOf hull.values p.2) p.1 (.inr ?_) (Expr.proper_wsum.2 ?_)
        (ha _ hpa)).bind fun es hes => .pure (List.forall_mem_append.2 ⟨hone, hes⟩)
      · exact List.forall_mem_map.2 fun t ht => (hrow _ (List.of_mem_zip ht).2).1
      · exact fun t ht => (hrow _ (List.of_mem_zip ht).2).2
    · obtain ⟨row, hrow, hi⟩ := mem_of_mem_columns column hc i hi
      exact hrows row hrow i hi
    · exact List.forall_mem_append.2
        ⟨List.forall_mem_flatten.2 hassigned, List.forall_mem_flatten.2 htaken⟩

theorem reformulate_yields {cs : List Expr} (h : ∀ c ∈ cs, c.isBool ∧ c.Proper Any) :
    Linearizes false (reformulate caps (depth + 1) cs) := by
  rw [reformulate]
  refine .bind (.lift (flatten_yields_isFlat h).relax) fun fs hfs => ?_
  refine .bind (.lift (splitReifications_yields hfs).relax) fun es hes => ?_
  refine (Yields.forall_mapM (Q := fun gs => ∀ g ∈ gs, Stands false g) fun e he => ?_).bind
    fun parts hparts => .pure (List.forall_mem_flatten.2 hparts)
  exact ih.constraint false e (hes e he).1 (hes e he).2

end

theorem shapes (hcaps : caps.linear = []) (depth : Nat) : Shapes caps depth := by
  induction depth with
  | zero => constructor <;> intros <;> exact .throw
  | succ depth ih =>
    exact {
      constraint := fun _ _ => constraint_yields ih hcaps
      implication := fun _ _ => implication_yields ih
      guarded := fun _ _ => guarded_yields ih
      comparison := fun _ _ _ _ => comparison_yields ih hcaps
      sum := fun _ _ _ _ => sum_yields ih
      relation := fun _ _ _ _ => relation_yields ih
      strict := fun _ _ _ _ _ => strict_yields ih
      bigM := fun _ _ _ => bigM_yields (by simp)
      functionComparison := fun _ _ _ _ => functionComparison_yields ih
      element := fun _ _ _ _ => element_yields ih
      allDifferent := fun _ => allDifferent_yields ih
      reformulate := fun _ => reformulate_yields ih }

end Linear

theorem linearize_yields {caps : Capabilities} {cs : List Expr} (hcaps : caps.linear = [])
    (h : ∀ c ∈ cs, Linear.IsInput c ∧ c.Proper Flat.Any) :
    (linearize caps cs).Yields False fun es => ∀ e ∈ es, e.IsLinear Expr.IsReference := by
  refine (Lowering.Yields.forall_mapM (Q := fun es => ∀ e ∈ es, e.IsLinear Expr.IsReference)
    fun c hc => ?_).bind fun parts hparts => .pure (List.forall_mem_flatten.2 hparts)
  refine ((Linear.shapes hcaps _).constraint false c (h c hc).1 (h c hc).2).collect.bind
    fun p hp => .pure ?_
  exact List.forall_mem_append.2 ⟨fun e he => (hp.1 e he).isLinear, hp.2⟩

end ConstraintModel
