import ConstraintModel.Proofs.Linearizable
import ConstraintModel.Proofs.FlatShape

namespace ConstraintModel

namespace Expr

def ProductFree (e : Expr) : Prop := e.Everywhere fun a => ∀ x y, a ≠ mul x y

variable {e a b : Expr} {as : List Expr}

theorem productFree_iff :
    e.ProductFree ↔ (∀ x y, e ≠ mul x y) ∧ ∀ a ∈ e.args, a.ProductFree := everywhere_iff

theorem productFree_of_isSimple (h : e.isSimple) : e.ProductFree := by
  refine productFree_iff.2 ⟨?_, by simp [args_of_isSimple h]⟩
  rintro x y rfl
  cases h

theorem productFree_of_args (he : ∀ x y, e ≠ mul x y) (h : ∀ a ∈ e.args, a.isSimple) :
    e.ProductFree := productFree_iff.2 ⟨he, fun a ha => productFree_of_isSimple (h a ha)⟩

theorem ProductFree.negated (h : e.ProductFree) : e.negated.ProductFree := by
  have wrap {a : Expr} (ha : a.ProductFree) : (Expr.not a).ProductFree :=
    productFree_iff.2 ⟨by simp, by simpa [args] using ha⟩
  induction e using induction_args with
  | h e ih =>
    replace ih := fun a ha => ih a ha (h.arg ha)
    cases e with
    | and as =>
      rw [negated_and]
      exact productFree_iff.2 ⟨by simp, List.forall_mem_map.2 ih⟩
    | or as =>
      rw [negated_or]
      exact productFree_iff.2 ⟨by simp, List.forall_mem_map.2 ih⟩
    | implies a b =>
      rw [negated_implies]
      exact productFree_iff.2 ⟨by simp, by simpa [args] using ⟨h.arg (by simp [args]), ih b (by simp [args])⟩⟩
    | bool _ => rw [negated_bool]; exact productFree_of_isSimple rfl
    | negVar _ => rw [negated_negVar]; exact productFree_of_isSimple rfl
    | not _ => rw [negated_not]; exact h.arg (by simp [args])
    | cmp r a b => rw [negated_cmp]; exact productFree_iff.2 ⟨by simp, fun a ha => h.arg ha⟩
    | var x =>
      rw [Expr.negated]
      split
      · exact productFree_of_isSimple rfl
      · exact wrap h
    | int _ | sum _ | wsum _ | sub _ _ | mul _ _ | neg _ | constraint _ | function _ | call _ =>
      rw [Expr.negated] <;> first | exact wrap h | simp

theorem productFree_all (h : ∀ a ∈ as, a.ProductFree) : (all as).ProductFree := by
  match as with
  | [] => exact productFree_of_isSimple rfl
  | [a] => exact h a (List.mem_singleton_self a)
  | a :: b :: as => exact productFree_iff.2 ⟨by simp [all], h⟩

theorem productFree_any (h : ∀ a ∈ as, a.ProductFree) : (any as).ProductFree := by
  match as with
  | [] => exact productFree_of_isSimple rfl
  | [a] => exact h a (List.mem_singleton_self a)
  | a :: b :: as => exact productFree_iff.2 ⟨by simp [any], h⟩

theorem ProductFree.conjuncts (h : e.ProductFree) : ∀ c ∈ e.conjuncts, c.ProductFree := by
  induction e using Expr.induction_args with
  | h e ih =>
    intro c hc
    by_cases ht : e = .bool true
    · simp [ht] at hc
    · by_cases ha : ∃ as, e = .and as
      · obtain ⟨as, rfl⟩ := ha
        rw [conjuncts_and, List.mem_flatMap] at hc
        obtain ⟨a, ha, hc⟩ := hc
        exact ih a ha (h.arg ha) c hc
      · rwa [(mem_conjuncts_self ht fun as has => ha ⟨as, has⟩).1 hc]

end Expr

namespace Flat

open ConstraintModel.Expr (ProductFree Linearizable)
open Defining (Yields)

variable {e a b l : Expr} {r : Relation}

theorem productFree_compare (ha : a.ProductFree) (hb : b.ProductFree) :
    (compare r a b).ProductFree := by
  have cmp {r : Relation} {a b : Expr} (ha : a.ProductFree) (hb : b.ProductFree) :
      (Expr.cmp r a b).ProductFree :=
    Expr.productFree_iff.2 ⟨by simp, by simpa [Expr.args] using ⟨ha, hb⟩⟩
  unfold compare
  split
  · exact Expr.productFree_of_isSimple rfl
  · exact cmp hb ha
  · exact cmp ha hb

theorem productFree_equate (he : e.ProductFree) (hl : l.ProductFree) : (equate e l).ProductFree := by
  unfold equate
  split
  · exact hl
  · exact hl.negated
  · exact Expr.productFree_iff.2 ⟨by simp, by simpa [Expr.args] using ⟨he, hl⟩⟩

theorem isSimple_toBool (h : e.isSimple) : (toBool e).isSimple := by
  unfold toBool
  split
  · rfl
  · exact h

theorem isSimple_toInt (h : e.isSimple) : (toInt e).isSimple := by
  unfold toInt
  split
  · rfl
  · exact h

theorem liftBool_productFree (he : e.ProductFree) :
    (liftBool e).Yields False ProductFree fun x => x.isSimple := by
  unfold liftBool
  split
  · exact .pure ‹_›
  · refine (Yields.lift Lowering.Yields.freshBool).bind ?_
    rintro _ ⟨x, rfl, -⟩
    refine (Yields.define (Expr.productFree_iff.2 ⟨by simp, ?_⟩)).bind fun _ _ => .pure rfl
    simpa [Expr.args] using ⟨he, Expr.productFree_of_isSimple rfl⟩

theorem liftInt_productFree (he : e.ProductFree) :
    (liftInt e).Yields False ProductFree fun x => x.isSimple := by
  unfold liftInt
  split
  · exact .pure ‹_›
  · refine (Yields.checked fun _ _ => trivial).bind fun b _ => (Yields.lift (.freshInt b)).bind ?_
    rintro _ ⟨x, rfl, -⟩
    refine (Yields.define (Expr.productFree_iff.2 ⟨by simp, ?_⟩)).bind fun _ _ => .pure rfl
    simpa [Expr.args] using ⟨he, Expr.productFree_of_isSimple rfl⟩

theorem gather_isSimple {absorbing : Bool} {literal : Expr → Defining Expr} {as : List Expr}
    (h : ∀ a ∈ as, (literal a).Yields False ProductFree fun x => x.isSimple) :
    (gather absorbing literal as).Yields False ProductFree fun ls? =>
      ∀ ls, ls? = some ls → ∀ l ∈ ls, l.isSimple := by
  induction as with
  | nil => exact .pure (by simp)
  | cons a as ih =>
    replace ih := ih fun a ha => h a (List.mem_cons_of_mem _ ha)
    rw [gather]
    refine (h a (List.mem_cons_self ..)).bind fun l hl => ?_
    split
    · split
      · exact .pure (by simp)
      · exact ih
    · refine ih.bind fun ls? hls => .pure fun ls hsome => ?_
      obtain ⟨ls', rfl, rfl⟩ := Option.map_eq_some_iff.1 hsome
      exact List.forall_mem_cons.2 ⟨hl, hls ls' rfl⟩

def IsSimpleForm (f : Affine) : Prop := ∀ t ∈ f.terms.toList, t.2.isSimple

theorem IsSimpleForm.addMultiple {f g : Affine} {w : Int} (hf : IsSimpleForm f) (he : e.isSimple)
    (h : f.addMultiple w e = .ok g) : IsSimpleForm g := by
  intro t ht
  rcases mem_of_addMultiple h t ht with ht | ⟨rfl, -⟩
  · exact hf t ht
  · exact he

theorem IsSimpleForm.toExpr {f : Affine} (hf : IsSimpleForm f) : f.toExpr.ProductFree := by
  have hterms : ∀ u ∈ f.terms.toList ++ (if f.constant = 0 then [] else [(1, .int f.constant)]),
      u.2.isSimple := by
    refine List.forall_mem_append.2 ⟨hf, ?_⟩
    split
    · simp
    · simp [Expr.isSimple]
  unfold Affine.toExpr
  dsimp only
  generalize f.terms.toList ++ (if f.constant = 0 then [] else [(1, .int f.constant)]) = us at hterms
  split
  · exact Expr.productFree_of_isSimple rfl
  · split
    · split
      · exact Expr.productFree_of_isSimple (hterms (_, _) (List.mem_singleton_self _))
      · exact Expr.productFree_of_args (by simp) (List.forall_mem_map.2 hterms)
    · exact Expr.productFree_of_args (by simp) (List.forall_mem_map.2 hterms)

structure ProductsResolved (depth : Nat) : Prop where
  constraint (e : Expr) : e.Linearizable →
    (constraint depth e).Yields False ProductFree fun es => ∀ f ∈ es, f.ProductFree
  truth (e : Expr) : e.Linearizable → (truth depth e).Yields False ProductFree ProductFree
  literals (absorbing : Bool) (as : List Expr) : (∀ a ∈ as, a.Linearizable) →
    (literals depth absorbing as).Yields False ProductFree fun ls? =>
      ∀ ls, ls? = some ls → ∀ l ∈ ls, l.isSimple
  literal (e : Expr) : e.Linearizable →
    (literal depth e).Yields False ProductFree fun x => x.isSimple
  comparison (reified : Bool) (r : Relation) (a b : Expr) : a.Linearizable → b.Linearizable →
    (comparison depth reified r a b).Yields False ProductFree ProductFree
  reification (reified : Bool) (r : Relation) (a b : Expr) : a.Linearizable → b.Linearizable →
    (reification depth reified r a b).Yields False ProductFree ProductFree
  side (e : Expr) : e.Linearizable → (side depth e).Yields False ProductFree ProductFree
  affine (e : Expr) : e.Linearizable → (affine depth e).Yields False ProductFree ProductFree
  addTo (f : Affine) (w : Int) (e : Expr) : IsSimpleForm f → e.Linearizable →
    (addTo depth f w e).Yields False ProductFree IsSimpleForm
  operand (e : Expr) : e.Linearizable →
    (operand depth e).Yields False ProductFree fun x => x.isSimple

section

variable {depth : Nat} (ih : ProductsResolved depth)

include ih

theorem operand_isSimple (he : e.Linearizable) :
    (operand (depth + 1) e).Yields False ProductFree fun x => x.isSimple := by
  rw [operand]
  split
  · exact .pure ‹_›
  · split
    · exact (ih.truth e he).bind fun f hf => liftBool_productFree hf
    · exact (ih.side e he).bind fun f hf => liftInt_productFree hf

theorem constraint_operands_productFree {c : Constraint Expr} (he : (Expr.constraint c).Linearizable) :
    (c.mapM (operand depth)).Yields False ProductFree fun d => (Expr.constraint d).ProductFree := by
  refine (Yields.constraint (R := fun _ x => x.isSimple) fun a ha => ih.operand a (he.arg ha)).imp
    fun d hd => Expr.productFree_of_args (by simp) fun b hb => ?_
  obtain ⟨_, -, h⟩ := forall₂_mem_right hd.args hb
  exact h

theorem function_operands_productFree {g : Function Expr} (he : (Expr.function g).Linearizable) :
    (g.mapM (operand depth)).Yields False ProductFree fun k => (Expr.function k).ProductFree := by
  refine (Yields.function (R := fun _ x => x.isSimple) fun a ha => ih.operand a (he.arg ha)).imp
    fun d hd => Expr.productFree_of_args (by simp) fun b hb => ?_
  obtain ⟨_, -, h⟩ := forall₂_mem_right hd.args hb
  exact h

theorem constraint_productFree (he : e.Linearizable) :
    (constraint (depth + 1) e).Yields False ProductFree fun es => ∀ f ∈ es, f.ProductFree := by
  have simple (hs : e.isSimple) : ∀ f ∈ [e], f.ProductFree := by
    simpa using Expr.productFree_of_isSimple hs
  cases e with
  | bool b =>
    cases b
    · exact .pure (simple rfl)
    · exact .pure (by simp)
  | var x =>
    rw [constraint]
    split
    · exact .pure (simple rfl)
    · exact .throw False.elim
  | negVar x => exact .pure (simple rfl)
  | call d => exact absurd he.here id
  | and as =>
    rw [constraint]
    exact (Yields.forall_mapM (Q := fun es => ∀ f ∈ es, f.ProductFree) fun a ha =>
      ih.constraint a (he.arg ha)).bind fun ess hess => .pure (List.forall_mem_flatten.2 hess)
  | or as =>
    rw [constraint]
    refine (ih.literals true as fun a ha => he.arg ha).bind fun ls? hls => .pure ?_
    cases ls? with
    | none => simp
    | some ls =>
      simpa using Expr.productFree_any fun l hl => Expr.productFree_of_isSimple (hls ls rfl l hl)
  | implies a b =>
    rw [constraint]
    refine (ih.literal a (he.arg (by simp [Expr.args]))).bind fun l hl => ?_
    split
    · exact .pure (by simp)
    · exact ih.constraint b (he.arg (by simp [Expr.args]))
    · refine (ih.truth b (he.arg (by simp [Expr.args]))).bind fun f hf => ?_
      split
      · exact .pure (by simp)
      · exact .pure (by simpa using (Expr.productFree_of_isSimple hl).negated)
      · refine .pure (List.forall_mem_singleton.2 (Expr.productFree_iff.2 ⟨by simp, ?_⟩))
        simpa [Expr.args] using ⟨Expr.productFree_of_isSimple hl, hf⟩
  | not a =>
    rw [constraint]
    have ha : a.Linearizable := he.arg (by simp [Expr.args])
    split
    · exact (ih.literal a ha).bind fun l hl =>
        .pure (by simpa using (Expr.productFree_of_isSimple hl).negated)
    · exact ih.constraint _ (Expr.linearizable_negated ha)
  | cmp r a b =>
    rw [constraint]
    exact (ih.comparison false r a b (he.arg (by simp [Expr.args])) (he.arg (by simp [Expr.args]))).bind
      fun f hf => .pure hf.conjuncts
  | constraint c =>
    rw [constraint]
    exact (constraint_operands_productFree ih he).bind fun d hd => .pure (by simpa using hd)
  | int _ | sum _ | wsum _ | sub _ _ | mul _ _ | neg _ | function _ => exact .throw False.elim

theorem truth_productFree (he : e.Linearizable) :
    (truth (depth + 1) e).Yields False ProductFree ProductFree := by
  have literals {absorbing : Bool} {as : List Expr} (has : ∀ a ∈ as, a.Linearizable) {f : List Expr → Expr}
      {b : Expr} (hf : ∀ ls, (∀ l ∈ ls, l.ProductFree) → (f ls).ProductFree) (hb : b.ProductFree) :
      Defining.Yields False ProductFree (do
        return ((← literals depth absorbing as).map f).getD b) ProductFree := by
    refine (ih.literals absorbing as has).bind fun ls? hls => .pure ?_
    cases ls? with
    | none => exact hb
    | some ls => exact hf ls fun l hl => Expr.productFree_of_isSimple (hls ls rfl l hl)
  cases e with
  | bool _ | var _ | negVar _ => exact .pure (Expr.productFree_of_isSimple rfl)
  | call d => exact absurd he.here id
  | and as =>
    rw [truth]
    exact literals (fun a ha => he.arg ha) (fun _ => Expr.productFree_all) (Expr.productFree_of_isSimple rfl)
  | or as =>
    rw [truth]
    exact literals (fun a ha => he.arg ha) (fun _ => Expr.productFree_any) (Expr.productFree_of_isSimple rfl)
  | implies a b =>
    rw [truth]
    refine literals ?_ (fun _ => Expr.productFree_any) (Expr.productFree_of_isSimple rfl)
    obtain ⟨ha, hb⟩ := Expr.linearizable_implies.1 he
    simpa using ⟨Expr.linearizable_negated ha, hb⟩
  | not a =>
    rw [truth]
    have ha : a.Linearizable := he.arg (by simp [Expr.args])
    split
    · exact (ih.literal a ha).bind fun l hl => .pure (Expr.productFree_of_isSimple hl).negated
    · exact ih.truth _ (Expr.linearizable_negated ha)
  | cmp r a b =>
    rw [truth]
    exact ih.comparison true r a b (he.arg (by simp [Expr.args])) (he.arg (by simp [Expr.args]))
  | constraint c =>
    rw [truth]
    exact (constraint_operands_productFree ih he).bind fun d hd => .pure hd
  | int _ | sum _ | wsum _ | sub _ _ | mul _ _ | neg _ | function _ => exact .throw False.elim

theorem literals_isSimple {absorbing : Bool} {as : List Expr} (h : ∀ a ∈ as, a.Linearizable) :
    (literals (depth + 1) absorbing as).Yields False ProductFree fun ls? =>
      ∀ ls, ls? = some ls → ∀ l ∈ ls, l.isSimple := by
  rw [literals]
  split
  · exact .pure (by simp)
  · exact gather_isSimple fun a ha => ih.literal a (h a ha)

theorem literal_isSimple (he : e.Linearizable) :
    (literal (depth + 1) e).Yields False ProductFree fun x => x.isSimple := by
  rw [literal]
  exact (ih.operand e he).bind fun x hx => .pure (isSimple_toBool hx)

theorem equality_productFree {lift : Bool} (he : e.Linearizable) (hl : l.ProductFree) :
    (equality depth lift e l).Yields False ProductFree ProductFree := by
  unfold equality
  split
  · exact ih.truth _ he
  · exact ih.truth _ (Expr.linearizable_negated he)
  · refine (ih.truth _ he).bind fun f hf => ?_
    split
    · exact (liftBool_productFree hf).bind fun g hg =>
        .pure (productFree_equate (Expr.productFree_of_isSimple hg) hl)
    · exact Yields.bind (.pure hf) fun g hg => .pure (productFree_equate hg hl)

theorem reification_productFree {lift : Bool} (ha : a.Linearizable) (hb : b.Linearizable) :
    (reification (depth + 1) lift r a b).Yields False ProductFree ProductFree := by
  rw [reification_eq]
  have hpick : (reified depth a b).Yields False ProductFree fun p =>
      p.1.Linearizable ∧ p.2.isSimple := by
    unfold reified
    split
    · exact .pure ⟨hb, ‹_›⟩
    · split
      · exact .pure ⟨ha, ‹_›⟩
      · exact (ih.literal b hb).bind fun l hl => .pure ⟨ha, hl⟩
  refine hpick.bind fun p hp => equality_productFree ih hp.1 ?_
  have := Expr.productFree_of_isSimple hp.2
  split
  · exact this.negated
  · exact this

theorem sides_productFree {lift : Bool} (ha : a.Linearizable) (hb : b.Linearizable) :
    (sides depth lift (r, a, b)).Yields False ProductFree ProductFree := by
  have hfirst : (firstSide depth lift a).Yields False ProductFree ProductFree := by
    refine (Yields.checked fun _ _ => trivial).bind fun lifted _ => ?_
    split
    · exact (ih.operand a ha).imp fun _ ho => Expr.productFree_of_isSimple ho
    · exact ih.side a ha
  refine hfirst.bind fun a' ha' => (ih.operand b hb).bind fun b' hb' => .pure ?_
  exact productFree_compare ha' (Expr.productFree_of_isSimple (isSimple_toInt hb'))

theorem comparison_productFree {lift : Bool} (ha : a.Linearizable) (hb : b.Linearizable) :
    (comparison (depth + 1) lift r a b).Yields False ProductFree ProductFree := by
  rw [comparison_eq]
  split
  · exact .pure (Expr.productFree_of_isSimple rfl)
  · split
    · exact ih.reification lift r a b ha hb
    · unfold orient
      split
      · exact sides_productFree ih hb ha
      · exact sides_productFree ih ha hb

theorem affine_productFree (he : e.Linearizable) :
    (affine (depth + 1) e).Yields False ProductFree ProductFree := by
  rw [affine]
  exact (ih.addTo .zero 1 e (by simp [IsSimpleForm, Affine.zero]) he).bind fun f hf => .pure hf.toExpr

theorem addTo_isSimpleForm {f : Affine} {w : Int} (hf : IsSimpleForm f) (he : e.Linearizable) :
    (addTo (depth + 1) f w e).Yields False ProductFree IsSimpleForm := by
  have whole : Defining.Yields False ProductFree (do f.addMultiple w (← operand depth e)) IsSimpleForm :=
    (ih.operand e he).bind fun x hx => .checked fun g hg => hf.addMultiple hx hg
  cases e with
  | sum as =>
    rw [addTo]
    exact Yields.foldlM (fun a ha f hf => ih.addTo f w a hf (he.arg ha)) hf
  | wsum ts =>
    rw [addTo]
    refine Yields.foldlM (fun t ht f hf => ?_) hf
    exact (Yields.checked fun _ _ => trivial).bind fun v _ =>
      ih.addTo f v t.2 hf (he.arg (List.mem_map_of_mem ht))
  | neg a =>
    rw [addTo]
    exact (Yields.checked fun _ _ => trivial).bind fun v _ => ih.addTo f v a hf (he.arg (by simp [Expr.args]))
  | mul a b =>
    rw [addTo]
    split
    · exact (Yields.checked fun _ _ => trivial).bind fun v _ =>
        ih.addTo f v b hf (he.arg (by simp [Expr.args]))
    · exact (Yields.checked fun _ _ => trivial).bind fun v _ =>
        ih.addTo f v a hf (he.arg (by simp [Expr.args]))
    · exact whole
  | bool _ | int _ | var _ | negVar _ | and _ | or _ | implies _ _ | not _ | sub _ _ | cmp _ _ _
  | constraint _ | function _ | call _ =>
    rw [addTo] <;> first | exact whole | simp

theorem side_productFree (he : e.Linearizable) :
    (side (depth + 1) e).Yields False ProductFree ProductFree := by
  have whole : (operand depth e).Yields False ProductFree ProductFree :=
    (ih.operand e he).imp fun _ h => Expr.productFree_of_isSimple h
  cases e with
  | bool _ | int _ | var _ | negVar _ => exact .pure (Expr.productFree_of_isSimple rfl)
  | sum as | wsum ts | neg a =>
    rw [side]
    exact ih.affine _ he
  | mul a b =>
    rw [side, if_pos]
    · exact ih.affine _ he
    · simpa using (Expr.linearizable_mul.1 he).1
  | sub a b =>
    rw [side]
    refine (ih.operand a (he.arg (by simp [Expr.args]))).bind fun x hx =>
      (ih.operand b (he.arg (by simp [Expr.args]))).bind fun y hy => .pure ?_
    exact Expr.productFree_of_args (by simp) (by simpa [Expr.args] using ⟨hx, hy⟩)
  | function g =>
    rw [side]
    exact (function_operands_productFree ih he).bind fun k hk => .pure hk
  | and _ | or _ | implies _ _ | not _ | cmp _ _ _ | constraint _ | call _ =>
    rw [side]
    exact whole

end

theorem productsResolved (depth : Nat) : ProductsResolved depth := by
  induction depth with
  | zero => constructor <;> intros <;> exact .throw False.elim
  | succ depth ih => exact {
      constraint := fun _ => constraint_productFree ih
      truth := fun _ => truth_productFree ih
      literals := fun _ _ => literals_isSimple ih
      literal := fun _ => literal_isSimple ih
      comparison := fun _ _ _ _ => comparison_productFree ih
      reification := fun _ _ _ _ => reification_productFree ih
      side := fun _ => side_productFree ih
      affine := fun _ => affine_productFree ih
      addTo := fun _ _ _ => addTo_isSimpleForm ih
      operand := fun _ => operand_isSimple ih }

end Flat

theorem flatten_productFree {cs : List Expr} (h : ∀ c ∈ cs, c.Linearizable) :
    (flatten cs).Yields False fun fs => ∀ f ∈ fs, f.ProductFree := by
  refine (Lowering.Yields.forall_mapM (Q := fun fs => ∀ f ∈ fs, f.ProductFree) fun e he => ?_).bind
    fun parts hparts => .pure (List.forall_mem_flatten.2 hparts)
  obtain ⟨c, hc, he⟩ := List.mem_flatMap.1 he
  refine ((Flat.productsResolved _).constraint e
    (Supported.linearizable_conjuncts (h c hc) e he)).collect.bind fun p hp => .pure ?_
  exact List.forall_mem_append.2 hp

end ConstraintModel
