import ConstraintModel.Proofs.LinearShape
import ConstraintModel.Proofs.Primitive

namespace ConstraintModel

namespace Positive

open ConstraintModel.Expr (IsReference IsVariable IsLinear IsLinearSide IsLinearComparison)

variable {α β : Type}

def Sat (x : Replacing α) (v : Views) (σ : Store) (Q : α → Views → Store → Prop) : Prop :=
  (x.run v).Sat True σ fun p τ => Q p.1 p.2 τ

section

variable {x : Replacing α} {f : α → Replacing β} {v : Views} {σ : Store}
  {Q Q' : α → Views → Store → Prop} {R : β → Views → Store → Prop}

theorem Sat.pure {a : α} (h : Q a v σ) : Sat (pure a) v σ Q := Lowering.Sat.pure h

theorem Sat.bind (hx : Sat x v σ Q)
    (hf : ∀ a w τ, σ.Grows τ → Q a w τ → Sat (f a) w τ R) : Sat (x >>= f) v σ R :=
  Lowering.Sat.bind hx fun p τ hg hp => hf p.1 p.2 τ hg hp

theorem Sat.imp (hx : Sat x v σ Q) (h : ∀ a w τ, σ.Grows τ → Q a w τ → Q' a w τ) : Sat x v σ Q' :=
  Lowering.Sat.imp hx fun p τ hg hp => h p.1 p.2 τ hg hp

theorem Sat.lift {y : Lowering α} {P : α → Store → Prop} (hy : y.Sat True σ P) :
    Sat (liftM y : Replacing α) v σ fun a w τ => w = v ∧ P a τ :=
  hy.bind fun _ _ _ ha => .pure ⟨rfl, ha⟩

theorem Sat.checked {c : Checked α} (h : ∀ a, c = .ok a → Q a v σ) :
    Sat (liftM c : Replacing α) v σ Q := by
  cases c with
  | error e => exact fun _ => rfl
  | ok a => exact Sat.pure (h a rfl)

theorem Sat.get {Q : Views → Views → Store → Prop} (h : Q v v σ) : Sat get v σ Q := Lowering.Sat.pure h

theorem Sat.modify {g : Views → Views} {Q : PUnit → Views → Store → Prop} (h : Q ⟨⟩ (g v) σ) :
    Sat (modify g) v σ Q := Lowering.Sat.pure h

end

def Replaced (v : Views) : Prop := ∀ p ∈ v, ∃ y : Variable, p.2 = .var y ∧ y.isBool

def Yields (x : Replacing α) (Q : α → Prop) : Prop :=
  ∀ v σ, Replaced v → Sat x v σ fun a w _ => Replaced w ∧ Q a

section

variable {x : Replacing α} {f : α → Replacing β} {Q Q' : α → Prop} {R : β → Prop}

theorem Yields.pure {a : α} (h : Q a) : Yields (pure a) Q := fun _ _ hv => Sat.pure ⟨hv, h⟩

theorem Yields.bind (hx : Yields x Q) (hf : ∀ a, Q a → Yields (f a) R) : Yields (x >>= f) R :=
  fun v σ hv => (hx v σ hv).bind fun a w τ _ ha => hf a ha.2 w τ ha.1

theorem Yields.imp (hx : Yields x Q) (h : ∀ a, Q a → Q' a) : Yields x Q' :=
  fun v σ hv => (hx v σ hv).imp fun a _ _ _ ha => ⟨ha.1, h a ha.2⟩

theorem Yields.checked {c : Checked α} (h : ∀ a, c = .ok a → Q a) :
    Yields (liftM c : Replacing α) Q := fun _ _ hv => Sat.checked fun a ha => ⟨hv, h a ha⟩

def yields : Calculus Replacing Unit where
  le _ _ := True
  sat x _ Q := Yields x fun a => Q a ()
  refl _ := trivial
  trans _ _ := trivial
  pure h := Yields.pure h
  bind hx hf := Yields.bind hx fun a ha => hf a () trivial ha
  imp hx h := hx.imp fun a ha => h a () trivial ha

theorem Yields.mapM {f : α → Replacing β} {R : α → β → Prop} {as : List α}
    (h : ∀ a ∈ as, Yields (f a) (R a)) : Yields (as.mapM f) (List.Forall₂ R as) :=
  yields.mapM (i := ()) (R := fun _ => R) (fun _ _ _ _ _ h => h) fun a ha _ _ => h a ha

end

section

variable {e a b : Expr} {as : List Expr} {ts us : List (Int × Expr)} {r : Relation}

theorem positive_yields (e : Expr) : Yields (positive e) fun e' =>
    (e.IsReference → e'.IsVariable) ∧ (e.isLiteral → e'.isLiteral) ∧ (isView e = false → e' = e) := by
  unfold positive
  split
  · rename_i x
    have replaced {y : Expr} (hy : ∃ z : Variable, y = .var z ∧ z.isBool) :
        ((Expr.negVar x).IsReference → y.IsVariable) ∧ ((Expr.negVar x).isLiteral → y.isLiteral) ∧
          (isView (.negVar x) = false → y = .negVar x) := by
      obtain ⟨z, rfl, hz⟩ := hy
      exact ⟨fun _ => trivial, fun _ => hz, nofun⟩
    intro v σ hv
    refine (Sat.get (Q := fun u w _ => u = v ∧ w = v) ⟨rfl, rfl⟩).bind ?_
    rintro _ _ τ - ⟨rfl, rfl⟩
    split
    · rename_i y hy
      obtain ⟨l₁, l₂, rfl, -⟩ := List.lookup_eq_some_iff.1 hy
      exact Sat.pure ⟨hv, replaced (hv (x, y) (by simp))⟩
    · refine (Sat.lift (Lowering.Yields.freshBool τ)).bind ?_
      rintro y _ υ - ⟨rfl, hy⟩
      refine (Sat.modify (Q := fun _ w _ => Replaced w) ?_).bind fun _ w _ _ hw =>
        Sat.pure ⟨hw, replaced hy⟩
      exact List.forall_mem_append.2 ⟨hv, by simpa using hy⟩
  · rename_i hview
    refine .pure ⟨fun h => ?_, id, fun _ => rfl⟩
    cases e with
    | var _ => trivial
    | negVar x => exact absurd rfl (hview x)
    | _ => cases h

def straight : Int × Expr → Int × Expr
  | (w, .negVar x) => (-w, .var x)
  | t => t

theorem straighten_eq_ok {offset : Int} (h : straighten ts = .ok (us, offset)) :
    us = ts.map straight ∧ offset = ((ts.filter fun t => isView t.2).map Prod.fst).sum := by
  obtain ⟨vs, hvs, h⟩ := Checked.bind_eq_ok.1 h
  obtain ⟨n, hn, h⟩ := Checked.bind_eq_ok.1 h
  cases h
  refine ⟨Checked.mapM_eq_map (fun t _ u hu => ?_) hvs, Checked.ok_of_sum hn⟩
  obtain ⟨w, a⟩ := t
  cases a with
  | negVar x =>
    obtain ⟨n, hn, hu⟩ := Checked.bind_eq_ok.1 hu
    cases hu
    rw [straight, (Checked.neg_eq_ok.1 hn).2]
  | _ => cases hu; rfl

theorem isVariable_straight {t : Int × Expr} (h : t.2.IsReference) : (straight t).2.IsVariable := by
  obtain ⟨w, a⟩ := t
  cases a with
  | var _ | negVar _ => trivial
  | _ => cases h

theorem sum_yields (hts : ts ≠ []) (h : ∀ t ∈ ts, t.2.IsReference) (hr : r = .eq ∨ r = .le ∨ r = .ge)
    (hb : b.isConstant) : Yields (sum r ts b) fun e => e.IsLinearComparison IsVariable := by
  obtain ⟨k, hk⟩ := Option.isSome_iff_exists.1 hb
  unfold sum
  refine .bind (.checked (Q := fun p => straighten ts = .ok p) fun _ h => h) fun p hp => ?_
  obtain ⟨us, offset⟩ := p
  obtain ⟨rfl, -⟩ := straighten_eq_ok hp
  dsimp only
  rw [hk]
  refine .bind (.checked fun _ _ => trivial) fun n _ => .pure ⟨hr, ⟨by simpa using hts, ?_⟩, rfl⟩
  exact List.forall_mem_map.2 fun t ht => isVariable_straight (h t ht)

theorem eq_of_isVariable (h : e.IsVariable) : Yields (positive e) fun e' => e' = e := by
  refine (positive_yields e).imp fun e' h' => h'.2.2 ?_
  cases e <;> first | rfl | cases h

theorem comparison_yields (ha : a.IsLinearSide IsReference) (hr : r = .eq ∨ r = .le ∨ r = .ge)
    (hb : b.isConstant) : Yields (comparison r a b) fun e => e.IsLinearComparison IsVariable := by
  have hconstant : Yields (positive b) fun b' => b' = b := by
    refine (positive_yields b).imp fun b' h' => h'.2.2 ?_
    cases b <;> first | rfl | cases hb
  have replaced {c : Expr} (hc : c.IsLinearSide IsVariable) :
      Yields (do return Expr.cmp r c (← positive b)) fun e => e.IsLinearComparison IsVariable :=
    hconstant.bind fun b' hb' => .pure ⟨hr, hc, hb' ▸ hb⟩
  unfold comparison
  cases a with
  | negVar x => exact sum_yields (by simp) (by simp [IsReference]) hr hb
  | var x => exact replaced (c := .var x) trivial
  | wsum ts => exact sum_yields ha.1 ha.2 hr hb
  | sum as =>
    dsimp only
    split
    · exact sum_yields (by simpa using ha.1) (by simpa using ha.2) hr hb
    · rename_i hviews
      have hvar : ∀ a ∈ as, a.IsVariable := by
        intro a ha'
        have := ha.2 a ha'
        cases a with
        | var _ => trivial
        | negVar x => exact absurd (List.any_eq_true.2 ⟨_, ha', rfl⟩) hviews
        | _ => cases this
      refine Yields.bind ((Yields.mapM fun a ha' => eq_of_isVariable (hvar a ha')).bind
        (R := fun a' => a' = .sum as) fun as' has => .pure ?_) fun a' ha' => ?_
      · have := forall₂_map_eq (f := id) (g := id) (fun a b (h : b = a) => h.symm) has
        simpa using this.symm
      · subst ha'
        exact replaced ⟨ha.1, hvar⟩
  | _ => cases ha

theorem constraint_yields (h : e.IsLinear IsReference) : Yields (constraint e) fun e' => e'.IsLinear IsVariable := by
  cases e with
  | bool b => exact .pure h
  | cmp r a b => exact (comparison_yields h.2.1 h.1 h.2.2).imp fun e he => he.isLinear
  | implies l a =>
    obtain ⟨⟨hl, hlr⟩, ha⟩ := h
    refine (positive_yields l).bind fun l' hl' => ?_
    cases a with
    | cmp r a b =>
      exact (comparison_yields ha.2.1 ha.1 ha.2.2).bind fun a' ha' => .pure ⟨⟨hl'.2.1 hl, hl'.1 hlr⟩, ha'⟩
    | _ => cases ha
  | _ => cases h

end

end Positive

theorem removeViews_yields {strict : Prop} {cs : List Expr} (h : ∀ c ∈ cs, c.IsLinear Expr.IsReference) :
    (removeViews cs).Yields strict fun es => ∀ e ∈ es, e.IsLinear Expr.IsVariable := by
  refine fun σ => .relax ?_
  refine Lowering.Sat.bind (Positive.Yields.mapM (R := fun _ e => e.IsLinear Expr.IsVariable)
    (fun c hc => Positive.constraint_yields (h c hc)) [] σ nofun) fun p τ _ hp => .pure ?_
  obtain ⟨es, v⟩ := p
  obtain ⟨hv, hes⟩ := hp
  refine List.forall_mem_append.2 ⟨fun e he => ?_, List.forall_mem_map.2 fun p hp => ?_⟩
  · obtain ⟨_, -, he⟩ := forall₂_mem_right hes he
    exact he
  · obtain ⟨y, hy, -⟩ := hv p hp
    simp only [Positive.definition, hy]
    exact ⟨by simp, ⟨by simp, by simp [Expr.IsVariable]⟩, rfl⟩

namespace Model

/-- Without further linear capabilities every constraint of a linear form is a
linear comparison of variables, possibly guarded by a Boolean variable. -/
theorem toLinear_isLinear {m : Model} {caps : Capabilities} {out : List Expr} {σ : Store}
    (hcaps : caps.linear = []) (h : ∀ c ∈ m.constraints, c.WellTyped ∧ c.CallFree)
    (hrun : m.toLinear caps m.store = .ok out σ) : ∀ e ∈ out, e.IsLinear Expr.IsVariable := by
  have hshape : (m.toLinear caps).Yields False fun es => ∀ e ∈ es, e.IsLinear Expr.IsVariable := by
    refine (toPrimitive_yields (t := True) fun c hc => ?_).relax.bind fun fs hfs => ?_
    · exact ⟨(h c hc).1.isBool, ((h c hc).1.typed (h c hc).2).proper, .inl trivial⟩
    · refine (splitReifications_yields fun f hf => ?_).relax.bind fun gs hgs =>
        (linearize_yields hcaps hgs).bind fun es hes => removeViews_yields hes
      rcases hfs f hf with h | ⟨-, rfl⟩
      · exact ⟨.inl h.flat, h.proper⟩
      · exact ⟨.inr rfl, Expr.proper_bool⟩
  exact ((hshape m.store).ok hrun).2

def disequality : Model where
  store := ⟨#[⟨⟨0, 3⟩, .int, .user⟩, ⟨⟨0, 3⟩, .int, .user⟩]⟩
  constraints := [.cmp .ne (.var ⟨0, ⟨0, 3⟩, .int⟩) (.var ⟨1, ⟨0, 3⟩, .int⟩)]

theorem toLinear_disequality : ∃ out σ,
    disequality.toLinear .none disequality.store = .ok out σ ∧ ∀ e ∈ out, e.IsLinear Expr.IsVariable := by
  have htyped : ∀ c ∈ disequality.constraints, c.WellTyped ∧ c.CallFree := by
    simp only [disequality, List.mem_singleton, forall_eq]
    refine ⟨⟨rfl, ?_, ?_⟩, ?_⟩ <;> simp [Expr.CallFree, Expr.OperandsBoolean, Expr.Built]
  have hrun : ∃ out σ, disequality.toLinear .none disequality.store = .ok out σ := ⟨_, _, by cbv⟩
  obtain ⟨out, σ, hrun⟩ := hrun
  exact ⟨out, σ, hrun, toLinear_isLinear rfl htyped hrun⟩

end Model

end ConstraintModel
