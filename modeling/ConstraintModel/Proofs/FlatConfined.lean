import ConstraintModel.Proofs.Confined
import ConstraintModel.Proofs.FlatShape

namespace ConstraintModel

namespace Flat

open ConstraintModel.Expr (Sized Uses)

structure Leaf (V : Variable → Prop) (e : Expr) : Prop where
  isSimple : e.isSimple
  uses : e.Uses V

section

variable {V : Variable → Prop} {B : Start} {K : Nat} {σ τ : Store} {e a l : Expr} {r : Relation} {f g : Affine}

theorem Leaf.grow (h : Leaf (B.Allows σ) e) (hg : σ.Extends B.live τ) : Leaf (B.Allows τ) e :=
  ⟨h.isSimple, h.uses.grow hg⟩

theorem Leaf.sized (h : Leaf V e) : e.Sized V 0 K := .simple h.isSimple h.uses False.elim

theorem Leaf.negated (h : Leaf V e) : e.negated.Sized V 0 K := h.sized.negated False.elim

theorem Leaf.toInt (h : Leaf V e) : Leaf V (toInt e) := by
  unfold Flat.toInt
  split
  · exact ⟨rfl, Expr.uses_int⟩
  · exact h

theorem Leaf.toBool (h : Leaf V e) : Leaf V (toBool e) := by
  unfold Flat.toBool
  split
  · exact ⟨rfl, Expr.uses_bool⟩
  · exact h

theorem sized_compare (ha : a.Sized V 0 K) (hl : Leaf V l) : (compare r a l).Sized V 0 K := by
  unfold Flat.compare
  split
  · exact .bool
  · exact .cmp (hl.sized (K := 0)) ha (by omega)
  · exact .cmp ha (hl.sized (K := 0)) (by omega)

theorem sized_equate (he : e.Sized V 0 K) (hl : l.Sized V 0 0) : (equate e l).Sized V 0 K := by
  unfold Flat.equate
  split
  · exact hl.mono (Nat.zero_le K)
  · exact (hl.negated False.elim).mono (Nat.zero_le K)
  · exact .cmp he hl (by omega)

theorem sized_all {ls : List Expr} (h : ∀ l ∈ ls, Leaf V l) : (Expr.all ls).Sized V 0 K :=
  .all False.elim (n := 0) (fun l hl => (h l hl).sized) (Nat.zero_le K)

theorem sized_any {ls : List Expr} (h : ∀ l ∈ ls, Leaf V l) : (Expr.any ls).Sized V 0 K :=
  .any False.elim (n := 0) (fun l hl => (h l hl).sized) (Nat.zero_le K)

def OverLeaves (V : Variable → Prop) (f : Affine) : Prop := ∀ t ∈ f.terms.toList, Leaf V t.2

theorem OverLeaves.grow (h : OverLeaves (B.Allows σ) f) (hg : σ.Extends B.live τ) : OverLeaves (B.Allows τ) f :=
  fun t ht => (h t ht).grow hg

theorem OverLeaves.addMultiple {w : Int} (hf : OverLeaves V f) (he : Leaf V e) (h : f.addMultiple w e = .ok g) :
    OverLeaves V g := by
  intro t ht
  rcases mem_of_addMultiple h t ht with ht | ⟨rfl, -⟩
  · exact hf t ht
  · exact he

theorem OverLeaves.toExpr (h : OverLeaves V f) : f.toExpr.Sized V 0 K := by
  refine Expr.Uses.sized (Expr.uses_toExpr fun t ht => (h t ht).uses) (le_trans ?_ (Nat.zero_le K))
  have hterms : ∀ u ∈ f.terms.toList ++ (if f.constant = 0 then [] else [(1, .int f.constant)]),
      u.2.nesting 0 ≤ 0 := by
    refine List.forall_mem_append.2 ⟨fun t ht => (Expr.nesting_of_isSimple (h t ht).isSimple).le, ?_⟩
    split <;> simp
  unfold Affine.toExpr
  dsimp only
  generalize f.terms.toList ++ (if f.constant = 0 then [] else [(1, .int f.constant)]) = us at hterms
  split
  · simp
  · split
    · split
      · exact hterms (_, _) (List.mem_singleton_self _)
      · rw [Expr.nesting_sum, Nat.zero_add]
        exact greatest_map_le (List.forall_mem_map.2 hterms)
    · rw [Expr.nesting_wsum, Nat.zero_add]
      exact greatest_map_le hterms

end

variable {B : Start} {K : Nat} {σ : Store} {e a b l : Expr} {as : List Expr} {r : Relation}

abbrev Runs {α : Type} (B : Start) (K : Nat) (x : Defining α) (σ : Store) (Q : α → Store → Prop) : Prop :=
  Carries B (B.sized 0 K) x σ Q

theorem liftBool_runs (h : e.Sized (B.Allows σ) 0 K) :
    Runs B K (liftBool e) σ fun l τ => Leaf (B.Allows τ) l := by
  unfold liftBool
  split
  · exact .pure ⟨‹_›, h.uses⟩
  · refine (Carries.lift Lowering.Stays.freshBool).bind ?_
    rintro _ τ hg ⟨x, rfl, hx⟩
    refine (Carries.define (.cmp (h.grow hg) (.var (n := 0) hx) (by omega))).bind fun _ υ hg' _ => ?_
    exact .pure ⟨rfl, Expr.uses_var.2 (hx.mono hg')⟩

theorem liftInt_runs (h : e.Sized (B.Allows σ) 0 K) :
    Runs B K (liftInt e) σ fun l τ => Leaf (B.Allows τ) l := by
  refine .assume fun hσ => ?_
  unfold liftInt
  split
  · exact .pure ⟨‹_›, h.uses⟩
  · refine Carries.checked_bind fun c hc => ?_
    refine (Carries.lift (Lowering.Stays.freshInt (hσ.bounds h.uses hc))).bind ?_
    rintro _ τ hg ⟨x, rfl, hx⟩
    refine (Carries.define (.cmp (h.grow hg) (.var (n := 0) hx) (by omega))).bind fun _ υ hg' _ => ?_
    exact .pure ⟨rfl, Expr.uses_var.2 (hx.mono hg')⟩

def AreLeaves (V : Variable → Prop) (ls? : Option (List Expr)) : Prop := ∀ ls, ls? = some ls → ∀ l ∈ ls, Leaf V l

theorem areLeaves_none {V : Variable → Prop} : AreLeaves V none := by
  simp [AreLeaves]

theorem gather_runs {absorbing : Bool} {literal : Expr → Defining Expr}
    (h : ∀ a ∈ as, ∀ τ, σ.Extends B.live τ → Runs B K (literal a) τ fun l υ => Leaf (B.Allows υ) l) :
    Runs B K (gather absorbing literal as) σ fun ls? τ => AreLeaves (B.Allows τ) ls? := by
  induction as generalizing σ with
  | nil => exact .pure (by simp [AreLeaves])
  | cons a as ih =>
    rw [gather]
    refine (h a (List.mem_cons_self ..) σ (.refl σ)).bind fun l τ hg hl => ?_
    replace ih := ih (σ := τ) fun b hb υ hg' => h b (List.mem_cons_of_mem _ hb) υ (hg.trans hg')
    split
    · split
      · exact .pure areLeaves_none
      · exact ih
    · refine ih.bind fun ls? υ hg' hls => .pure fun ls hsome => ?_
      obtain ⟨ls', rfl, rfl⟩ := Option.map_eq_some_iff.1 hsome
      exact List.forall_mem_cons.2 ⟨hl.grow hg', hls ls' rfl⟩

structure Confined (B : Start) (K depth : Nat) : Prop where
  constraint (σ : Store) (e : Expr) : e.Sized (B.Allows σ) 0 K → 20 * e.height + (if e.isNot then 3 else 2) ≤ depth →
    Runs B K (constraint depth e) σ fun fs τ => ∀ f ∈ fs, f.Sized (B.Allows τ) 0 K
  truth (σ : Store) (e : Expr) : e.Sized (B.Allows σ) 0 K → 20 * e.height + (if e.isNot then 3 else 2) ≤ depth →
    Runs B K (truth depth e) σ fun f τ => f.Sized (B.Allows τ) 0 K
  literals (σ : Store) (absorbing : Bool) (as : List Expr) :
    (∀ a ∈ as, a.Sized (B.Allows σ) 0 K ∧ 20 * a.height + 12 ≤ depth) → 0 < depth →
    Runs B K (literals depth absorbing as) σ fun ls? τ => AreLeaves (B.Allows τ) ls?
  literal (σ : Store) (e : Expr) : e.Sized (B.Allows σ) 0 K → 20 * e.height + 11 ≤ depth →
    Runs B K (literal depth e) σ fun l τ => Leaf (B.Allows τ) l
  comparison (σ : Store) (lift : Bool) (r : Relation) (a b : Expr) : a.Sized (B.Allows σ) 0 K →
    b.Sized (B.Allows σ) 0 K → 20 * a.height + 30 ≤ depth → 20 * b.height + 30 ≤ depth →
    Runs B K (comparison depth lift r a b) σ fun f τ => f.Sized (B.Allows τ) 0 K
  reification (σ : Store) (lift : Bool) (r : Relation) (a b : Expr) : a.Sized (B.Allows σ) 0 K →
    b.Sized (B.Allows σ) 0 K → 20 * a.height + 28 ≤ depth → 20 * b.height + 28 ≤ depth →
    Runs B K (reification depth lift r a b) σ fun f τ => f.Sized (B.Allows τ) 0 K
  side (σ : Store) (e : Expr) : e.Sized (B.Allows σ) 0 K → 20 * e.height + 9 ≤ depth →
    Runs B K (side depth e) σ fun f τ => f.Sized (B.Allows τ) 0 K
  affine (σ : Store) (e : Expr) : e.Sized (B.Allows σ) 0 K → isLinearRoot e → 20 * e.height + 4 ≤ depth →
    Runs B K (affine depth e) σ fun f τ => f.Sized (B.Allows τ) 0 K
  addTo (σ : Store) (f : Affine) (w : Int) (e : Expr) : OverLeaves (B.Allows σ) f → e.Sized (B.Allows σ) 0 K →
    20 * e.height + (if isLinearRoot e then 2 else 12) ≤ depth →
    Runs B K (addTo depth f w e) σ fun g τ => OverLeaves (B.Allows τ) g
  operand (σ : Store) (e : Expr) : e.Sized (B.Allows σ) 0 K → 20 * e.height + (if e.isBool then 5 else 10) ≤ depth →
    Runs B K (operand depth e) σ fun o τ => Leaf (B.Allows τ) o

section

variable {depth : Nat} (ih : Confined B K depth)

include ih

theorem literal_runs (h : e.Sized (B.Allows σ) 0 K) (hd : 20 * e.height + 11 ≤ depth + 1) :
    Runs B K (literal (depth + 1) e) σ fun l τ => Leaf (B.Allows τ) l := by
  rw [literal]
  exact (ih.operand σ e h (by split <;> omega)).bind fun o τ _ ho => .pure ho.toBool

theorem literals_runs {absorbing : Bool} (h : ∀ a ∈ as, a.Sized (B.Allows σ) 0 K ∧ 20 * a.height + 12 ≤ depth + 1) :
    Runs B K (literals (depth + 1) absorbing as) σ fun ls? τ => AreLeaves (B.Allows τ) ls? := by
  rw [literals]
  split
  · exact .pure areLeaves_none
  · refine gather_runs fun a ha τ hg => ih.literal τ a ((h a ha).1.grow hg) ?_
    have := (h a ha).2
    omega

theorem operand_runs (h : e.Sized (B.Allows σ) 0 K) (hd : 20 * e.height + (if e.isBool then 5 else 10) ≤ depth + 1) :
    Runs B K (operand (depth + 1) e) σ fun o τ => Leaf (B.Allows τ) o := by
  rw [operand]
  split
  · exact .pure ⟨‹_›, h.uses⟩
  · split
    · rw [if_pos ‹_›] at hd
      exact (ih.truth σ e h (by split <;> omega)).bind fun f τ _ hf => liftBool_runs hf
    · rw [if_neg ‹_›] at hd
      exact (ih.side σ e h (by omega)).bind fun f τ _ hf => liftInt_runs hf

/-- The arguments of an operation are given leaves. -/
theorem args_runs (h : e.Uses (B.Allows σ)) (hn : ∀ a ∈ e.args, a.nesting 0 ≤ K) (hnot : e.isNot = false)
    (hd : 20 * e.height ≤ depth + 20) : ∀ a ∈ e.args, ∀ τ, σ.Extends B.live τ →
      Runs B K (operand depth a) τ fun o υ => Leaf (B.Allows υ) o := by
  intro a ha τ hg
  have := Expr.height_arg ha hnot
  exact ih.operand τ a (((h.arg ha).grow hg).sized (hn a ha)) (by split <;> omega)

theorem constraint_leaves {c : Constraint Expr} (h : (Expr.constraint c).Sized (B.Allows σ) 0 K)
    (hd : 20 * (Expr.constraint c).height ≤ depth + 20) :
    Runs B K (c.mapM (operand depth)) σ fun d τ => (Expr.constraint d).Sized (B.Allows τ) 0 K := by
  have hnesting : ∀ a ∈ c.args, a.nesting 0 ≤ K := fun a ha =>
    (Expr.nesting_arg (e := .constraint c) ha (by simp)).trans h.nesting
  have hargs := args_runs ih h.uses hnesting rfl hd
  refine (Carries.constraint_mapM (fun _ _ _ hg h => h.grow hg) hargs).imp fun d τ _ hd => ?_
  refine .constraint False.elim (n := 0) (fun o ho => (hd.2 o ho).sized) ?_
  have := h.nesting
  rw [Expr.nesting_constraint, ← hd.1] at this
  omega

theorem function_leaves {g : Function Expr} (h : (Expr.function g).Sized (B.Allows σ) 0 K)
    (hd : 20 * (Expr.function g).height ≤ depth + 20) :
    Runs B K (g.mapM (operand depth)) σ fun k τ => (Expr.function k).Sized (B.Allows τ) 0 K := by
  have hnesting : ∀ a ∈ g.args, a.nesting 0 ≤ K := fun a ha =>
    (Expr.nesting_arg (e := .function g) ha (by simp)).trans h.nesting
  have hargs := args_runs ih h.uses hnesting rfl hd
  refine (Carries.function_mapM (fun _ _ _ hg h => h.grow hg) hargs).imp fun k τ _ hk => ?_
  refine .function False.elim (n := 0) (fun o ho => (hk o ho).sized) ?_
  have := h.nesting
  rw [Expr.nesting_function] at this
  omega

theorem list_leaves {absorbing : Bool} (h : e.Sized (B.Allows σ) 0 K) (hc : ∀ d, e ≠ .call d)
    (hn : e.isNot = false) (hd : 20 * e.height ≤ depth + 1) :
    Runs B K (literals depth absorbing e.args) σ fun ls? τ => AreLeaves (B.Allows τ) ls? := by
  have := e.one_le_height
  refine ih.literals σ absorbing e.args (fun a ha => ⟨h.arg hc ha, ?_⟩) (by omega)
  have := Expr.height_arg ha hn
  omega

theorem constraint_runs (h : e.Sized (B.Allows σ) 0 K) (hd : 20 * e.height + (if e.isNot then 3 else 2) ≤ depth + 1) :
    Runs B K (constraint (depth + 1) e) σ fun fs τ => ∀ f ∈ fs, f.Sized (B.Allows τ) 0 K := by
  have single {x : Defining Expr} (hx : Runs B K x σ fun f τ => f.Sized (B.Allows τ) 0 K) :
      Runs B K (do return [← x]) σ fun fs τ => ∀ f ∈ fs, f.Sized (B.Allows τ) 0 K :=
    hx.bind fun f τ _ hf => .pure (List.forall_mem_singleton.2 hf)
  cases e with
  | bool b =>
    cases b
    · exact single (.pure h)
    · exact .pure (List.forall_mem_nil _)
  | var x =>
    change Runs B K (if x.isBool then pure [Expr.var x] else throw (.unsupported (.var x))) σ _
    split
    · exact single (.pure h)
    · exact .throw (by simp)
  | negVar x => exact single (.pure h)
  | call d =>
    rw [constraint]
    exact single (.pure h)
  | and as =>
    rw [constraint]
    refine Carries.bind (Carries.forall_flatten (P := fun τ e => e.Sized (B.Allows τ) 0 K)
      (fun _ _ _ hg h => h.grow hg) fun a ha τ hg => ?_) fun _ _ _ hess => .pure hess
    have := Expr.height_arg (e := .and as) ha rfl
    exact ih.constraint τ a ((h.arg (by simp) ha).grow hg) (by split <;> omega)
  | or as =>
    rw [constraint]
    refine (list_leaves ih h (by simp) rfl (by omega)).bind fun ls? τ _ hls => .pure ?_
    cases ls? with
    | none => exact List.forall_mem_nil _
    | some ls => exact List.forall_mem_singleton.2 (sized_any (hls ls rfl))
  | implies a b =>
    rw [constraint]
    have hha := Expr.height_arg (e := .implies a b) (a := a) (by simp [Expr.args]) rfl
    have hhb := Expr.height_arg (e := .implies a b) (a := b) (by simp [Expr.args]) rfl
    have ha := h.arg (a := a) (by simp) (by simp [Expr.args])
    have hb := h.arg (a := b) (by simp) (by simp [Expr.args])
    refine (ih.literal σ a ha (by omega)).bind fun l τ hg hl => ?_
    split
    · exact .pure (List.forall_mem_nil _)
    · exact ih.constraint τ b (hb.grow hg) (by split <;> omega)
    · refine (ih.truth τ b (hb.grow hg) (by split <;> omega)).bind fun f υ hg' hf => ?_
      have hl := hl.grow hg'
      split
      · exact .pure (List.forall_mem_nil _)
      · exact .pure (List.forall_mem_singleton.2 hl.negated)
      · exact .pure (List.forall_mem_singleton.2 (.implies False.elim (hl.sized (K := 0)) hf (by omega)))
  | not a =>
    rw [constraint]
    have ha := h.arg (a := a) (by simp) (by simp [Expr.args])
    have := Expr.height_negated_le a
    rw [Expr.height_not, if_pos (show (Expr.not a).isNot from rfl)] at hd
    split
    · exact (ih.literal σ a ha (by omega)).bind fun l τ _ hl => .pure (List.forall_mem_singleton.2 hl.negated)
    · rename_i hn
      exact ih.constraint σ _ (ha.negated False.elim) (by rw [if_neg hn]; omega)
  | cmp r a b =>
    rw [constraint]
    have hha := Expr.height_arg (e := .cmp r a b) (a := a) (by simp [Expr.args]) rfl
    have hhb := Expr.height_arg (e := .cmp r a b) (a := b) (by simp [Expr.args]) rfl
    have ha := h.arg (a := a) (by simp) (by simp [Expr.args])
    have hb := h.arg (a := b) (by simp) (by simp [Expr.args])
    exact (ih.comparison σ false r a b ha hb (by omega) (by omega)).bind fun f τ _ hf => .pure hf.conjuncts
  | constraint c =>
    rw [constraint]
    exact (constraint_leaves ih h (by omega)).bind fun d τ _ hd => .pure (List.forall_mem_singleton.2 hd)
  | int _ | sum _ | wsum _ | sub _ _ | mul _ _ | neg _ | function _ =>
    rw [constraint]
    exact .throw (by simp)

theorem truth_runs (h : e.Sized (B.Allows σ) 0 K) (hd : 20 * e.height + (if e.isNot then 3 else 2) ≤ depth + 1) :
    Runs B K (truth (depth + 1) e) σ fun f τ => f.Sized (B.Allows τ) 0 K := by
  cases e with
  | bool _ | var _ | negVar _ | call _ =>
    rw [truth]
    exact .pure h
  | and as =>
    rw [truth]
    refine (list_leaves ih h (by simp) rfl (by omega)).bind fun ls? τ _ hls => .pure ?_
    cases ls? with
    | none => exact .bool
    | some ls => exact sized_all (hls ls rfl)
  | or as =>
    rw [truth]
    refine (list_leaves ih h (by simp) rfl (by omega)).bind fun ls? τ _ hls => .pure ?_
    cases ls? with
    | none => exact .bool
    | some ls => exact sized_any (hls ls rfl)
  | implies a b =>
    rw [truth]
    have hha := Expr.height_arg (e := .implies a b) (a := a) (by simp [Expr.args]) rfl
    have hhb := Expr.height_arg (e := .implies a b) (a := b) (by simp [Expr.args]) rfl
    have ha := h.arg (a := a) (by simp) (by simp [Expr.args])
    have hb := h.arg (a := b) (by simp) (by simp [Expr.args])
    have hn := Expr.height_negated_le a
    refine (ih.literals σ true [a.negated, b] ?_ (by omega)).bind fun ls? τ _ hls => .pure ?_
    · simp only [List.forall_mem_cons, List.not_mem_nil, false_imp_iff, implies_true, and_true]
      exact ⟨⟨ha.negated False.elim, by omega⟩, hb, by omega⟩
    · cases ls? with
      | none => exact .bool
      | some ls => exact sized_any (hls ls rfl)
  | not a =>
    rw [truth]
    have ha := h.arg (a := a) (by simp) (by simp [Expr.args])
    have := Expr.height_negated_le a
    rw [Expr.height_not, if_pos (show (Expr.not a).isNot from rfl)] at hd
    split
    · exact (ih.literal σ a ha (by omega)).bind fun l τ _ hl => .pure hl.negated
    · rename_i hn
      exact ih.truth σ _ (ha.negated False.elim) (by rw [if_neg hn]; omega)
  | cmp r a b =>
    rw [truth]
    have hha := Expr.height_arg (e := .cmp r a b) (a := a) (by simp [Expr.args]) rfl
    have hhb := Expr.height_arg (e := .cmp r a b) (a := b) (by simp [Expr.args]) rfl
    exact ih.comparison σ true r a b (h.arg (by simp) (by simp [Expr.args])) (h.arg (by simp) (by simp [Expr.args]))
      (by omega) (by omega)
  | constraint c =>
    rw [truth]
    exact (constraint_leaves ih h (by omega)).bind fun d τ _ hd => .pure hd
  | int _ | sum _ | wsum _ | sub _ _ | mul _ _ | neg _ | function _ =>
    rw [truth]
    exact .throw (by simp)

theorem equality_runs {lift : Bool} (h : e.Sized (B.Allows σ) 0 K) (hd : 20 * e.height + 23 ≤ depth)
    (hl : l.Sized (B.Allows σ) 0 0) : Runs B K (equality depth lift e l) σ fun f τ => f.Sized (B.Allows τ) 0 K := by
  have := Expr.height_negated_le e
  unfold equality
  split
  · exact ih.truth σ e h (by split <;> omega)
  · exact ih.truth σ e.negated (h.negated False.elim) (by split <;> omega)
  · refine (ih.truth σ e h (by split <;> omega)).bind fun f τ hg hf => ?_
    split
    · exact (liftBool_runs hf).bind fun g υ hg' hg₂ => .pure (sized_equate hg₂.sized (hl.grow (hg.trans hg')))
    · exact Carries.bind (.pure hf) fun g υ hg' hf' => .pure (sized_equate hf' (hl.grow (hg.trans hg')))

theorem reification_runs {lift : Bool} (ha : a.Sized (B.Allows σ) 0 K) (hb : b.Sized (B.Allows σ) 0 K)
    (hda : 20 * a.height + 28 ≤ depth + 1) (hdb : 20 * b.height + 28 ≤ depth + 1) :
    Runs B K (reification (depth + 1) lift r a b) σ fun f τ => f.Sized (B.Allows τ) 0 K := by
  rw [reification_eq]
  have hpick : Runs B K (reified depth a b) σ fun p τ => (p.1 = a ∨ p.1 = b) ∧ Leaf (B.Allows τ) p.2 := by
    unfold reified
    split
    · exact .pure ⟨.inr rfl, ‹_›, ha.uses⟩
    · split
      · exact .pure ⟨.inl rfl, ‹_›, hb.uses⟩
      · exact (ih.literal σ b hb (by omega)).bind fun l τ _ hl => .pure ⟨.inl rfl, hl⟩
  refine hpick.bind fun p τ hg hp => ?_
  have hl : (if r = .ne then p.2.negated else p.2).Sized (B.Allows τ) 0 0 := by
    split
    · exact hp.2.negated
    · exact hp.2.sized
  rcases hp.1 with he | he <;> rw [he]
  · exact equality_runs ih (ha.grow hg) (by omega) hl
  · exact equality_runs ih (hb.grow hg) (by omega) hl

theorem sides_runs {lift : Bool} (ha : a.Sized (B.Allows σ) 0 K) (hb : b.Sized (B.Allows σ) 0 K)
    (hda : 20 * a.height + 29 ≤ depth) (hdb : 20 * b.height + 29 ≤ depth) :
    Runs B K (sides depth lift (r, a, b)) σ fun f τ => f.Sized (B.Allows τ) 0 K := by
  have hfirst : Runs B K (firstSide depth lift a) σ fun f τ => f.Sized (B.Allows τ) 0 K := by
    refine Carries.checked_bind fun lifted _ => ?_
    split
    · exact (ih.operand σ a ha (by split <;> omega)).imp fun o τ _ ho => ho.sized
    · exact ih.side σ a ha (by omega)
  refine hfirst.bind fun f τ hg hf => ?_
  exact (ih.operand τ b (hb.grow hg) (by split <;> omega)).bind fun o υ hg' ho =>
    .pure (sized_compare (hf.grow hg') ho.toInt)

theorem comparison_runs {lift : Bool} (ha : a.Sized (B.Allows σ) 0 K) (hb : b.Sized (B.Allows σ) 0 K)
    (hda : 20 * a.height + 30 ≤ depth + 1) (hdb : 20 * b.height + 30 ≤ depth + 1) :
    Runs B K (comparison (depth + 1) lift r a b) σ fun f τ => f.Sized (B.Allows τ) 0 K := by
  rw [comparison_eq]
  split
  · exact .pure .bool
  · split
    · exact ih.reification σ lift r a b ha hb (by omega) (by omega)
    · unfold orient
      split
      · exact sides_runs ih hb ha (by omega) (by omega)
      · exact sides_runs ih ha hb (by omega) (by omega)

theorem affine_runs (h : e.Sized (B.Allows σ) 0 K) (hl : isLinearRoot e) (hd : 20 * e.height + 4 ≤ depth + 1) :
    Runs B K (affine (depth + 1) e) σ fun f τ => f.Sized (B.Allows τ) 0 K := by
  rw [affine]
  refine (ih.addTo σ .zero 1 e (by simp [OverLeaves, Affine.zero]) h (by rw [if_pos hl]; omega)).bind ?_
  exact fun f τ _ hf => .pure hf.toExpr

theorem addTo_runs {f : Affine} {w : Int} (hf : OverLeaves (B.Allows σ) f) (h : e.Sized (B.Allows σ) 0 K)
    (hd : 20 * e.height + (if isLinearRoot e then 2 else 12) ≤ depth + 1) :
    Runs B K (addTo (depth + 1) f w e) σ fun g τ => OverLeaves (B.Allows τ) g := by
  have arg (hc : ∀ d, e ≠ .call d) (hn : e.isNot = false) {a : Expr} (ha : a ∈ e.args) (f : Affine) (w : Int)
      {τ : Store} (hg : σ.Extends B.live τ) (hf : OverLeaves (B.Allows τ) f) :
      Runs B K (addTo depth f w a) τ fun g υ => OverLeaves (B.Allows υ) g := by
    have := Expr.height_arg ha hn
    exact ih.addTo τ f w a hf ((h.arg hc ha).grow hg) (by split <;> split at hd <;> omega)
  have whole (hr : isLinearRoot e = false) :
      Runs B K (do (f.addMultiple w (← operand depth e) : Checked Affine)) σ fun g τ => OverLeaves (B.Allows τ) g := by
    rw [hr] at hd
    refine (ih.operand σ e h (by split <;> simp at hd <;> omega)).bind fun o τ hg ho => ?_
    exact .checked fun k hk => (hf.grow hg).addMultiple ho hk
  cases e with
  | sum as =>
    rw [addTo]
    exact (Carries.calculus B (B.sized 0 K)).foldlM (Q := fun _ g τ => OverLeaves (B.Allows τ) g) (l := [])
      (fun _ a ha g τ hg hk => arg (by simp) rfl ha g w hg hk) hf
  | wsum ts =>
    rw [addTo]
    exact (Carries.calculus B (B.sized 0 K)).foldlM (Q := fun _ g τ => OverLeaves (B.Allows τ) g) (l := [])
      (fun _ u hu g τ hg hk => Carries.checked_bind fun v _ =>
        arg (by simp) rfl (List.mem_map_of_mem hu) g v hg hk) hf
  | neg a =>
    rw [addTo]
    exact Carries.checked_bind fun v _ => arg (by simp) rfl (by simp [Expr.args]) f v (.refl σ) hf
  | mul a b =>
    rw [addTo]
    split
    · exact Carries.checked_bind fun v _ => arg (by simp) rfl (by simp [Expr.args]) f v (.refl σ) hf
    · exact Carries.checked_bind fun v _ => arg (by simp) rfl (by simp [Expr.args]) f v (.refl σ) hf
    · rename_i ha hb
      exact whole (by simp [isLinearRoot, Expr.isConstant, ha, hb])
  | bool _ | int _ | var _ | negVar _ | and _ | or _ | implies _ _ | not _ | sub _ _ | cmp _ _ _
  | constraint _ | function _ | call _ =>
    rw [addTo] <;> first | exact whole rfl | simp

theorem side_runs (h : e.Sized (B.Allows σ) 0 K) (hd : 20 * e.height + 9 ≤ depth + 1) :
    Runs B K (side (depth + 1) e) σ fun f τ => f.Sized (B.Allows τ) 0 K := by
  have hboolean (hb : e.isBool) : Runs B K (operand depth e) σ fun f τ => f.Sized (B.Allows τ) 0 K :=
    (ih.operand σ e h (by rw [if_pos hb]; omega)).imp fun o τ _ ho => ho.sized
  cases e with
  | bool _ | int _ | var _ | negVar _ => exact .pure h
  | sum as | wsum ts | neg a =>
    rw [side]
    exact ih.affine σ _ h rfl (by omega)
  | mul a b =>
    rw [side]
    have hha := Expr.height_arg (e := .mul a b) (a := a) (by simp [Expr.args]) rfl
    have hhb := Expr.height_arg (e := .mul a b) (a := b) (by simp [Expr.args]) rfl
    have ha := h.arg (a := a) (by simp) (by simp [Expr.args])
    have hb := h.arg (a := b) (by simp) (by simp [Expr.args])
    have := a.one_le_height
    split
    · exact ih.affine σ _ h ‹_› (by omega)
    · refine (ih.operand σ a ha (by split <;> omega)).bind fun x τ hg hx => ?_
      refine (ih.operand τ b (hb.grow hg) (by split <;> omega)).bind fun y υ hg' hy => ?_
      have hmul : (Expr.mul x y).Sized (B.Allows υ) 0 K :=
        (Expr.Measured.mul (hx.grow hg').sized hy.sized).mono (Nat.zero_add K).le
      split
      · -- The product of the new factors has the least height that a product can have.
        rename_i hc
        refine ih.affine υ _ hmul hc ?_
        rw [Expr.height_eq rfl rfl]
        simp only [Expr.args, List.map_cons, List.map_nil, Expr.height_of_isSimple hx.isSimple,
          Expr.height_of_isSimple hy.isSimple, greatest, List.foldr_cons, List.foldr_nil]
        omega
      · exact .pure hmul
  | sub a b =>
    rw [side]
    have hha := Expr.height_arg (e := .sub a b) (a := a) (by simp [Expr.args]) rfl
    have hhb := Expr.height_arg (e := .sub a b) (a := b) (by simp [Expr.args]) rfl
    have ha := h.arg (a := a) (by simp) (by simp [Expr.args])
    have hb := h.arg (a := b) (by simp) (by simp [Expr.args])
    refine (ih.operand σ a ha (by split <;> omega)).bind fun x τ hg hx => ?_
    refine (ih.operand τ b (hb.grow hg) (by split <;> omega)).bind fun y υ hg' hy => .pure ?_
    exact (Expr.Measured.sub (hx.grow hg').sized hy.sized).mono (Nat.zero_add K).le
  | function g =>
    rw [side]
    exact (function_leaves ih h (by omega)).bind fun k τ _ hk => .pure hk
  | and _ | or _ | implies _ _ | not _ | cmp _ _ _ | constraint _ | call _ =>
    rw [side]
    exact hboolean rfl

end

theorem confined (B : Start) (K depth : Nat) : Confined B K depth := by
  induction depth with
  | zero => exact {
      constraint := fun _ e _ h => absurd h (by split <;> omega)
      truth := fun _ e _ h => absurd h (by split <;> omega)
      literals := fun _ _ _ _ h => absurd h (by omega)
      literal := fun _ e _ h => absurd h (by omega)
      comparison := fun _ _ _ a b _ _ h _ => absurd h (by omega)
      reification := fun _ _ _ a b _ _ h _ => absurd h (by omega)
      side := fun _ e _ h => absurd h (by omega)
      affine := fun _ e _ _ h => absurd h (by omega)
      addTo := fun _ _ _ e _ _ h => absurd h (by split <;> omega)
      operand := fun _ e _ h => absurd h (by split <;> omega) }
  | succ depth ih => exact {
      constraint := fun _ _ => constraint_runs ih
      truth := fun _ _ => truth_runs ih
      literals := fun _ _ _ h _ => literals_runs ih h
      literal := fun _ _ => literal_runs ih
      comparison := fun _ _ _ _ _ => comparison_runs ih
      reification := fun _ _ _ _ _ => reification_runs ih
      side := fun _ _ => side_runs ih
      affine := fun _ _ => affine_runs ih
      addTo := fun _ _ _ _ => addTo_runs ih
      operand := fun _ _ => operand_runs ih }

end Flat

theorem sized_topLevel {V : Variable → Prop} {k n : Nat} {cs : List Expr} (h : ∀ c ∈ cs, c.Sized V k n) :
    ∀ c ∈ topLevel cs, c.Sized V k n := by
  rw [topLevel, List.forall_mem_flatMap]
  exact fun c hc => (h c hc).conjuncts

/-- Flattening reaches an end within the depth that is computed for each
constraint. Its results are nested no more than the constraints. -/
theorem flatten_stays {B : Start} {K : Nat} {σ : Store} {cs : List Expr} (h : ∀ c ∈ cs, c.Sized (B.Allows σ) 0 K) :
    (flatten cs).Stays B σ fun fs τ => ∀ f ∈ fs, f.Sized (B.Allows τ) 0 K := by
  have hrun : ∀ e ∈ topLevel cs, ∀ τ, σ.Extends B.live τ → Lowering.Stays B (do
      let p ← (Flat.constraint (Flat.depth e) e).collect
      return p.1 ++ p.2) τ fun fs υ => ∀ f ∈ fs, f.Sized (B.Allows υ) 0 K := by
    intro e he τ hg
    have hdepth : 20 * e.height + (if e.isNot then 3 else 2) ≤ Flat.depth e := by
      unfold Flat.depth
      split <;> omega
    have hflat := (Flat.confined B K _).constraint τ e ((sized_topLevel h e he).grow hg) hdepth
    exact hflat.collect.bind fun p υ _ hp => .pure (List.forall_mem_append.2 hp)
  exact (Lowering.Stays.forall_flatten (P := fun τ e => e.Sized (B.Allows τ) 0 K)
    (fun _ _ _ hg h => h.grow hg) hrun).bind fun _ _ _ hparts => .pure hparts

end ConstraintModel
