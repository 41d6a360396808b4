import ConstraintModel.Proofs.FlatForm

namespace ConstraintModel

namespace Flat

open ConstraintModel.Expr (IsFlat IsFlatSide IsFlatTruth TripleFree)

abbrev Any : Variable → Prop := fun _ => True

def reified (depth : Nat) (a b : Expr) : Defining (Expr × Expr) :=
  if a.isSimple then return (b, a)
  else if b.isSimple then return (a, b)
  else return (a, ← literal depth b)

def equality (depth : Nat) (reified : Bool) (e : Expr) : Expr → Defining Expr
  | .bool true => truth depth e
  | .bool false => truth depth e.negated
  | l => do
    let e ← truth depth e
    let e ← if reified then liftBool e else pure e
    return equate e l

theorem reification_eq (depth : Nat) (lift : Bool) (r : Relation) (a b : Expr) :
    reification (depth + 1) lift r a b =
      (reified depth a b >>= fun p => equality depth lift p.1 (if r = .ne then p.2.negated else p.2)) := by
  have rest (e l : Expr) : (match l with
      | .bool true => truth depth e
      | .bool false => truth depth e.negated
      | l => do
        let e ← truth depth e
        let e ← if lift then liftBool e else pure e
        return equate e l) = equality depth lift e l := by
    unfold equality
    split <;> rfl
  rw [reification, reified]
  by_cases ha : a.isSimple
  · rw [if_pos ha, if_pos ha, pure_bind, pure_bind]
    exact rest _ _
  · rw [if_neg ha, if_neg ha]
    by_cases hb : b.isSimple
    · rw [if_pos hb, if_pos hb, pure_bind, pure_bind]
      exact rest _ _
    · rw [if_neg hb, if_neg hb, bind_assoc]
      refine bind_congr fun l => ?_
      rw [pure_bind, pure_bind]
      exact rest _ _

def firstSide (depth : Nat) (lift : Bool) (a : Expr) : Defining Expr := do
  if ← isLifted lift a then operand depth a else side depth a

def sides (depth : Nat) (lift : Bool) (p : Relation × Expr × Expr) : Defining Expr := do
  let a ← firstSide depth lift p.2.1
  let b ← operand depth p.2.2
  return compare p.1 a (toInt b)

theorem comparison_eq (depth : Nat) (lift : Bool) (r : Relation) (a b : Expr) :
    comparison (depth + 1) lift r a b =
      match a.constant?, b.constant? with
      | some m, some n => return .bool (r.holds m n)
      | _, _ =>
        if isReification r a b then reification depth lift r a b
        else sides depth lift (orient r a b) := by
  rw [comparison]
  have hsides (s : Relation) (x y : Expr) : (do
      let x ← if ← isLifted lift x then operand depth x else side depth x
      let y ← operand depth y
      return compare s x (toInt y)) = sides depth lift (s, x, y) := by
    rw [sides, firstSide, bind_assoc]
    exact bind_congr fun lifted => by cases lifted <;> rfl
  have hrest := congrArg (fun x => if isReification r a b then reification depth lift r a b else x)
    (hsides (orient r a b).1 (orient r a b).2.1 (orient r a b).2.2)
  cases a.constant? <;> cases b.constant? <;> first | rfl | exact hrest

/-- What is flattened. The triple negations that `t` permits can leave the
constant `true` behind. -/
structure Input (t : Prop) (K : Nat) (e : Expr) : Prop where
  proper : e.Proper Any
  nesting : e.nesting 0 ≤ K
  tripleFree : t ∨ e.TripleFree

structure Output (K : Nat) (e : Expr) : Prop where
  flat : e.IsFlat
  proper : e.Proper Any
  nesting : e.nesting 0 ≤ K

def IsTruth (K : Nat) (e : Expr) : Prop :=
  (e.IsFlatTruth ∧ e.Proper Any ∧ e.nesting 0 ≤ K) ∨ ∃ b, e = .bool b

def IsLiteral (e : Expr) : Prop := e.isLiteral ∧ e.Proper Any

def IsSide (K : Nat) (e : Expr) : Prop :=
  (e.IsFlatSide ∨ e.isConstant) ∧ e.Proper Any ∧ e.nesting 0 ≤ K

def IsOperand (e : Expr) : Prop := e.isSimple ∧ e.Proper Any

def IsGlobal (e : Expr) : Prop := ∃ c, e = .constraint c

def IsLiteralOf (e l : Expr) : Prop := IsLiteral l ∨ ¬IsGlobal e ∧ ∃ b, l = .bool b

section

variable {t : Prop} {K : Nat} {e a l : Expr} {r : Relation}

theorem Input.arg (h : Input t K e) (ha : a ∈ e.args) : Input t K a := by
  refine ⟨h.proper.arg ha, (Expr.nesting_arg ha ?_).trans h.nesting, h.tripleFree.imp_right fun h => h.arg ha⟩
  rintro d rfl
  exact Expr.proper_call h.proper

theorem Input.negated (h : Input t K e) (hb : e.isBool) : Input t K e.negated :=
  ⟨Expr.proper_negated hb h.proper, (Expr.nesting_negated_le e).trans h.nesting,
    h.tripleFree.imp_right TripleFree.negated⟩

theorem IsLiteral.operand (h : IsLiteral l) : IsOperand l := ⟨Expr.isSimple_of_isLiteral h.1, h.2⟩

theorem IsLiteral.negated (h : IsLiteral l) : IsLiteral l.negated :=
  ⟨Expr.isLiteral_negated h.1 h.2, Expr.proper_negated (Expr.isBool_of_isLiteral h.1) h.2⟩

theorem IsOperand.nesting (h : IsOperand e) : e.nesting 0 = 0 := Expr.nesting_of_isSimple h.1

theorem IsLiteral.output (h : IsLiteral l) : Output K l :=
  ⟨Expr.isFlat_of_isLiteral h.1, h.2, by rw [h.operand.nesting]; omega⟩

theorem IsLiteral.truth (h : IsLiteral l) : IsTruth K l :=
  .inl ⟨Expr.isFlatTruth_of_isLiteral h.1, h.2, by rw [h.operand.nesting]; omega⟩

theorem IsOperand.literal (h : IsOperand e) (hb : e.isBool) : IsLiteral e ∨ ∃ b, e = .bool b :=
  (Expr.isLiteral_or_bool h.1 hb).imp_left fun hl => ⟨hl, h.2⟩

theorem IsTruth.isBool (h : IsTruth K e) : e.isBool := by
  rcases h with h | ⟨b, rfl⟩
  · exact Expr.isBool_of_isFlatTruth h.1
  · rfl

theorem IsTruth.proper (h : IsTruth K e) : e.Proper Any := by
  rcases h with h | ⟨b, rfl⟩
  · exact h.2.1
  · exact Expr.proper_bool

theorem output_false : Output K (.bool false) := ⟨rfl, Expr.proper_bool, by simp⟩

theorem IsTruth.conjuncts (h : IsTruth K e) : ∀ f ∈ e.conjuncts, Output K f := by
  rcases h with ⟨hf, hp, hn⟩ | ⟨b, rfl⟩
  · cases e with
    | and as =>
      simp only [Expr.conjuncts_and, List.mem_flatMap]
      rintro f ⟨a, ha, hfa⟩
      have hl : IsLiteral a := ⟨hf a ha, hp.arg ha⟩
      have hs := hl.1
      rw [Expr.conjuncts_eq (by rintro rfl; cases hs) (by rintro as rfl; cases hs),
        List.mem_singleton] at hfa
      exact hfa ▸ hl.output
    | or as | cmp _ a b | constraint c | var x | negVar x =>
      rw [Expr.conjuncts_eq (by simp) (by simp)]
      intro f hfe
      rw [List.mem_singleton.1 hfe]
      refine ⟨?_, hp, hn⟩
      first | exact hf | exact .inl hf
    | _ => cases hf
  · cases b
    · rw [Expr.conjuncts_eq (by simp) (by simp)]
      simpa using output_false
    · simp

theorem Output.conjuncts (h : Output K e) : ∀ f ∈ e.conjuncts, Output K f := by
  rw [Expr.conjuncts_eq (by rintro rfl; cases h.flat) (by rintro as rfl; cases h.flat)]
  simpa using h

theorem IsOperand.toInt (h : IsOperand e) : IsOperand (toInt e) := by
  unfold Flat.toInt
  split
  · exact ⟨rfl, Expr.proper_int⟩
  · exact h

theorem isFlatSide_or_isConstant (h : e.isSimple) : e.IsFlatSide ∨ e.isConstant := by
  cases e with
  | var _ | negVar _ => exact .inl trivial
  | bool _ | int _ => exact .inr rfl
  | _ => cases h

theorem IsOperand.side (h : IsOperand e) : IsSide K e :=
  ⟨isFlatSide_or_isConstant h.1, h.2, by rw [h.nesting]; omega⟩

theorem isSimple_of_isConstant (h : e.isConstant) : e.isSimple := by
  cases e <;> first | rfl | cases h

theorem IsSide.compare (ha : IsSide K a) (hl : IsOperand l) : IsTruth K (compare r a l) := by
  unfold Flat.compare
  split
  · exact .inr ⟨_, rfl⟩
  · rename_i m hm hn
    have hs : a.isSimple := isSimple_of_isConstant (by simp [Expr.isConstant, hm])
    refine .inl ⟨⟨(isFlatSide_or_isConstant hl.1).resolve_right (by simp [Expr.isConstant, hn]), hs⟩,
      Expr.proper_cmp.2 ⟨hl.2, ha.2.1⟩, ?_⟩
    rw [Expr.nesting_cmp, hl.nesting, Expr.nesting_of_isSimple hs]
    omega
  · rename_i hm
    refine .inl ⟨⟨ha.1.resolve_right (by simp [Expr.isConstant, hm]), hl.1⟩,
      Expr.proper_cmp.2 ⟨ha.2.1, hl.2⟩, ?_⟩
    have := ha.2.2
    rw [Expr.nesting_cmp, hl.nesting]
    omega

theorem IsTruth.equate (he : IsTruth K e) (hl : IsLiteral l) : Output K (equate e l) := by
  unfold Flat.equate
  split
  · exact hl.output
  · exact hl.negated.output
  · rename_i ht hf
    rcases he with ⟨hflat, hp, hn⟩ | ⟨b, rfl⟩
    · refine ⟨.inr ⟨rfl, hflat, hl.1⟩, Expr.proper_cmp.2 ⟨hp, hl.2⟩, ?_⟩
      rw [Expr.nesting_cmp, hl.operand.nesting]
      omega
    · cases b
      · exact absurd rfl hf
      · exact absurd rfl ht

theorem IsLiteral.equate (he : IsLiteral e ∨ ∃ b, e = .bool b) (hl : IsLiteral l) :
    IsTruth K (Flat.equate e l) := by
  rcases he with he | ⟨b, rfl⟩
  · have : Flat.equate e l = .cmp .eq e l := by
      unfold Flat.equate
      split
      · cases he.1
      · cases he.1
      · rfl
    rw [this]
    refine .inl ⟨⟨?_, hl.operand.1⟩, Expr.proper_cmp.2 ⟨he.2, hl.2⟩, ?_⟩
    · have := he.1
      cases e <;> trivial
    · rw [Expr.nesting_cmp, hl.operand.nesting, he.operand.nesting]
      omega
  · cases b
    · exact hl.negated.truth
    · exact hl.truth

end

open Defining (Yields)

variable {t : Prop} {K : Nat}

theorem liftBool_yields {e : Expr} (he : IsTruth K e) :
    (liftBool e).Yields True (Output K) (IsLiteralOf e) := by
  unfold liftBool
  split
  · rename_i hs
    refine .pure ((IsOperand.literal ⟨hs, he.proper⟩ he.isBool).imp_right fun hc => ⟨?_, hc⟩)
    rintro ⟨c, rfl⟩
    cases hs
  · refine (Yields.lift Lowering.Yields.freshBool).bind ?_
    rintro l ⟨x, rfl, hx⟩
    have hl : IsLiteral (.var x) := ⟨hx, Expr.proper_var.2 trivial⟩
    have hd : Output K (.cmp .eq e (.var x)) := by
      rcases he with ⟨hf, hp, hn⟩ | ⟨b, rfl⟩
      · exact ⟨.inr ⟨rfl, hf, hl.1⟩, Expr.proper_cmp.2 ⟨hp, hl.2⟩, by simpa using hn⟩
      · exact absurd rfl ‹¬_›
    exact (Yields.define hd).bind fun _ _ => .pure (.inl hl)

theorem liftInt_yields {e : Expr} (he : IsSide K e) :
    (liftInt e).Yields True (Output K) IsOperand := by
  unfold liftInt
  split
  · exact .pure ⟨‹_›, he.2.1⟩
  · refine (Yields.checked fun b _ => trivial).bind fun b _ => ?_
    refine (Yields.lift (Lowering.Yields.freshInt b)).bind ?_
    rintro l ⟨x, rfl, hx⟩
    have hl : IsOperand (.var x) := ⟨rfl, Expr.proper_var.2 trivial⟩
    have hf := he.1.resolve_right fun hc => absurd (isSimple_of_isConstant hc) ‹_›
    have hd : Output K (.cmp .eq e (.var x)) :=
      ⟨.inl ⟨hf, rfl⟩, Expr.proper_cmp.2 ⟨he.2.1, hl.2⟩, by simpa using he.2.2⟩
    exact (Yields.define hd).bind fun _ _ => .pure hl

theorem gather_yields {absorbing : Bool} {literal : Expr → Defining Expr} {as : List Expr}
    (h : ∀ a ∈ as, (literal a).Yields True (Output K) (IsLiteralOf a)) :
    (gather absorbing literal as).Yields True (Output K) fun ls? =>
      ∀ ls, ls? = some ls → ∀ l ∈ ls, IsLiteral l := by
  induction as with
  | nil => exact .pure (by simp)
  | cons a as ih =>
    replace ih := ih fun a ha => h a (List.mem_cons_of_mem _ ha)
    rw [gather]
    refine (h a (List.mem_cons_self ..)).bind fun l hl => ?_
    split
    · split
      · exact .pure (by simp)
      · exact ih
    · rename_i hb
      have hl := hl.resolve_right fun h => h.2.elim hb
      refine ih.bind fun ls? hls => .pure fun ls hsome => ?_
      obtain ⟨ls', rfl, rfl⟩ := Option.map_eq_some_iff.1 hsome
      exact List.forall_mem_cons.2 ⟨hl, hls ls' rfl⟩

theorem mem_of_addMultiple {f g : Affine} {w : Int} {e : Expr} (h : f.addMultiple w e = .ok g) :
    ∀ t ∈ g.terms.toList, t ∈ f.terms.toList ∨ t = (w, e) ∧ ¬e.isConstant := by
  unfold Affine.addMultiple at h
  split at h
  · obtain ⟨m, -, h⟩ := Checked.bind_eq_ok.1 h
    obtain ⟨k, -, h⟩ := Checked.bind_eq_ok.1 h
    cases h
    exact fun t ht => .inl ht
  · cases h
    rename_i hc
    unfold Affine.addTerm
    split
    · exact fun t ht => .inl ht
    · intro t ht
      rw [Array.toList_push, List.mem_append, List.mem_singleton] at ht
      exact ht.imp_right fun ht => ⟨ht, by simp [Expr.isConstant, hc]⟩

def IsForm (f : Affine) : Prop := ∀ t ∈ f.terms.toList, IsOperand t.2 ∧ ¬t.2.isConstant

theorem IsForm.addMultiple {f g : Affine} {w : Int} {e : Expr} (hf : IsForm f) (he : IsOperand e)
    (h : f.addMultiple w e = .ok g) : IsForm g := by
  intro t ht
  rcases mem_of_addMultiple h t ht with ht | ⟨rfl, hc⟩
  · exact hf t ht
  · exact ⟨he, hc⟩

theorem IsForm.toExpr {f : Affine} (hf : IsForm f) : IsSide K f.toExpr := by
  have hterms : ∀ u ∈ f.terms.toList ++ (if f.constant = 0 then [] else [(1, .int f.constant)]),
      IsOperand u.2 := by
    intro u hu
    rcases List.mem_append.1 hu with hu | hu
    · exact (hf u hu).1
    · split at hu
      · cases hu
      · rw [List.mem_singleton.1 hu]
        exact ⟨rfl, Expr.proper_int⟩
  unfold Affine.toExpr
  dsimp only
  generalize f.terms.toList ++ (if f.constant = 0 then [] else [(1, .int f.constant)]) = us at hterms
  split
  · exact IsOperand.side ⟨rfl, Expr.proper_int⟩
  · split
    · split
      · exact (hterms (_, _) (List.mem_singleton_self _)).side
      · have hs : ∀ a ∈ us.map Prod.snd, IsOperand a := by
          simpa only [List.forall_mem_map] using hterms
        refine ⟨.inl fun a ha => (hs a ha).1, Expr.proper_sum.2 fun a ha => (hs a ha).2, ?_⟩
        have := greatest_map_le fun a ha => (hs a ha).nesting.le
        rw [Expr.nesting_sum]
        omega
    · refine ⟨.inl fun u hu => (hterms u hu).1, Expr.proper_wsum.2 fun u hu => (hterms u hu).2, ?_⟩
      have := greatest_map_le fun u hu => (hterms u hu).nesting.le
      rw [Expr.nesting_wsum]
      omega

/-- What the affine form of an expression is built from without looking for
an operand for the whole expression. -/
def isLinearRoot : Expr → Bool
  | .sum _ | .wsum _ | .neg _ => true
  | .mul a b => a.isConstant || b.isConstant
  | _ => false

theorem mapped_constraint {c d : Constraint Expr} (h : Input t K (.constraint c))
    (hd : c.Related (fun a o => IsOperand o ∧ (a.isBool → o.isBool)) d) :
    (∀ a ∈ d.args, a.isSimple) ∧ (Expr.constraint d).Proper Any ∧ (Expr.constraint d).nesting 0 ≤ K := by
  have hargs : ∀ a ∈ d.args, IsOperand a := by
    intro b hb
    obtain ⟨a, -, ha⟩ := forall₂_mem_right hd.args hb
    exact ha.1
  refine ⟨fun a ha => (hargs a ha).1, Expr.proper_constraint.2
    ⟨hd.formed (fun a b hab => hab.2) (Expr.proper_constraint.1 h.proper).1,
      fun a ha => (hargs a ha).2⟩, ?_⟩
  have := h.nesting
  have := greatest_map_le fun a ha => (hargs a ha).nesting.le
  rw [Expr.nesting_constraint] at *
  rw [← Constraint.weight_eq hd.shape]
  omega

theorem any_output {ls : List Expr} (h : ∀ l ∈ ls, IsLiteral l) : Output K (.any ls) :=
  ⟨Expr.isFlat_any fun l hl => (h l hl).1,
    Expr.proper_any (fun l hl => Expr.isBool_of_isLiteral (h l hl).1) fun l hl => (h l hl).2,
    (Expr.nesting_any_le fun l hl => (h l hl).operand.nesting.le).trans (Nat.zero_le _)⟩

theorem any_truth {ls : List Expr} (h : ∀ l ∈ ls, IsLiteral l) : IsTruth K (.any ls) :=
  (Expr.isFlatTruth_any fun l hl => (h l hl).1).imp_left fun hf =>
    ⟨hf, (any_output (K := K) h).proper, (any_output h).nesting⟩

theorem all_truth {ls : List Expr} (h : ∀ l ∈ ls, IsLiteral l) : IsTruth K (.all ls) :=
  (Expr.isFlatTruth_all fun l hl => (h l hl).1).imp_left fun hf => ⟨hf,
    Expr.proper_all (fun l hl => Expr.isBool_of_isLiteral (h l hl).1) fun l hl => (h l hl).2,
    (Expr.nesting_all_le fun l hl => (h l hl).operand.nesting.le).trans (Nat.zero_le _)⟩

theorem isNot_negated_of_tripleFree {a : Expr} (hn : a.negated.isNot) (h : (Expr.not a).TripleFree)
    (hb : a.isBool) (hp : a.Proper Any) : IsGlobal a := by
  cases a with
  | constraint c => exact ⟨c, rfl⟩
  | not b =>
    rw [Expr.negated_not] at hn
    cases b with
    | not c => exact absurd rfl (h.here c)
    | _ => cases hn
  | var x => rw [Expr.negated_var hb] at hn; cases hn
  | bool _ => rw [Expr.negated_bool] at hn; cases hn
  | negVar _ => rw [Expr.negated_negVar] at hn; cases hn
  | and _ => rw [Expr.negated_and] at hn; cases hn
  | or _ => rw [Expr.negated_or] at hn; cases hn
  | implies _ _ => rw [Expr.negated_implies] at hn; cases hn
  | cmp _ _ _ => rw [Expr.negated_cmp] at hn; cases hn
  | call _ => exact absurd hp Expr.proper_call
  | int _ | sum _ | wsum _ | sub _ _ | mul _ _ | neg _ | function _ => cases hb

structure Shapes (t : Prop) (K depth : Nat) : Prop where
  constraint (e : Expr) : Input t K e → e.isBool → 20 * e.height + (if e.isNot then 3 else 2) ≤ depth →
    (constraint depth e).Yields True (Output K) fun es => ∀ f ∈ es, Output K f ∨ t ∧ f = .bool true
  truth (e : Expr) : Input t K e → e.isBool → 20 * e.height + (if e.isNot then 3 else 2) ≤ depth →
    (truth depth e).Yields True (Output K) fun b => IsTruth K b ∧ (IsGlobal e → IsGlobal b)
  literals (absorbing : Bool) (as : List Expr) :
    (∀ a ∈ as, Input t K a ∧ a.isBool ∧ 20 * a.height + 8 ≤ depth) → 0 < depth →
    (literals depth absorbing as).Yields True (Output K) fun ls? =>
      ∀ ls, ls? = some ls → ∀ l ∈ ls, IsLiteral l
  literal (e : Expr) : Input t K e → e.isBool → 20 * e.height + 6 ≤ depth →
    (literal depth e).Yields True (Output K) (IsLiteralOf e)
  comparison (lift : Bool) (r : Relation) (a b : Expr) : Input t K (.cmp r a b) →
    20 * a.height + 30 ≤ depth → 20 * b.height + 30 ≤ depth →
    (comparison depth lift r a b).Yields True (Output K) fun e =>
      IsTruth K e ∨ lift = false ∧ Output K e
  reification (lift : Bool) (r : Relation) (a b : Expr) : Input t K a → a.isBool → Input t K b →
    b.isBool → 20 * a.height + 28 ≤ depth → 20 * b.height + 28 ≤ depth →
    (reification depth lift r a b).Yields True (Output K) fun e =>
      IsTruth K e ∨ lift = false ∧ Output K e
  side (e : Expr) : Input t K e → 20 * e.height + 9 ≤ depth →
    (side depth e).Yields True (Output K) (IsSide K)
  affine (e : Expr) : Input t K e → isLinearRoot e → 20 * e.height + 4 ≤ depth →
    (affine depth e).Yields True (Output K) (IsSide K)
  addTo (f : Affine) (w : Int) (e : Expr) : IsForm f → Input t K e →
    20 * e.height + (if isLinearRoot e then 2 else 12) ≤ depth →
    (addTo depth f w e).Yields True (Output K) IsForm
  operand (e : Expr) : Input t K e → 20 * e.height + (if e.isBool then 5 else 10) ≤ depth →
    (operand depth e).Yields True (Output K) fun o =>
      IsOperand o ∧ (e.isBool → o.isBool) ∧ (IsGlobal e → IsLiteral o)

section

variable {depth : Nat} (ih : Shapes t K depth)

include ih

theorem literal_yields {e : Expr} (h : Input t K e) (hb : e.isBool)
    (hd : 20 * e.height + 6 ≤ depth + 1) :
    (literal (depth + 1) e).Yields True (Output K) (IsLiteralOf e) := by
  rw [literal]
  refine (ih.operand e h (by rw [if_pos hb]; omega)).bind fun o ho => .pure ?_
  rcases ho.1.literal (ho.2.1 hb) with hl | ⟨b, rfl⟩
  · left
    unfold toBool
    split
    · cases hl.1
    · exact hl
  · exact .inr ⟨fun hg => absurd (ho.2.2 hg).1 (by simp [Expr.isLiteral]), b, rfl⟩

theorem literals_yields {absorbing : Bool} {as : List Expr}
    (h : ∀ a ∈ as, Input t K a ∧ a.isBool ∧ 20 * a.height + 8 ≤ depth + 1) :
    (literals (depth + 1) absorbing as).Yields True (Output K) fun ls? =>
      ∀ ls, ls? = some ls → ∀ l ∈ ls, IsLiteral l := by
  rw [literals]
  split
  · exact .pure (by simp)
  · exact gather_yields fun a ha => ih.literal a (h a ha).1 (h a ha).2.1 (by have := (h a ha).2.2; omega)

theorem operand_yields {e : Expr} (h : Input t K e)
    (hd : 20 * e.height + (if e.isBool then 5 else 10) ≤ depth + 1) :
    (operand (depth + 1) e).Yields True (Output K) fun o =>
      IsOperand o ∧ (e.isBool → o.isBool) ∧ (IsGlobal e → IsLiteral o) := by
  rw [operand]
  split
  · rename_i hs
    refine .pure ⟨⟨hs, h.proper⟩, id, ?_⟩
    rintro ⟨c, rfl⟩
    cases hs
  · split
    · rename_i hb
      rw [if_pos hb] at hd
      refine (ih.truth e h hb (by split <;> omega)).bind fun f hf => (liftBool_yields hf.1).imp ?_
      rintro l (hl | ⟨hg, b, rfl⟩)
      · exact ⟨hl.operand, fun _ => Expr.isBool_of_isLiteral hl.1, fun _ => hl⟩
      · exact ⟨⟨rfl, Expr.proper_bool⟩, fun _ => rfl, fun h => absurd (hf.2 h) hg⟩
    · rename_i hb
      rw [if_neg hb] at hd
      refine (ih.side e h (by omega)).bind fun f hf => (liftInt_yields hf).imp fun o ho => ⟨ho, ?_, ?_⟩
      · exact fun h => absurd h hb
      · rintro ⟨c, rfl⟩
        exact absurd rfl hb

theorem args_operand {e : Expr} (h : Input t K e) (hn : e.isNot = false) (hd : 20 * e.height ≤ depth + 20) :
    ∀ a ∈ e.args, (operand depth a).Yields True (Output K) fun o =>
      IsOperand o ∧ (a.isBool → o.isBool) := by
  intro a ha
  have := Expr.height_arg ha hn
  exact (ih.operand a (h.arg ha) (by split <;> omega)).imp fun o ho => ⟨ho.1, ho.2.1⟩

theorem constraint_operands {c : Constraint Expr} (h : Input t K (.constraint c))
    (hd : 20 * (Expr.constraint c).height ≤ depth + 20) :
    (c.mapM (operand depth)).Yields True (Output K) fun d => (∀ a ∈ d.args, a.isSimple) ∧
      (Expr.constraint d).Proper Any ∧ (Expr.constraint d).nesting 0 ≤ K :=
  (Yields.constraint (args_operand ih h rfl hd)).imp fun _ => mapped_constraint h

theorem function_operands {g : Function Expr} (h : Input t K (.function g))
    (hd : 20 * (Expr.function g).height ≤ depth + 20) :
    (g.mapM (operand depth)).Yields True (Output K) fun k => IsSide K (.function k) := by
  refine (Yields.function (args_operand ih h rfl hd)).imp fun k hk => ?_
  have hargs : ∀ a ∈ k.args, IsOperand a := by
    intro b hb
    obtain ⟨a, -, ha⟩ := forall₂_mem_right hk.args hb
    exact ha.1
  refine ⟨.inl fun a ha => (hargs a ha).1, Expr.proper_function.2
    ⟨hk.formed (Expr.proper_function.1 h.proper).1, fun a ha => (hargs a ha).2⟩, ?_⟩
  have := h.nesting
  have := greatest_map_le fun a ha => (hargs a ha).nesting.le
  rw [Expr.nesting_function] at *
  omega

theorem list_literals {absorbing : Bool} {e : Expr} {as : List Expr} (h : Input t K e)
    (hn : e.isNot = false) (hargs : ∀ a ∈ as, a ∈ e.args) (hb : ∀ a ∈ as, a.isBool)
    (hd : 20 * e.height ≤ depth + 1) : (literals depth absorbing as).Yields True (Output K)
      fun ls? => ∀ ls, ls? = some ls → ∀ l ∈ ls, IsLiteral l := by
  have := e.one_le_height
  refine ih.literals absorbing as (fun a ha => ⟨h.arg (hargs a ha), hb a ha, ?_⟩) (by omega)
  have := Expr.height_arg (hargs a ha) hn
  omega

omit ih in
theorem Output.single {e : Expr} (h : Output K e) : ∀ f ∈ [e], Output K f ∨ t ∧ f = .bool true := by
  intro f hf
  rw [List.mem_singleton.1 hf]
  exact .inl h

theorem constraint_yields {e : Expr} (h : Input t K e) (hb : e.isBool)
    (hd : 20 * e.height + (if e.isNot then 3 else 2) ≤ depth + 1) :
    (constraint (depth + 1) e).Yields True (Output K) fun es =>
      ∀ f ∈ es, Output K f ∨ t ∧ f = .bool true := by
  cases e with
  | bool b =>
    cases b
    · exact .pure output_false.single
    · exact .pure (by simp)
  | var x =>
    change Yields _ _ (if x.isBool then pure [Expr.var x] else throw (.unsupported (.var x))) _
    rw [if_pos (show x.isBool from hb)]
    exact .pure (IsLiteral.output (l := .var x) ⟨hb, h.proper⟩).single
  | negVar x => exact .pure (IsLiteral.output ⟨rfl, h.proper⟩).single
  | and as =>
    rw [constraint]
    obtain ⟨hbs, -⟩ := Expr.proper_and.1 h.proper
    refine (Yields.mapM (R := fun _ es => ∀ f ∈ es, Output K f ∨ t ∧ f = .bool true)
      fun a ha => ?_).bind fun ess hess => .pure fun f hf => ?_
    · have := Expr.height_arg (e := .and as) ha rfl
      exact ih.constraint a (h.arg ha) (hbs a ha) (by split <;> omega)
    · obtain ⟨es, hes, hf⟩ := List.mem_flatten.1 hf
      obtain ⟨_, -, hall⟩ := forall₂_mem_right hess hes
      exact hall f hf
  | or as =>
    rw [constraint]
    obtain ⟨hbs, -⟩ := Expr.proper_or.1 h.proper
    refine (list_literals ih h rfl (fun a ha => ha) hbs (by omega)).bind fun ls? hls => .pure ?_
    cases ls? with
    | none => simp
    | some ls => exact (any_output (hls ls rfl)).single
  | implies a b =>
    rw [constraint]
    obtain ⟨⟨hba, hbb⟩, -⟩ := Expr.proper_implies.1 h.proper
    have hha := Expr.height_arg (e := .implies a b) (a := a) (by simp [Expr.args]) rfl
    have hhb := Expr.height_arg (e := .implies a b) (a := b) (by simp [Expr.args]) rfl
    have ha := h.arg (a := a) (by simp [Expr.args])
    have hb := h.arg (a := b) (by simp [Expr.args])
    refine (ih.literal a ha hba (by omega)).bind fun l hl => ?_
    split
    · exact .pure (by simp)
    · exact ih.constraint b hb hbb (by split <;> omega)
    · rename_i hf ht
      have hl : IsLiteral l := hl.resolve_right fun h => by obtain ⟨-, b, hb⟩ := h; cases b <;> simp_all
      refine (ih.truth b hb hbb (by split <;> omega)).bind fun f hf => ?_
      split
      · exact .pure (by simp)
      · exact .pure hl.negated.output.single
      · rename_i hbt hbf
        refine .pure fun g hg => .inl ?_
        rw [List.mem_singleton.1 hg]
        rcases hf.1 with ⟨hff, hp, hn⟩ | ⟨b, rfl⟩
        · refine ⟨⟨hl.1, hff⟩, Expr.proper_implies.2 ⟨⟨Expr.isBool_of_isLiteral hl.1, hf.1.isBool⟩, hl.2, hp⟩, ?_⟩
          rw [Expr.nesting_implies, hl.operand.nesting]
          omega
        · cases b
          · exact absurd rfl hbf
          · exact absurd rfl hbt
  | not a =>
    rw [constraint]
    have hba := (Expr.proper_not.1 h.proper).1
    have ha := h.arg (a := a) (by simp [Expr.args])
    have := Expr.height_negated_le a
    rw [Expr.height_not, if_pos (show (Expr.not a).isNot from rfl)] at hd
    split
    · rename_i hn
      refine (ih.literal a ha hba (by omega)).bind fun l hl => .pure fun f hf => ?_
      rw [List.mem_singleton.1 hf]
      rcases hl with hl | ⟨hg, b, rfl⟩
      · exact .inl hl.negated.output
      · cases b
        · exact .inr ⟨h.tripleFree.resolve_right fun ht =>
            hg (isNot_negated_of_tripleFree hn ht hba ha.proper), Expr.negated_bool false⟩
        · exact .inl (by rw [Expr.negated_bool]; exact output_false)
    · rename_i hn
      exact ih.constraint _ (ha.negated hba) (Expr.isBool_negated hba ha.proper) (by rw [if_neg hn]; omega)
  | cmp r a b =>
    rw [constraint]
    have hha := Expr.height_arg (e := .cmp r a b) (a := a) (by simp [Expr.args]) rfl
    have hhb := Expr.height_arg (e := .cmp r a b) (a := b) (by simp [Expr.args]) rfl
    refine (ih.comparison false r a b h (by omega) (by omega)).bind fun e he => .pure fun f hf => .inl ?_
    rcases he with he | ⟨-, he⟩
    · exact he.conjuncts f hf
    · exact he.conjuncts f hf
  | constraint c =>
    rw [constraint]
    refine (constraint_operands ih h (by omega)).bind fun d hd => .pure fun f hf => .inl ?_
    rw [List.mem_singleton.1 hf]
    exact ⟨hd.1, hd.2.1, hd.2.2⟩
  | call d => exact absurd h.proper Expr.proper_call
  | int _ | sum _ | wsum _ | sub _ _ | mul _ _ | neg _ | function _ => cases hb

theorem truth_yields {e : Expr} (h : Input t K e) (hb : e.isBool)
    (hd : 20 * e.height + (if e.isNot then 3 else 2) ≤ depth + 1) :
    (truth (depth + 1) e).Yields True (Output K) fun b => IsTruth K b ∧ (IsGlobal e → IsGlobal b) := by
  have other {x : Defining Expr} (hx : x.Yields True (Output K) (IsTruth K)) (he : ¬IsGlobal e) :
      x.Yields True (Output K) fun b => IsTruth K b ∧ (IsGlobal e → IsGlobal b) :=
    hx.imp fun b hb => ⟨hb, fun h => absurd h he⟩
  cases e with
  | bool b => exact other (.pure (.inr ⟨b, rfl⟩)) (by simp [IsGlobal])
  | var x => exact other (.pure (IsLiteral.truth ⟨hb, h.proper⟩)) (by simp [IsGlobal])
  | negVar x => exact other (.pure (IsLiteral.truth ⟨rfl, h.proper⟩)) (by simp [IsGlobal])
  | and as =>
    rw [truth]
    obtain ⟨hbs, -⟩ := Expr.proper_and.1 h.proper
    refine other ?_ (by simp [IsGlobal])
    refine (list_literals ih h rfl (fun a ha => ha) hbs (by omega)).bind fun ls? hls => .pure ?_
    cases ls? with
    | none => exact .inr ⟨false, rfl⟩
    | some ls => exact all_truth (hls ls rfl)
  | or as =>
    rw [truth]
    obtain ⟨hbs, -⟩ := Expr.proper_or.1 h.proper
    refine other ?_ (by simp [IsGlobal])
    refine (list_literals ih h rfl (fun a ha => ha) hbs (by omega)).bind fun ls? hls => .pure ?_
    cases ls? with
    | none => exact .inr ⟨true, rfl⟩
    | some ls => exact any_truth (hls ls rfl)
  | implies a b =>
    rw [truth]
    obtain ⟨⟨hba, hbb⟩, -⟩ := Expr.proper_implies.1 h.proper
    have hha := Expr.height_arg (e := .implies a b) (a := a) (by simp [Expr.args]) rfl
    have hhb := Expr.height_arg (e := .implies a b) (a := b) (by simp [Expr.args]) rfl
    have ha := h.arg (a := a) (by simp [Expr.args])
    have hb := h.arg (a := b) (by simp [Expr.args])
    have hn := Expr.height_negated_le a
    refine other ?_ (by simp [IsGlobal])
    refine (ih.literals true [a.negated, b] ?_ (by omega)).bind fun ls? hls => .pure ?_
    · simp only [List.forall_mem_cons, List.not_mem_nil, false_imp_iff, implies_true, and_true]
      exact ⟨⟨ha.negated hba, Expr.isBool_negated hba ha.proper, by omega⟩, hb, hbb, by omega⟩
    · cases ls? with
      | none => exact .inr ⟨true, rfl⟩
      | some ls => exact any_truth (hls ls rfl)
  | not a =>
    rw [truth]
    have hba := (Expr.proper_not.1 h.proper).1
    have ha := h.arg (a := a) (by simp [Expr.args])
    have := Expr.height_negated_le a
    rw [Expr.height_not, if_pos (show (Expr.not a).isNot from rfl)] at hd
    refine other ?_ (by simp [IsGlobal])
    split
    · refine (ih.literal a ha hba (by omega)).bind fun l hl => .pure ?_
      rcases hl with hl | ⟨-, b, rfl⟩
      · exact hl.negated.truth
      · exact .inr ⟨!b, Expr.negated_bool b⟩
    · rename_i hn
      exact (ih.truth _ (ha.negated hba) (Expr.isBool_negated hba ha.proper)
        (by rw [if_neg hn]; omega)).imp fun _ hf => hf.1
  | cmp r a b =>
    rw [truth]
    have hha := Expr.height_arg (e := .cmp r a b) (a := a) (by simp [Expr.args]) rfl
    have hhb := Expr.height_arg (e := .cmp r a b) (a := b) (by simp [Expr.args]) rfl
    refine other ?_ (by simp [IsGlobal])
    exact (ih.comparison true r a b h (by omega) (by omega)).imp fun e he =>
      he.resolve_right fun he => by cases he.1
  | constraint c =>
    rw [truth]
    refine (constraint_operands ih h (by omega)).bind fun d hd => .pure ⟨.inl hd, fun _ => ⟨d, rfl⟩⟩
  | call d => exact absurd h.proper Expr.proper_call
  | int _ | sum _ | wsum _ | sub _ _ | mul _ _ | neg _ | function _ => cases hb

theorem equality_yields {lift : Bool} {e l : Expr} (h : Input t K e) (hb : e.isBool)
    (hd : 20 * e.height + 23 ≤ depth) (hl : IsLiteral l ∨ ∃ b, l = .bool b) :
    (equality depth lift e l).Yields True (Output K) fun f =>
      IsTruth K f ∨ lift = false ∧ Output K f := by
  have := Expr.height_negated_le e
  unfold equality
  split
  · exact (ih.truth e h hb (by split <;> omega)).imp fun f hf => .inl hf.1
  · exact (ih.truth e.negated (h.negated hb) (Expr.isBool_negated hb h.proper) (by split <;> omega)).imp
      fun f hf => .inl hf.1
  · rename_i ht hf
    have hl : IsLiteral l := hl.resolve_right fun h => by obtain ⟨b, hb⟩ := h; cases b <;> simp_all
    refine (ih.truth e h hb (by split <;> omega)).bind fun f hf => ?_
    split
    · refine (liftBool_yields hf.1).bind fun g hg => .pure (.inl ?_)
      exact IsLiteral.equate (hg.imp_right And.right) hl
    · rename_i hlift
      exact Yields.bind (.pure hf.1) fun g hg =>
        .pure (.inr ⟨Bool.eq_false_of_not_eq_true hlift, hg.equate hl⟩)

theorem reification_yields {lift : Bool} {r : Relation} {a b : Expr} (ha : Input t K a) (hba : a.isBool)
    (hb : Input t K b) (hbb : b.isBool) (hda : 20 * a.height + 28 ≤ depth + 1)
    (hdb : 20 * b.height + 28 ≤ depth + 1) :
    (reification (depth + 1) lift r a b).Yields True (Output K) fun e =>
      IsTruth K e ∨ lift = false ∧ Output K e := by
  rw [reification_eq]
  have hpick : (reified depth a b).Yields True (Output K) fun p => (p.1 = a ∨ p.1 = b) ∧
      (IsLiteral p.2 ∨ ∃ b, p.2 = .bool b) := by
    unfold reified
    split
    · exact .pure ⟨.inr rfl, IsOperand.literal ⟨‹_›, ha.proper⟩ hba⟩
    · split
      · exact .pure ⟨.inl rfl, IsOperand.literal ⟨‹_›, hb.proper⟩ hbb⟩
      · exact (ih.literal b hb hbb (by omega)).bind fun l hl => .pure ⟨.inl rfl, hl.imp_right And.right⟩
  refine hpick.bind fun p hp => ?_
  have hl : IsLiteral (if r = .ne then p.2.negated else p.2) ∨
      ∃ b, (if r = .ne then p.2.negated else p.2) = .bool b := by
    split
    · rcases hp.2 with hl | ⟨b, hb⟩
      · exact .inl hl.negated
      · exact .inr ⟨!b, by rw [hb, Expr.negated_bool]⟩
    · exact hp.2
  rcases hp.1 with he | he <;> rw [he]
  · exact equality_yields ih ha hba (by omega) hl
  · exact equality_yields ih hb hbb (by omega) hl

theorem sides_yields {lift : Bool} {r : Relation} {a b : Expr} (ha : Input t K a) (hb : Input t K b)
    (hda : 20 * a.height + 29 ≤ depth) (hdb : 20 * b.height + 29 ≤ depth) :
    (sides depth lift (r, a, b)).Yields True (Output K) (IsTruth K) := by
  have hfirst : (firstSide depth lift a).Yields True (Output K) (IsSide K) := by
    refine (Yields.checked fun _ _ => trivial).bind fun lifted _ => ?_
    split
    · exact (ih.operand a ha (by split <;> omega)).imp fun o ho => ho.1.side
    · exact ih.side a ha (by omega)
  refine hfirst.bind fun a ha => (ih.operand b hb (by split <;> omega)).bind fun o ho => .pure ?_
  exact ha.compare ho.1.toInt

theorem comparison_yields {lift : Bool} {r : Relation} {a b : Expr} (h : Input t K (.cmp r a b))
    (hda : 20 * a.height + 30 ≤ depth + 1) (hdb : 20 * b.height + 30 ≤ depth + 1) :
    (comparison (depth + 1) lift r a b).Yields True (Output K) fun e =>
      IsTruth K e ∨ lift = false ∧ Output K e := by
  have ha := h.arg (a := a) (by simp [Expr.args])
  have hb := h.arg (a := b) (by simp [Expr.args])
  rw [comparison_eq]
  split
  · exact .pure (.inl (.inr ⟨_, rfl⟩))
  · split
    · rename_i hr
      simp only [isReification, Bool.and_eq_true] at hr
      exact ih.reification lift r a b ha hr.1.1.2 hb hr.1.2 (by omega) (by omega)
    · unfold orient
      split
      · exact (sides_yields ih hb ha (by omega) (by omega)).imp fun _ h => .inl h
      · exact (sides_yields ih ha hb (by omega) (by omega)).imp fun _ h => .inl h

theorem affine_yields {e : Expr} (h : Input t K e) (hl : isLinearRoot e)
    (hd : 20 * e.height + 4 ≤ depth + 1) :
    (affine (depth + 1) e).Yields True (Output K) (IsSide K) := by
  rw [affine]
  refine (ih.addTo .zero 1 e (by simp [IsForm, Affine.zero]) h (by rw [if_pos hl]; omega)).bind ?_
  exact fun f hf => .pure hf.toExpr

theorem addTo_yields {f : Affine} {w : Int} {e : Expr} (hf : IsForm f) (h : Input t K e)
    (hd : 20 * e.height + (if isLinearRoot e then 2 else 12) ≤ depth + 1) :
    (addTo (depth + 1) f w e).Yields True (Output K) IsForm := by
  have arg {a : Expr} (hn : e.isNot = false) (ha : a ∈ e.args) (f : Affine) (w : Int) (hf : IsForm f) :
      (addTo depth f w a).Yields True (Output K) IsForm := by
    have := Expr.height_arg ha hn
    exact ih.addTo f w a hf (h.arg ha) (by split <;> split at hd <;> omega)
  have whole (hr : isLinearRoot e = false) :
      (do (f.addMultiple w (← operand depth e) : Checked Affine) : Defining Affine).Yields True
        (Output K) IsForm := by
    rw [hr] at hd
    refine (ih.operand e h (by split <;> simp at hd <;> omega)).bind fun o ho => ?_
    exact .checked fun g hg => hf.addMultiple ho.1 hg
  cases e with
  | sum as =>
    rw [addTo]
    exact Yields.foldlM (fun a ha f hf => arg rfl ha f w hf) hf
  | wsum ts =>
    rw [addTo]
    refine Yields.foldlM (fun u hu f hf => ?_) hf
    exact (Yields.checked fun _ _ => trivial).bind fun v _ =>
      arg rfl (List.mem_map_of_mem hu) f v hf
  | neg a =>
    rw [addTo]
    exact (Yields.checked fun _ _ => trivial).bind fun v _ => arg rfl (by simp [Expr.args]) f v hf
  | mul a b =>
    rw [addTo]
    split
    · exact (Yields.checked fun _ _ => trivial).bind fun v _ => arg rfl (by simp [Expr.args]) f v hf
    · exact (Yields.checked fun _ _ => trivial).bind fun v _ => arg rfl (by simp [Expr.args]) f v hf
    · rename_i ha hb
      exact whole (by simp [isLinearRoot, Expr.isConstant, ha, hb])
  | bool _ | int _ | var _ | negVar _ | and _ | or _ | implies _ _ | not _ | sub _ _ | cmp _ _ _
  | constraint _ | function _ | call _ =>
    rw [addTo] <;> first | exact whole rfl | simp

theorem side_yields {e : Expr} (h : Input t K e) (hd : 20 * e.height + 9 ≤ depth + 1) :
    (side (depth + 1) e).Yields True (Output K) (IsSide K) := by
  have hboolean (hb : e.isBool) : (operand depth e).Yields True (Output K) (IsSide K) :=
    (ih.operand e h (by rw [if_pos hb]; omega)).imp fun o ho => ho.1.side
  cases e with
  | bool _ | int _ | var _ | negVar _ => exact .pure (IsOperand.side ⟨rfl, h.proper⟩)
  | sum as | wsum ts | neg a =>
    rw [side]
    exact ih.affine _ h rfl (by omega)
  | mul a b =>
    rw [side]
    have hha := Expr.height_arg (e := .mul a b) (a := a) (by simp [Expr.args]) rfl
    have hhb := Expr.height_arg (e := .mul a b) (a := b) (by simp [Expr.args]) rfl
    have := a.one_le_height
    split
    · exact ih.affine _ h ‹_› (by omega)
    · refine (ih.operand a (h.arg (by simp [Expr.args])) (by split <;> omega)).bind fun x hx => ?_
      refine (ih.operand b (h.arg (by simp [Expr.args])) (by split <;> omega)).bind fun y hy => ?_
      have hp : (Expr.mul x y).Proper Any := Expr.proper_mul.2 ⟨hx.1.2, hy.1.2⟩
      have hn : (Expr.mul x y).nesting 0 ≤ K := by
        rw [Expr.nesting_mul, hx.1.nesting, hy.1.nesting]
        omega
      split
      · rename_i hc
        refine ih.affine _ ⟨hp, hn, .inr ?_⟩ hc ?_
        · refine Expr.tripleFree_iff.2 ⟨by simp, fun z hz => ?_⟩
          simp only [Expr.args, List.mem_cons, List.not_mem_nil, or_false] at hz
          rcases hz with rfl | rfl
          · exact Expr.tripleFree_of_isSimple hx.1.1
          · exact Expr.tripleFree_of_isSimple hy.1.1
        · rw [Expr.height_eq rfl rfl]
          simp only [Expr.args, List.map_cons, List.map_nil, Expr.height_of_isSimple hx.1.1,
            Expr.height_of_isSimple hy.1.1, greatest, List.foldr_cons, List.foldr_nil]
          omega
      · exact .pure ⟨.inl ⟨hx.1.1, hy.1.1⟩, hp, hn⟩
  | sub a b =>
    rw [side]
    have hha := Expr.height_arg (e := .sub a b) (a := a) (by simp [Expr.args]) rfl
    have hhb := Expr.height_arg (e := .sub a b) (a := b) (by simp [Expr.args]) rfl
    refine (ih.operand a (h.arg (by simp [Expr.args])) (by split <;> omega)).bind fun x hx => ?_
    refine (ih.operand b (h.arg (by simp [Expr.args])) (by split <;> omega)).bind fun y hy => .pure ?_
    refine ⟨.inl ⟨hx.1.1, hy.1.1⟩, Expr.proper_sub.2 ⟨hx.1.2, hy.1.2⟩, ?_⟩
    rw [Expr.nesting_sub, hx.1.nesting, hy.1.nesting]
    omega
  | function g =>
    rw [side]
    exact (function_operands ih h (by omega)).bind fun k hk => .pure hk
  | and _ | or _ | implies _ _ | not _ | cmp _ _ _ | constraint _ | call _ =>
    rw [side]
    exact hboolean rfl

end

theorem shapes (t : Prop) (K depth : Nat) : Shapes t K depth := by
  induction depth with
  | zero => exact {
      constraint := fun e _ _ h => absurd h (by split <;> omega)
      truth := fun e _ _ h => absurd h (by split <;> omega)
      literals := fun _ _ _ h => absurd h (by omega)
      literal := fun e _ _ h => absurd h (by omega)
      comparison := fun _ _ a b _ h _ => absurd h (by omega)
      reification := fun _ _ a b _ _ _ _ h _ => absurd h (by omega)
      side := fun e _ h => absurd h (by omega)
      affine := fun e _ _ h => absurd h (by omega)
      addTo := fun _ _ e _ _ h => absurd h (by split <;> omega)
      operand := fun e _ h => absurd h (by split <;> omega) }
  | succ depth ih => exact {
      constraint := fun _ => constraint_yields ih
      truth := fun _ => truth_yields ih
      literals := fun _ _ h _ => literals_yields ih h
      literal := fun _ => literal_yields ih
      comparison := fun _ _ _ _ => comparison_yields ih
      reification := fun _ _ _ _ => reification_yields ih
      side := fun _ => side_yields ih
      affine := fun _ => affine_yields ih
      addTo := fun _ _ _ => addTo_yields ih
      operand := fun _ => operand_yields ih }

end Flat

/-- A flattened list of constraints is flat. The constant `true` is in it only
when it comes from a negation of a negation of a negation. -/
theorem flatten_yields {t : Prop} {K : Nat} {cs : List Expr}
    (h : ∀ c ∈ topLevel cs, Flat.Input t K c ∧ c.isBool) :
    (flatten cs).Yields True fun fs => ∀ f ∈ fs, Flat.Output K f ∨ t ∧ f = .bool true := by
  refine (Lowering.Yields.mapM
    (R := fun _ fs => ∀ f ∈ fs, Flat.Output K f ∨ t ∧ f = .bool true) fun e he => ?_).bind ?_
  · refine ((Flat.shapes t K (Flat.depth e)).constraint e (h e he).1 (h e he).2 ?_).collect.bind ?_
    · unfold Flat.depth
      split <;> omega
    · rintro ⟨flat, definitions⟩ hp
      refine .pure fun f hf => ?_
      rcases List.mem_append.1 hf with hf | hf
      · exact hp.1 f hf
      · exact .inl (hp.2 f hf)
  · refine fun parts hparts => .pure fun f hf => ?_
    obtain ⟨fs, hfs, hf⟩ := List.mem_flatten.1 hf
    obtain ⟨_, -, hall⟩ := forall₂_mem_right hparts hfs
    exact hall f hf

end ConstraintModel
