import ConstraintModel.Proofs.LinearShape
import ConstraintModel.Proofs.SupportedConfined

namespace ConstraintModel

open ConstraintModel.Expr (Uses)
open Lowering (Stays)

section

variable {B : Start} {σ : Store} {cs : List Expr} {e b : Expr} {r : Relation}

theorem flatten_keeps (h : B.Keeps cs σ) : (flatten cs).Stays B σ B.Keeps := by
  refine (flatten_stays (K := greatest (cs.map (Expr.nesting 0))) fun c hc =>
    (h c hc).sized (le_greatest_map hc)).imp ?_
  exact fun _ _ _ hfs f hf => (hfs f hf).uses

theorem function_keeps {g : Function Expr} (hg : (Expr.function g).Uses (B.Allows σ)) (hb : b.Uses (B.Allows σ)) :
    (g.decompose r b).Stays B σ fun d τ => B.Keeps d.toList τ := by
  refine (Supported.function_parts_stays (Expr.uses_cmp.2 ⟨hg, hb⟩)).imp fun d τ _ hd => ?_
  obtain ⟨_, -, hd⟩ := hd
  exact fun e he => (hd e he).uses

/-- The two implications weigh what the reification does. -/
theorem Guarded.constraint_stays {K : Nat} (h : e.Sized (B.Allows σ) 0 K) :
    (Guarded.constraint e).Stays B σ fun fs τ => ∀ f ∈ fs, f.Sized (B.Allows τ) 0 K := by
  have same : Stays B (Pure.pure [e]) σ fun fs τ => ∀ f ∈ fs, f.Sized (B.Allows τ) 0 K :=
    .pure (List.forall_mem_singleton.2 h)
  unfold Guarded.constraint
  split
  · rename_i a l
    obtain ⟨ha, hl⟩ := Expr.uses_cmp.1 h.uses
    have hle := h.nesting
    rw [Expr.nesting_cmp] at hle
    have hla : (Expr.implies l a).Sized (B.Allows σ) 0 K :=
      .implies False.elim (hl.sized le_rfl) (ha.sized le_rfl) (by omega)
    have hnegated : (Expr.implies l.negated a.negated).Sized (B.Allows σ) 0 K :=
      .implies False.elim ((hl.sized le_rfl).negated False.elim) ((ha.sized le_rfl).negated False.elim) (by omega)
    split
    · exact flatten_stays (List.forall_mem_cons.2 ⟨hla, List.forall_mem_singleton.2 hnegated⟩)
    · exact same
  · exact same

theorem splitReifications_stays {K : Nat} (h : ∀ c ∈ cs, c.Sized (B.Allows σ) 0 K) :
    (splitReifications cs).Stays B σ fun fs τ => ∀ f ∈ fs, f.Sized (B.Allows τ) 0 K := by
  refine Stays.bind (Stays.forall_flatten (fun _ _ _ hg h => h.grow hg) fun c hc _ hg => ?_) fun _ _ _ hes => .pure hes
  exact Guarded.constraint_stays ((h c hc).grow hg)

theorem splitReifications_keeps (h : B.Keeps cs σ) : (splitReifications cs).Stays B σ B.Keeps := by
  refine (splitReifications_stays (K := greatest (cs.map (Expr.nesting 0))) fun c hc =>
    (h c hc).sized (le_greatest_map hc)).imp ?_
  exact fun _ _ _ hfs f hf => (hfs f hf).uses

end

namespace Linear

section

variable {V : Variable → Prop} {e a b : Expr} {ts kept : List (Int × Expr)} {k : Int}

theorem uses_ofTerms (h : ∀ t ∈ ts, t.2.Uses V) : (Expr.ofTerms ts).Uses V := by
  unfold Expr.ofTerms
  split
  · exact Expr.uses_sum.2 (List.forall_mem_map.2 h)
  · exact Expr.uses_wsum.2 h

theorem uses_asTerms? (h : asTerms? a = some ts) (ha : a.Uses V) : ∀ t ∈ ts, t.2.Uses V :=
  fun t ht => ha.arg (args_of_asTerms? h t ht)

theorem uses_terms? (h : a.terms? = some ts) (ha : a.Uses V) : ∀ t ∈ ts, t.2.Uses V := by
  cases a with
  | sum as =>
    cases h
    exact List.forall_mem_map.2 (Expr.uses_sum.1 ha)
  | wsum us =>
    cases h
    exact Expr.uses_wsum.1 ha
  | _ => cases h

theorem uses_subtract (hts : ∀ t ∈ ts, t.2.Uses V) (hb : b.Uses V) : ∀ t ∈ (subtract ts b).1, t.2.Uses V := by
  unfold subtract
  split
  · exact hts
  · exact List.forall_mem_append.2 ⟨hts, List.forall_mem_singleton.2 hb⟩

end

variable {caps : Capabilities} {B : Start} {σ τ : Store} {depth : Nat} {reified : Bool} {r : Relation}
  {e l a b : Expr} {as cs : List Expr} {ts : List (Int × Expr)}

abbrev Runs {α : Type} (B : Start) (x : Defining α) (σ : Store) (Q : α → Store → Prop) : Prop := Carries B B.uses x σ Q

theorem decided_runs {holds : Bool} : Runs B (Pure.pure (decided holds)) σ B.Keeps := by
  refine .pure ?_
  cases holds
  · exact .single Expr.uses_bool
  · exact List.forall_mem_nil _

theorem separated_runs {k : Int} {range : Bounds} (hts : ∀ t ∈ ts, t.2.Uses (B.Allows σ))
    (hz : e.Uses (B.Allows σ)) : Runs B (separated ts k e range : Checked (List Expr)) σ B.Keeps := by
  refine .checked fun es hes => ?_
  obtain ⟨m, -, rfl⟩ := separated_eq_ok hes
  have hsum : (Expr.wsum (ts ++ [(-m, e)])).Uses (B.Allows σ) :=
    Expr.uses_wsum.2 (List.forall_mem_append.2 ⟨hts, List.forall_mem_singleton.2 hz⟩)
  exact List.forall_mem_cons.2 ⟨Expr.uses_cmp.2 ⟨hsum, Expr.uses_int⟩,
    List.forall_mem_singleton.2 (Expr.uses_cmp.2 ⟨hsum, Expr.uses_int⟩)⟩

theorem bools_runs (n : Nat) : Runs B (freshBools n : Defining (List Expr)) σ B.Keeps := .lift (.freshBools n)

structure Kept (caps : Capabilities) (a : Expr) : Prop where
  constant : a.constant? = none
  linear : ∀ g, a = .function g → caps.isLinear g.name

/-- The nesting of a comparison if its function has to be decomposed. -/
def burden (caps : Capabilities) : Expr → Nat
  | .cmp _ (.function g) b => if caps.isLinear g.name then 0 else (Expr.function g).nesting 0 + b.nesting 0
  | _ => 0

/-! The depths that suffice for a relation between linear sides, for a
comparison, and for a constraint. A round of decomposing and flattening takes
off at least one from the nesting, and what happens between two rounds goes down
by less than 24. -/

def relationDepth (reified : Bool) : Relation → Nat
  | .eq | .le | .ge => 1
  | .lt | .gt => 5
  | .ne => if reified then 6 else 13

def comparisonDepth (caps : Capabilities) (reified : Bool) (r : Relation) (a b : Expr) : Nat :=
  relationDepth reified r + (if a.isConstant then 3 else 2) +
    if reified then 0 else 24 * if a.isConstant then burden caps (.cmp r b a) else burden caps (.cmp r a b)

def constraintDepth (caps : Capabilities) (reified : Bool) : Expr → Nat
  | .implies _ a => if reified then 1 else 24 * burden caps a + 13
  | .cmp r a b => comparisonDepth caps reified r a b + 1
  | _ => 5

theorem kept_sum : Kept caps (.sum as) := ⟨rfl, by simp⟩

theorem kept_wsum : Kept caps (.wsum ts) := ⟨rfl, by simp⟩

theorem kept_ofTerms : Kept caps (.ofTerms ts) := by
  unfold Expr.ofTerms
  split
  · exact kept_sum
  · exact kept_wsum

theorem burden_le (caps : Capabilities) (e : Expr) : burden caps e ≤ e.nesting 0 := by
  unfold burden
  split
  · rw [Expr.nesting_cmp]
    split <;> omega
  · exact Nat.zero_le _

theorem burden_cmp (r s : Relation) : burden caps (.cmp r a b) = burden caps (.cmp s a b) := by
  cases a <;> rfl

theorem Kept.burden (h : Kept caps a) : burden caps (.cmp r a b) = 0 := by
  cases a with
  | function g => exact if_pos (h.linear g rfl)
  | _ => rfl

theorem burden_of_nonlinear? {g : Function Expr} (h : nonlinear? caps e = some (g, r, b)) :
    burden caps e = e.nesting 0 := by
  obtain rfl := nonlinear?_eq h
  by_cases hlinear : caps.isLinear g.name
  · rw [nonlinear?, if_pos hlinear] at h
    cases h
  · rw [burden, if_neg hlinear, Expr.nesting_cmp]
    omega

theorem relationDepth_pos : 0 < relationDepth reified r := by
  cases r <;> cases reified <;> decide

theorem relationDepth_converse : relationDepth reified r.converse = relationDepth reified r := by
  cases r <;> rfl

theorem relationDepth_le : relationDepth reified r ≤ if reified then 6 else 13 := by
  cases r <;> cases reified <;> decide

theorem Kept.comparisonDepth (h : Kept caps a) :
    comparisonDepth caps reified r a b = relationDepth reified r + 2 := by
  unfold Linear.comparisonDepth
  simp [Expr.isConstant, h.constant, h.burden]

/-- Exchanging the sides takes one step. -/
theorem comparisonDepth_converse {n : Int} (ha : a.constant? = some n) (hb : b.constant? = none) :
    comparisonDepth caps reified r a b = comparisonDepth caps reified r.converse b a + 1 := by
  unfold comparisonDepth
  simp only [Expr.isConstant, ha, hb, relationDepth_converse, burden_cmp r.converse r]
  simp only [Option.isSome_some, Option.isSome_none, if_true, Bool.false_eq_true, if_false]
  omega

theorem relationDepth_le_comparisonDepth : relationDepth reified r + 2 ≤ comparisonDepth caps reified r a b := by
  unfold comparisonDepth
  split <;> omega

theorem comparisonDepth_function {g : Function Expr} (h : ¬caps.isLinear g.name) :
    (if reified then 1 else 24 * (Expr.cmp r (.function g) b).nesting 0) <
      comparisonDepth caps reified r (.function g) b := by
  have hpos : 0 < relationDepth reified r := relationDepth_pos
  unfold comparisonDepth
  rw [burden, if_neg h, Expr.nesting_cmp]
  cases reified
  · simp only [Expr.isConstant, Expr.constant?, Option.isSome_none, Bool.false_eq_true, if_false]
    omega
  · simp only [Expr.isConstant, Expr.constant?, Option.isSome_none, Bool.false_eq_true, if_false, if_true]
    omega

theorem comparisonDepth_le :
    comparisonDepth caps reified r a b ≤ if reified then 9 else 24 * (Expr.cmp r a b).nesting 0 + 16 := by
  have hr : relationDepth reified r ≤ _ := relationDepth_le
  have hab := burden_le caps (.cmp r a b)
  have hba := burden_le caps (.cmp r b a)
  rw [Expr.nesting_cmp] at *
  unfold comparisonDepth
  cases reified <;> cases a.isConstant <;> simp only [Bool.false_eq_true, if_false, if_true] at * <;> omega

theorem constraintDepth_reified : constraintDepth caps true e ≤ 10 := by
  unfold constraintDepth
  split
  · simp
  · exact Nat.succ_le_succ comparisonDepth_le
  · decide

theorem constraintDepth_le : constraintDepth caps false e ≤ 24 * e.nesting 0 + 17 := by
  unfold constraintDepth
  split
  · rename_i l a
    have ha := burden_le caps a
    rw [Expr.nesting_implies, if_neg Bool.false_ne_true]
    omega
  · exact Nat.succ_le_succ comparisonDepth_le
  · omega

theorem constraintDepth_pos : 0 < constraintDepth caps reified e := by
  unfold constraintDepth
  split
  · split <;> omega
  · omega
  · decide

theorem constraintDepth_negated (h : l.isLiteral) : constraintDepth caps reified l.negated = 5 := by
  cases l with
  | var x =>
    rw [Expr.negated]
    split <;> rfl
  | negVar x =>
    rw [Expr.negated_negVar]
    rfl
  | _ => cases h

structure Confined (caps : Capabilities) (B : Start) (depth : Nat) : Prop where
  constraint (σ : Store) (reified : Bool) (e : Expr) : e.Uses (B.Allows σ) → constraintDepth caps reified e ≤ depth →
    Runs B (constraint caps depth reified e) σ B.Keeps
  implication (σ : Store) (l a : Expr) : l.Uses (B.Allows σ) → a.Uses (B.Allows σ) → 24 * burden caps a + 12 ≤ depth →
    Runs B (implication caps depth l a) σ B.Keeps
  guarded (σ : Store) (l a : Expr) : l.isLiteral → l.Uses (B.Allows σ) → a.Uses (B.Allows σ) → 11 ≤ depth →
    Runs B (guarded caps depth l a) σ B.Keeps
  comparison (σ : Store) (reified : Bool) (r : Relation) (a b : Expr) : a.Uses (B.Allows σ) →
    b.Uses (B.Allows σ) → comparisonDepth caps reified r a b ≤ depth →
    Runs B (comparison caps depth reified r a b) σ B.Keeps
  sum (σ : Store) (reified : Bool) (r : Relation) (ts : List (Int × Expr)) (b : Expr) :
    (∀ t ∈ ts, t.2.Uses (B.Allows σ)) → b.Uses (B.Allows σ) → relationDepth reified r + 1 ≤ depth →
    Runs B (sum caps depth reified r ts b) σ B.Keeps
  relation (σ : Store) (reified : Bool) (r : Relation) (a b : Expr) : Kept caps a → a.Uses (B.Allows σ) →
    b.Uses (B.Allows σ) → relationDepth reified r ≤ depth → Runs B (relation caps depth reified r a b) σ B.Keeps
  strict (σ : Store) (reified : Bool) (r : Relation) (delta : Int) (a b : Expr) : Kept caps a →
    a.Uses (B.Allows σ) → b.Uses (B.Allows σ) → relationDepth reified r + 3 ≤ depth →
    Runs B (strict caps depth reified r delta a b) σ B.Keeps
  bigM (σ : Store) (a b : Expr) : Kept caps a → a.Uses (B.Allows σ) → b.Uses (B.Allows σ) → 5 ≤ depth →
    Runs B (bigM caps depth a b) σ B.Keeps
  termsOf (σ : Store) (a : Expr) : Kept caps a → a.Uses (B.Allows σ) → 4 ≤ depth →
    Runs B (termsOf caps depth a) σ fun p τ => (∀ t ∈ p.1, t.2.Uses (B.Allows τ)) ∧ B.Keeps p.2 τ
  functionComparison (σ : Store) (reified : Bool) (g : Function Expr) (r : Relation) (b : Expr) :
    (Expr.cmp r (.function g) b).Uses (B.Allows σ) →
    (if reified then 1 else 24 * (Expr.cmp r (.function g) b).nesting 0) ≤ depth →
    Runs B (functionComparison caps depth reified g r b) σ B.Keeps
  element (σ : Store) (as : List Expr) (i : Expr) (r : Relation) (b : Expr) : B.Keeps as σ →
    i.Uses (B.Allows σ) → b.Uses (B.Allows σ) →
    24 * (Expr.cmp r (.function (.element as i)) b).nesting 0 ≤ depth + 1 →
    Runs B (element caps depth as i r b) σ B.Keeps
  allDifferent (σ : Store) (as : List Expr) : B.Keeps as σ → 4 ≤ depth →
    Runs B (allDifferent caps depth as) σ B.Keeps
  reformulate (σ : Store) (cs : List Expr) (K : Nat) : (∀ c ∈ cs, c.Sized (B.Allows σ) 0 K) → 24 * K + 18 ≤ depth →
    Runs B (reformulate caps depth cs) σ B.Keeps

section

variable (ih : Confined caps B depth)

include ih

theorem constraint_runs (he : e.Uses (B.Allows σ)) (hdepth : constraintDepth caps reified e ≤ depth + 1) :
    Runs B (constraint caps (depth + 1) reified e) σ B.Keeps := by
  have single : Runs B (Pure.pure [e]) σ B.Keeps := .pure (.single he)
  have count {as : List Expr} {n : Int} (has : ∀ a ∈ as, a.Uses (B.Allows σ)) (h : 5 ≤ depth + 1) :
      Runs B (comparison caps depth reified .ge (.sum as) (.int n)) σ B.Keeps := by
    refine ih.comparison σ reified .ge (.sum as) (.int n) (Expr.uses_sum.2 has) Expr.uses_int ?_
    rw [kept_sum.comparisonDepth, relationDepth]
    omega
  cases e with
  | bool b =>
    rw [constraint]
    exact decided_runs
  | var x =>
    rw [constraint]
    split
    · exact .pure (.single (by simpa using he))
    · exact .throw (by simp)
  | negVar x =>
    rw [constraint]
    exact .pure (.single (by simpa using he))
  | and as =>
    rw [constraint]
    exact count (Expr.uses_and.1 he) hdepth
  | or as =>
    rw [constraint]
    exact count (Expr.uses_or.1 he) hdepth
  | implies l a =>
    rw [constraint]
    obtain ⟨hl, ha⟩ := Expr.uses_implies.1 he
    split
    · exact .throw (by simp)
    · rename_i hr
      rw [constraintDepth, if_neg hr] at hdepth
      exact ih.implication σ l a hl ha (by omega)
  | cmp r a b =>
    rw [constraint]
    obtain ⟨ha, hb⟩ := Expr.uses_cmp.1 he
    exact ih.comparison σ reified r a b ha hb (Nat.le_of_succ_le_succ hdepth)
  | constraint c =>
    unfold constraint
    dsimp only
    split
    · exact single
    · split
      · split
        · exact .throw (by simp)
        · exact ih.allDifferent σ _ (Expr.uses_constraint.1 he) (Nat.le_of_succ_le_succ hdepth)
      · exact .throw (by simp)
  | call d =>
    rw [constraint]
    exact single
  | int _ | not _ | sum _ | wsum _ | sub _ _ | mul _ _ | neg _ | function _ =>
    rw [constraint]
    exact .throw (by simp)

theorem implication_runs (hl : l.Uses (B.Allows σ)) (ha : a.Uses (B.Allows σ))
    (hdepth : 24 * burden caps a + 12 ≤ depth + 1) : Runs B (implication caps (depth + 1) l a) σ B.Keeps := by
  rw [implication]
  split
  · exact .throw (by simp)
  · rename_i hliteral
    have hliteral : l.isLiteral := by simpa using hliteral
    split
    · refine ih.constraint σ false _ (Expr.uses_any.2 ?_) (show 5 ≤ depth by omega)
      exact List.forall_mem_cons.2 ⟨Expr.uses_negated hl, List.forall_mem_singleton.2 ha⟩
    · split
      · rename_i g r b hg
        rw [burden_of_nonlinear? hg] at hdepth
        obtain rfl := nonlinear?_eq hg
        refine (Carries.lift (Supported.function_parts_stays ha)).bind fun d τ hτ hd => ?_
        obtain ⟨K, hK, hd⟩ := hd
        have hguard : l.Sized (B.Allows τ) 0 0 :=
          (hl.grow hτ).sized (Expr.nesting_of_isSimple (Expr.isSimple_of_isLiteral hliteral)).le
        refine ih.reformulate τ _ K (Supported.reified_sized (l := 0) (f := .implies l) hd fun e he => ?_) (by omega)
        exact .implies False.elim hguard he (by omega)
      · exact ih.guarded σ l a hliteral hl ha (by omega)

theorem guarded_runs (hliteral : l.isLiteral) (hl : l.Uses (B.Allows σ)) (ha : a.Uses (B.Allows σ))
    (hdepth : 11 ≤ depth + 1) : Runs B (guarded caps (depth + 1) l a) σ B.Keeps := by
  rw [guarded]
  have hreified : constraintDepth caps true a ≤ 10 := constraintDepth_reified
  refine (ih.constraint σ true a ha (by omega)).bind fun es τ hg hes => ?_
  split
  · exact ih.constraint τ false _ (Expr.uses_negated (hl.grow hg)) (by rw [constraintDepth_negated hliteral]; omega)
  · exact .pure (List.forall_mem_map.2 fun e he => Expr.uses_implies.2 ⟨hl.grow hg, hes e he⟩)

/-- The sides of a comparison are exchanged at most once. -/
theorem comparison_runs (ha : a.Uses (B.Allows σ)) (hb : b.Uses (B.Allows σ))
    (hdepth : comparisonDepth caps reified r a b ≤ depth + 1) :
    Runs B (comparison caps (depth + 1) reified r a b) σ B.Keeps := by
  unfold comparison
  split
  · exact decided_runs
  · rename_i hm hn
    rw [comparisonDepth_converse hm hn] at hdepth
    exact ih.comparison σ reified r.converse b a hb ha (Nat.le_of_succ_le_succ hdepth)
  · rename_i hm
    have hrelation : relationDepth reified r + 1 ≤ depth :=
      Nat.le_of_succ_le_succ (relationDepth_le_comparisonDepth.trans hdepth)
    split
    · exact .pure (.single (by simpa using ⟨ha, hb⟩))
    · have reference {a : Expr} (hkept : Kept caps a) (ha : a.Uses (B.Allows σ)) : Runs B (if b.isConstant then
          relation caps depth reified r a b else sum caps depth reified r [(1, a)] b) σ B.Keeps := by
        split
        · exact ih.relation σ reified r a b hkept ha hb (by omega)
        · exact ih.sum σ reified r [(1, a)] b (List.forall_mem_singleton.2 ha) hb hrelation
      split
      · exact reference ⟨rfl, by simp⟩ ha
      · exact reference ⟨rfl, by simp⟩ ha
      · split
        · rename_i hlinear
          exact ih.relation σ reified r _ b ⟨rfl, by rintro g ⟨⟩; exact hlinear⟩ ha hb (by omega)
        · rename_i hlinear
          exact ih.functionComparison σ reified _ r b (Expr.uses_cmp.2 ⟨ha, hb⟩)
            (Nat.le_of_lt_succ ((comparisonDepth_function hlinear).trans_le hdepth))
      · rename_i hfunction
        split
        · exact ih.sum σ reified r _ b (uses_asTerms? ‹_› ha) hb hrelation
        · split
          · exact ih.relation σ reified r _ b ⟨hm, fun g hg => absurd hg (hfunction g)⟩ ha hb (by omega)
          · exact .throw (by simp)

theorem sum_runs (hts : ∀ t ∈ ts, t.2.Uses (B.Allows σ)) (hb : b.Uses (B.Allows σ))
    (hdepth : relationDepth reified r + 1 ≤ depth + 1) : Runs B (sum caps (depth + 1) reified r ts b) σ B.Keeps := by
  rw [sum]
  refine Carries.checked_bind fun p hp => ?_
  dsimp only
  split
  · exact decided_runs
  · exact ih.relation σ reified r _ _ kept_ofTerms (uses_ofTerms (forall_balance hp hts hb)) Expr.uses_int
      (Nat.le_of_succ_le_succ hdepth)

theorem relation_runs (hkept : Kept caps a) (ha : a.Uses (B.Allows σ)) (hb : b.Uses (B.Allows σ))
    (hdepth : relationDepth reified r ≤ depth + 1) : Runs B (relation caps (depth + 1) reified r a b) σ B.Keeps := by
  have same {r : Relation} : Runs B (Pure.pure [Expr.cmp r a b]) σ B.Keeps := .pure (.single (Expr.uses_cmp.2 ⟨ha, hb⟩))
  cases r with
  | eq | le | ge =>
    rw [relation]
    exact same
  | lt =>
    rw [relation]
    exact ih.strict σ reified .le (-1) a b hkept ha hb (Nat.le_of_succ_le_succ hdepth)
  | gt =>
    rw [relation]
    exact ih.strict σ reified .ge 1 a b hkept ha hb (Nat.le_of_succ_le_succ hdepth)
  | ne =>
    rw [relation]
    replace hdepth : (if reified then 6 else 13) ≤ depth + 1 := hdepth
    split
    · refine ih.bigM σ a b hkept ha hb ?_
      split at hdepth <;> omega
    · rename_i hsplit
      have hr : ¬reified = true := fun hr => hsplit (by simp [hr])
      rw [if_neg hr] at hdepth
      refine (Carries.lift Stays.freshBool).bind ?_
      rintro _ τ hg ⟨z, rfl, hz⟩
      have hcmp (r : Relation) : (Expr.cmp r a b).Uses (B.Allows τ) := Expr.uses_cmp.2 ⟨ha.grow hg, hb.grow hg⟩
      have hburden (r : Relation) : 24 * burden caps (.cmp r a b) + 12 ≤ depth := by
        rw [hkept.burden]
        omega
      have hz := Expr.uses_var.2 hz
      refine (ih.implication τ _ _ hz (hcmp .lt) (hburden .lt)).bind fun es υ hg' hes => ?_
      refine (ih.implication υ _ _ (Expr.uses_negated (hz.grow hg')) ((hcmp .gt).grow hg') (hburden .gt)).bind
        fun fs _ hg'' hfs => .pure ((hes.grow hg'').append hfs)

theorem strict_runs {delta : Int} (hkept : Kept caps a) (ha : a.Uses (B.Allows σ)) (hb : b.Uses (B.Allows σ))
    (hdepth : relationDepth reified r + 3 ≤ depth + 1) :
    Runs B (strict caps (depth + 1) reified r delta a b) σ B.Keeps := by
  have hpos : 0 < relationDepth reified r := relationDepth_pos
  have hcomparison (b : Expr) : comparisonDepth caps reified r a b ≤ depth := by
    rw [hkept.comparisonDepth]
    omega
  refine .assume fun hσ => ?_
  rw [strict]
  split
  · exact Carries.checked_bind fun k _ => ih.comparison σ reified r a _ ha Expr.uses_int (hcomparison _)
  · refine Carries.checked_bind fun c hc => Carries.checked_bind fun shifted hs => ?_
    have hrange : B.live → shifted.lower ≤ shifted.upper := fun hlive => by
      rw [Bounds.of_add hs, Bounds.add_def]
      exact Int.add_le_add_right (hσ.bounds hb hc hlive) delta
    refine (Carries.lift (Stays.freshInt hrange)).bind ?_
    rintro _ τ hg ⟨x, rfl, hx⟩
    have hx := Expr.uses_var.2 hx
    have hdefinition : comparisonDepth caps false .eq (.wsum [(1, .var x), (-1, b)]) (.int delta) ≤ depth := by
      rw [kept_wsum.comparisonDepth, relationDepth]
      omega
    refine (ih.comparison τ false .eq _ _ (Expr.uses_wsum.2 ?_) Expr.uses_int hdefinition).bind fun es υ hg' hes => ?_
    · exact List.forall_mem_cons.2 ⟨hx, List.forall_mem_singleton.2 (hb.grow hg)⟩
    refine (Carries.defineAll (P := fun τ e => e.Uses (B.Allows τ)) hes).bind fun _ φ hg'' _ => ?_
    exact ih.comparison φ reified r a _ (((ha.grow hg).grow hg').grow hg'') ((hx.grow hg').grow hg'') (hcomparison _)

theorem bigM_runs (hkept : Kept caps a) (ha : a.Uses (B.Allows σ)) (hb : b.Uses (B.Allows σ)) (hdepth : 5 ≤ depth + 1) :
    Runs B (bigM caps (depth + 1) a b) σ B.Keeps := by
  rw [bigM]
  refine (ih.termsOf σ a hkept ha (Nat.le_of_succ_le_succ hdepth)).bind fun p τ hg hp =>
    Carries.checked_bind fun range _ => ?_
  refine (Carries.lift Stays.freshBool).bind ?_
  rintro _ υ hg' ⟨z, rfl, hz⟩
  have hts : ∀ t ∈ (subtract p.1 b).1, t.2.Uses (B.Allows υ) := fun t ht =>
    (uses_subtract hp.1 (hb.grow hg) t ht).grow hg'
  refine (separated_runs hts (Expr.uses_var.2 hz)).bind fun es φ hg'' hes => .pure ?_
  exact ((hp.2.grow hg').grow hg'').append hes

theorem termsOf_runs (hkept : Kept caps a) (ha : a.Uses (B.Allows σ)) (hdepth : 4 ≤ depth + 1) :
    Runs B (termsOf caps (depth + 1) a) σ fun p τ => (∀ t ∈ p.1, t.2.Uses (B.Allows τ)) ∧ B.Keeps p.2 τ := by
  refine .assume fun hσ => ?_
  rw [termsOf]
  split
  · exact .pure ⟨uses_terms? ‹_› ha, List.forall_mem_nil _⟩
  · split
    · exact .pure ⟨List.forall_mem_singleton.2 ha, List.forall_mem_nil _⟩
    · refine Carries.checked_bind fun c hc => ?_
      refine (Carries.lift (Stays.freshInt (hσ.bounds ha hc))).bind ?_
      rintro _ τ hg ⟨x, rfl, hx⟩
      have hx := Expr.uses_var.2 hx
      have hdefinition : comparisonDepth caps false .eq a (.var x) ≤ depth := by
        rw [hkept.comparisonDepth, relationDepth]
        omega
      refine Carries.checked_bind fun total _ => ?_
      refine (ih.comparison τ false .eq a _ (ha.grow hg) hx hdefinition).bind fun es υ hg' hes => ?_
      split
      · refine (Carries.defineAll (P := fun τ e => e.Uses (B.Allows τ)) hes).bind fun _ φ hg'' _ =>
          .pure ⟨?_, List.forall_mem_nil _⟩
        exact List.forall_mem_singleton.2 ((hx.grow hg').grow hg'')
      · exact .pure ⟨List.forall_mem_singleton.2 (hx.grow hg'), hes⟩

theorem functionComparison_runs {g : Function Expr} (h : (Expr.cmp r (.function g) b).Uses (B.Allows σ))
    (hdepth : (if reified then 1 else 24 * (Expr.cmp r (.function g) b).nesting 0) ≤ depth + 1) :
    Runs B (functionComparison caps (depth + 1) reified g r b) σ B.Keeps := by
  obtain ⟨hg, hb⟩ := Expr.uses_cmp.1 h
  unfold functionComparison
  split
  · exact .throw (by simp)
  · rename_i hr
    rw [if_neg hr] at hdepth
    split
    · obtain ⟨has, hi⟩ := List.forall_mem_append.1 (Expr.uses_function.1 hg)
      exact ih.element σ _ _ r b has (List.forall_mem_singleton.1 hi) hb hdepth
    · refine (Carries.lift (Supported.function_parts_stays h)).bind fun d τ _ hd => ?_
      obtain ⟨K, hK, hd⟩ := hd
      exact ih.reformulate τ _ K hd (by omega)

theorem element_runs {i : Expr} (has : B.Keeps as σ) (hi : i.Uses (B.Allows σ)) (hb : b.Uses (B.Allows σ))
    (hdepth : 24 * (Expr.cmp r (.function (.element as i)) b).nesting 0 ≤ depth + 1 + 1) :
    Runs B (element caps (depth + 1) as i r b) σ B.Keeps := by
  rw [Expr.nesting_cmp, Expr.nesting_function] at hdepth
  have hweak : relationDepth false .eq + 2 ≤ depth := by
    rw [relationDepth]
    omega
  rw [element]
  refine (bools_runs _).bind fun is τ hτ his => ?_
  refine (ih.comparison τ false .eq (.sum is) (.int 1) (Expr.uses_sum.2 his) Expr.uses_int
    (kept_sum.comparisonDepth.trans_le hweak)).bind fun one υ hυ hone => ?_
  have hposition : (positions is).Uses (B.Allows υ) :=
    Expr.uses_wsum.2 fun p hp => (his p.2 (mem_of_indexed hp)).grow hυ
  refine (ih.comparison υ false .eq _ i hposition ((hi.grow hτ).grow hυ)
    (kept_wsum.comparisonDepth.trans_le hweak)).bind fun position φ hφ hpos => ?_
  have hentries : Runs B ((is.zip as).mapM fun p => implication caps depth p.1 (.cmp r p.2 b)) φ fun ess ψ =>
      B.Keeps ess.flatten ψ := by
    refine .keeps_mapM fun p hp ψ hψ => ?_
    obtain ⟨hl, ha⟩ := List.of_mem_zip hp
    have hentry : p.2.nesting 0 ≤ greatest ((Function.element as i).args.map (Expr.nesting 0)) :=
      le_greatest_map (List.mem_append_left _ ha)
    have hburden := burden_le caps (.cmp r p.2 b)
    rw [Expr.nesting_cmp] at hburden
    refine ih.implication ψ p.1 _ (((his _ hl).grow hυ).grow (hφ.trans hψ)) (Expr.uses_cmp.2 ⟨?_, ?_⟩) (by omega)
    · exact ((has _ ha).grow (hτ.trans hυ)).grow (hφ.trans hψ)
    · exact (hb.grow (hτ.trans hυ)).grow (hφ.trans hψ)
  refine hentries.bind fun entries ψ hψ h => .pure ?_
  exact (((hone.grow hφ).append hpos).grow hψ).append h

theorem allDifferent_runs (has : B.Keeps as σ) (hdepth : 4 ≤ depth + 1) :
    Runs B (allDifferent caps (depth + 1) as) σ B.Keeps := by
  have hsum {τ : Store} {s : Relation} {is : List Expr} (hs : relationDepth false s = 1) (his : B.Keeps is τ) :
      Runs B (comparison caps depth false s (.sum is) (.int 1)) τ B.Keeps := by
    refine ih.comparison τ false s (.sum is) (.int 1) (Expr.uses_sum.2 his) Expr.uses_int ?_
    rw [kept_sum.comparisonDepth, hs]
    omega
  have hvalue (values : List Int) (row : List Expr) (a : Expr) :
      comparisonDepth caps false .eq (valueOf values row) a ≤ depth := by
    rw [valueOf, kept_wsum.comparisonDepth, relationDepth]
    omega
  rw [allDifferent]
  have hbounds : Runs B (as.mapM fun a => (a.bounds : Defining Bounds)) σ fun _ _ => True :=
    (Carries.forall_mapM (P := fun _ _ => True) (fun _ _ _ _ _ => trivial) fun a _ τ _ =>
      .checked fun _ _ => trivial).imp fun _ _ _ _ => trivial
  refine hbounds.bind fun bs τ hτ _ => ?_
  split
  · exact .pure (List.forall_mem_nil _)
  · rename_i hull _
    have hrows : Runs B (as.mapM fun _ => (freshBools hull.values.length : Defining (List Expr))) τ fun rows υ =>
        ∀ row ∈ rows, B.Keeps row υ := .forall_mapM (fun _ _ _ hg h => h.grow hg) fun _ _ υ _ => bools_runs _
    refine hrows.bind fun rows υ hυ hrows => ?_
    have hassigned : Runs B ((as.zip rows).mapM fun p => do
        let one ← comparison caps depth false .eq (.sum p.2) (.int 1)
        return one ++ (← comparison caps depth false .eq (valueOf hull.values p.2) p.1)) υ fun ess φ =>
          B.Keeps ess.flatten φ := by
      refine .keeps_mapM fun p hp φ hφ => ?_
      obtain ⟨ha, hrow⟩ := List.of_mem_zip hp
      have hrow := (hrows _ hrow).grow hφ
      refine (hsum rfl hrow).bind fun one ψ hψ hone => ?_
      refine (ih.comparison ψ false .eq _ p.1 (Expr.uses_wsum.2 fun t ht => ?_) ?_ (hvalue _ _ _)).bind
        fun es _ hg hes => .pure ((hone.grow hg).append hes)
      · exact (hrow _ (List.of_mem_zip ht).2).grow hψ
      · exact (((has _ ha).grow (hτ.trans hυ)).grow hφ).grow hψ
    refine hassigned.bind fun assigned φ hφ hassigned => ?_
    have htaken : Runs B ((columns hull.values.length rows).mapM fun column =>
        comparison caps depth false .le (.sum column) (.int 1)) φ fun ess ψ => B.Keeps ess.flatten ψ := by
      refine .keeps_mapM fun column hc ψ hψ => hsum rfl fun a ha => ?_
      obtain ⟨row, hrow, ha⟩ := mem_of_mem_columns column hc a ha
      exact ((hrows row hrow a ha).grow hφ).grow hψ
    refine htaken.bind fun taken ψ hψ htaken => .pure ?_
    exact (hassigned.grow hψ).append htaken

theorem reformulate_runs {K : Nat} (h : ∀ c ∈ cs, c.Sized (B.Allows σ) 0 K) (hdepth : 24 * K + 18 ≤ depth + 1) :
    Runs B (reformulate caps (depth + 1) cs) σ B.Keeps := by
  rw [reformulate]
  refine (Carries.lift (flatten_stays h)).bind fun fs τ _ hfs => ?_
  refine (Carries.lift (splitReifications_stays hfs)).bind fun gs υ _ hgs => ?_
  have hparts : Runs B (gs.mapM (constraint caps depth false)) υ fun ess φ => B.Keeps ess.flatten φ := by
    refine .keeps_mapM fun e he φ hg => ih.constraint φ false e ((hgs e he).uses.grow hg) ?_
    have hle := (hgs e he).nesting
    have hneeded : constraintDepth caps false e ≤ 24 * e.nesting 0 + 17 := constraintDepth_le
    omega
  exact hparts.bind fun _ _ _ hes => .pure hes

end

theorem confined (caps : Capabilities) (B : Start) (depth : Nat) : Confined caps B depth := by
  induction depth with
  | zero =>
    have hrelation {reified : Bool} {r : Relation} {n : Nat} (hn : relationDepth reified r ≤ n) : ¬n ≤ 0 :=
      Nat.not_le.2 (relationDepth_pos.trans_le hn)
    exact {
      constraint := fun _ _ _ _ h => absurd h (Nat.not_le.2 constraintDepth_pos)
      implication := fun _ _ _ _ _ h => absurd h (by omega)
      guarded := fun _ _ _ _ _ _ h => absurd h (by omega)
      comparison := fun _ _ _ _ _ _ _ h =>
        absurd h (hrelation ((Nat.le_add_right _ 2).trans relationDepth_le_comparisonDepth))
      sum := fun _ _ _ _ _ _ _ h => absurd h (hrelation (Nat.le_add_right _ 1))
      relation := fun _ _ _ _ _ _ _ _ h => absurd h (hrelation le_rfl)
      strict := fun _ _ _ _ _ _ _ _ _ h => absurd h (hrelation (Nat.le_add_right _ 3))
      bigM := fun _ _ _ _ _ _ h => absurd h (by omega)
      termsOf := fun _ _ _ _ h => absurd h (by omega)
      functionComparison := fun _ reified _ _ _ _ h => by
        rw [Expr.nesting_cmp, Expr.nesting_function] at h
        cases reified <;> simp at h
      element := fun _ _ _ _ _ _ _ _ h => by
        rw [Expr.nesting_cmp, Expr.nesting_function] at h
        omega
      allDifferent := fun _ _ _ h => absurd h (by omega)
      reformulate := fun _ _ _ _ h => absurd h (by omega) }
  | succ depth ih => exact {
      constraint := fun _ _ _ => constraint_runs ih
      implication := fun _ _ _ => implication_runs ih
      guarded := fun _ _ _ => guarded_runs ih
      comparison := fun _ _ _ _ _ => comparison_runs ih
      sum := fun _ _ _ _ _ => sum_runs ih
      relation := fun _ _ _ _ _ => relation_runs ih
      strict := fun _ _ _ _ _ _ => strict_runs ih
      bigM := fun _ _ _ => bigM_runs ih
      termsOf := fun _ _ => termsOf_runs ih
      functionComparison := fun _ _ _ _ _ => functionComparison_runs ih
      element := fun _ _ _ _ _ => element_runs ih
      allDifferent := fun _ _ => allDifferent_runs ih
      reformulate := fun _ _ _ => reformulate_runs ih }

end Linear

theorem linearize_keeps {caps : Capabilities} {B : Start} {σ : Store} {cs : List Expr} (h : B.Keeps cs σ) :
    (linearize caps cs).Stays B σ B.Keeps := by
  have hparts : Stays B (cs.mapM fun e => do
      let p ← (Linear.constraint caps (Linear.depth e) false e).collect
      return p.1 ++ p.2) σ fun ess τ => B.Keeps ess.flatten τ := by
    refine .keeps_mapM fun e he τ hg => ?_
    have hdepth : Linear.constraintDepth caps false e ≤ Linear.depth e := by
      refine Linear.constraintDepth_le.trans ?_
      unfold Linear.depth
      omega
    exact ((Linear.confined caps B _).constraint τ false e ((h e he).grow hg) hdepth).collect.bind fun p _ _ hp =>
      .pure (List.forall_mem_append.2 hp)
  exact hparts.bind fun _ _ _ hes => .pure hes

end ConstraintModel
