import ConstraintModel.Proofs.Mapped
import ConstraintModel.Proofs.SupportedFlat

namespace ConstraintModel

def Expr.nots : Expr → Nat
  | .not a => a.nots + 1
  | _ => 0

theorem Expr.nots_le_two {e : Expr} : e.nots ≤ 2 ↔ ∀ x, e ≠ .not (.not (.not x)) := by
  constructor
  · rintro h x rfl
    simp only [nots] at h
    omega
  · intro h
    by_contra hlt
    unfold nots at hlt
    split at hlt
    · rename_i a
      unfold nots at hlt
      split at hlt
      · rename_i b
        unfold nots at hlt
        split at hlt
        · exact h _ rfl
        · omega
      · omega
    · omega

theorem Expr.nots_eq_zero {e : Expr} (h : e.isNot = false) : e.nots = 0 := by
  cases e <;> first | rfl | cases h

namespace Supported

open Defining (Yields)
open ConstraintModel.Expr (Small IsPart)
open Flat (Any)

variable {caps : Capabilities} {t : Prop} {K n m depth : Nat} {context : Context}

theorem decompose_yields {c : Constraint Expr} (hc : c.Formed)
    (h : ∀ a ∈ c.args, a.Small Any t 1 n) : c.decompose.Yields True fun d =>
      ∀ e ∈ d.toList, e.IsPart Any t 1 (c.weight + 8 * n - 1) := by
  intro σ
  refine c.decompose_sat.imp fun d τ _ hd e he => ?_
  have hpart := hd.parts le_rfl hc h e he
  exact ⟨hpart.isBool, hpart.isNot, hpart.small.imp fun _ _ => trivial⟩

theorem decompose_function_yields {g : Function Expr} {r : Relation} {rhs : Expr}
    (h : ∀ a ∈ g.args, a.Small Any t 1 n) (hr : rhs.Small Any t 1 m) :
    (g.decompose r rhs).Yields True fun d =>
      (∀ e ∈ d.constraining, e.IsPart Any t 1 (8 + 4 * n + m)) ∧
        ∀ e ∈ d.defining, e.IsPart Any t 1 (7 + 4 * n) := by
  intro σ
  refine (g.decompose_sat r rhs).imp fun d τ _ hd => ?_
  obtain ⟨hc, hdef⟩ := hd.parts le_rfl h hr
  constructor
  · intro e he
    have hpart := (hc e he).mono (n := 8 + 4 * n + m) (by omega)
    exact ⟨hpart.isBool, hpart.isNot, hpart.small.imp fun _ _ => trivial⟩
  · intro e he
    have hpart := hdef e he
    exact ⟨hpart.isBool, hpart.isNot, hpart.small.imp fun _ _ => trivial⟩

def IsLeftover (t : Prop) (K : Nat) (d : Expr) : Prop := d.isBool ∧ ∃ m < K, d.Small Any t 1 m

theorem isLeftover_of_isPart {e : Expr} (h : e.IsPart Any t 1 m) (hm : m < K) : IsLeftover t K e :=
  ⟨h.isBool, m, hm, h.small⟩

def IsInput (t : Prop) (e : Expr) : Prop := e.Small Any t 1 (e.nesting 1)

structure Examined (t : Prop) (e e' : Expr) : Prop where
  small : e'.Small Any t 1 (e.nesting 1)
  isBool : e.isBool → e'.isBool
  nots : e'.nots ≤ e.nots

theorem IsInput.arg {e a : Expr} (h : IsInput t e) (ha : a ∈ e.args) : IsInput t a := by
  have h := Small.arg h ha
  exact ⟨h.proper, h.tripleFree, le_rfl⟩

theorem isInput_of_isPart {e : Expr} (h : e.IsPart Any t 1 n) : IsInput t e :=
  ⟨h.small.proper, h.small.tripleFree, le_rfl⟩

theorem nots_mapped {e e' : Expr} (h : e.Mapped (Examined t) e') : e'.nots ≤ e.nots := by
  cases h with
  | not h => exact Nat.succ_le_succ h.nots
  | _ => exact le_rfl

theorem examined_mapped {e e' : Expr} (he : IsInput t e) (h : e.Mapped (Examined t) e') :
    Examined t e e' := by
  have hargs : ∀ b ∈ e'.args, b.Proper Any ∧ (t ∨ b.TripleFree) := by
    intro b hb
    obtain ⟨a, -, hab⟩ := h.args b hb
    exact ⟨hab.small.proper, hab.small.tripleFree⟩
  refine ⟨⟨?_, ?_, h.nesting_le fun a b hab => hab.small.nesting⟩, fun hb => h.isBool_eq ▸ hb,
    nots_mapped h⟩
  · rcases h.eq_or_isSimple with ⟨rfl, -⟩ | hs
    · exact he.proper
    · exact (Expr.proper_iff (Expr.ne_var_of_isSimple hs)).2
        ⟨h.typedHere (fun a b hab => hab.isBool) he.proper.typed.here, fun b hb => (hargs b hb).1⟩
  · by_cases ht : t
    · exact .inl ht
    · have hn := Expr.nots_le_two.2 (Expr.tripleFree_iff.1 (he.tripleFree.resolve_left ht)).1
      exact .inr (Expr.tripleFree_iff.2
        ⟨Expr.nots_le_two.1 ((nots_mapped h).trans hn), fun b hb => (hargs b hb).2.resolve_left ht⟩)

theorem untaken?_eq_ok {a : Expr} {g : Function Expr} (h : untaken? caps context a = .ok (some g)) :
    a = .function g := by
  unfold untaken? at h
  split at h
  · obtain ⟨b, -, h⟩ := Checked.bind_eq_ok.1 h
    cases b <;> cases h
    rfl
  · cases h

theorem untakenSide?_eq_ok {r s : Relation} {a b other : Expr} {g : Function Expr}
    (h : untakenSide? caps context r a b = .ok (some (g, s, other))) :
    a = .function g ∧ s = r ∧ other = b ∨ b = .function g ∧ s = r.converse ∧ other = a := by
  obtain ⟨a?, ha, h⟩ := Checked.bind_eq_ok.1 h
  obtain ⟨b?, hb, h⟩ := Checked.bind_eq_ok.1 h
  split at h
  · cases h
    exact .inl ⟨untaken?_eq_ok ha, rfl, rfl⟩
  · cases h
    exact .inr ⟨untaken?_eq_ok hb, rfl, rfl⟩
  · cases h

structure Shapes (caps : Capabilities) (t : Prop) (K depth : Nat) : Prop where
  expr (context : Context) (e : Expr) : IsInput t e → e.nesting 1 < K + e.isBool.toNat →
    4 * e.nesting 1 + 1 ≤ depth →
    (expr caps depth context e).Yields True (IsLeftover t K) (Examined t e)
  comparison (context : Context) (r : Relation) (a b : Expr) : IsInput t (.cmp r a b) →
    (Expr.cmp r a b).nesting 1 ≤ K → 4 * (Expr.cmp r a b).nesting 1 ≤ depth →
    (comparison caps depth context r a b).Yields True (IsLeftover t K) (Examined t (.cmp r a b))
  parts (context : Context) (d : Decomposition) (n : Nat) :
    (∀ e ∈ d.constraining, e.IsPart Any t 1 n) → (∀ e ∈ d.defining, IsLeftover t K e) → n < K →
    4 * n + 2 ≤ depth → (parts caps depth context d).Yields True (IsLeftover t K) fun e' =>
      e'.Small Any t 1 (n + 1) ∧ e'.isBool ∧ e'.nots = 0

section

variable (ih : Shapes caps t K depth)

include ih

theorem parts_yields {d : Decomposition} (hc : ∀ e ∈ d.constraining, e.IsPart Any t 1 n)
    (hd : ∀ e ∈ d.defining, IsLeftover t K e) (hn : n < K) (hdepth : 4 * n + 2 ≤ depth + 1) :
    (parts caps (depth + 1) context d).Yields True (IsLeftover t K) fun e' =>
      e'.Small Any t 1 (n + 1) ∧ e'.isBool ∧ e'.nots = 0 := by
  rw [parts]
  refine (Yields.mapM (R := fun _ e' => e'.isBool ∧ e'.nots = 0 ∧ e'.Small Any t 1 n)
    fun e he => ?_).bind fun es hes => (Yields.defineAll hd).bind fun _ _ => .pure ?_
  · have := (hc e he).small.nesting
    refine (ih.expr context e (isInput_of_isPart (hc e he)) (by omega) (by omega)).imp fun e' he' => ?_
    have := Expr.nots_eq_zero (hc e he).isNot
    exact ⟨he'.isBool (hc e he).isBool, by have := he'.nots; omega, he'.small.mono (by omega)⟩
  · have hall : ∀ e' ∈ es, e'.isBool ∧ e'.nots = 0 ∧ e'.Small Any t 1 n := by
      intro e' he'
      obtain ⟨_, -, h⟩ := forall₂_mem_right hes he'
      exact h
    refine ⟨(Small.all (fun e he => (hall e he).1) fun e he => (hall e he).2.2).mono (by omega),
      Expr.isBool_all fun e he => (hall e he).1, ?_⟩
    match es with
    | [] => rfl
    | [e] => exact (hall e (List.mem_singleton_self e)).2.1
    | e :: f :: es => rfl

theorem untakenSide_yields {r s : Relation} {a b other : Expr} {g : Function Expr}
    (h : a = .function g ∧ s = r ∧ other = b ∨ b = .function g ∧ s = r.converse ∧ other = a)
    (he : IsInput t (.cmp r a b)) (hK : (Expr.cmp r a b).nesting 1 ≤ K)
    (hdepth : 4 * (Expr.cmp r a b).nesting 1 ≤ depth + 1) :
    Defining.Yields True (IsLeftover t K) (do
      let g ← g.mapM fun a => expr caps depth (argContext context a) a
      let other ← expr caps depth (argContext context other) other
      parts caps depth context (← g.decompose s other)) (Examined t (.cmp r a b)) := by
  have hn : (Expr.cmp r a b).nesting 1 = 9 + 4 * greatest (g.args.map (Expr.nesting 1)) + other.nesting 1 := by
    rcases h with ⟨rfl, -, rfl⟩ | ⟨rfl, -, rfl⟩ <;>
      rw [Expr.nesting_cmp, Expr.nesting_function] <;> omega
  have hg : IsInput t (.function g) ∧ IsInput t other := by
    rcases h with ⟨rfl, -, rfl⟩ | ⟨rfl, -, rfl⟩
    · exact ⟨he.arg (by simp [Expr.args]), he.arg (by simp [Expr.args])⟩
    · exact ⟨he.arg (by simp [Expr.args]), he.arg (by simp [Expr.args])⟩
  refine (Yields.function (R := Examined t) fun x hx => ?_).bind fun g' hg' => ?_
  · have : x.nesting 1 ≤ _ := le_greatest_map hx
    exact ih.expr _ x (hg.1.arg hx) (by omega) (by omega)
  · refine (ih.expr _ other hg.2 (by omega) (by omega)).bind fun other' ho => ?_
    refine .bind (.lift (decompose_function_yields (t := t) (n := greatest (g.args.map (Expr.nesting 1)))
      (fun x' hx' => ?_) ho.small)) fun d hd => ?_
    · obtain ⟨x, hx, hxx⟩ := forall₂_mem_right hg'.args hx'
      exact hxx.small.mono (le_greatest_map hx)
    · refine (ih.parts context d _ hd.1 (fun e he => isLeftover_of_isPart (hd.2 e he) (by omega))
        (by omega) (by omega)).imp fun e' he' => ?_
      exact ⟨he'.1.mono (by omega), fun _ => he'.2.1, he'.2.2.le⟩

theorem comparison_yields {r : Relation} {a b : Expr} (he : IsInput t (.cmp r a b))
    (hK : (Expr.cmp r a b).nesting 1 ≤ K) (hdepth : 4 * (Expr.cmp r a b).nesting 1 ≤ depth + 1) :
    (comparison caps (depth + 1) context r a b).Yields True (IsLeftover t K) (Examined t (.cmp r a b)) := by
  rw [comparison]
  refine .bind (.checked fun _ h => h) fun found? hfound => ?_
  split
  · exact untakenSide_yields ih (untakenSide?_eq_ok hfound) he hK hdepth
  · rw [Expr.nesting_cmp] at hK hdepth
    refine (ih.expr _ a (he.arg (by simp [Expr.args])) (by omega) (by omega)).bind fun a' ha => ?_
    refine (ih.expr _ b (he.arg (by simp [Expr.args])) (by omega) (by omega)).bind fun b' hb => ?_
    exact .pure (examined_mapped he (.cmp r ha hb))

theorem constraint_yields {c : Constraint Expr} (he : IsInput t (.constraint c))
    (hK : (Expr.constraint c).nesting 1 ≤ K) (hdepth : 4 * (Expr.constraint c).nesting 1 ≤ depth) :
    (expr caps (depth + 1) context (.constraint c)).Yields True (IsLeftover t K)
      (Examined t (.constraint c)) := by
  rw [Expr.nesting_constraint] at hK hdepth
  have hw := c.weight_pos
  rw [expr]
  refine (Yields.constraint (R := Examined t) fun x hx => ?_).bind fun c' hc' => ?_
  · have : x.nesting 1 ≤ _ := le_greatest_map hx
    exact ih.expr _ x (he.arg hx) (by omega) (by omega)
  · have hex := examined_mapped he (.constraint hc')
    split
    · exact .pure hex
    · obtain ⟨hformed, -⟩ := Expr.proper_constraint.1 hex.small.proper
      refine .bind (.lift (decompose_yields (t := t) (n := greatest (c.args.map (Expr.nesting 1))) hformed
        fun x' hx' => ?_)) fun d hd => ?_
      · obtain ⟨x, hx, hxx⟩ := forall₂_mem_right hc'.args hx'
        exact hxx.small.mono (le_greatest_map hx)
      · rw [← Constraint.weight_eq hc'.shape] at hd
        refine (ih.parts context d (c.weight + 8 * greatest (c.args.map (Expr.nesting 1)) - 1)
          (fun e he => hd e (List.mem_append_left _ he))
          (fun e he => isLeftover_of_isPart (hd e (List.mem_append_right _ he)) (by omega))
          (by omega) (by omega)).imp fun e' he' => ?_
        refine ⟨he'.1.mono ?_, fun _ => he'.2.1, he'.2.2.le⟩
        rw [Expr.nesting_constraint]
        omega

theorem function_yields {g : Function Expr} (he : IsInput t (.function g))
    (hK : (Expr.function g).nesting 1 < K) (hdepth : 4 * (Expr.function g).nesting 1 ≤ depth) :
    (expr caps (depth + 1) context (.function g)).Yields True (IsLeftover t K)
      (Examined t (.function g)) := by
  rw [Expr.nesting_function] at hK hdepth
  rw [expr]
  refine (Yields.function (R := Examined t) fun x hx => ?_).bind fun g' hg' => ?_
  · have : x.nesting 1 ≤ _ := le_greatest_map hx
    exact ih.expr _ x (he.arg hx) (by omega) (by omega)
  · refine .bind (.checked fun _ _ => trivial) fun kept _ => ?_
    split
    · exact .pure (examined_mapped he (.function hg'))
    · refine .bind (.checked fun _ _ => trivial) fun b _ => .bind (.lift (.freshInt b)) fun x hx => ?_
      obtain ⟨x, rfl, -⟩ := hx
      have hsmall {n : Nat} : (Expr.var x).Small Any t 1 n :=
        (Small.var (V := Any) trivial).mono (Nat.zero_le n)
      refine .bind (.lift (decompose_function_yields (t := t) (n := greatest (g.args.map (Expr.nesting 1)))
        (fun x' hx' => ?_) (hsmall (n := 0)))) fun d hd => .bind (.defineAll fun e he => ?_) fun _ _ =>
          .pure ⟨hsmall, nofun, Nat.zero_le _⟩
      · obtain ⟨x, hx, hxx⟩ := forall₂_mem_right hg'.args hx'
        exact hxx.small.mono (le_greatest_map hx)
      · rcases List.mem_append.1 he with he | he
        · exact isLeftover_of_isPart (hd.1 e he) (by omega)
        · exact isLeftover_of_isPart (hd.2 e he) (by omega)

theorem expr_yields {e : Expr} (he : IsInput t e) (hK : e.nesting 1 < K + e.isBool.toNat)
    (hdepth : 4 * e.nesting 1 ≤ depth) :
    (expr caps (depth + 1) context e).Yields True (IsLeftover t K) (Examined t e) := by
  have simple (hs : e.isSimple) :
      (Pure.pure e : Defining Expr).Yields True (IsLeftover t K) (Examined t e) :=
    .pure (examined_mapped he (.simple hs))
  have args (hcall : ∀ d, e ≠ .call d) :
      (e.mapArgsM fun a => expr caps depth (argContext context a) a).Yields True (IsLeftover t K)
        (Examined t e) := by
    refine ((Defining.yields True (IsLeftover t K)).mapArgsM (i := ()) (R := fun _ => Examined t)
      (fun _ _ _ _ _ h => h) hcall fun a ha _ _ => ?_).imp fun e' => examined_mapped he
    have := Expr.nesting_arg_add (k := 1) ha hcall
    have : e.isBool.toNat ≤ 1 := Bool.toNat_le _
    exact ih.expr _ a (he.arg ha) (by omega) (by omega)
  cases e with
  | bool _ | int _ | var _ | negVar _ => rw [expr]; exact simple rfl
  | cmp r a b => rw [expr]; exact ih.comparison context r a b he (Nat.lt_succ_iff.1 hK) hdepth
  | constraint c => exact constraint_yields ih he (Nat.lt_succ_iff.1 hK) hdepth
  | function g => exact function_yields ih he hK hdepth
  | call d => exact absurd he.proper Expr.proper_call
  | _ => rw [expr] <;> first | exact args (by simp) | simp

end

theorem shapes (caps : Capabilities) (t : Prop) (K depth : Nat) : Shapes caps t K depth := by
  induction depth with
  | zero =>
    refine ⟨fun _ e _ _ h => absurd h (by omega), fun _ r a b _ _ h => ?_,
      fun _ _ _ _ _ _ h => absurd h (by omega)⟩
    rw [Expr.nesting_cmp] at h
    omega
  | succ depth ih =>
    exact ⟨fun _ _ he hK h => expr_yields ih he hK (by omega),
      fun _ _ _ _ he hK h => comparison_yields ih he hK h,
      fun _ _ _ hc hd hn h => parts_yields ih hc hd hn h⟩

/-- Constraints of bounded nesting are examined within as many rounds. -/
theorem examine_yields {n : Nat} {cs : List Expr} (h : ∀ c ∈ cs, IsLeftover t n c) :
    (examine caps n cs).Yields True fun es =>
      ∀ e ∈ es, e.isBool ∧ e.Proper Any ∧ (t ∨ e.TripleFree) := by
  induction n generalizing cs with
  | zero =>
    cases cs with
    | nil => exact .pure (by simp)
    | cons c cs => exact absurd (h c (List.mem_cons_self ..)) (by simp [IsLeftover])
  | succ n ih =>
    cases cs with
    | nil => exact .pure (by simp)
    | cons c cs =>
      rw [examine]
      · refine .bind (Yields.collect (P := IsLeftover t n) (Yields.mapM (R := fun _ es =>
          ∀ e ∈ es, e.isBool ∧ e.Proper Any ∧ (t ∨ e.TripleFree)) fun e he => ?_)) fun found hfound =>
            .bind (ih hfound.2) fun rest hrest => .pure ?_
        · obtain ⟨c, hc, he⟩ := List.mem_flatMap.1 he
          obtain ⟨hb, m, hm, hsmall⟩ := h c hc
          obtain ⟨he, hbe⟩ := hsmall.conjuncts hb e he
          have := he.nesting
          refine ((shapes caps t (e.nesting 1) _).expr .top e ⟨he.proper, he.tripleFree, le_rfl⟩
            (by rw [hbe]; exact Nat.lt_succ_self _) (by unfold depth; omega)).weaken
              (fun d hd => ?_) |>.bind fun e' he' => .pure fun e hc => ?_
          · obtain ⟨hbd, m', hm', hd⟩ := hd
            exact ⟨hbd, m', by omega, hd⟩
          · obtain ⟨he, hb⟩ := he'.small.conjuncts (he'.isBool hbe) e hc
            exact ⟨hb, he.proper, he.tripleFree⟩
        · intro e he
          rcases List.mem_append.1 he with he | he
          · obtain ⟨es, hes, he⟩ := List.mem_flatten.1 he
            obtain ⟨_, -, hall⟩ := forall₂_mem_right hfound.1 hes
            exact hall e he
          · exact hrest e he
      · simp

end Supported

theorem decomposeTree_yields {caps : Capabilities} {t : Prop} {cs : List Expr}
    (h : ∀ c ∈ cs, c.isBool ∧ c.Proper Flat.Any ∧ (t ∨ c.TripleFree)) :
    (decomposeTree caps cs).Yields True fun es =>
      ∀ e ∈ es, e.isBool ∧ e.Proper Flat.Any ∧ (t ∨ e.TripleFree) := by
  refine Supported.examine_yields fun c hc => ?_
  have : c.nesting 1 ≤ greatest (cs.map (Expr.nesting 1)) := le_greatest_map hc
  exact ⟨(h c hc).1, c.nesting 1, Nat.lt_succ_of_le this, (h c hc).2.1, (h c hc).2.2, le_rfl⟩

end ConstraintModel
