import ConstraintModel.Form.Supported
import ConstraintModel.Proofs.FlatShape
import ConstraintModel.Proofs.Parts

namespace ConstraintModel

namespace Expr

variable (caps : Capabilities)

def IsTakenNested : Expr → Prop
  | constraint c => caps.supports .nested c.name
  | cmp _ (function g) _ => caps.supports .nested g.name
  | _ => True

def IsTaken : Expr → Prop
  | constraint c => caps.supports .top c.name
  | cmp _ (function g) _ => caps.supports .top g.name
  | cmp _ a _ | implies _ a => a.IsTakenNested caps
  | _ => True

end Expr

theorem Expr.Small.conjuncts {V : Variable → Prop} {t : Prop} {k n : Nat} {e : Expr}
    (h : e.Small V t k n) (hb : e.isBool) : ∀ c ∈ e.conjuncts, c.Small V t k n ∧ c.isBool := by
  induction e using Expr.induction_args with
  | h e ih =>
    by_cases ht : e = .bool true
    · simp [ht]
    · by_cases ha : ∃ as, e = .and as
      · obtain ⟨as, rfl⟩ := ha
        rw [conjuncts_and]
        intro c hc
        obtain ⟨a, ha, hc⟩ := List.mem_flatMap.1 hc
        exact ih a ha (h.arg ha) ((proper_and.1 h.proper).1 a ha) c hc
      · rw [conjuncts_eq ht (by simpa using ha)]
        simpa using ⟨h, hb⟩

theorem Expr.Small.topLevel {V : Variable → Prop} {t : Prop} {k n : Nat} {es : List Expr}
    (h : ∀ e ∈ es, e.Small V t k n ∧ e.isBool) :
    ∀ c ∈ topLevel es, c.Small V t k n ∧ c.isBool := by
  intro c hc
  obtain ⟨e, he, hc⟩ := List.mem_flatMap.1 hc
  exact (h e he).1.conjuncts (h e he).2 c hc

namespace Flat

theorem Input.of_small {t : Prop} {K : Nat} {e : Expr} (h : e.Small Any t 0 K) : Input t K e :=
  ⟨h.proper, h.nesting, h.tripleFree⟩

end Flat

theorem flatten_small {t : Prop} {K : Nat} {cs : List Expr}
    (h : ∀ c ∈ cs, c.Small Flat.Any t 0 K ∧ c.isBool) :
    (flatten cs).Yields True fun fs => ∀ f ∈ fs, Flat.Output K f ∨ t ∧ f = .bool true :=
  flatten_yields fun c hc => (Expr.Small.topLevel h c hc).imp_left .of_small

/-- Constraints that are flattened with nothing known about their negations. -/
theorem flatten_yields_isFlat {cs : List Expr} (h : ∀ c ∈ cs, c.isBool ∧ c.Proper Flat.Any) :
    (flatten cs).Yields True fun fs => ∀ f ∈ fs, (f.IsFlat ∨ f = .bool true) ∧ f.Proper Flat.Any := by
  refine (flatten_small (t := True) (K := greatest (cs.map (Expr.nesting 0))) fun c hc =>
    ⟨⟨(h c hc).2, .inl trivial, le_greatest_map hc⟩, (h c hc).1⟩).imp fun fs hfs f hf => ?_
  rcases hfs f hf with h | ⟨-, rfl⟩
  · exact ⟨.inl h.flat, h.proper⟩
  · exact ⟨.inr rfl, Expr.proper_bool⟩

namespace Supported

open ConstraintModel.Expr (IsTaken IsTakenNested IsPart)
open Lowering (Yields)
open Flat (Any)

variable {caps : Capabilities} {k n : Nat}

def Lighter (n : Nat) (es : List Expr) : Prop := ∀ e ∈ es, ∃ m < n, e.IsPart Any False 0 m

theorem small_of_isSimple {e : Expr} (hs : e.isSimple) (h : e.Proper Any) :
    e.Small Any False k 0 := .of_isSimple hs h

theorem constraint_decompose_yields {c : Constraint Expr} (hs : ∀ a ∈ c.args, a.isSimple)
    (hp : (Expr.constraint c).Proper Any) :
    c.decompose.Yields True fun d => Lighter ((Expr.constraint c).nesting 0) d.toList := by
  intro σ
  refine c.decompose_sat.imp fun d τ _ hd e he => ?_
  obtain ⟨hf, hargs⟩ := Expr.proper_constraint.1 hp
  have hpart := hd.parts (t := False) (k := 0) (by omega) hf
    (fun a ha => small_of_isSimple (hs a ha) (hargs a ha)) e he
  refine ⟨_, ?_, hpart.isBool, hpart.isNot, hpart.small.imp fun _ _ => trivial⟩
  rw [Expr.nesting_constraint]
  have := c.weight_pos
  omega

theorem function_decompose_yields {g : Function Expr} {r : Relation} {b : Expr}
    (hs : ∀ a ∈ g.args, a.isSimple) (hb : b.isSimple) (hp : (Expr.cmp r (.function g) b).Proper Any) :
    (g.decompose r b).Yields True fun d =>
      Lighter ((Expr.cmp r (.function g) b).nesting 0) d.toList := by
  intro σ
  refine (g.decompose_sat r b).imp fun d τ _ hd e he => ?_
  obtain ⟨hg, hpb⟩ := Expr.proper_cmp.1 hp
  obtain ⟨-, hargs⟩ := Expr.proper_function.1 hg
  obtain ⟨hc, hdef⟩ := hd.parts (t := False) (k := 0) (by omega)
    (fun a ha => small_of_isSimple (hs a ha) (hargs a ha)) (small_of_isSimple hb hpb)
  have hpart : e.IsPart (fun x => Any x ∨ τ.Owns x) False 0 7 := by
    rcases List.mem_append.1 he with he | he
    · exact (hc e he).mono (by omega)
    · exact hdef e he
  refine ⟨7, ?_, hpart.isBool, hpart.isNot, hpart.small.imp fun _ _ => trivial⟩
  rw [Expr.nesting_cmp, Expr.nesting_function]
  omega

theorem Lighter.all {n : Nat} {l : List Expr} (h : Lighter n l) (hn : 0 < n) :
    (Expr.all l).IsPart Any False 0 (n - 1) := by
  refine Expr.isPart_all (n := n - 1) (fun e he => ?_) (by omega)
  obtain ⟨m, hm, hpart⟩ := h e he
  exact hpart.mono (by omega)

theorem nesting_constraint_pos {c : Constraint Expr} : 0 < (Expr.constraint c).nesting 0 := by
  rw [Expr.nesting_constraint]
  exact Nat.add_pos_left c.weight_pos _

theorem nesting_function_pos {r : Relation} {g : Function Expr} {b : Expr} :
    0 < (Expr.cmp r (.function g) b).nesting 0 := by
  rw [Expr.nesting_cmp, Expr.nesting_function]
  omega

/-- A flat Boolean expression that is taken stays, and another one is replaced
by lighter parts. -/
theorem replacement_yields {e : Expr} (he : e.IsFlatTruth) (hp : e.Proper Any) :
    (replacement? caps e).Yields True fun d? => d? = none ∧ e.IsTakenNested caps ∨
      ∃ d, d? = some d ∧ 0 < e.nesting 0 ∧ Lighter (e.nesting 0) d.toList := by
  have none (h : e.IsTakenNested caps) : (pure none : Lowering (Option Decomposition)).Yields True
      fun d? => d? = none ∧ e.IsTakenNested caps ∨
        ∃ d, d? = some d ∧ 0 < e.nesting 0 ∧ Lighter (e.nesting 0) d.toList := .pure (.inl ⟨rfl, h⟩)
  unfold replacement?
  split
  · split
    · exact none ‹_›
    · exact (constraint_decompose_yields he hp).bind fun d hd =>
        .pure (.inr ⟨d, rfl, nesting_constraint_pos, hd⟩)
  · split
    · exact none ‹_›
    · exact (function_decompose_yields he.1 he.2 hp).bind fun d hd =>
        .pure (.inr ⟨d, rfl, nesting_function_pos, hd⟩)
  · exact absurd hp Expr.proper_call
  · rename_i hc hf hcall
    refine none ?_
    unfold Expr.IsTakenNested
    split
    · exact absurd rfl (hc _)
    · exact absurd rfl (hf _ _ _)
    · trivial

theorem isFlatTruth_of_isFlat {r : Relation} {a b : Expr} (h : (Expr.cmp r a b).IsFlat)
    (hb : a.isBool) : a.IsFlatTruth := by
  rcases h with ⟨h, -⟩ | ⟨-, h, -⟩
  · cases a with
    | var x => exact hb
    | negVar x => rfl
    | sum _ | wsum _ | sub _ _ | mul _ _ | function _ => cases hb
    | _ => cases h
  · exact h

theorem isSimple_of_isFlat {r : Relation} {a b : Expr} (h : (Expr.cmp r a b).IsFlat) :
    b.isSimple := by
  rcases h with ⟨-, h⟩ | ⟨-, -, h⟩
  · exact h
  · exact Expr.isSimple_of_isLiteral h

/-- A flat constraint that is taken stays, and another one is replaced by
lighter constraints. -/
theorem replacements_yields {e : Expr} (he : e.IsFlat) (hp : e.Proper Any) :
    (replacements? caps e).Yields True fun es? => es? = none ∧ e.IsTaken caps ∨
      ∃ es, es? = some es ∧ 0 < e.nesting 0 ∧ Lighter (e.nesting 0) es := by
  have none (h : e.IsTaken caps) : (pure none : Lowering (Option (List Expr))).Yields True
      fun es? => es? = none ∧ e.IsTaken caps ∨ ∃ es, es? = some es ∧ 0 < e.nesting 0 ∧ Lighter (e.nesting 0) es :=
    .pure (.inl ⟨rfl, h⟩)
  have lighter {n : Nat} {c : Expr} {d : Decomposition} (hc : ∃ m < n, c.IsPart Any False 0 m)
      (hd : Lighter n d.toList) : Lighter n (c :: d.defining) :=
    List.forall_mem_cons.2 ⟨hc, fun e he => hd e (List.mem_append_right _ he)⟩
  unfold replacements?
  split
  · split
    · exact none ‹_›
    · exact (constraint_decompose_yields he hp).bind fun d hd =>
        .pure (.inr ⟨_, rfl, nesting_constraint_pos, hd⟩)
  · rename_i r a b
    obtain ⟨hpa, hpb⟩ := Expr.proper_cmp.1 hp
    have hb := isSimple_of_isFlat he
    split
    · rename_i hr
      simp only [Bool.and_eq_true, decide_eq_true_eq] at hr
      refine (replacement_yields (isFlatTruth_of_isFlat he hr.2) hpa).bind fun d? hd => .pure ?_
      rcases hd with ⟨rfl, htaken⟩ | ⟨d, rfl, hpos, hd⟩
      · refine .inl ⟨rfl, ?_⟩
        cases a <;> first | exact htaken | cases hr.2
      · refine .inr ⟨_, rfl, ?_⟩
        rw [Expr.nesting_cmp, Expr.nesting_of_isSimple hb]
        refine ⟨by omega, ?_⟩
        refine lighter (d := d) ⟨a.nesting 0 - 1, by omega, ?_⟩ (by simpa using hd)
        exact Expr.isPart_cmp (Lighter.all (fun e he => hd e (List.mem_append_left _ he)) hpos).small
          (small_of_isSimple hb hpb) (by omega)
    · rename_i hr
      have hside : a.IsFlatSide := by
        rcases he with ⟨h, -⟩ | ⟨h, ht, -⟩
        · exact h
        · exact absurd (by simp [h, Expr.isBool_of_isFlatTruth ht]) hr
      split
      · rename_i g _
        split
        · exact none ‹_›
        · exact (function_decompose_yields hside hb hp).bind fun d hd =>
            .pure (.inr ⟨_, rfl, nesting_function_pos, hd⟩)
      · rename_i hg
        refine none ?_
        cases a <;> first | trivial | cases hside | exact absurd rfl (hg _)
  · rename_i l a
    obtain ⟨⟨-, -⟩, hpl, hpa⟩ := Expr.proper_implies.1 hp
    have hl := Expr.isSimple_of_isLiteral he.1
    refine (replacement_yields he.2 hpa).bind fun d? hd => .pure ?_
    rcases hd with ⟨rfl, htaken⟩ | ⟨d, rfl, hpos, hd⟩
    · exact .inl ⟨rfl, htaken⟩
    · refine .inr ⟨_, rfl, ?_⟩
      rw [Expr.nesting_implies, Expr.nesting_of_isSimple hl]
      refine ⟨by omega, ?_⟩
      refine lighter (d := d) ⟨a.nesting 0 - 1, by omega, ?_⟩ (by simpa using hd)
      have hall := Lighter.all (l := d.constraining) (fun e he => hd e (List.mem_append_left _ he)) hpos
      exact ⟨rfl, rfl, (Expr.Small.implies (Expr.isBool_of_isLiteral he.1) hall.isBool
        (small_of_isSimple hl hpl) hall.small).mono (by omega)⟩
  · rename_i hc hcmp himp
    refine none ?_
    cases e <;> first | trivial | exact absurd rfl (hc _) | exact absurd rfl (hcmp _ _ _) |
      exact absurd rfl (himp _ _)

structure Primitive (caps : Capabilities) (e : Expr) : Prop where
  flat : e.IsFlat
  proper : e.Proper Any
  taken : e.IsTaken caps

/-- Constraints of bounded nesting are replaced within as many rounds. -/
theorem examineFlat_yields {t : Prop} {n : Nat} {cs : List Expr} (h : ∀ c ∈ cs,
      (c.IsFlat ∧ c.Proper Any) ∧ c.nesting 0 < n ∨ 0 < n ∧ t ∧ c = .bool true) :
    (examineFlat caps n cs).Yields True fun fs => ∀ f ∈ fs, Primitive caps f ∨ t ∧ f = .bool true := by
  induction n generalizing t cs with
  | zero =>
    cases cs with
    | nil => exact .pure (by simp)
    | cons c cs => exact absurd (h c (List.mem_cons_self ..)) (by simp)
  | succ n ih =>
    refine (Yields.mapM (R := fun _ fs => ∀ f ∈ fs, Primitive caps f ∨ t ∧ f = .bool true)
      fun e he => ?_).bind fun parts hparts => .pure fun f hf => ?_
    · rcases h e he with ⟨⟨hf, hp⟩, hn⟩ | ⟨-, ht, rfl⟩
      · refine (replacements_yields hf hp).bind fun es? hes => ?_
        rcases hes with ⟨rfl, htaken⟩ | ⟨es, rfl, hpos, hes⟩
        · refine .pure fun f hfe => .inl ?_
          rw [List.mem_singleton.1 hfe]
          exact ⟨hf, hp, htaken⟩
        · refine (flatten_small (t := False) (K := e.nesting 0 - 1) fun c hc => ?_).bind fun fs hfs => ?_
          · obtain ⟨m, hm, hpart⟩ := hes c hc
            exact ⟨hpart.small.mono (by omega), hpart.isBool⟩
          · refine (ih (t := False) fun c hc => .inl ?_).imp fun gs hgs g hg => ?_
            · have hout := (hfs c hc).resolve_right And.left
              have := hout.nesting
              exact ⟨⟨hout.flat, hout.proper⟩, by omega⟩
            · exact .inl ((hgs g hg).resolve_right And.left)
      · refine .pure fun f hf => .inr ⟨ht, List.mem_singleton.1 hf⟩
    · obtain ⟨fs, hfs, hf⟩ := List.mem_flatten.1 hf
      obtain ⟨_, -, hall⟩ := forall₂_mem_right hparts hfs
      exact hall f hf

end Supported

theorem decomposeFlat_yields {caps : Capabilities} {t : Prop} {K : Nat} {cs : List Expr}
    (h : ∀ c ∈ cs, Flat.Output K c ∨ t ∧ c = .bool true) :
    (decomposeFlat caps cs).Yields True fun fs =>
      ∀ f ∈ fs, Supported.Primitive caps f ∨ t ∧ f = .bool true := by
  refine Supported.examineFlat_yields fun c hc => ?_
  have : c.nesting 0 ≤ greatest (cs.map (Expr.nesting 0)) := le_greatest_map hc
  rcases h c hc with h | ⟨ht, rfl⟩
  · exact .inl ⟨⟨h.flat, h.proper⟩, by unfold Supported.flatRounds; omega⟩
  · exact .inr ⟨Nat.succ_pos _, ht, rfl⟩

end ConstraintModel
