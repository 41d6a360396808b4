import ConstraintModel.Proofs.Constraints
import ConstraintModel.Proofs.FlatSolutions
import ConstraintModel.Proofs.SupportedFlat

namespace ConstraintModel

namespace Supported

open ConstraintModel.Expr (Steady)
open Lowering (Sat Rewrites)

variable {caps : Capabilities} {σ : Store} {a b e : Expr} {r : Relation} {n : Nat}

theorem constraint_replaces {c : Constraint Expr} (hs : ∀ a ∈ c.args, a.isSimple)
    (hp : (Expr.constraint c).Proper σ.Owns) (hl : (Expr.constraint c).Steady False) (hσ : σ.Habitable) :
    c.decompose.Sat False σ fun d τ => d.Replaces False (World.bare σ) τ (.constraint c) := by
  obtain ⟨hf, hargs⟩ := Expr.proper_constraint.1 hp
  exact c.decompose_sat.imp fun d τ _ hd => hd.replaces (w := World.bare σ) (World.inhabited_bare hσ) hf
    (hl.here.1 c rfl) fun a ha => Expr.sound_of_isSimple (hs a ha) (hargs a ha)

theorem function_replaces {g : Function Expr} (hs : ∀ a ∈ g.args, a.isSimple) (hb : b.isSimple)
    (hp : (Expr.cmp r (.function g) b).Proper σ.Owns) (hσ : σ.Habitable) :
    (g.decompose r b).Sat False σ fun d τ => d.Replaces False (World.bare σ) τ (.cmp r (.function g) b) := by
  obtain ⟨hpg, hpb⟩ := Expr.proper_cmp.1 hp
  obtain ⟨hf, hargs⟩ := Expr.proper_function.1 hpg
  exact (g.decompose_sat r b).imp fun d τ _ hd => hd.replaces (w := World.bare σ) (World.inhabited_bare hσ) hf
    (fun a ha => Expr.sound_of_isSimple (hs a ha) (hargs a ha)) (Expr.sound_of_isSimple hb hpb)

theorem replacement_replaces (ha : a.IsFlatTruth) (hp : a.Proper σ.Owns) (hl : a.Steady False) (hσ : σ.Habitable) :
    (replacement? caps a).Sat False σ fun d? τ => d? = none ∧ τ = σ ∨
      ∃ d, d? = some d ∧ d.Replaces False (World.bare σ) τ a := by
  have none : (pure none : Lowering (Option Decomposition)).Sat False σ fun d? τ => d? = none ∧ τ = σ ∨
      ∃ d, d? = some d ∧ d.Replaces False (World.bare σ) τ a := .pure (.inl ⟨rfl, rfl⟩)
  unfold replacement?
  split
  · split
    · exact none
    · exact (constraint_replaces ha hp hl hσ).bind fun d τ _ hd => .pure (.inr ⟨d, rfl, hd⟩)
  · split
    · exact none
    · exact (function_replaces ha.1 ha.2 hp hσ).bind fun d τ _ hd => .pure (.inr ⟨d, rfl, hd⟩)
  · exact absurd hp Expr.proper_call
  · exact none

structure Placed (σ : Store) (e : Expr) (es : List Expr) (τ : Store) : Prop where
  sound : ∀ f ∈ es, f.isBool ∧ f.Sound False (World.bare τ)
  refines : ∀ v : World, v.store = σ → v.constraints = [e] →
    ∃ v' : World, v'.store = τ ∧ v'.constraints = es ∧ v.Refines True v'

theorem placed_toList {d : Decomposition} {τ : Store} (h : d.Replaces False (World.bare σ) τ e) :
    Placed σ e d.toList τ := by
  refine ⟨fun f hf => ⟨h.isBool f hf, h.sound f hf⟩, fun v hv he => ?_⟩
  exact h.posted hv fun c => by simp [he, World.bare]

theorem valued_of_isFlatTruth {s : Assignment} (ha : a.IsFlatTruth) (hp : a.Proper σ.Owns) (hs : s.Within σ) :
    a.Valued s := by
  have simple : (∀ b ∈ a.args, b.isSimple) → (∀ as i, a ≠ .function (.element as i)) → a.Valued s := fun hargs hf =>
    Expr.valued_of_args hp hs (fun b hb => Expr.valued_of_isSimple (hargs b hb) (hp.arg hb) hs)
      fun as i he => absurd he (hf as i)
  cases a with
  | cmp r a b => exact Expr.valued_cmp hp hs
  | and as | or as => exact simple (fun b hb => Expr.isSimple_of_isLiteral (ha b hb)) (by simp)
  | constraint c => exact simple ha (by simp)
  | var x | negVar x => exact Expr.valued_of_isSimple rfl hp hs
  | _ => cases ha

/-- The constraining part takes the place of a Boolean expression within a
constraint. -/
theorem placed_within {d : Decomposition} {τ : Store} {f : Expr} (h : d.Replaces False (World.bare σ) τ a)
    (ha : a.IsFlatTruth) (hp : a.Proper σ.Owns) (hb : f.isBool) (hf : f.Sound False (World.bare τ))
    (hiff : ∀ t, t.Within τ → (Expr.all d.constraining).exact t = a.exact t → (f.Holds t ↔ e.Holds t)) :
    Placed σ e (f :: d.defining) τ := by
  refine ⟨List.forall_mem_cons.2 ⟨⟨hb, hf⟩, fun c hc => ⟨h.isBool c (List.mem_append_right _ hc),
    h.sound c (List.mem_append_right _ hc)⟩⟩, fun v hv he => ?_⟩
  have hiffs : ∀ c, c ∈ v.constraints ↔ c ∈ (World.bare σ).constraints ∨ c = e := fun c => by simp [he, World.bare]
  refine h.substituted [f] hv hiffs
    (List.forall_mem_singleton.2 hf.proper) fun t ht hholds => ?_
  rw [List.forall_mem_singleton]
  exact hiff t ht.within (h.exact_all hp (Expr.isBool_of_isFlatTruth ha)
    (fun t ht => valued_of_isFlatTruth ha hp ht.within) ht hholds)

/-- What is not taken is replaced by constraints that say the same. -/
theorem replacements_placed (he : e.IsFlat ∨ e = .bool true) (hp : e.Proper σ.Owns) (hl : e.Steady False)
    (hσ : σ.Habitable) : (replacements? caps e).Sat False σ fun es? τ => es? = none ∧ τ = σ ∨
      ∃ es, es? = some es ∧ Placed σ e es τ := by
  have none : (pure none : Lowering (Option (List Expr))).Sat False σ fun es? τ => es? = none ∧ τ = σ ∨
      ∃ es, es? = some es ∧ Placed σ e es τ := .pure (.inl ⟨rfl, rfl⟩)
  rcases he with he | rfl
  · unfold replacements?
    split
    · split
      · exact none
      · exact (constraint_replaces he hp hl hσ).bind fun d τ _ hd => .pure (.inr ⟨_, rfl, placed_toList hd⟩)
    · rename_i r a b
      obtain ⟨hpa, hpb⟩ := Expr.proper_cmp.1 hp
      have hb := isSimple_of_isFlat he
      split
      · rename_i hr
        simp only [Bool.and_eq_true, decide_eq_true_eq] at hr
        obtain ⟨rfl, hba⟩ := hr
        have ha := isFlatTruth_of_isFlat he hba
        refine (replacement_replaces ha hpa (hl.arg (by simp [Expr.args])) hσ).bind fun d? τ _ hd => .pure ?_
        rcases hd with ⟨rfl, rfl⟩ | ⟨d, rfl, hd⟩
        · exact .inl ⟨rfl, rfl⟩
        · refine .inr ⟨_, rfl, placed_within hd ha hpa rfl (Expr.sound_cmp hd.sound_all ?_) fun t ht hexact => ?_⟩
          · exact Expr.sound_of_isSimple hb (hpb.imp fun _ hx => hx.mono hd.grows)
          · rw [Expr.Holds, Expr.Holds, Expr.exact_cmp_within hp (ht.mono hd.grows), Expr.exact_cmp_within ?_ ht,
              hexact]
            exact Expr.proper_cmp.2 ⟨hd.sound_all.proper, hpb.imp fun _ hx => hx.mono hd.grows⟩
      · rename_i hr
        split
        · rename_i g
          have hside : (Expr.function g).IsFlatSide := by
            rcases he with ⟨h, -⟩ | ⟨-, h, -⟩
            · exact h
            · cases h
          split
          · exact none
          · exact (function_replaces hside hb hp hσ).bind fun d τ _ hd => .pure (.inr ⟨_, rfl, placed_toList hd⟩)
        · exact none
    · rename_i l a
      obtain ⟨⟨hbl, -⟩, hpl, hpa⟩ := Expr.proper_implies.1 hp
      have hsl := Expr.isSimple_of_isLiteral he.1
      refine (replacement_replaces he.2 hpa (hl.arg (by simp [Expr.args])) hσ).bind fun d? τ _ hd => .pure ?_
      rcases hd with ⟨rfl, rfl⟩ | ⟨d, rfl, hd⟩
      · exact .inl ⟨rfl, rfl⟩
      · have hpl' := hpl.imp fun _ hx => hx.mono hd.grows
        refine .inr ⟨_, rfl, placed_within hd he.2 hpa rfl (Expr.sound_implies hbl hd.isBool_all
          (Expr.sound_of_isSimple hsl hpl') hd.sound_all) fun t ht hexact => ?_⟩
        rw [Expr.Holds, Expr.Holds, Expr.exact_implies, Expr.exact_implies, hexact]
    · exact none
  · exact none

/-- What is replaced is flattened and examined in turn. -/
theorem examineFlat_rewrites {w : World} (h : ∀ e ∈ w.constraints, (e.IsFlat ∨ e = .bool true) ∧ e.Steady False) :
    (examineFlat caps n w.constraints).Rewrites True (fun _ => Steady False) w := by
  induction n generalizing w with
  | zero =>
    rw [examineFlat]
    split
    · rename_i hempty
      have hnil : w.constraints = [] := List.isEmpty_iff.1 hempty
      rw [← hnil]
      exact .pure fun e he => (h e he).2
    · exact .throw
  | succ n ih =>
    refine Lowering.rewrites_mapM (P := fun _ => Steady False) (fun _ _ _ _ h => h) rfl fun v hg e he hv hσ => ?_
    have hp : e.Proper v.store.Owns := v.proper e (hv ▸ List.mem_singleton_self e)
    refine (replacements_placed (h e he).1 hp (h e he).2 hσ).bind fun es? τ _ hes => ?_
    rcases hes with ⟨rfl, rfl⟩ | ⟨es, rfl, hes⟩
    · exact .pure ⟨v, rfl, hv, .refl v, List.forall_mem_singleton.2 (h e he).2⟩
    · obtain ⟨v', rfl, rfl, hr⟩ := hes.refines v rfl hv
      have hground : v'.Grounded :=
        World.grounded_of_tame fun t ht f hf => (hes.sound f hf).2.tame (World.admits_bare.2 ht)
      have hflat := (flatten_rewrites (q := False) (fun f hf => ⟨(hes.sound f hf).1, False.elim⟩) hground).and_yields
        (flatten_yields_isFlat fun f hf => ⟨(hes.sound f hf).1, (v'.proper f hf).imp fun _ _ => trivial⟩)
      refine (hflat.bind (Q := fun _ => Steady False) (fun w' _ hw' => ih fun f hf => ⟨(hw' f hf).2.1, (hw' f hf).1⟩)
        (hr.habitable hσ)).imp ?_
      rintro fs υ - ⟨w', hυ, hfs, hr', hl⟩
      exact ⟨w', hυ, hfs, hr.trans hr', hl⟩

end Supported

/-- Replacing what the backend does not take in flat constraints keeps the
solutions, and the auxiliary variables are determined by the others. -/
theorem decomposeFlat_rewrites {caps : Capabilities} {w : World}
    (h : ∀ e ∈ w.constraints, (e.IsFlat ∨ e = .bool true) ∧ e.Steady False) :
    (decomposeFlat caps w.constraints).Rewrites True (fun _ => Expr.Steady False) w :=
  Supported.examineFlat_rewrites h

end ConstraintModel
