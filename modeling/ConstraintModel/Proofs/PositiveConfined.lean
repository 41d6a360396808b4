import ConstraintModel.Proofs.LinearConfined
import ConstraintModel.Proofs.PositiveShape

namespace ConstraintModel

variable {S : Type} {B : Start} {I : B.Invariant S} {σ τ : Store} {e : Expr} {cs : List Expr}

theorem Expr.uses_call {V : Variable → Prop} {d : Call Expr} : (call d).Uses V ↔ ∀ a ∈ d.args, a.Uses V :=
  uses_iff (by simp)

section Args

variable {f : Expr → StateT S Lowering Expr}

theorem Carries.argument_mapM {arg : Argument Expr}
    (h : ∀ a ∈ arg.toList, ∀ τ, σ.Extends B.live τ → Carries B I (f a) τ fun b υ => b.Uses (B.Allows υ)) :
    Carries B I (arg.mapM f) σ fun arg' τ => ∀ a ∈ arg'.toList, a.Uses (B.Allows τ) := by
  cases arg with
  | single a =>
    exact (h a (List.mem_singleton_self a) σ (.refl σ)).bind fun b _ _ hb => .pure (List.forall_mem_singleton.2 hb)
  | array as =>
    have hlist : Carries B I (as.mapM f) σ fun bs τ => ∀ b ∈ bs, b.Uses (B.Allows τ) :=
      .forall_mapM (fun _ _ _ hg h => h.grow hg) h
    exact hlist.bind fun bs _ _ hbs => .pure hbs

theorem Carries.call_substituteM {d : Call Expr} (hd : ∀ a ∈ d.args, a.Uses (B.Allows σ))
    (h : ∀ a ∈ d.args, ∀ τ, σ.Extends B.live τ → Carries B I (f a) τ fun b υ => b.Uses (B.Allows υ)) :
    Carries B I (d.substituteM f) σ fun d' τ => ∀ a ∈ d'.args, a.Uses (B.Allows τ) := by
  have hargs : Carries B I (d.tagged.mapM fun (isVerbatim, arg) => if isVerbatim then return arg else arg.mapM f) σ
      fun args τ => ∀ arg ∈ args, ∀ a ∈ arg.toList, a.Uses (B.Allows τ) := by
    refine .forall_mapM (fun _ _ _ hg h a ha => (h a ha).grow hg) fun p hp τ hg => ?_
    obtain ⟨⟨arg, i⟩, harg, rfl⟩ := List.mem_map.1 hp
    have hmem {a : Expr} (ha : a ∈ arg.toList) : a ∈ d.args :=
      List.mem_flatMap.2 ⟨arg, List.fst_mem_of_mem_zipIdx harg, ha⟩
    dsimp only
    split
    · exact .pure fun a ha => (hd a (hmem ha)).grow hg
    · exact .argument_mapM fun a ha υ hg' => h a (hmem ha) υ (hg.trans hg')
  refine hargs.bind fun args τ _ hargs => .pure fun a ha => ?_
  obtain ⟨arg, harg, ha⟩ := List.mem_flatMap.1 ha
  exact hargs arg harg a ha

/-- Replacing the arguments by ones over permitted variables. -/
theorem Carries.mapArgsM (he : e.Uses (B.Allows σ))
    (h : ∀ a ∈ e.args, ∀ τ, σ.Extends B.live τ → Carries B I (f a) τ fun b υ => b.Uses (B.Allows υ)) :
    Carries B I (e.mapArgsM f) σ fun e' τ => e'.Uses (B.Allows τ) := by
  by_cases hcall : ∃ d, e = .call d
  · obtain ⟨d, rfl⟩ := hcall
    exact (Carries.call_substituteM (Expr.uses_call.1 he) h).bind fun d' _ _ hd => .pure (Expr.uses_call.2 hd)
  · have hmapped : Carries B I (e.mapArgsM f) σ fun e' τ => e.Mapped (fun _ b => b.Uses (B.Allows τ)) e' :=
      (Carries.calculus B I).mapArgsM (R := fun τ _ b => b.Uses (B.Allows τ)) (fun _ _ _ _ hg h => h.grow hg)
        (by simpa using hcall) h
    exact hmapped.imp fun e' _ hg hm => .mapped hm (he.grow hg) fun _ _ h => h

end Args

namespace Positive

def views (B : Start) : B.Invariant Views where
  holds σ v := ∀ p ∈ v, B.Allows σ p.1 ∧ p.2.Uses (B.Allows σ)
  mono hg h p hp := ⟨(h p hp).1.mono hg, (h p hp).2.grow hg⟩

abbrev Runs {α : Type} (B : Start) (x : Replacing α) (σ : Store) (Q : α → Store → Prop) : Prop :=
  Carries B (views B) x σ Q

variable {a b : Expr} {r : Relation} {ts : List (Int × Expr)}

theorem positive_runs (h : e.Uses (B.Allows σ)) : Runs B (positive e) σ fun e' τ => e'.Uses (B.Allows τ) := by
  cases e with
  | negVar x =>
    have hx := Expr.uses_negVar.1 h
    intro v hv
    rw [positive, StateT.run_bind, StateT.run_get, pure_bind]
    cases hlookup : v.lookup x with
    | some y =>
      obtain ⟨l₁, l₂, rfl, -⟩ := List.lookup_eq_some_iff.1 hlookup
      exact .pure ⟨hv, (hv (x, y) (by simp)).2⟩
    | none =>
      simp only [StateT.run_bind, StateT.run_modify, StateT.run_pure, pure_bind, StateT.run_monadLift, bind_assoc]
      refine Lowering.Stays.freshBool.bind ?_
      rintro _ τ hg ⟨y, rfl, hy⟩
      have hy := Expr.uses_var.2 hy
      refine .pure ⟨List.forall_mem_append.2 ⟨(views B).mono hg hv, ?_⟩, hy⟩
      exact List.forall_mem_singleton.2 ⟨hx.mono hg, hy⟩
  | _ => exact .pure h

theorem uses_straight {V : Variable → Prop} {t : Int × Expr} : (straight t).2.Uses V ↔ t.2.Uses V := by
  obtain ⟨w, a⟩ := t
  cases a with
  | negVar x => simp [straight]
  | _ => exact Iff.rfl

theorem sum_runs (hts : ∀ t ∈ ts, t.2.Uses (B.Allows σ)) (hb : b.Uses (B.Allows σ)) :
    Runs B (sum r ts b) σ fun e τ => e.Uses (B.Allows τ) := by
  unfold sum
  refine Carries.checked_bind fun p hp => ?_
  obtain ⟨us, offset⟩ := p
  obtain ⟨rfl, -⟩ := straighten_eq_ok hp
  have hus : ∀ u ∈ ts.map straight, u.2.Uses (B.Allows σ) :=
    List.forall_mem_map.2 fun t ht => uses_straight.2 (hts t ht)
  dsimp only
  split
  · exact Carries.checked_bind fun _ _ => .pure (Expr.uses_cmp.2 ⟨Expr.uses_wsum.2 hus, Expr.uses_int⟩)
  · refine (positive_runs hb).bind fun b' τ hg hb' => Carries.checked_bind fun _ _ => .pure ?_
    refine Expr.uses_cmp.2 ⟨Expr.uses_wsum.2 (List.forall_mem_append.2 ⟨fun u hu => (hus u hu).grow hg, ?_⟩),
      Expr.uses_int⟩
    exact List.forall_mem_singleton.2 hb'

theorem comparison_runs (ha : a.Uses (B.Allows σ)) (hb : b.Uses (B.Allows σ)) :
    Runs B (comparison r a b) σ fun e τ => e.Uses (B.Allows τ) := by
  have replaced : Runs B (do let a ← a.mapArgsM positive; return Expr.cmp r a (← positive b)) σ
      fun e τ => e.Uses (B.Allows τ) := by
    refine (Carries.mapArgsM ha fun c hc τ hg => positive_runs ((ha.arg hc).grow hg)).bind fun a' τ hg ha' => ?_
    exact (positive_runs (hb.grow hg)).bind fun b' _ hg' hb' => .pure (Expr.uses_cmp.2 ⟨ha'.grow hg', hb'⟩)
  unfold comparison
  split
  · exact sum_runs (List.forall_mem_singleton.2 ha) hb
  · split
    · exact sum_runs (List.forall_mem_map.2 (Expr.uses_sum.1 ha)) hb
    · exact replaced
  · exact sum_runs (Expr.uses_wsum.1 ha) hb
  · exact replaced

theorem constraint_runs (h : e.Uses (B.Allows σ)) : Runs B (constraint e) σ fun e' τ => e'.Uses (B.Allows τ) := by
  induction e using Expr.induction_args generalizing σ with
  | h e ih =>
    cases e with
    | bool _ | call _ => exact .pure h
    | cmp r a b =>
      obtain ⟨ha, hb⟩ := Expr.uses_cmp.1 h
      exact comparison_runs ha hb
    | implies l a =>
      obtain ⟨hl, ha⟩ := Expr.uses_implies.1 h
      refine (positive_runs hl).bind fun l' τ hg hl' => ?_
      exact (ih a (by simp [Expr.args]) (ha.grow hg)).bind fun a' _ hg' ha' =>
        .pure (Expr.uses_implies.2 ⟨hl'.grow hg', ha'⟩)
    | constraint c =>
      refine Carries.bind (Carries.constraint_mapM (P := fun τ e => e.Uses (B.Allows τ)) (fun _ _ _ hg h => h.grow hg)
        fun a ha τ hg => positive_runs ((Expr.uses_constraint.1 h a ha).grow hg)) fun d _ _ hd => ?_
      exact .pure (Expr.uses_constraint.2 hd.2)
    | int _ | var _ | negVar _ | and _ | or _ | not _ | sum _ | wsum _ | sub _ _ | mul _ _ | neg _ | function _ =>
      exact .throw (by simp)

theorem uses_definition {V : Variable → Prop} {x : Variable} {y : Expr} (hx : V x) (hy : y.Uses V) :
    (definition x y).Uses V := by
  simpa [definition] using ⟨hx, hy⟩

end Positive

theorem removeViews_keeps (h : B.Keeps cs σ) : (removeViews cs).Stays B σ B.Keeps := by
  have hrun : Positive.Runs B (cs.mapM Positive.constraint) σ B.Keeps :=
    .forall_mapM (fun _ _ _ hg h => h.grow hg) fun c hc τ hg => Positive.constraint_runs ((h c hc).grow hg)
  refine (hrun [] (List.forall_mem_nil _)).bind fun p τ _ hp => .pure (hp.2.append ?_)
  exact List.forall_mem_map.2 fun q hq => Positive.uses_definition (hp.1 q hq).1 (hp.1 q hq).2

end ConstraintModel
