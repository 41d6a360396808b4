import ConstraintModel.Proofs.LinearSums
import ConstraintModel.Proofs.PositiveShape

namespace ConstraintModel

namespace Expr

variable {σ : Store} {s : Assignment} {a b : Expr} {t : Int × Expr} {ts : List (Int × Expr)} {r : Relation}

theorem exact_wsum_cons : (wsum (t :: ts)).exact s =
    (t.2.exact s).bind fun n => ((wsum ts).exact s).map (t.1 * n + ·) := by
  simp only [exact_wsum, Exact.weightedSum, List.map_cons, List.mapM_cons]
  cases t.2.exact s with
  | none => rfl
  | some n => cases (ts.map fun t => (t.1, t.2.exact s)).mapM fun t : Int × Option Int => t.2.map (t.1 * ·) <;> rfl

/-- An expression is subtracted from a weighted sum as one of its terms. -/
theorem exact_wsum_sub : (wsum (ts ++ [(-1, a)])).exact s = (sub (wsum ts) a).exact s := by
  rw [exact_sub]
  induction ts with
  | nil =>
    rw [List.nil_append, exact_wsum_cons]
    cases a.exact s <;> simp [exact_wsum, Exact.weightedSum]
  | cons t ts ih =>
    rw [List.cons_append, exact_wsum_cons, exact_wsum_cons, ih]
    cases t.2.exact s <;> cases (wsum ts).exact s <;> cases a.exact s <;> simp [add_sub_assoc]

theorem exact_sum_eq_wsum {as : List Expr} : (sum as).exact s = (wsum (as.map (1, ·))).exact s := by
  simp [exact_sum, exact_wsum, Exact.sum, Exact.weightedSum, List.mapM_map, Function.comp_def]

/-- A comparison depends only on the difference of its sides. -/
theorem exact_cmp_sub (hp : (cmp r a b).Proper σ.Owns) (hs : s.Within σ) :
    (cmp r a b).exact s = some (((sub a b).exact s).elim false fun n => r.holds n 0).toInt := by
  rw [exact_cmp_within hp hs, exact_sub]
  cases a.exact s with
  | none => rfl
  | some m =>
    cases b.exact s with
    | none => rfl
    | some n =>
      have hshift : r.holds m n = r.holds (m - n) 0 := Relation.holds_of_sub_eq (sub_zero _).symm
      rw [Exact.comparison, hshift]
      rfl

end Expr

namespace Positive

variable {α β : Type} {v : Views} {w w' : World} {x : Replacing α} {f : α → Replacing β}
  {Q Q' : α → World → Prop} {R : β → World → Prop}

structure Defined (v : Views) (w : World) : Prop where
  constraints : w.constraints = v.map fun p => definition p.1 p.2
  replaced : Replaced v

/-- The run of a step in the world of the definitions that are known so far. It
refines the world by further definitions. -/
def Refining (x : Replacing α) (w : World) (Q : α → World → Prop) : Prop :=
  w.Inhabited → ∀ v, Defined v w → (x.run v).Sat False w.store fun p τ => ∃ w' : World, w'.store = τ ∧
    Defined p.2 w' ∧ w.Refines True w' ∧ Q p.1 w'

theorem Refining.pure {a : α} (h : Q a w) : Refining (pure a) w Q :=
  fun _ _ hv => .pure ⟨w, rfl, hv, .refl w, h⟩

theorem Refining.bind (hx : Refining x w Q) (hf : ∀ a w', w.Refines True w' → Q a w' → Refining (f a) w' R) :
    Refining (x >>= f) w R := by
  refine fun hw v hv => (hx hw v hv).bind ?_
  rintro p τ - ⟨w', rfl, hv', hr, ha⟩
  refine (hf p.1 w' hr ha (hr.keeps hw) p.2 hv').imp ?_
  rintro q υ - ⟨w'', rfl, hv'', hr', hb⟩
  exact ⟨w'', rfl, hv'', hr.trans hr', hb⟩

theorem Refining.imp (hx : Refining x w Q) (h : ∀ a w', w.Refines True w' → Q a w' → Q' a w') :
    Refining x w Q' := by
  refine fun hw v hv => (hx hw v hv).imp ?_
  rintro p τ - ⟨w', rfl, hv', hr, ha⟩
  exact ⟨w', rfl, hv', hr, h p.1 w' hr ha⟩

theorem Refining.throw {e : LoweringError} : Refining (throw e : Replacing α) w Q :=
  fun _ _ _ => Lowering.Sat.throw False.elim

theorem Refining.checked_bind {c : Checked α} (h : ∀ a, c = .ok a → Refining (f a) w R) :
    Refining (liftM c >>= f) w R := by
  cases c with
  | error e => exact .throw
  | ok a => exact h a rfl

theorem Refining.get_bind {f : Views → Replacing β} (h : ∀ v, Defined v w → Refining (f v) w R) :
    Refining (get >>= f) w R := fun hw v hv => h v hv hw v hv

theorem Refining.assume (h : w.Inhabited → Refining x w Q) : Refining x w Q := fun hw => h hw hw

def refining : Calculus Replacing World where
  le := World.Refines True
  sat x w Q := Refining x w Q
  refl := .refl
  trans := .trans
  pure := .pure
  bind := .bind
  imp := .imp

theorem stable : refining.Stable World.Stands := fun _ _ _ _ hr h => h.mono hr.le

section

variable {e a b : Expr} {ts : List (Int × Expr)} {r : Relation} {x y : Variable} {s t : Assignment}

theorem holds_definition (hx : (Expr.var x).Valued t) (hy : (Expr.var y).Valued t) :
    (definition x (.var y)).Holds t ↔ t.value? y = some (1 - (Expr.var x).num t) := by
  have hvalue : t.value? y = some ((Expr.var y).num t) := by rw [← Expr.exact_var, hy.exact_eq]
  rw [definition, Expr.holds_cmp_sum (by simpa using ⟨hx, hy⟩), hvalue, Option.some_inj]
  simp only [List.map_cons, List.map_nil, List.sum_cons, List.sum_nil, Relation.holds, beq_iff_eq]
  omega

theorem proper_definition {V : Variable → Prop} : (definition x (.var y)).Proper V ↔ V x ∧ V y := by
  simp [definition]

/-- A variable with the definition of a view stands for the view. -/
theorem stands_view (hd : definition x (.var y) ∈ w.constraints) (hx : x.isBool) (hy : y.isBool) :
    w.Stands (.negVar x) (.var y) := by
  obtain ⟨howns, howns'⟩ := proper_definition.1 (w.proper _ hd)
  refine ⟨Expr.proper_var.2 howns', fun _ => hy, ?_, fun t ht => ?_⟩
  · rw [Expr.range, Expr.range, howns.2 hx, howns'.2 hy]
    exact Bounds.subset_refl _
  · have hvx := World.valued_var howns.1 ht.within
    rw [Expr.exact_var, (holds_definition hvx (World.valued_var howns'.1 ht.within)).1 (ht.holds _ hd),
      Expr.exact_negVar, ← Expr.exact_var, hvx.exact_eq, Option.map_some]

/-- A new variable is defined as the negation of another one. -/
theorem refines_view (hw : w.Inhabited) (hx : w.store.Owns x) (hb : x.isBool) (hy : w.store.Creates y w'.store)
    (hyb : y.isBool) (hw' : w'.constraints = w.constraints ++ [definition x (.var y)]) : w.Refines True w' := by
  have hbit {s : Assignment} (hs : s.Within w.store) : (Expr.var x).num s = 0 ∨ (Expr.var x).num s = 1 :=
    (Expr.operand_var hx).num_boolean hb hs
  refine World.refines_create (v := fun s => 1 - (Expr.var x).num s) hw hy hw' (fun s hs => ?_) (fun s t hst => ?_) ?_
  · rw [hy.boolean hyb]
    rcases hbit hs.within with h | h <;> rw [h] <;> decide
  · rw [(Expr.proper_var.2 hx).num_congr hst]
  · intro t ht hwt
    rw [List.forall_mem_singleton]
    exact holds_definition (World.valued_var hx.1 hwt.within) (World.valued_var hy.owns.1 ht)

/-- A view is given a variable of its own. -/
theorem view_refining (hx : w.store.Owns x) (hb : x.isBool) :
    Refining (do let y ← liftM freshBool; modify (· ++ [(x, y)]); return y) w fun y w' => w'.Stands (.negVar x) y := by
  intro hw v hv
  simp only [StateT.run_bind, StateT.run_modify, StateT.run_pure, pure_bind, StateT.run_monadLift, bind_assoc]
  refine Lowering.Sat.freshBool.bind ?_
  rintro _ τ hg ⟨y, rfl, hy, hyb⟩
  have hdefined : (definition x (.var y)).Proper τ.Owns := proper_definition.2 ⟨hx.mono hg, hy.owns⟩
  let w' : World := ⟨τ, w.constraints ++ [definition x (.var y)],
    List.forall_mem_append.2 ⟨World.proper_mono hg w.proper, by simpa using hdefined⟩⟩
  refine .pure ⟨w', rfl, ⟨?_, ?_⟩, refines_view hw hx hb hy hyb rfl, stands_view (by simp [w']) hb hyb⟩
  · simp [w', hv.constraints]
  · exact List.forall_mem_append.2 ⟨hv.replaced, by simpa using hyb⟩

theorem positive_refining (hp : e.Proper w.store.Owns) :
    Refining (positive e) w fun e' w' => w'.Stands e e' := by
  unfold positive
  split
  · rename_i x
    obtain ⟨hb, hx⟩ := Expr.proper_negVar.1 hp
    refine .get_bind fun v hv => ?_
    split
    · rename_i e hlookup
      obtain ⟨l₁, l₂, rfl, -⟩ := List.lookup_eq_some_iff.1 hlookup
      obtain ⟨y, rfl, hy⟩ := hv.replaced (x, e) (by simp)
      exact .pure (stands_view (by simp [hv.constraints]) hb hy)
    · exact view_refining hx hb
  · exact .pure (.refl hp)

def offset (ts : List (Int × Expr)) : Int := ((ts.filter fun t => isView t.2).map Prod.fst).sum

theorem exact_straight : (Expr.wsum (ts.map straight)).exact s =
    ((Expr.wsum ts).exact s).map (· - offset ts) := by
  induction ts with
  | nil => simp [Expr.exact_wsum, Exact.weightedSum, offset]
  | cons t ts ih =>
    obtain ⟨n, a⟩ := t
    rw [List.map_cons, Expr.exact_wsum_cons, Expr.exact_wsum_cons, ih]
    cases a with
    | negVar x =>
      have hoffset : offset ((n, .negVar x) :: ts) = n + offset ts := rfl
      rw [hoffset, straight, Expr.exact_negVar, Expr.exact_var]
      cases s.value? x <;> cases (Expr.wsum ts).exact s <;> simp
      ring
    | _ =>
      rw [straight]
      · generalize Expr.exact s _ = k
        cases k <;> cases (Expr.wsum ts).exact s <;> simp [offset, isView, add_sub_assoc]
      · simp

theorem proper_straight {V : Variable → Prop} (h : (Expr.wsum ts).Proper V) :
    (Expr.wsum (ts.map straight)).Proper V := by
  rw [Expr.proper_wsum, List.forall_mem_map]
  rintro ⟨n, a⟩ ht
  have hp := Expr.proper_wsum.1 h _ ht
  cases a with
  | negVar x => exact Expr.proper_var.2 (Expr.proper_negVar.1 hp).2
  | _ => exact hp

theorem sum_refining (ha : a.Proper w.store.Owns) (hts : (Expr.wsum ts).Proper w.store.Owns)
    (hb : b.Proper w.store.Owns) (hexact : ∀ s, a.exact s = (Expr.wsum ts).exact s) :
    Refining (sum r ts b) w fun e w' => w'.Stands (.cmp r a b) e := by
  have stands {w' : World} (hr : w.Refines True w') {us : List (Int × Expr)} {n : Int}
      (hus : (Expr.wsum us).Proper w'.store.Owns) (h : ∀ t, w'.Admits t →
        (Expr.sub (.wsum us) (.int n)).exact t = (Expr.sub a b).exact t) :
      w'.Stands (.cmp r a b) (.cmp r (.wsum us) (.int n)) := by
    have hcmp : (Expr.cmp r a b).Proper w'.store.Owns := (Expr.proper_cmp.2 ⟨ha, hb⟩).imp fun _ hx => hx.mono hr.grows
    have hcmp' : (Expr.cmp r (.wsum us) (.int n)).Proper w'.store.Owns := Expr.proper_cmp.2 ⟨hus, Expr.proper_int⟩
    refine ⟨hcmp', fun _ => rfl, by rw [Expr.range, Expr.range], fun t ht => ?_⟩
    rw [Expr.exact_cmp_sub hcmp ht.within, Expr.exact_cmp_sub hcmp' ht.within, h t ht]
  unfold sum
  refine .checked_bind fun p hus => ?_
  obtain ⟨us, n⟩ := p
  obtain ⟨rfl, rfl⟩ := straighten_eq_ok hus
  have hstraight := proper_straight hts
  dsimp only
  split
  · rename_i k hk
    refine .checked_bind fun n hn => .pure (stands (.refl _) hstraight fun t ht => ?_)
    rw [Expr.exact_sub, Expr.exact_sub, exact_straight, hexact, Expr.exact_of_constant hk,
      ← (Checked.sub_eq_ok.1 hn).2]
    cases (Expr.wsum ts).exact t <;> simp [offset]
  · refine (positive_refining hb).bind fun b' w' hr hb' => ?_
    refine .checked_bind fun n hn => .pure (stands hr ?_ fun t ht => ?_)
    · rw [Expr.proper_wsum] at hstraight ⊢
      exact List.forall_mem_append.2 ⟨fun t ht => (hstraight t ht).imp fun _ hx => hx.mono hr.grows,
        by simpa using hb'.proper⟩
    · rw [Expr.exact_sub, Expr.exact_sub, Expr.exact_wsum_sub, Expr.exact_sub, exact_straight, hexact, hb'.exact t ht,
        ← (Checked.neg_eq_ok.1 hn).2]
      cases (Expr.wsum ts).exact t <;> cases b.exact t <;> simp [offset]
      omega

theorem comparison_refining (hp : (Expr.cmp r a b).Proper w.store.Owns) :
    Refining (comparison r a b) w fun e w' => w'.Stands (.cmp r a b) e := by
  obtain ⟨ha, hb⟩ := Expr.proper_cmp.1 hp
  have replaced : Refining (do let a ← a.mapArgsM positive; return .cmp r a (← positive b)) w
      fun e w' => w'.Stands (.cmp r a b) e := by
    refine .assume fun hw => ?_
    have hargs : Refining (a.mapArgsM positive) w fun a' w' => a.Mapped w'.Stands a' :=
      refining.mapArgsM stable (fun d hd => Expr.proper_call (hd ▸ ha)) fun c hc w' hr =>
        positive_refining ((ha.arg hc).imp fun _ hx => hx.mono hr.grows)
    refine hargs.bind fun a' w' hr ha' => ?_
    refine (positive_refining (hb.imp fun _ hx => hx.mono hr.grows)).bind fun b' w'' hr' hb' => .pure ?_
    have hside := World.Stands.mapped ha' (ha.imp fun _ hx => hx.mono hr.grows) (hr.habitable hw.habitable)
    exact .mapped (.cmp r (hside.mono hr'.le) hb') (hp.imp fun _ hx => hx.mono (hr.trans hr').grows)
      ((hr.trans hr').habitable hw.habitable)
  unfold comparison
  cases a with
  | negVar x =>
    refine sum_refining ha (by simpa using ha) hb fun s => ?_
    rw [Expr.exact_wsum_cons]
    cases (Expr.negVar x).exact s <;> simp [Expr.exact_wsum, Exact.weightedSum]
  | sum as =>
    dsimp only
    split
    · exact sum_refining ha (by simpa using ha) hb fun s => Expr.exact_sum_eq_wsum
    · exact replaced
  | wsum ts => exact sum_refining ha ha hb fun _ => rfl
  | _ => exact replaced

theorem constraint_refining (hp : e.Proper w.store.Owns) :
    Refining (constraint e) w fun e' w' => w'.Stands e e' := by
  induction e using Expr.induction_args generalizing w with
  | h e ih =>
    refine .assume fun hw => ?_
    cases e with
    | bool b => exact .pure (.refl hp)
    | call d => exact absurd hp Expr.proper_call
    | cmp r a b => exact comparison_refining hp
    | implies l a =>
      obtain ⟨-, hl, ha⟩ := Expr.proper_implies.1 hp
      refine (positive_refining hl).bind fun l' w' hr hl' => ?_
      refine (ih a (by simp [Expr.args]) (ha.imp fun _ hx => hx.mono hr.grows)).bind fun a' w'' hr' ha' => .pure ?_
      exact .mapped (.implies (hl'.mono hr'.le) ha') (hp.imp fun _ hx => hx.mono (hr.trans hr').grows)
        ((hr.trans hr').habitable hw.habitable)
    | constraint c =>
      have hargs : Refining (c.mapM positive) w fun c' w' => c.Related w'.Stands c' :=
        refining.constraint_mapM stable fun a ha w' hr =>
          positive_refining ((hp.arg ha).imp fun _ hx => hx.mono hr.grows)
      refine hargs.bind fun c' w' hr hc' => .pure ?_
      exact .mapped (.constraint hc') (hp.imp fun _ hx => hx.mono hr.grows) (hr.habitable hw.habitable)
    | _ => exact .throw

end

end Positive

/-- Removing the views keeps the solutions, and the new variables are determined
by the others. -/
theorem removeViews_rewrites {w : World} : (removeViews w.constraints).Rewrites True (fun _ _ => True) w := by
  intro hw
  have hstart : Positive.Defined [] (World.bare w.store) := ⟨rfl, nofun⟩
  have hpositive : Positive.Refining (w.constraints.mapM Positive.constraint) (World.bare w.store)
      fun es w' => List.Forall₂ w'.Stands w.constraints es :=
    Positive.refining.mapM Positive.stable fun e he w' hr =>
      Positive.constraint_refining ((w.proper e he).imp fun _ hx => hx.mono hr.grows)
  refine (hpositive (World.inhabited_bare hw) [] hstart).bind ?_
  rintro ⟨es, v⟩ _ - ⟨w', rfl, hv, hr, hes⟩
  have hes' : ∀ e ∈ es, e.Proper w'.store.Owns := by
    intro e he
    obtain ⟨_, -, h⟩ := forall₂_mem_right hes he
    exact h.proper
  have hcs := World.proper_mono hr.grows w.proper
  let w'' : World := ⟨w'.store, es ++ w'.constraints, List.forall_mem_append.2 ⟨hes', w'.proper⟩⟩
  have hdefined : w.Refines True (w'.post w.constraints hcs) :=
    hr.frame w.constraints rfl (by simp [World.bare]) rfl fun d => List.mem_append
  have hreplaced : (w'.post w.constraints hcs).Refines True (w'.post es hes') := World.refines_post fun t ht => by
    constructor
    · intro h e he
      obtain ⟨e', he', hs⟩ := forall₂_mem_left hes he
      exact (hs.holds_iff ht).1 (h e' he')
    · intro h e' he'
      obtain ⟨e, he, hs⟩ := forall₂_mem_right hes he'
      exact (hs.holds_iff ht).2 (h e he)
  have hordered : (w'.post es hes').Refines True w'' :=
    World.refines_of_mem rfl fun d => List.mem_append.trans (or_comm.trans List.mem_append.symm)
  exact .pure ⟨w'', rfl, by simp [w'', hv.constraints], (hdefined.trans hreplaced).trans hordered, fun _ _ => trivial⟩

end ConstraintModel
