import ConstraintModel.Proofs.FlatShape
import ConstraintModel.Proofs.Pliable

namespace ConstraintModel

namespace Exact

/-- The first argument decides a connective if its truth value is absorbing,
and does not matter otherwise. -/
theorem connective_cons {b c : Bool} {v : Option Int} {vs : List (Option Int)} (hv : truth v = some c) :
    connective b (v :: vs) = if c = b then some b else connective b vs := by
  unfold connective
  by_cases hc : c = b
  · simp [hv, hc]
  · simp [hv, hc, Ne.symm hc]

end Exact

/-- A function whose arguments have smaller ranges is defined as well. -/
theorem Function.totalHere_of_related {g k : Function Expr}
    (h : g.Related (fun a b => b.range ⊆ a.range) k) (hg : (Expr.function g).TotalHere) :
    (Expr.function k).TotalHere := by
  obtain ⟨hshape, hargs⟩ := h
  cases g <;> cases k <;> simp only [map, reduceCtorEq, element.injEq] at hshape <;> try trivial
  obtain ⟨hlength, -⟩ := hshape
  have hindex := (List.forall₂_cons.1 (forall₂_of_append hargs (length_eq_of_unit hlength)).2).1
  have hlength := length_eq_of_unit hlength
  have hlower := hindex.1
  have hupper := hindex.2
  simp only [Expr.TotalHere] at hg ⊢
  omega

namespace Expr

/-- No task in the expression has a negative duration, and if `q` holds nothing
in it is undefined. -/
def Steady (q : Prop) (e : Expr) : Prop :=
  e.Everywhere fun a => (∀ c, a = constraint c → c.Lasting) ∧ (q → a.TotalHere)

variable {q : Prop} {σ : Store} {s : Assignment} {e a b : Expr} {as : List Expr} {r : Relation}

theorem steady_iff : e.Steady q ↔
    ((∀ c, e = constraint c → c.Lasting) ∧ (q → e.TotalHere)) ∧ ∀ a ∈ e.args, a.Steady q := everywhere_iff

theorem Steady.total (h : e.Steady q) (hq : q) : e.Total := h.imp fun _ h => h.2 hq

theorem steady_of_args (hc : ∀ c, e ≠ constraint c) (hg : ∀ g, e ≠ function g) (h : ∀ a ∈ e.args, a.Steady q) :
    e.Steady q :=
  steady_iff.2 ⟨⟨fun c he => absurd he (hc c), fun _ => totalHere_of_ne hc hg⟩, h⟩

theorem Steady.negated (h : e.Steady q) (hb : e.isBool) (hp : e.Proper σ.Owns) : e.negated.Steady q :=
  Everywhere.negated (fun _ hc hg => ⟨fun c he => absurd he (hc c), fun _ => totalHere_of_ne hc hg⟩) h hb hp

theorem Total.steady (h : e.Total) : e.Steady q :=
  h.imp fun _ here => ⟨by rintro c rfl; exact here, fun _ => here⟩

theorem WellTyped.steady (h : e.WellTyped) : e.Steady False :=
  h.built.imp fun _ hb => ⟨by rintro c rfl; exact lasting_of_built hb, False.elim⟩

theorem TameHere.lasting (h : e.TameHere s) : ∀ c, e = constraint c → c.Lasting := by
  rintro c rfl
  exact h.1

theorem Tame.steady (h : e.Tame s) (hq : q → e.Total) : e.Steady q := by
  by_cases hq' : q
  · exact (Everywhere.and h (hq hq')).imp fun _ h => ⟨h.1.lasting, fun _ => h.2⟩
  · exact h.imp fun _ h => ⟨h.lasting, fun hq => absurd hq hq'⟩

theorem steady_of_isSimple (h : e.isSimple) : e.Steady q :=
  steady_of_args (by rintro c rfl; cases h) (by rintro g rfl; cases h) (by simp [args_of_isSimple h])

theorem steady_cmp (ha : a.Steady q) (hb : b.Steady q) : (cmp r a b).Steady q :=
  steady_of_args (by simp) (by simp) (by simpa [args] using ⟨ha, hb⟩)

theorem steady_implies (ha : a.Steady q) (hb : b.Steady q) : (implies a b).Steady q :=
  steady_of_args (by simp) (by simp) (by simpa [args] using ⟨ha, hb⟩)

theorem steady_all (h : ∀ a ∈ as, a.Steady q) : (all as).Steady q := by
  match as with
  | [] => exact steady_of_isSimple rfl
  | [a] => exact h a (List.mem_singleton_self a)
  | a :: b :: as => exact steady_of_args (by simp [all]) (by simp [all]) h

theorem steady_any (h : ∀ a ∈ as, a.Steady q) : (any as).Steady q := by
  match as with
  | [] => exact steady_of_isSimple rfl
  | [a] => exact h a (List.mem_singleton_self a)
  | a :: b :: as => exact steady_of_args (by simp [any]) (by simp [any]) h

/-- What is known of constraints is known of the parts of conjunctions. -/
theorem forall_topLevel_steady (h : ∀ c ∈ as, c.isBool ∧ c.Proper σ.Owns ∧ c.Steady q) :
    ∀ c ∈ topLevel as, c.isBool ∧ c.Proper σ.Owns ∧ c.Steady q := by
  rw [topLevel, List.forall_mem_flatMap]
  refine fun e he => e.forall_conjuncts (fun bs h b hb => ?_) (h e he)
  exact ⟨(proper_and.1 h.2.1).1 b hb, h.2.1.arg hb, h.2.2.arg hb⟩

theorem exact_cmp_converse (hp : (cmp r a b).Proper σ.Owns) (hs : s.Within σ) :
    (cmp r.converse b a).exact s = (cmp r a b).exact s := by
  obtain ⟨hpa, hpb⟩ := proper_cmp.1 hp
  rw [exact_cmp_within hp hs, exact_cmp_within (proper_cmp.2 ⟨hpb, hpa⟩) hs]
  cases a.exact s <;> cases b.exact s <;> simp [Exact.comparison, Relation.converse_holds]

theorem range_of_isBool (hb : e.isBool) (hs : e.isSimple = false) : e.range = .boolean := by
  cases e with
  | and _ | or _ | implies _ _ | not _ | cmp _ _ _ | constraint _ | call _ => rw [range]
  | bool _ | int _ | var _ | negVar _ => cases hs
  | sum _ | wsum _ | sub _ _ | mul _ _ | neg _ | function _ => cases hb

/-- The negation of a literal or a constant is one again. -/
theorem isSimple_negated (hs : e.isSimple) (hb : e.isBool) : e.negated.isSimple := by
  cases e with
  | bool _ => rw [negated_bool]; rfl
  | var _ => rw [negated_var hb]; rfl
  | negVar _ => rw [negated_negVar]; rfl
  | int _ => cases hb
  | _ => cases hs

theorem num_negated (hs : e.isSimple) (hb : e.isBool) (hp : e.Proper σ.Owns) (hw : s.Within σ) :
    e.negated.num s = 1 - e.num s := by
  have hv := valued_of_isSimple hs hp hw
  have hpn := proper_negated hb hp
  have hbn := isBool_negated hb hp
  have hvn := valued_of_isSimple (isSimple_negated hs hb) hpn hw
  have hinv := (regular_of_isSimple hs hp hw).invertible hb
  rw [Invertible, hvn.holds_iff_num hpn hbn hw, hv.fails_iff_num] at hinv
  have := hp.num_boolean hb hw hv.exact_eq
  have := hpn.num_boolean hbn hw hvn.exact_eq
  omega

/-- A function is defined if it is defined for all values within the ranges of
its arguments. -/
theorem valued_of_isTotal {g : Function Expr} (hp : (function g).Proper σ.Owns)
    (h : ∀ a ∈ g.args, a.Valued s) (ht : g.isTotal = .ok true) (hs : s.Within σ) : (function g).Valued s :=
  valued_of_total hp (totalHere_of_isTotal ht) hs h

end Expr

namespace Flat

open Defining (Refining refining)
open ConstraintModel.Expr (Valued Defined Invertible Steady num)

structure Ready (q : Prop) (w : World) (e : Expr) : Prop where
  proper : e.Proper w.store.Owns
  pliable : ∀ t, w.Admits t → e.Pliable t
  steady : e.Steady q

structure Postable (q : Prop) (w : World) (e : Expr) : Prop where
  proper : e.Proper w.store.Owns
  asserted : ∀ t, w.Admits t → e.Asserted (Expr.PliableHere t)
  steady : e.Steady q

structure Result (q : Prop) (w : World) (e f : Expr) : Prop where
  stands : w.Stands e f
  steady : f.Steady q

structure Atom (w : World) (e o : Expr) : Prop where
  stands : w.Stands e o
  isSimple : o.isSimple

section

variable {q : Prop} {u : Prop} {w w' : World} {e f a b o l : Expr} {as ls : List Expr} {r : Relation}
  {t : Assignment}

theorem Ready.mono (h : Ready q w e) (hw : w ≤ w') : Ready q w' e :=
  ⟨h.proper.imp fun _ hx => hx.mono hw.1, fun t ht => h.pliable t (hw.2 t ht), h.steady⟩

theorem Ready.arg (h : Ready q w e) (ha : a ∈ e.args) : Ready q w a :=
  ⟨h.proper.arg ha, fun t ht => (h.pliable t ht).arg ha, h.steady.arg ha⟩

theorem Ready.negated (h : Ready q w e) (hb : e.isBool) : Ready q w e.negated :=
  ⟨Expr.proper_negated hb h.proper, fun t ht => (h.pliable t ht).negated h.proper hb ht.within,
    h.steady.negated hb h.proper⟩

theorem Ready.defined (h : Ready q w e) (hb : e.isBool) : e.Defined w :=
  fun t ht => (h.pliable t ht).valued h.proper hb ht.within

theorem Ready.postable (h : Ready q w e) : Postable q w e :=
  ⟨h.proper, fun t ht => Expr.Everywhere.asserted (h.pliable t ht), h.steady⟩

theorem Postable.mono (h : Postable q w e) (hw : w ≤ w') : Postable q w' e :=
  ⟨h.proper.imp fun _ hx => hx.mono hw.1, fun t ht => h.asserted t (hw.2 t ht), h.steady⟩

theorem Postable.conjunct (h : Postable q w (.and as)) (ha : a ∈ as) : Postable q w a :=
  ⟨h.proper.arg ha, fun t ht => Expr.asserted_and.1 (h.asserted t ht) a ha, h.steady.arg ha⟩

theorem Postable.side (h : Postable q w (.implies a b)) : Ready q w a ∧ Ready q w b := by
  have hpliable (t : Assignment) (ht : w.Admits t) : a.Pliable t ∧ b.Pliable t :=
    (Expr.asserted_iff (by simp) (by simp)).1 (h.asserted t ht)
  exact ⟨⟨h.proper.arg (by simp [Expr.args]), fun t ht => (hpliable t ht).1, h.steady.arg (by simp [Expr.args])⟩,
    ⟨h.proper.arg (by simp [Expr.args]), fun t ht => (hpliable t ht).2, h.steady.arg (by simp [Expr.args])⟩⟩

theorem Postable.ready (h : Postable q w e) (hi : ∀ a b, e ≠ .implies a b) (ha : ∀ as, e ≠ .and as) : Ready q w e :=
  ⟨h.proper, fun t ht => (h.asserted t ht).everywhere hi ha (Expr.pliable_of_isSimple rfl).here, h.steady⟩

theorem Atom.mono (h : Atom w e o) (hr : w.Refines u w') : Atom w' e o := ⟨h.stands.mono hr.le, h.isSimple⟩

theorem Result.mono (h : Result q w e f) (hr : w.Refines u w') : Result q w' e f := ⟨h.stands.mono hr.le, h.steady⟩

theorem Atom.result (h : Atom w e o) : Result q w e o := ⟨h.stands, Expr.steady_of_isSimple h.isSimple⟩

theorem Atom.valued (h : Atom w e o) (ht : w.Admits t) : o.Valued t :=
  Expr.valued_of_isSimple h.isSimple h.stands.proper ht.within

theorem atom_refl (hs : e.isSimple) (hp : e.Proper w.store.Owns) : Atom w e e := ⟨.refl hp, hs⟩

theorem Atom.negated (h : Atom w e l) (hb : e.isBool) : l.negated.isSimple ∧ l.negated.Proper w.store.Owns ∧
    l.negated.isBool ∧ ∀ t, w.Admits t → l.negated.num t = 1 - e.num t := by
  have hbl := h.stands.isBool hb
  refine ⟨Expr.isSimple_negated h.isSimple hbl, Expr.proper_negated hbl h.stands.proper,
    Expr.isBool_negated hbl h.stands.proper, fun t ht => ?_⟩
  rw [Expr.num_negated h.isSimple hbl h.stands.proper ht.within, h.stands.num_eq ht]

/-- A Boolean expression with the values of a compound one. -/
theorem Result.of_exact (hf : f.Proper w.store.Owns) (hbf : f.isBool) (hl : f.Steady q) (hb : e.isBool)
    (hs : e.isSimple = false) (h : ∀ t, w.Admits t → f.exact t = e.exact t) : Result q w e f :=
  ⟨⟨hf, fun _ => hbf, Expr.range_of_isBool hb hs ▸ hf.range_eq hbf, h⟩, hl⟩

theorem Result.congr (h : Result q w e f) (hbe : e.isBool) (hb : a.isBool) (hs : a.isSimple = false)
    (hx : ∀ t, w.Admits t → e.exact t = a.exact t) : Result q w a f :=
  .of_exact h.stands.proper (h.stands.isBool hbe) h.steady hb hs fun t ht =>
    (h.stands.exact t ht).trans (hx t ht)

end

variable {q : Prop} {w : World} {e a b : Expr} {as : List Expr} {r : Relation}

theorem define_sat {x : Variable} {τ : Store} {f : Expr} (h : Result q w e f)
    (hv : ∀ t, w.Admits t → e.Valued t ∧ e.num t ∈ x.bounds) (hb : f.isBool → x.isBool)
    (hrange : x.bounds ⊆ f.range) (hw : w.Inhabited) (hx : w.store.Creates x τ) :
    (do define (.cmp .eq f (.var x)); return .var x : Defining Expr).Sat False τ fun l N υ =>
      ∃ w' : World, w'.store = υ ∧ w'.constraints = w.constraints ++ N ∧ w.Refines True w' ∧
        (∀ d ∈ N, d.Steady q) ∧ Atom w' e l := by
  refine Defining.Sat.define.bind ?_
  rintro _ N υ - ⟨rfl, rfl⟩
  have hpx : (Expr.var x).Proper υ.Owns := Expr.proper_var.2 hx.owns
  have hd : (Expr.cmp .eq f (.var x)).Proper υ.Owns :=
    Expr.proper_cmp.2 ⟨h.stands.proper.imp fun _ hy => hy.mono hx.grows, hpx⟩
  let w' : World := ⟨υ, w.constraints ++ [.cmp .eq f (.var x)], List.forall_mem_append.2
    ⟨fun c hc => (w.proper c hc).imp fun _ hy => hy.mono hx.grows, by simpa using hd⟩⟩
  have hf : ∀ t, w.Admits t → f.Valued t := fun t ht => h.stands.valued ht (hv t ht).1
  have hr : w.Refines True w' := World.refines_define hw hx h.stands.proper
    (fun t ht => ⟨hf t ht, h.stands.num_eq ht ▸ (hv t ht).2⟩) (.inl rfl) rfl
  have hstands : w'.Stands f (.var x) := World.stands_define hr hx hb hrange hf (.inl rfl) rfl
  refine .pure ⟨w', rfl, by simp [w'], hr, ?_, (h.stands.mono hr.le).trans hstands, rfl⟩
  simpa using Expr.steady_cmp h.steady (Expr.steady_of_isSimple (e := .var x) rfl)

/-- A flat Boolean expression is given a literal. -/
theorem liftBool_refining {f : Expr} (h : Result q w e f) (hb : e.isBool)
    (hv : ∀ t, w.Admits t → e.Valued t) :
    (liftBool f).Refining (.refines True) (.each (Steady q)) w fun l w' => Atom w' e l := by
  have hbf := h.stands.isBool hb
  unfold liftBool
  split
  · exact .pure ⟨h.stands, ‹_›⟩
  · rename_i hs
    refine .lift_bind .freshBool ?_
    rintro hw _ τ - ⟨x, rfl, hx, hxb⟩
    have hbounds := hx.boolean hxb
    refine define_sat h (fun t ht => ⟨hv t ht, ?_⟩) (fun _ => hxb) ?_ hw hx
    · have := h.stands.proper.num_boolean hbf ht.within (h.stands.valued ht (hv t ht)).exact_eq
      rw [h.stands.num_eq ht] at this
      rw [hbounds]
      rcases this with h | h <;> rw [h] <;> decide
    · rw [hbounds, Expr.range_of_isBool hbf (Bool.eq_false_of_not_eq_true hs)]

/-- A flat integer expression is given a variable. -/
theorem liftInt_refining {f : Expr} (h : Result q w e f) (hb : f.isBool → f.isSimple)
    (hv : ∀ t, w.Admits t → e.Valued t) :
    (liftInt f).Refining (.refines True) (.each (Steady q)) w fun l w' => Atom w' e l := by
  unfold liftInt
  split
  · exact .pure ⟨h.stands, ‹_›⟩
  · refine .checked_bind fun b hbounds => .lift_bind (.freshInt b) ?_
    rintro hw _ τ - ⟨x, rfl, hx, hxb, rfl⟩
    have hrange := f.range_of_bounds _ hbounds
    refine define_sat h (fun t ht => ⟨hv t ht, ?_⟩) (fun h => absurd (hb h) ‹_›) ?_ hw hx
    · rw [hrange, ← h.stands.num_eq ht]
      exact (h.stands.valued ht (hv t ht)).num_mem_range (Expr.Over.inBounds h.stands.proper.scope ht.within)
    · rw [hrange]

structure Gathered (w : World) (absorbing : Bool) (as : List Expr) (ls? : Option (List Expr)) : Prop where
  literals : ∀ ls, ls? = some ls → ∀ l ∈ ls, l.isSimple ∧ l.Proper w.store.Owns ∧ l.isBool
  exact : ∀ t, w.Admits t → Exact.connective absorbing (as.map (Expr.exact t)) =
    ls?.elim (some absorbing) fun ls => Exact.connective absorbing (ls.map (Expr.exact t))

theorem gather_refining {absorbing : Bool} {literal : Expr → Defining Expr}
    (has : ∀ a ∈ as, Ready q w a ∧ a.isBool)
    (h : ∀ a ∈ as, ∀ w', w.Refines True w' →
      (literal a).Refining (.refines True) (.each (Steady q)) w' fun l w'' => Atom w'' a l) :
    (gather absorbing literal as).Refining (.refines True) (.each (Steady q)) w fun ls? w' =>
      Gathered w' absorbing as ls? := by
  induction as generalizing w with
  | nil => exact .pure ⟨by simp, fun _ _ => rfl⟩
  | cons a as ih =>
    obtain ⟨⟨ha, hb⟩, has⟩ := List.forall_mem_cons.1 has
    rw [gather]
    refine (h a (List.mem_cons_self ..) w (.refl w)).bind fun l w' hr hl => ?_
    have hbl := hl.stands.isBool hb
    have ih := ih (w := w') (fun b hb => ⟨(has b hb).1.mono hr.le, (has b hb).2⟩)
      fun b hb w'' hr' => h b (List.mem_cons_of_mem _ hb) w'' (hr.trans hr')
    have cons {w'' : World} (hr' : w'.Refines True w'') {c : Bool} {t : Assignment} (ht : w''.Admits t)
        (hc : Exact.truth (l.exact t) = some c) :
        Exact.connective absorbing ((a :: as).map (Expr.exact t)) =
          if c = absorbing then some absorbing else Exact.connective absorbing (as.map (Expr.exact t)) := by
      rw [(hl.mono hr').stands.exact t ht] at hc
      exact Exact.connective_cons hc
    split
    · rename_i c
      have hc (t : Assignment) : Exact.truth ((Expr.bool c).exact t) = some c := by
        rw [Expr.exact_bool]
        cases c <;> rfl
      split
      · rename_i heq
        refine .pure ⟨by simp, fun t ht => ?_⟩
        rw [cons (.refl w') ht (hc t), if_pos heq]
        rfl
      · rename_i hne
        refine ih.imp fun ls? w'' hr' hls => ⟨hls.literals, fun t ht => ?_⟩
        rw [cons hr' ht (hc t), if_neg hne, hls.exact t ht]
    · refine ih.bind fun ls? w'' hr' hls => .pure ⟨?_, fun t ht => ?_⟩
      · intro ls hsome
        obtain ⟨ls', rfl, rfl⟩ := Option.map_eq_some_iff.1 hsome
        exact List.forall_mem_cons.2 ⟨⟨hl.isSimple, (hl.mono hr').stands.proper, hbl⟩, hls.literals ls' rfl⟩
      · obtain ⟨n, hn⟩ := Option.isSome_iff_exists.1 ((hl.mono hr').valued ht)
        have hc : Exact.truth (l.exact t) = some (n != 0) := by rw [hn]; rfl
        rw [cons hr' ht hc, hls.exact t ht]
        cases ls? with
        | none => simp
        | some ls =>
          simp only [Option.map_some, Option.elim_some, List.map_cons]
          rw [Exact.connective_cons hc]

structure Posted (q : Prop) (w : World) (e : Expr) (fs : List Expr) : Prop where
  proper : ∀ f ∈ fs, f.Proper w.store.Owns
  steady : ∀ f ∈ fs, f.Steady q
  holds : ∀ t, w.Admits t → ((∀ f ∈ fs, f.Holds t) ↔ e.Holds t)

structure Side (q : Prop) (w : World) (e f : Expr) : Prop extends Result q w e f where
  isSimple : f.isBool → f.isSimple

def Form (σ : Store) (f : Affine) : Prop := ∀ t ∈ f.terms.toList, t.2.isSimple ∧ t.2.Proper σ.Owns

structure Added (w : World) (f : Affine) (v : Assignment → Int) (b : Bounds) (g : Affine) : Prop where
  form : Form w.store g
  total : ∀ t, w.Admits t → g.total t = f.total t + v t
  range : g.range ⊆ f.range + b

structure Meanings (q : Prop) (depth : Nat) : Prop where
  constraint (w : World) (e : Expr) : Postable q w e → e.isBool →
    (constraint depth e).Refining (.refines True) (.each (Steady q)) w fun fs w' => Posted q w' e fs
  truth (w : World) (e : Expr) : Ready q w e → e.isBool →
    (truth depth e).Refining (.refines True) (.each (Steady q)) w fun f w' => Result q w' e f
  literals (w : World) (absorbing : Bool) (as : List Expr) : (∀ a ∈ as, Ready q w a ∧ a.isBool) →
    (literals depth absorbing as).Refining (.refines True) (.each (Steady q)) w fun ls? w' =>
      Gathered w' absorbing as ls?
  literal (w : World) (e : Expr) : Ready q w e → e.isBool →
    (literal depth e).Refining (.refines True) (.each (Steady q)) w fun l w' => Atom w' e l
  comparison (w : World) (lift : Bool) (r : Relation) (a b : Expr) : Ready q w (.cmp r a b) →
    (comparison depth lift r a b).Refining (.refines True) (.each (Steady q)) w fun f w' => Result q w' (.cmp r a b) f
  reification (w : World) (lift : Bool) (r : Relation) (a b : Expr) : Ready q w (.cmp r a b) →
    a.isBool → b.isBool → r = .eq ∨ r = .ne →
    (reification depth lift r a b).Refining (.refines True) (.each (Steady q)) w fun f w' => Result q w' (.cmp r a b) f
  side (w : World) (e : Expr) : Ready q w e →
    (side depth e).Refining (.refines True) (.each (Steady q)) w fun f w' => Side q w' e f
  affine (w : World) (e : Expr) : Ready q w e → e.Defined w → e.isBool = false →
    (affine depth e).Refining (.refines True) (.each (Steady q)) w fun f w' => Side q w' e f
  addTo (w : World) (f : Affine) (v : Int) (e : Expr) : Form w.store f → Ready q w e →
    e.Defined w → (addTo depth f v e).Refining (.refines True) (.each (Steady q)) w fun g w' =>
      Added w' f (fun t => v * e.num t) (v • e.range) g
  operand (w : World) (e : Expr) : Ready q w e → e.Defined w →
    (operand depth e).Refining (.refines True) (.each (Steady q)) w fun o w' => Atom w' e o

section

variable {depth : Nat} (ih : Meanings q depth)

include ih

theorem literal_meaning (h : Ready q w e) (hb : e.isBool) :
    (literal (depth + 1) e).Refining (.refines True) (.each (Steady q)) w fun l w' => Atom w' e l := by
  rw [literal]
  refine (ih.operand w e h (h.defined hb)).bind fun o w' _ ho => .pure ?_
  unfold toBool
  split
  · have := ho.stands.isBool hb
    cases this
  · exact ho

theorem literals_meaning {absorbing : Bool} (h : ∀ a ∈ as, Ready q w a ∧ a.isBool) :
    (literals (depth + 1) absorbing as).Refining (.refines True) (.each (Steady q)) w fun ls? w' =>
      Gathered w' absorbing as ls? := by
  rw [literals]
  split
  · rename_i hc
    have hmem : Expr.bool absorbing ∈ as := by simpa using hc
    refine .pure ⟨by simp, fun t _ => Exact.connective_eq_absorbing.2 ?_⟩
    refine ⟨_, List.mem_map_of_mem hmem, ?_⟩
    rw [Expr.exact_bool]
    cases absorbing <;> rfl
  · exact gather_refining h fun a ha w' hr => ih.literal w' a ((h a ha).1.mono hr.le) (h a ha).2

theorem operand_meaning (h : Ready q w e) (hd : e.Defined w) :
    (operand (depth + 1) e).Refining (.refines True) (.each (Steady q)) w fun o w' => Atom w' e o := by
  rw [operand]
  split
  · exact .pure (atom_refl ‹_› h.proper)
  · split
    · rename_i hb
      exact (ih.truth w e h hb).bind fun f w' hr hf =>
        liftBool_refining hf hb fun t ht => hd t (hr.sound t ht)
    · exact (ih.side w e h).bind fun f w' hr hf =>
        liftInt_refining hf.toResult hf.isSimple fun t ht => hd t (hr.sound t ht)

omit ih in
theorem atom_stable : (refining (.refines True) (.each (Steady q))).Stable Atom := fun _ _ _ _ hr h => h.mono hr

theorem args_atoms (h : Ready q w e) (hd : ∀ a ∈ e.args, a.Defined w) :
    ∀ a ∈ e.args, ∀ w', w.Refines True w' →
      (operand depth a).Refining (.refines True) (.each (Steady q)) w' fun o w'' => Atom w'' a o :=
  fun a ha w' hr => ih.operand w' a ((h.arg ha).mono hr.le) ((hd a ha).mono hr.le)

theorem constraint_atoms {c : Constraint Expr} (h : Ready q w (.constraint c)) :
    (c.mapM (operand depth)).Refining (.refines True) (.each (Steady q)) w fun d w' =>
      Result q w' (.constraint c) (.constraint d) := by
  refine .assume fun hw => ((refining (.refines True) (.each (Steady q))).constraint_mapM atom_stable
    (args_atoms ih h fun a ha t ht => (h.pliable t ht).here.2 a ha)).imp fun d w' hr hd => ?_
  have hstands : c.Related w'.Stands d := hd.mono fun _ _ h => h.stands
  refine ⟨.mapped (.constraint hstands) (h.mono hr.le).proper (hr.keeps hw).habitable, ?_⟩
  have hlasting : d.Lasting := (h.steady.here.1 c rfl).related (hstands.mono fun _ _ h => h.range)
  refine Expr.steady_iff.2 ⟨⟨fun d' hd' => ?_, fun _ => hlasting⟩, fun b hb => ?_⟩
  · cases hd'
    exact hlasting
  · obtain ⟨a, -, hab⟩ := forall₂_mem_right hd.args hb
    exact Expr.steady_of_isSimple hab.isSimple

theorem function_atoms {g : Function Expr} (h : Ready q w (.function g)) :
    (g.mapM (operand depth)).Refining (.refines True) (.each (Steady q)) w fun k w' =>
      Side q w' (.function g) (.function k) := by
  refine .assume fun hw => ((refining (.refines True) (.each (Steady q))).function_mapM atom_stable
    (args_atoms ih h fun a ha t ht => (h.pliable t ht).here.2 a ha)).imp fun k w' hr hk => ?_
  have hstands : g.Related w'.Stands k := hk.mono fun _ _ h => h.stands
  refine ⟨⟨.mapped (.function hstands) (h.mono hr.le).proper (hr.keeps hw).habitable, ?_⟩, by simp [Expr.isBool]⟩
  refine Expr.steady_iff.2 ⟨⟨by simp, fun hq => ?_⟩, fun b hb => ?_⟩
  · exact Function.totalHere_of_related (hstands.mono fun _ _ h => h.range) (h.steady.here.2 hq)
  obtain ⟨a, -, hab⟩ := forall₂_mem_right hk.args hb
  exact Expr.steady_of_isSimple hab.isSimple

omit ih in
theorem Gathered.conjunction {ls? : Option (List Expr)} (h : Gathered w false as ls?) :
    Result q w (.and as) ((ls?.map .all).getD (.bool false)) := by
  have hx (t : Assignment) (ht : w.Admits t) := h.exact t ht
  cases ls? with
  | none =>
    refine .of_exact Expr.proper_bool rfl (Expr.steady_of_isSimple rfl) rfl rfl fun t ht => ?_
    rw [Expr.exact_and]
    exact (Expr.exact_bool t false).trans (congrArg Exact.ofTruth (hx t ht)).symm
  | some ls =>
    have hls := h.literals ls rfl
    refine .of_exact (Expr.proper_all (fun l hl => (hls l hl).2.2) fun l hl => (hls l hl).2.1)
      (Expr.isBool_all fun l hl => (hls l hl).2.2)
      (Expr.steady_all fun l hl => Expr.steady_of_isSimple (hls l hl).1) rfl rfl fun t ht => ?_
    rw [Option.map_some, Option.getD_some, Expr.exact_all ht.within fun l hl => (hls l hl).2,
      Expr.exact_and]
    exact congrArg Exact.ofTruth (hx t ht).symm

omit ih in
theorem Gathered.disjunction {ls? : Option (List Expr)} (h : Gathered w true as ls?) :
    Result q w (.or as) ((ls?.map .any).getD (.bool true)) := by
  have hx (t : Assignment) (ht : w.Admits t) := h.exact t ht
  cases ls? with
  | none =>
    refine .of_exact Expr.proper_bool rfl (Expr.steady_of_isSimple rfl) rfl rfl fun t ht => ?_
    rw [Expr.exact_or]
    exact (Expr.exact_bool t true).trans (congrArg Exact.ofTruth (hx t ht)).symm
  | some ls =>
    have hls := h.literals ls rfl
    refine .of_exact (Expr.proper_any (fun l hl => (hls l hl).2.2) fun l hl => (hls l hl).2.1)
      (Expr.isBool_any fun l hl => (hls l hl).2.2)
      (Expr.steady_any fun l hl => Expr.steady_of_isSimple (hls l hl).1) rfl rfl fun t ht => ?_
    rw [Option.map_some, Option.getD_some, Expr.exact_any ht.within fun l hl => (hls l hl).2,
      Expr.exact_or]
    exact congrArg Exact.ofTruth (hx t ht).symm

omit ih in
/-- An implication is the disjunction of its consequent and the negation of its
antecedent. -/
theorem exact_implies_eq {t : Assignment} (h : Ready q w (.implies a b)) (ht : w.Admits t) :
    (Expr.or [a.negated, b]).exact t = (Expr.implies a b).exact t := by
  obtain ⟨⟨hba, hbb⟩, hpa, hpb⟩ := Expr.proper_implies.1 h.proper
  have hinv : a.Invertible t := (h.pliable t ht).here.1
  have hva := ((h.arg (a := a) (by simp [Expr.args])).defined hba) t ht
  have hvb := ((h.arg (a := b) (by simp [Expr.args])).defined hbb) t ht
  have hbn := Expr.isBool_negated hba hpa
  have hpn := Expr.proper_negated hba hpa
  have hp : (Expr.or [a.negated, b]).Proper w.store.Owns := by simp [hbn, hpn, hbb, hpb]
  have hvn : a.negated.Valued t := ((h.arg (a := a) (by simp [Expr.args])).negated hba).defined hbn t ht
  refine Expr.exact_eq_of_holds hp rfl h.proper rfl ht.within ht.within ?_ (h.defined rfl t ht) ?_
  · refine Expr.valued_of_args hp ht.within (fun c hc => ?_) (by simp)
    simp only [Expr.args, List.mem_cons, List.not_mem_nil, or_false] at hc
    rcases hc with rfl | rfl
    · exact hvn
    · exact hvb
  · have hiff := hva.fails_iff
    replace hinv : a.negated.Holds t ↔ a.Fails t := hinv
    rw [Expr.holds_or, Expr.holds_implies]
    simp only [List.mem_cons, List.not_mem_nil, or_false, exists_eq_or_imp, exists_eq_left, hinv]
    tauto

omit ih in
theorem exact_not_eq {t : Assignment} {f : Expr} (h : Ready q w (.not a)) (ht : w.Admits t)
    (hp : f.Proper w.store.Owns) (hb : f.isBool) (hv : f.Valued t) (hf : f.Holds t ↔ a.Fails t) :
    f.exact t = (Expr.not a).exact t :=
  Expr.exact_eq_of_holds hp hb h.proper rfl ht.within ht.within hv (h.defined rfl t ht) (by rw [Expr.holds_not, hf])

omit ih in
theorem Atom.negated_holds {l : Expr} (h : Atom w a l) (hb : a.isBool) {t : Assignment}
    (ht : w.Admits t) : l.negated.Holds t ↔ a.Fails t := by
  rw [← h.stands.fails_iff ht]
  exact (Expr.regular_of_isSimple h.isSimple h.stands.proper ht.within).invertible (h.stands.isBool hb)

theorem truth_meaning (h : Ready q w e) (hb : e.isBool) :
    (truth (depth + 1) e).Refining (.refines True) (.each (Steady q)) w fun f w' => Result q w' e f := by
  cases e with
  | bool _ | var _ | negVar _ => exact .pure (atom_refl rfl h.proper).result
  | and as =>
    obtain ⟨hbs, -⟩ := Expr.proper_and.1 h.proper
    rw [truth]
    exact (ih.literals w false as fun a ha => ⟨h.arg ha, hbs a ha⟩).bind fun ls? w' _ hls =>
      .pure hls.conjunction
  | or as =>
    obtain ⟨hbs, -⟩ := Expr.proper_or.1 h.proper
    rw [truth]
    exact (ih.literals w true as fun a ha => ⟨h.arg ha, hbs a ha⟩).bind fun ls? w' _ hls =>
      .pure hls.disjunction
  | implies a b =>
    obtain ⟨⟨hba, hbb⟩, hpa, hpb⟩ := Expr.proper_implies.1 h.proper
    have ha := h.arg (a := a) (by simp [Expr.args])
    have hb' := h.arg (a := b) (by simp [Expr.args])
    have hbn := Expr.isBool_negated hba hpa
    have hor : ∀ c ∈ [a.negated, b], Ready q w c ∧ c.isBool := by
      simp only [List.forall_mem_cons, List.not_mem_nil, false_imp_iff, implies_true, and_true]
      exact ⟨⟨ha.negated hba, hbn⟩, hb', hbb⟩
    rw [truth]
    refine (ih.literals w true _ hor).bind fun ls? w' hr hls => .pure ?_
    exact hls.disjunction.congr rfl rfl rfl fun t ht => exact_implies_eq (h.mono hr.le) ht
  | not a =>
    obtain ⟨hba, hpa⟩ := Expr.proper_not.1 h.proper
    have ha := h.arg (a := a) (by simp [Expr.args])
    rw [truth]
    split
    · refine (ih.literal w a ha hba).bind fun l w' hr hl => .pure ?_
      obtain ⟨hs, hp, hbl, -⟩ := hl.negated hba
      refine .of_exact hp hbl (Expr.steady_of_isSimple hs) rfl rfl fun t ht => ?_
      exact exact_not_eq (h.mono hr.le) ht hp hbl
        (Expr.valued_of_isSimple hs hp ht.within) (hl.negated_holds hba ht)
    · have hn := ha.negated hba
      have hbn := Expr.isBool_negated hba hpa
      refine (ih.truth w a.negated hn hbn).imp fun f w' hr hf => ?_
      refine hf.congr hbn rfl rfl fun t ht => exact_not_eq (h.mono hr.le) ht
        (hn.mono hr.le).proper hbn ((hn.mono hr.le).defined hbn t ht) ?_
      exact (h.pliable t (hr.sound t ht)).here.1
  | cmp r a b =>
    rw [truth]
    exact ih.comparison w true r a b h
  | constraint c =>
    rw [truth]
    exact (constraint_atoms ih h).bind fun d w' _ hd => .pure hd
  | call d => exact absurd h.proper Expr.proper_call
  | int _ | sum _ | wsum _ | sub _ _ | mul _ _ | neg _ | function _ => cases hb

end

end Flat

end ConstraintModel
