import ConstraintModel.Proofs.FlatMeaning
import ConstraintModel.Proofs.Grounded
import Mathlib.Algebra.BigOperators.GroupWithZero.Action
import Mathlib.Algebra.BigOperators.Ring.List

namespace ConstraintModel

namespace Flat

open Defining (Refining refining)
open ConstraintModel.Expr (Valued Defined Invertible Steady num)

section

variable {q : Prop} {u : Prop} {w w' : World} {e f g a b l : Expr} {r : Relation} {t : Assignment}

theorem Posted.mono {fs : List Expr} (h : Posted q w e fs) (hr : w.Refines u w') : Posted q w' e fs :=
  ⟨World.proper_mono hr.grows h.proper, h.steady, fun t ht => h.holds t (hr.sound t ht)⟩

theorem Posted.single (h : Result q w e f) : Posted q w e [f] :=
  ⟨by simpa using h.stands.proper, by simpa using h.steady, fun t ht => by
    rw [List.forall_mem_singleton, h.stands.holds_iff ht]⟩

theorem Posted.conjuncts (h : Result q w e f) : Posted q w e f.conjuncts := by
  refine ⟨?_, ?_, fun t ht => ?_⟩
  · exact f.forall_conjuncts (fun as hp a ha => hp.arg ha) h.stands.proper
  · exact f.forall_conjuncts (fun as hl a ha => hl.arg ha) h.steady
  · rw [Expr.holds_conjuncts, h.stands.holds_iff ht]

/-- An expression that holds in all solutions needs no constraints. -/
theorem Posted.nil (h : ∀ t, w.Admits t → e.Holds t) : Posted q w e [] :=
  ⟨by simp, by simp, fun t ht => by simpa using h t ht⟩

theorem Posted.congr {fs : List Expr} (h : Posted q w e fs)
    (hiff : ∀ t, w.Admits t → (e.Holds t ↔ a.Holds t)) : Posted q w a fs :=
  ⟨h.proper, h.steady, fun t ht => (h.holds t ht).trans (hiff t ht)⟩

theorem Posted.flatten {as : List Expr} {fss : List (List Expr)} (h : List.Forall₂ (Posted q w) as fss) :
    Posted q w (.and as) fss.flatten := by
  refine ⟨fun f hf => ?_, fun f hf => ?_, fun t ht => ?_⟩
  · obtain ⟨fs, hfs, hf⟩ := List.mem_flatten.1 hf
    obtain ⟨a, -, ha⟩ := forall₂_mem_right h hfs
    exact ha.proper f hf
  · obtain ⟨fs, hfs, hf⟩ := List.mem_flatten.1 hf
    obtain ⟨a, -, ha⟩ := forall₂_mem_right h hfs
    exact ha.steady f hf
  · rw [Expr.holds_and, List.forall_mem_flatten]
    induction h with
    | nil => simp
    | cons ha _ ih => rw [List.forall_mem_cons, List.forall_mem_cons, ha.holds t ht, ih]

theorem Side.trans (h : w.Stands a e) (h' : Side q w e f) : Side q w a f :=
  ⟨⟨h.trans h'.stands, h'.steady⟩, h'.isSimple⟩

theorem Atom.side (h : Atom w e f) : Side q w e f := ⟨h.result, fun _ => h.isSimple⟩

end

section Comparison

variable {w : World} {a b e f g l : Expr} {r : Relation} {t : Assignment}

/-- A flat comparison has the value of a comparison of the same values. -/
theorem compare_result (hp : (Expr.cmp r a b).Proper w.store.Owns) (hf : f.Proper w.store.Owns)
    (hfl : f.Steady q) (hg : g.Proper w.store.Owns) (hgs : g.isSimple)
    (hfa : ∀ t, w.Admits t → f.exact t = a.exact t) (hgb : ∀ t, w.Admits t → g.exact t = b.exact t) :
    Result q w (.cmp r a b) (compare r f g) := by
  have hgl : g.Steady q := Expr.steady_of_isSimple hgs
  have hx (t : Assignment) (ht : w.Admits t) :
      (Expr.cmp r f g).exact t = (Expr.cmp r a b).exact t := by
    rw [Expr.exact_cmp_within hp ht.within, Expr.exact_cmp_within (Expr.proper_cmp.2 ⟨hf, hg⟩) ht.within,
      hfa t ht, hgb t ht]
  unfold compare
  split
  · rename_i m n hm hn
    refine .of_exact Expr.proper_bool rfl (Expr.steady_of_isSimple rfl) rfl rfl fun t ht => ?_
    rw [← hx t ht, Expr.exact_cmp_constants hm hn, Expr.exact_bool]
  · refine .of_exact (Expr.proper_cmp.2 ⟨hg, hf⟩) rfl (Expr.steady_cmp hgl hfl) rfl rfl fun t ht => ?_
    rw [Expr.exact_cmp_converse (Expr.proper_cmp.2 ⟨hf, hg⟩) ht.within, hx t ht]
  · exact .of_exact (Expr.proper_cmp.2 ⟨hf, hg⟩) rfl (Expr.steady_cmp hfl hgl) rfl rfl hx

theorem toInt_eq (hs : l.isSimple) (hp : l.Proper w.store.Owns) : (toInt l).isSimple ∧
    (toInt l).Proper w.store.Owns ∧ ∀ t, (toInt l).exact t = l.exact t := by
  unfold toInt
  split
  · exact ⟨rfl, Expr.proper_int, fun t => by rw [Expr.exact_int, Expr.exact_bool]⟩
  · exact ⟨hs, hp, fun _ => rfl⟩

/-- The equality of a flat expression with a literal. -/
theorem equate_result (hf : Result q w e f) (hb : e.isBool) (hv : ∀ t, w.Admits t → e.Valued t)
    (hl : l.isSimple) (hpl : l.Proper w.store.Owns) (hbl : l.isBool) :
    Result q w (.cmp .eq e l) (equate f l) := by
  have hbf := hf.stands.isBool hb
  have hatom : Atom w l l := atom_refl hl hpl
  have hvl (t : Assignment) (ht : w.Admits t) : l.exact t = some (l.num t) := (hatom.valued ht).exact_eq
  have hx (t : Assignment) (ht : w.Admits t) : (Expr.cmp .eq e l).exact t = some (e.num t == l.num t).toInt :=
    Expr.exact_cmp_num (hv t ht) (hatom.valued ht)
  unfold equate
  split
  · refine .of_exact hpl hbl (Expr.steady_of_isSimple hl) rfl rfl fun t ht => ?_
    have := hpl.num_boolean hbl ht.within (hvl t ht)
    rw [hx t ht, hvl t ht, ← hf.stands.num_eq ht, Expr.num_eq (Expr.exact_bool t true)]
    rcases this with h | h <;> rw [h] <;> rfl
  · obtain ⟨hs, hp, hbn, hnum⟩ := hatom.negated hbl
    refine .of_exact hp hbn (Expr.steady_of_isSimple hs) rfl rfl fun t ht => ?_
    have := hpl.num_boolean hbl ht.within (hvl t ht)
    rw [hx t ht, (Expr.valued_of_isSimple hs hp ht.within).exact_eq, hnum t ht, ← hf.stands.num_eq ht,
      Expr.num_eq (Expr.exact_bool t false)]
    rcases this with h | h <;> rw [h] <;> rfl
  · refine .of_exact (Expr.proper_cmp.2 ⟨hf.stands.proper, hpl⟩) rfl
      (Expr.steady_cmp hf.steady hatom.result.steady) rfl rfl fun t ht => ?_
    rw [hx t ht, ← hf.stands.num_eq ht]
    exact Expr.exact_cmp_num (hf.stands.valued ht (hv t ht)) (hatom.valued ht)

end Comparison

section

variable {depth : Nat} (ih : Meanings q depth) {w : World} {a b e l : Expr} {as : List Expr} {r : Relation}

include ih

theorem equality_meaning {lift : Bool} (h : Ready q w e) (hb : e.isBool)
    (hinv : ∀ t, w.Admits t → l.isLiteral ∨ e.Invertible t) (hl : l.isSimple) (hpl : l.Proper w.store.Owns)
    (hbl : l.isBool) :
    (equality depth lift e l).Refining (.refines True) (.each (Steady q)) w fun f w' =>
      Result q w' (.cmp .eq e l) f := by
  have hd := h.defined hb
  have hdl := Expr.defined_of_isSimple hl hpl
  have hx (t : Assignment) (ht : w.Admits t) : (Expr.cmp .eq e l).exact t = some (e.num t == l.num t).toInt :=
    Expr.exact_cmp_num (hd t ht) (hdl t ht)
  unfold equality
  split
  · refine (ih.truth w e h hb).imp fun f w' hr hf => hf.congr hb rfl rfl fun t ht => ?_
    have hw := hr.sound t ht
    have := h.proper.num_boolean hb hw.within (hd t hw).exact_eq
    rw [hx t hw, (hd t hw).exact_eq, Expr.num_eq (Expr.exact_bool t true)]
    rcases this with h | h <;> rw [h] <;> rfl
  · have hbn := Expr.isBool_negated hb h.proper
    refine (ih.truth w e.negated (h.negated hb) hbn).imp fun f w' hr hf =>
      hf.congr hbn rfl rfl fun t ht => ?_
    have hw := hr.sound t ht
    refine Expr.exact_eq_of_holds (h.negated hb).proper hbn (Expr.proper_cmp.2 ⟨h.proper, hpl⟩) rfl hw.within hw.within
      ((h.negated hb).defined hbn t hw) (Expr.valued_of_eq (hx t hw))
      (((hinv t hw).resolve_left (by simp [Expr.isLiteral])).trans ?_)
    rw [(hd t hw).fails_iff_num, Expr.holds_cmp_num (hd t hw) (hdl t hw), Expr.num_eq (Expr.exact_bool t false)]
    exact (beq_iff_eq ..).symm
  · refine (ih.truth w e h hb).bind fun f w' hr hf => ?_
    have rest {g : Expr} {w'' : World} (hr' : w'.Refines True w'') (hg : Result q w'' e g) :
        Result q w'' (.cmp .eq e l) (equate g l) := by
      have hr := hr.trans hr'
      exact equate_result hg hb (fun t ht => hd t (hr.sound t ht)) hl
        (hpl.imp fun _ hx => hx.mono hr.grows) hbl
    split
    · exact (liftBool_refining hf hb fun t ht => hd t (hr.sound t ht)).bind
        fun g w'' hr' hg => .pure (rest hr' hg.result)
    · exact Refining.bind (.pure hf) fun g w'' hr' hg => .pure (rest hr' hg)

structure Picked (q : Prop) (w : World) (a b : Expr) (p : Expr × Expr) : Prop where
  ready : Ready q w p.1
  isBool : p.1.isBool
  invertible : ∀ t, w.Admits t → p.2.isLiteral ∨ p.1.Invertible t
  isSimple : p.2.isSimple
  proper : p.2.Proper w.store.Owns
  isBool' : p.2.isBool
  num : ∀ t, w.Admits t → p.1.num t = a.num t ∧ p.2.num t = b.num t ∨
    p.1.num t = b.num t ∧ p.2.num t = a.num t

theorem reified_meaning (h : Ready q w (.cmp r a b)) (hba : a.isBool) (hbb : b.isBool) :
    (reified depth a b).Refining (.refines True) (.each (Steady q)) w fun p w' => Picked q w' a b p := by
  have ha := h.arg (a := a) (by simp [Expr.args])
  have hb := h.arg (a := b) (by simp [Expr.args])
  have hinv (t : Assignment) (ht : w.Admits t) := (h.pliable t ht).here.1 hba hbb
  unfold reified
  split
  · rename_i hs
    simp only [if_pos hs] at hinv
    exact .pure ⟨hb, hbb, hinv, hs, ha.proper, hba, fun _ _ => .inr ⟨rfl, rfl⟩⟩
  · rename_i hs
    simp only [if_neg hs] at hinv
    split
    · exact .pure ⟨ha, hba, hinv, ‹_›, hb.proper, hbb, fun _ _ => .inl ⟨rfl, rfl⟩⟩
    · rename_i hsb
      have hliteral : ¬b.isLiteral := fun hl => hsb (Expr.isSimple_of_isLiteral hl)
      exact (ih.literal w b hb hbb).bind fun l w' hr hl => .pure ⟨ha.mono hr.le, hba,
        fun t ht => .inr ((hinv t (hr.sound t ht)).resolve_left hliteral), hl.isSimple, hl.stands.proper,
        hl.stands.isBool hbb, fun t ht => .inl ⟨rfl, hl.stands.num_eq ht⟩⟩

theorem reification_meaning {lift : Bool} (h : Ready q w (.cmp r a b)) (hba : a.isBool) (hbb : b.isBool)
    (hr : r = .eq ∨ r = .ne) : (reification (depth + 1) lift r a b).Refining (.refines True) (.each (Steady q)) w
      fun f w' => Result q w' (.cmp r a b) f := by
  have ha := h.arg (a := a) (by simp [Expr.args])
  have hb := h.arg (a := b) (by simp [Expr.args])
  rw [reification_eq]
  refine (reified_meaning ih h hba hbb).bind fun p w' hr' hp => ?_
  have hatom : Atom w' p.2 p.2 := atom_refl hp.isSimple hp.proper
  obtain ⟨hs, hpn, hbn, hnum⟩ := hatom.negated hp.isBool'
  have hl : (if r = .ne then p.2.negated else p.2).isSimple ∧
      (if r = .ne then p.2.negated else p.2).Proper w'.store.Owns ∧
      (if r = .ne then p.2.negated else p.2).isBool ∧
      (p.2.isLiteral → (if r = .ne then p.2.negated else p.2).isLiteral) := by
    split
    · exact ⟨hs, hpn, hbn, fun hl => Expr.isLiteral_negated hl hp.proper⟩
    · exact ⟨hp.isSimple, hp.proper, hp.isBool', id⟩
  refine (equality_meaning ih hp.ready hp.isBool (fun t ht => (hp.invertible t ht).imp_left hl.2.2.2) hl.1
    hl.2.1 hl.2.2.1).imp
    fun f w'' hr'' hf => hf.congr rfl rfl rfl fun t ht => ?_
  have ht' := hr''.sound t ht
  have hw := hr'.sound t ht'
  have hva := ha.defined hba t hw
  have hvb := hb.defined hbb t hw
  rw [Expr.exact_cmp_num (hp.ready.defined hp.isBool t ht')
    (Expr.valued_of_isSimple hl.1 hl.2.1 ht'.within), Expr.exact_cmp_num hva hvb]
  have hbool := ha.proper.num_boolean hba hw.within hva.exact_eq
  have hbool' := hb.proper.num_boolean hbb hw.within hvb.exact_eq
  have hnum := hnum t ht'
  rcases hr with rfl | rfl
  · rw [if_neg (by simp)]
    rcases hp.num t ht' with ⟨h₁, h₂⟩ | ⟨h₁, h₂⟩
    · rw [h₁, h₂]
    · rw [h₁, h₂]
      congr 2
      exact Bool.beq_comm
  · rw [if_pos rfl, hnum]
    rcases hp.num t ht' with ⟨h₁, h₂⟩ | ⟨h₁, h₂⟩ <;> rw [h₁, h₂] <;>
      rcases hbool with h | h <;> rcases hbool' with h' | h' <;> rw [h, h'] <;> rfl

omit ih in
/-- After the sides have been put in order, only the first one can lack a
value, and only if it is a function. -/
theorem ready_orient (h : Ready q w (.cmp r a b)) :
    Ready q w (orient r a b).2.1 ∧ ((∃ g, (orient r a b).2.1 = .function g) ∨ (orient r a b).2.1.Defined w) ∧
      Ready q w (orient r a b).2.2 ∧ (orient r a b).2.2.Defined w ∧
      ∀ t, t.Within w.store → (Expr.cmp (orient r a b).1 (orient r a b).2.1 (orient r a b).2.2).exact t =
        (Expr.cmp r a b).exact t := by
  have ha := h.arg (a := a) (by simp [Expr.args])
  have hb := h.arg (a := b) (by simp [Expr.args])
  have given (t : Assignment) (ht : w.Admits t) : (Expr.cmp r a b).GivenHere (·.isSimple) t := (h.pliable t ht).here.2
  have defined {x : Expr} {p : Prop} (hx : ∀ t, w.Admits t → p ∨ x.Valued t) : p ∨ x.Defined w := by
    by_cases hp : p
    · exact .inl hp
    · exact .inr fun t ht => (hx t ht).resolve_left hp
  unfold orient
  split
  · rename_i hc
    have hs : a.isSimple := by
      rw [Bool.or_eq_true, Bool.and_eq_true] at hc
      exact hc.elim isSimple_of_isConstant And.left
    exact ⟨hb, defined fun t ht => (given t ht).2.imp_left And.right, ha, Expr.defined_of_isSimple hs ha.proper,
      fun t ht => Expr.exact_cmp_converse h.proper ht⟩
  · rename_i hc
    refine ⟨ha, defined fun t ht => (given t ht).1, hb, fun t ht => ?_, fun _ _ => rfl⟩
    refine (given t ht).2.resolve_left ?_
    rintro ⟨hs, g, rfl⟩
    have hfunction : (Expr.function g).isSimple = false := rfl
    exact hc (by simp [hs, hfunction])

theorem firstSide_meaning {lift : Bool} (h : Ready q w a) (hd : (∃ g, a = .function g) ∨ a.Defined w) :
    (firstSide depth lift a).Refining (.refines True) (.each (Steady q)) w fun f w' => Side q w' a f := by
  refine .checked_bind fun lifted hlifted => ?_
  split
  · refine (ih.operand w a h fun t ht => ?_).imp fun o w' _ ho => ho.side
    unfold isLifted at hlifted
    split at hlifted
    · split at hlifted
      · subst ‹lifted = true›
        exact Expr.valued_of_isTotal h.proper ((h.pliable t ht).here.2) hlifted ht.within
      · cases hlifted
        cases ‹false = true›
    · cases hlifted
      cases ‹false = true›
  · exact ih.side w a h

theorem sides_meaning {lift : Bool} (hp : (Expr.cmp r a b).Proper w.store.Owns) (ha : Ready q w a)
    (hda : (∃ g, a = .function g) ∨ a.Defined w) (hb : Ready q w b) (hdb : b.Defined w) :
    (sides depth lift (r, a, b)).Refining (.refines True) (.each (Steady q)) w fun f w' =>
      Result q w' (.cmp r a b) f := by
  refine (firstSide_meaning ih ha hda).bind fun f w' hr hf => ?_
  refine (ih.operand w' b (hb.mono hr.le) (hdb.mono hr.le)).bind fun o w'' hr' ho => .pure ?_
  have hf := hf.toResult.mono hr'
  obtain ⟨hs, hpo, hx⟩ := toInt_eq ho.isSimple ho.stands.proper
  exact compare_result (hp.imp fun _ hx => hx.mono (hr.trans hr').grows) hf.stands.proper hf.steady hpo hs
    hf.stands.exact fun t ht => (hx t).trans (ho.stands.exact t ht)

theorem comparison_meaning {lift : Bool} (h : Ready q w (.cmp r a b)) :
    (comparison (depth + 1) lift r a b).Refining (.refines True) (.each (Steady q)) w fun f w' =>
      Result q w' (.cmp r a b) f := by
  rw [comparison_eq]
  split
  · rename_i m n hm hn
    refine .pure (.of_exact Expr.proper_bool rfl (Expr.steady_of_isSimple rfl) rfl rfl fun t ht => ?_)
    rw [Expr.exact_cmp_constants hm hn, Expr.exact_bool]
  · split
    · rename_i hr
      simp only [isReification, Bool.and_eq_true, Bool.or_eq_true, beq_iff_eq] at hr
      exact ih.reification w lift r a b h hr.1.1.2 hr.1.2 hr.1.1.1
    · obtain ⟨ha, hda, hb, hdb, hx⟩ := ready_orient h
      exact (sides_meaning ih (Expr.proper_cmp.2 ⟨ha.proper, hb.proper⟩) ha hda hb hdb).imp fun f w' hr hf =>
        hf.congr rfl rfl rfl fun t ht => hx t (hr.sound t ht).within

omit ih in
theorem posted_stable : (refining (.refines True) (.each (Steady q))).Stable (Posted q) := fun _ _ _ _ hr h => h.mono hr

theorem constraint_meaning (h : Postable q w e) (hb : e.isBool) :
    (constraint (depth + 1) e).Refining (.refines True) (.each (Steady q)) w fun fs w' => Posted q w' e fs := by
  have simple (hs : e.isSimple) : Posted q w e [e] := .single (atom_refl hs h.proper).result
  cases e with
  | bool b =>
    cases b
    · exact .pure (simple rfl)
    · exact .pure (.nil fun t _ => Expr.holds_bool.2 rfl)
  | var x =>
    change Refining _ _ (if x.isBool then pure [Expr.var x] else throw (.unsupported (.var x))) _ _
    rw [if_pos (show x.isBool from hb)]
    exact .pure (simple rfl)
  | negVar x => exact .pure (simple rfl)
  | and as =>
    obtain ⟨hbs, -⟩ := Expr.proper_and.1 h.proper
    rw [constraint]
    refine ((refining (.refines True) (.each (Steady q))).mapM posted_stable fun a ha w' hr => ?_).bind
      fun fss w' _ hfs =>
      .pure (.flatten hfs)
    exact ih.constraint w' a ((h.conjunct ha).mono hr.le) (hbs a ha)
  | or as =>
    obtain ⟨hbs, -⟩ := Expr.proper_or.1 h.proper
    rw [constraint]
    have h := h.ready (by simp) (by simp)
    refine (ih.literals w true as fun a ha => ⟨h.arg ha, hbs a ha⟩).bind fun ls? w' hr hls => .pure ?_
    have hresult : Result q w' (.or as) _ := hls.disjunction
    cases ls? with
    | none => exact .nil fun t ht => (hresult.stands.holds_iff ht).1 (Expr.holds_bool.2 rfl)
    | some ls => exact .single hresult
  | implies a b =>
    obtain ⟨⟨hba, hbb⟩, -⟩ := Expr.proper_implies.1 h.proper
    obtain ⟨ha, hb'⟩ := h.side
    rw [constraint]
    refine (ih.literal w a ha hba).bind fun l w' hr hl => ?_
    have hvalued (t : Assignment) (ht : w'.Admits t) : a.Valued t := ha.defined hba t (hr.sound t ht)
    have hiff (t : Assignment) (ht : w'.Admits t) : (Expr.implies a b).Holds t ↔ (l.Holds t → b.Holds t) := by
      rw [Expr.holds_implies, (hvalued t ht).fails_iff, hl.stands.holds_iff ht]
      tauto
    split
    · exact .pure (.nil fun t ht => (hiff t ht).2 fun hf => absurd (Expr.holds_bool.1 hf) (by simp))
    · refine (ih.constraint w' b (hb'.mono hr.le).postable hbb).imp fun fs w'' hr' hfs => hfs.congr fun t ht => ?_
      rw [hiff t (hr'.sound t ht)]
      simp [Expr.holds_bool]
    · refine (ih.truth w' b (hb'.mono hr.le) hbb).bind fun f w'' hr' hf => ?_
      have hl := hl.mono hr'
      have hbl := hl.stands.isBool hba
      have hbf := hf.stands.isBool hbb
      have hiff (t : Assignment) (ht : w''.Admits t) : (Expr.implies a b).Holds t ↔ (l.Holds t → f.Holds t) := by
        rw [hiff t (hr'.sound t ht), hf.stands.holds_iff ht]
      obtain ⟨hs, hp, -, -⟩ := hl.negated hba
      split
      · exact .pure (.nil fun t ht => (hiff t ht).2 fun _ => Expr.holds_bool.2 rfl)
      · refine .pure ((Posted.single (atom_refl hs hp).result).congr fun t ht => ?_)
        rw [hiff t ht, hl.negated_holds hba ht, ← hl.stands.fails_iff ht, (hl.valued ht).fails_iff]
        simp [Expr.holds_bool]
      · refine .pure ⟨?_, ?_, fun t ht => ?_⟩
        · simp [hbl, hbf, hl.stands.proper, hf.stands.proper]
        · simpa using Expr.steady_implies (Expr.steady_of_isSimple hl.isSimple) hf.steady
        · rw [List.forall_mem_singleton, hiff t ht, Expr.holds_implies, (hl.valued ht).fails_iff]
          tauto
  | not a =>
    obtain ⟨hba, hpa⟩ := Expr.proper_not.1 h.proper
    have h := h.ready (by simp) (by simp)
    have ha := h.arg (a := a) (by simp [Expr.args])
    rw [constraint]
    split
    · refine (ih.literal w a ha hba).bind fun l w' hr hl => .pure ?_
      obtain ⟨hs, hp, -, -⟩ := hl.negated hba
      refine (Posted.single (atom_refl hs hp).result).congr fun t ht => ?_
      rw [Expr.holds_not, hl.negated_holds hba ht]
    · refine (ih.constraint w a.negated (ha.negated hba).postable (Expr.isBool_negated hba hpa)).imp
        fun fs w' hr hfs => hfs.congr fun t ht => ?_
      rw [Expr.holds_not]
      exact (h.pliable t (hr.sound t ht)).here.1
  | cmp r a b =>
    rw [constraint]
    exact (ih.comparison w false r a b (h.ready (by simp) (by simp))).bind fun f w' _ hf => .pure (.conjuncts hf)
  | constraint c =>
    rw [constraint]
    exact (constraint_atoms ih (h.ready (by simp) (by simp))).bind fun d w' _ hd => .pure (.single hd)
  | call d => exact absurd h.proper Expr.proper_call
  | int _ | sum _ | wsum _ | sub _ _ | mul _ _ | neg _ | function _ => cases hb

end

section

variable {u : Prop} {w w' : World} {f g k : Affine} {v v' : Assignment → Int} {b b' : Bounds} {e : Expr}

theorem Form.mono (h : Form w.store f) (hr : w.Refines u w') : Form w'.store f :=
  fun t ht => ⟨(h t ht).1, (h t ht).2.imp fun _ hx => hx.mono hr.grows⟩

theorem Added.mono (h : Added w f v b g) (hr : w.Refines u w') : Added w' f v b g :=
  ⟨h.form.mono hr, fun t ht => h.total t (hr.sound t ht), h.range⟩

theorem Added.trans (h : Added w f v b g) (h' : Added w g v' b' k) :
    Added w f (fun t => v t + v' t) (b + b') k :=
  ⟨h'.form, fun t ht => by rw [h'.total t ht, h.total t ht, add_assoc],
    Bounds.subset_trans h'.range (by
      rw [← add_assoc]
      exact Bounds.add_subset h.range (Bounds.subset_refl _))⟩

theorem Added.congr (h : Added w f v b g) (hv : ∀ t, w.Admits t → v t = v' t) (hb : b = b') :
    Added w f v' b' g :=
  ⟨h.form, fun t ht => by rw [h.total t ht, hv t ht], hb ▸ h.range⟩

theorem added_refl (h : Form w.store f) : Added w f (fun _ => 0) 0 f :=
  ⟨h, fun t _ => (add_zero _).symm, by rw [add_zero]⟩

theorem Form.addMultiple {n : Int} (hf : Form w.store f) (hs : e.isSimple) (hp : e.Proper w.store.Owns)
    (h : f.addMultiple n e = .ok g) : Form w.store g := by
  intro t ht
  rcases mem_of_addMultiple h t ht with ht | ⟨rfl, -⟩
  · exact hf t ht
  · exact ⟨hs, hp⟩

end

/-- What is added for the members of a list one after the other. -/
theorem foldlM_added {α : Type} {xs : List α} {step : Affine → α → Defining Affine}
    {p : α → Assignment → Int} {b : α → Bounds} {w : World} {f : Affine} (hf : Form w.store f)
    (h : ∀ x ∈ xs, ∀ w', w.Refines True w' → ∀ g, Form w'.store g →
      (step g x).Refining (.refines True) (.each (Steady q)) w' fun k w'' => Added w'' g (p x) (b x) k) :
    (xs.foldlM step f).Refining (.refines True) (.each (Steady q)) w fun g w' =>
      Added w' f (fun t => (xs.map fun x => p x t).sum) (xs.map b).sum g := by
  induction xs generalizing w f with
  | nil => exact .pure (added_refl hf)
  | cons x xs ih =>
    rw [List.foldlM_cons]
    refine (h x (List.mem_cons_self ..) w (.refl w) f hf).bind fun g w' hr hg => ?_
    refine (ih hg.form fun x hx w'' hr' => h x (List.mem_cons_of_mem _ hx) w'' (hr.trans hr')).imp
      fun k w'' hr' hk => ?_
    exact ((hg.mono hr').trans hk).congr (fun t _ => by rw [List.map_cons, List.sum_cons])
      (by rw [List.map_cons, List.sum_cons])

theorem form_zero {σ : Store} : Form σ .zero := by simp [Form, Affine.zero]

/-- The expression that an affine form is written as. -/
theorem Form.toExpr {σ : Store} {f : Affine} (h : Form σ f) :
    f.toExpr.Proper σ.Owns ∧ f.toExpr.Steady q ∧ (f.toExpr.isBool → f.toExpr.isSimple) := by
  have hwritten : ∀ t ∈ f.written, t.2.isSimple ∧ t.2.Proper σ.Owns := by
    refine List.forall_mem_append.2 ⟨h, ?_⟩
    split <;> simp [Expr.isSimple]
  have hargs : ∀ a ∈ f.written.map Prod.snd, a.isSimple ∧ a.Proper σ.Owns := List.forall_mem_map.2 hwritten
  rw [Affine.toExpr_eq]
  split
  · exact ⟨Expr.proper_int, Expr.steady_of_isSimple rfl, by simp [Expr.isBool]⟩
  · split
    · split
      · rename_i e hsingle
        have he := hwritten _ (hsingle ▸ List.mem_singleton_self _)
        exact ⟨he.2, Expr.steady_of_isSimple he.1, fun _ => he.1⟩
      · exact ⟨Expr.proper_sum.2 fun a ha => (hargs a ha).2,
          Expr.steady_of_args (by simp) (by simp) fun a ha => Expr.steady_of_isSimple (hargs a ha).1,
          by simp [Expr.isBool]⟩
    · exact ⟨Expr.proper_wsum.2 fun t ht => (hwritten t ht).2,
        Expr.steady_of_args (by simp) (by simp) fun a ha => Expr.steady_of_isSimple (hargs a ha).1,
          by simp [Expr.isBool]⟩

section

variable {depth : Nat} (ih : Meanings q depth) {w : World} {a b e : Expr} {f : Affine} {v : Int}

include ih

theorem addTo_meaning (hf : Form w.store f) (h : Ready q w e) (hd : e.Defined w) :
    (addTo (depth + 1) f v e).Refining (.refines True) (.each (Steady q)) w fun g w' =>
      Added w' f (fun t => v * e.num t) (v • e.range) g := by
  have arg {a : Expr} (ha : a ∈ e.args) (hda : a.Defined w) {w' : World} (hr : w.Refines True w')
      {g : Affine} (hg : Form w'.store g) (n : Int) : (addTo depth g n a).Refining (.refines True) (.each (Steady q)) w'
        fun k w'' => Added w'' g (fun t => n * a.num t) (n • a.range) k :=
    ih.addTo w' g n a hg ((h.arg ha).mono hr.le) (hda.mono hr.le)
  have whole : (do (f.addMultiple v (← operand depth e) : Checked Affine) : Defining Affine).Refining
      (.refines True) (.each (Steady q)) w fun g w' => Added w' f (fun t => v * e.num t) (v • e.range) g := by
    refine (ih.operand w e h hd).bind fun o w' hr ho => .checked fun g hg => ⟨?_, fun t ht => ?_, ?_⟩
    · exact (hf.mono hr).addMultiple ho.isSimple ho.stands.proper hg
    · rw [Affine.total_addMultiple hg, ho.stands.num_eq ht]
    · rw [Affine.range_addMultiple hg]
      exact Bounds.add_subset (Bounds.subset_refl _) (Bounds.smul_subset v ho.stands.range)
  have scaled {a : Expr} {n m : Int} (ha : a ∈ e.args) (hda : a.Defined w)
      (hn : Checked.mul v n = .ok m) (hnum : ∀ t, w.Admits t → e.num t = n * a.num t)
      (hrange : e.range = n • a.range) : (addTo depth f m a).Refining (.refines True) (.each (Steady q)) w fun g w' =>
        Added w' f (fun t => v * e.num t) (v • e.range) g := by
    refine (arg ha hda (.refl w) hf m).imp fun g w' hr hg => hg.congr (fun t ht => ?_) ?_
    · rw [hnum t (hr.sound t ht), ← (Checked.mul_eq_ok.1 hn).2, mul_assoc]
    · rw [hrange, ← (Checked.mul_eq_ok.1 hn).2, mul_smul]
  cases e with
  | sum as =>
    have hda : ∀ a ∈ as, a.Defined w := fun a ha t ht => (h.pliable t ht).here.2 a ha
    rw [addTo]
    refine (foldlM_added hf fun a ha w' hr g hg => arg ha (hda a ha) hr hg v).imp fun g w' hr hg =>
      hg.congr (fun t ht => ?_) ?_
    · rw [Expr.num_eq (Expr.exact_sum_num fun a ha => hda a ha t (hr.sound t ht)), List.sum_map_mul_left]
      rfl
    · rw [Expr.range, List.smul_sum, List.map_map]
      rfl
  | wsum ts =>
    have hda : ∀ u ∈ ts, u.2.Defined w := fun u hu t ht => (h.pliable t ht).here.2 u.2 (List.mem_map_of_mem hu)
    rw [addTo]
    refine (foldlM_added (p := fun u t => v * (u.1 * u.2.num t)) (b := fun u => v • u.1 • u.2.range) hf
      fun u hu w' hr g hg => .checked_bind fun n hn => ?_).imp fun g w' hr hg => hg.congr (fun t ht => ?_) ?_
    · have hn := (Checked.mul_eq_ok.1 hn).2
      refine (arg (List.mem_map_of_mem hu) (hda u hu) hr hg n).imp fun k w'' _ hk => hk.congr (fun t _ => ?_) ?_
      · rw [← hn, mul_assoc]
      · rw [← hn, mul_smul]
    · rw [Expr.num_eq (Expr.exact_wsum_num fun u hu => hda u hu t (hr.sound t ht)),
        List.sum_map_mul_left]
    · rw [Expr.range, List.smul_sum, List.map_map]
      rfl
  | neg a =>
    have hda : a.Defined w := fun t ht => (h.pliable t ht).here.2 a (by simp [Expr.args])
    rw [addTo]
    refine .checked_bind fun m hm => scaled (n := -1) (by simp [Expr.args]) hda ?_ (fun t ht => ?_) ?_
    · rwa [Checked.mul, mul_neg_one]
    · rw [neg_one_mul]
      exact Expr.num_eq (by rw [Expr.exact_neg, (hda t ht).exact_eq]; rfl)
    · rw [Expr.range, Bounds.neg_eq_smul]
  | mul a b =>
    have hda : a.Defined w := fun t ht => (h.pliable t ht).here.2 a (by simp [Expr.args])
    have hdb : b.Defined w := fun t ht => (h.pliable t ht).here.2 b (by simp [Expr.args])
    have hnum {t : Assignment} (ht : w.Admits t) : (Expr.mul a b).num t = a.num t * b.num t :=
      Expr.num_eq (by rw [Expr.exact_mul, (hda t ht).exact_eq, (hdb t ht).exact_eq]; rfl)
    rw [addTo]
    refine .assume fun hw => ?_
    split
    · rename_i n hn
      refine .checked_bind fun m hm => scaled (n := n) (by simp [Expr.args]) hdb hm (fun t ht => ?_) ?_
      · rw [hnum ht, Expr.num_of_constant hn]
      · rw [Expr.range, Expr.range_of_constant hn,
          Bounds.point_mul n ((h.arg (a := b) (by simp [Expr.args])).proper.lower_le_upper hw.habitable)]
    · rename_i n _ hn
      refine .checked_bind fun m hm => scaled (n := n) (by simp [Expr.args]) hda hm (fun t ht => ?_) ?_
      · rw [hnum ht, Expr.num_of_constant hn, mul_comm]
      · rw [Expr.range, Expr.range_of_constant hn,
          Bounds.mul_point n ((h.arg (a := a) (by simp [Expr.args])).proper.lower_le_upper hw.habitable)]
    · exact whole
  | bool _ | int _ | var _ | negVar _ | and _ | or _ | implies _ _ | not _ | sub _ _ | cmp _ _ _
  | constraint _ | function _ | call _ =>
    rw [addTo] <;> first | exact whole | simp

theorem affine_meaning (h : Ready q w e) (hd : e.Defined w) (hb : e.isBool = false) :
    (affine (depth + 1) e).Refining (.refines True) (.each (Steady q)) w fun f w' => Side q w' e f := by
  rw [affine]
  refine (ih.addTo w .zero 1 e form_zero h hd).bind fun f w' hr hf => .pure ?_
  obtain ⟨hp, hl, hs⟩ := hf.form.toExpr
  refine ⟨⟨⟨hp, fun h => absurd h (by simp [hb]), ?_, fun t ht => ?_⟩, hl⟩, hs⟩
  · rw [Affine.range_toExpr]
    have := hf.range
    rwa [one_smul, show Affine.zero.range = 0 from rfl, zero_add] at this
  · have htotal := hf.total t ht
    rw [one_mul, show Affine.zero.total t = 0 from rfl, zero_add] at htotal
    rw [Affine.exact_toExpr fun u hu => Expr.valued_of_isSimple (hf.form u hu).1 (hf.form u hu).2 ht.within,
      (hd t (hr.sound t ht)).exact_eq, htotal]

theorem side_meaning (h : Ready q w e) :
    (side (depth + 1) e).Refining (.refines True) (.each (Steady q)) w fun f w' => Side q w' e f := by
  have total (hd : ∀ t, w.Admits t → ∀ a ∈ e.args, a.Valued t) (here : e.TotalHere) : e.Defined w :=
    fun t ht => Expr.valued_of_total h.proper here ht.within (hd t ht)
  have hboolean (hb : e.isBool) :
      (operand depth e).Refining (.refines True) (.each (Steady q)) w fun f w' => Side q w' e f :=
    (ih.operand w e h (h.defined hb)).imp fun o w' _ ho => ho.side
  cases e with
  | bool _ | int _ | var _ | negVar _ => exact .pure (atom_refl rfl h.proper).side
  | sum as | wsum ts | neg a =>
    rw [side]
    exact ih.affine w _ h (total (fun t ht => (h.pliable t ht).here.2) trivial) rfl
  | mul a b =>
    have ha := h.arg (a := a) (by simp [Expr.args])
    have hb := h.arg (a := b) (by simp [Expr.args])
    have hda : a.Defined w := fun t ht => (h.pliable t ht).here.2 a (by simp [Expr.args])
    have hdb : b.Defined w := fun t ht => (h.pliable t ht).here.2 b (by simp [Expr.args])
    rw [side]
    split
    · exact ih.affine w _ h (total (fun t ht => (h.pliable t ht).here.2) trivial) rfl
    · refine (ih.operand w a ha hda).bind fun x w' hr hx => ?_
      refine (ih.operand w' b (hb.mono hr.le) (hdb.mono hr.le)).bind
        fun y w'' hr' hy => .assume fun hw => ?_
      have hx := hx.mono hr'
      have hstands : w''.Stands (.mul a b) (.mul x y) :=
        .mapped (.mul hx.stands hy.stands) (h.mono (hr.trans hr').le).proper hw.habitable
      split
      · have hsound : (Expr.mul x y).Sound q w'' := Expr.sound_mul
          (Expr.sound_of_isSimple hx.isSimple hx.stands.proper) (Expr.sound_of_isSimple hy.isSimple hy.stands.proper)
        have hsteady : (Expr.mul x y).Steady q := Expr.steady_of_args (by simp) (by simp) (by
          simpa [Expr.args] using ⟨Expr.steady_of_isSimple hx.isSimple, Expr.steady_of_isSimple hy.isSimple⟩)
        exact (ih.affine w'' _ ⟨hsound.proper, fun t ht => (hsound.tame ht).pliable, hsteady⟩ hsound.defined rfl).imp
          fun f _ hr hf => .trans (hstands.mono hr.le) hf
      · refine .pure ⟨⟨hstands, Expr.steady_of_args (by simp) (by simp) ?_⟩, by simp [Expr.isBool]⟩
        simp only [Expr.args, List.forall_mem_cons, List.not_mem_nil, false_imp_iff, implies_true, and_true]
        exact ⟨Expr.steady_of_isSimple hx.isSimple, Expr.steady_of_isSimple hy.isSimple⟩
  | sub a b =>
    have ha := h.arg (a := a) (by simp [Expr.args])
    have hb := h.arg (a := b) (by simp [Expr.args])
    have hda : a.Defined w := fun t ht => (h.pliable t ht).here.2 a (by simp [Expr.args])
    have hdb : b.Defined w := fun t ht => (h.pliable t ht).here.2 b (by simp [Expr.args])
    rw [side]
    refine (ih.operand w a ha hda).bind fun x w' hr hx => ?_
    refine (ih.operand w' b (hb.mono hr.le) (hdb.mono hr.le)).bind
      fun y w'' hr' hy => .assume fun hw => .pure ?_
    have hx := hx.mono hr'
    refine ⟨⟨.mapped (.sub hx.stands hy.stands) (h.mono (hr.trans hr').le).proper hw.habitable,
      Expr.steady_of_args (by simp) (by simp) ?_⟩, by simp [Expr.isBool]⟩
    simp only [Expr.args, List.forall_mem_cons, List.not_mem_nil, false_imp_iff, implies_true, and_true]
    exact ⟨Expr.steady_of_isSimple hx.isSimple, Expr.steady_of_isSimple hy.isSimple⟩
  | function g =>
    rw [side]
    exact (function_atoms ih h).bind fun k w' _ hk => .pure hk
  | and _ | or _ | implies _ _ | not _ | cmp _ _ _ | constraint _ | call _ =>
    rw [side]
    exact hboolean rfl

end

theorem meanings (depth : Nat) : Meanings q depth := by
  induction depth with
  | zero => exact {
      constraint := fun _ _ _ _ => .throw
      truth := fun _ _ _ _ => .throw
      literals := fun _ _ _ _ => .throw
      literal := fun _ _ _ _ => .throw
      comparison := fun _ _ _ _ _ _ => .throw
      reification := fun _ _ _ _ _ _ _ _ _ => .throw
      side := fun _ _ _ => .throw
      affine := fun _ _ _ _ _ => .throw
      addTo := fun _ _ _ _ _ _ _ => .throw
      operand := fun _ _ _ _ => .throw }
  | succ depth ih => exact {
      constraint := fun _ _ => constraint_meaning ih
      truth := fun _ _ => truth_meaning ih
      literals := fun _ _ _ => literals_meaning ih
      literal := fun _ _ => literal_meaning ih
      comparison := fun _ _ _ _ _ => comparison_meaning ih
      reification := fun _ _ _ _ _ => reification_meaning ih
      side := fun _ _ => side_meaning ih
      affine := fun _ _ => affine_meaning ih
      addTo := fun _ _ _ _ => addTo_meaning ih
      operand := fun _ _ => operand_meaning ih }

end Flat

open ConstraintModel.Expr (Steady)

def Condition.asserted : Condition :=
  ⟨fun s e => e.Asserted (Expr.PliableHere s), fun hp h => h.congr hp, fun h => Expr.asserted_and.1 h⟩

theorem Expr.Tame.asserted {s : Assignment} {e : Expr} (h : e.Tame s) : Condition.asserted.holds s e :=
  Everywhere.asserted h.pliable

/-- Every constraint is rendered by its flat form and the definitions of the
variables in it. -/
theorem flatten_renders {q : Prop} {σ : Store} {es : List Expr}
    (h : ∀ e ∈ es, e.isBool ∧ e.Proper σ.Owns ∧ e.Steady q)
    (hex : ∃ s, s.Within σ ∧ ∀ e ∈ es, Condition.asserted.holds s e) :
    (flatten es).Sat False σ fun fs τ => Renders .asserted .any σ es fs τ ∧ ∀ f ∈ fs, f.Steady q := by
  have hsplit := Expr.forall_topLevel_steady h
  obtain ⟨s, hs, hasserted⟩ := hex
  refine (Lowering.sat_mapM_renders (Q := .any) (p := Steady q) (fun e he => (hsplit e he).2.1)
    ⟨s, hs, Condition.forall_topLevel hasserted⟩ fun τ hτ e he hex => ?_).bind fun parts _ _ h =>
      .pure ⟨.of_split h.1, h.2⟩
  obtain ⟨hb, hp, hsteady⟩ := hsplit e he
  replace hp := hp.imp fun _ hx => hx.mono hτ
  let ι := {s : Assignment // s.Within τ ∧ Condition.asserted.holds s e}
  have : Nonempty ι := hex.elim fun s hs => ⟨s, hs⟩
  have hruns (s : ι) := ((Flat.meanings (Flat.depth e)).constraint (World.pin τ e hp s) e
    ⟨hp, Condition.pin hp s.2.1 s.2.2, hsteady⟩ hb).collect ⟨s, World.admits_pin_self hp s.2.1⟩
  refine (Lowering.Sat.forall hruns).bind fun ⟨fs, N⟩ υ _ hruns => .pure ⟨.of_pin hp hex fun s hs hP => ?_, ?_⟩
  · obtain ⟨w', hw', hN, hr, -, hfs⟩ := hruns ⟨s, hs, hP⟩
    exact ⟨w', hw', hN, hr, hw' ▸ hfs.proper, fun t ht => ⟨fun _ _ => trivial, hfs.holds t ht⟩,
      fun _ _ _ _ _ _ => trivial⟩
  · obtain ⟨s, hs, hP⟩ := hex
    obtain ⟨w', -, -, -, hsteady, hfs⟩ := hruns ⟨s, hs, hP⟩
    exact List.forall_mem_append.2 ⟨hfs.steady, hsteady⟩

/-- Flattening keeps the solutions, and the auxiliary variables are determined
by the others. -/
theorem flatten_rewrites {q : Prop} {w : World} (h : ∀ e ∈ w.constraints, e.isBool ∧ (q → e.Total))
    (hg : w.Grounded) : (flatten w.constraints).Rewrites True (fun _ => Steady q) w := by
  refine Lowering.rewrites_of_renders (Q := .any) hg fun ⟨s, hs, htame⟩ => ?_
  refine (flatten_renders (q := q) (fun e he => ⟨(h e he).1, w.proper e he, (htame e he).steady (h e he).2⟩)
    ⟨s, hs, fun e he => (htame e he).asserted⟩).imp fun fs τ _ ⟨hfs, hsteady⟩ => ?_
  exact ⟨hfs.strengthen fun _ _ _ => Expr.Tame.asserted, hsteady⟩

end ConstraintModel
