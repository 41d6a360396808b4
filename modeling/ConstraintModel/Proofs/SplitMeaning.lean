import ConstraintModel.Form.Guarded
import ConstraintModel.Proofs.FlatSolutions

namespace ConstraintModel

open ConstraintModel.Expr (Steady)

namespace Expr

variable {σ : Store} {s : Assignment} {e a : Expr}

/-- Of the operations on variables, views and constants only entries of lists
can be undefined. -/
theorem regular_of_simple_args (hp : e.Proper σ.Owns) (hs : s.Within σ) (hargs : ∀ a ∈ e.args, a.isSimple)
    (hc : ∀ c, e ≠ constraint c) (hentry : ∀ as i, e ≠ function (.element as i)) : e.Regular s := by
  refine regular_of_args hp ?_ hs fun a ha => regular_of_isSimple (hargs a ha) (hp.arg ha) hs
  cases e with
  | constraint c => exact absurd rfl (hc c)
  | function g =>
    cases g with
    | element as i => exact absurd rfl (hentry as i)
    | _ => trivial
  | _ => trivial

theorem IsFlatSide.args (h : a.IsFlatSide) : ∀ b ∈ a.args, b.isSimple := by
  cases a with
  | var _ | negVar _ => simp [Expr.args]
  | wsum ts => exact List.forall_mem_map.2 h
  | sub b c | mul b c => simpa [Expr.args, IsFlatSide] using h
  | sum as | function g => exact h
  | _ => cases h

/-- In a flat truth value only a function can lack a value, and only where it is
compared with something simple. -/
theorem IsFlatTruth.tame (h : a.IsFlatTruth) (hc : ∀ c, a ≠ constraint c) (hp : a.Proper σ.Owns) (hs : s.Within σ) :
    a.Tame s := by
  cases a with
  | cmp r x y =>
    obtain ⟨hpx, hpy⟩ := proper_cmp.1 hp
    have hy := regular_of_isSimple h.2 hpy hs
    have side {x : Expr} (hx : x.IsFlatSide) (hp : x.Proper σ.Owns) (hf : ∀ g, x ≠ function g) : x.Regular s := by
      refine regular_of_simple_args hp hs hx.args ?_ fun as i => hf _
      rintro c rfl
      cases hx
    by_cases hf : ∃ g, x = function g
    · obtain ⟨g, rfl⟩ := hf
      have hargs : ∀ b ∈ g.args, b.Regular s := fun b hb => regular_of_isSimple (h.1 b hb) (hpx.arg hb) hs
      have hg : (function g).Tame s := tame_iff.2 ⟨fun b hb => ⟨(hargs b hb).valued, (hargs b hb).invertible⟩,
        fun b hb => (hargs b hb).tame⟩
      exact tame_iff.2 ⟨⟨⟨by simp [isBool], .inl ⟨⟨g, rfl⟩, h.2⟩⟩, hy.invertible, hy.valued⟩,
        by simpa [args] using ⟨hg, hy.tame⟩⟩
    · have hx := side h.1 hpx fun g he => hf ⟨g, he⟩
      exact (regular_of_args hp trivial hs (by simpa [args] using ⟨hx, hy⟩)).tame
  | and as | or as =>
    exact (regular_of_simple_args hp hs (fun a ha => isSimple_of_isLiteral (h a ha)) (by simp) (by simp)).tame
  | constraint c => exact absurd rfl (hc c)
  | var _ | negVar _ => exact tame_of_isSimple rfl
  | _ => cases h

end Expr

namespace Guarded

variable {q : Prop} {σ : Store} {e a l : Expr} {t : Assignment}

theorem isSplit_iff (h : isSplit a l) : a.isBool ∧ l.isLiteral ∧ a.isLiteral = false := by
  unfold isSplit at h
  split at h <;> simp_all

/-- The halves of a reification can be flattened. -/
theorem formed_halves (hs : isSplit a l) (hp : (Expr.cmp .eq a l).Proper σ.Owns) :
    ∀ e ∈ halves a l, e.Proper σ.Owns ∧ e.isBool := by
  obtain ⟨hba, hl, -⟩ := isSplit_iff hs
  obtain ⟨hpa, hpl⟩ := Expr.proper_cmp.1 hp
  have hbl := Expr.isBool_of_isLiteral hl
  simp only [halves, List.forall_mem_cons, List.not_mem_nil, false_imp_iff, implies_true, and_true]
  exact ⟨⟨Expr.proper_implies.2 ⟨⟨hbl, hba⟩, hpl, hpa⟩, rfl⟩,
    Expr.proper_implies.2 ⟨⟨Expr.isBool_negated hbl hpl, Expr.isBool_negated hba hpa⟩,
      Expr.proper_negated hbl hpl, Expr.proper_negated hba hpa⟩, rfl⟩

theorem tame_halves (hs : isSplit a l) (hp : (Expr.cmp .eq a l).Proper σ.Owns) (hta : a.Tame t)
    (ht : t.Within σ) : ∀ e ∈ halves a l, e.Tame t := by
  obtain ⟨hba, hl, -⟩ := isSplit_iff hs
  obtain ⟨hpa, hpl⟩ := Expr.proper_cmp.1 hp
  have hbl := Expr.isBool_of_isLiteral hl
  have hsl := Expr.isSimple_of_isLiteral hl
  have htn := hta.negated hpa hba ht
  have hrl := Expr.regular_of_isSimple hsl hpl ht
  have hrn := Expr.regular_of_isSimple (Expr.isSimple_negated hsl hbl) (Expr.proper_negated hbl hpl) ht
  have implies {a b : Expr} (hb : a.isBool) (ha : a.Regular t) (hv : b.Valued t) (hb' : b.Tame t) :
      (Expr.implies a b).Tame t :=
    Expr.tame_iff.2 ⟨⟨ha.invertible hb, ha.valued, hv⟩, by simpa [Expr.args] using ⟨ha.tame, hb'⟩⟩
  simp only [halves, List.forall_mem_cons, List.not_mem_nil, false_imp_iff, implies_true, and_true]
  exact ⟨implies hbl hrl (hta.valued hpa hba ht) hta, implies (Expr.isBool_negated hbl hpl) hrn
    (htn.valued (Expr.proper_negated hba hpa) (Expr.isBool_negated hba hpa) ht) htn⟩

theorem total_halves (hs : isSplit a l) (hp : (Expr.cmp .eq a l).Proper σ.Owns) (hta : a.Total) :
    ∀ e ∈ halves a l, e.Total := by
  obtain ⟨hba, hl, -⟩ := isSplit_iff hs
  obtain ⟨hpa, hpl⟩ := Expr.proper_cmp.1 hp
  have htl : l.Total := Expr.total_of_isSimple (Expr.isSimple_of_isLiteral hl)
  have implies {a b : Expr} (ha : a.Total) (hb : b.Total) : (Expr.implies a b).Total :=
    Expr.total_iff.2 ⟨trivial, by simpa [Expr.args] using ⟨ha, hb⟩⟩
  simp only [halves, List.forall_mem_cons, List.not_mem_nil, false_imp_iff, implies_true, and_true]
  exact ⟨implies htl hta, implies (htl.negated (Expr.isBool_of_isLiteral hl) hpl) (hta.negated hba hpa)⟩

/-- The two implications make a literal have the value of an expression, and its
negation that of the negated expression. -/
theorem holds_halves (hs : isSplit a l) (hp : (Expr.cmp .eq a l).Proper σ.Owns) (hta : a.Tame t)
    (ht : t.Within σ) : (∀ e ∈ halves a l, e.Holds t) ↔ (Expr.cmp .eq a l).Holds t ∧ a.Invertible t := by
  obtain ⟨hba, hl, -⟩ := isSplit_iff hs
  obtain ⟨hpa, hpl⟩ := Expr.proper_cmp.1 hp
  have hbl := Expr.isBool_of_isLiteral hl
  have hsl := Expr.isSimple_of_isLiteral hl
  have hrl := Expr.regular_of_isSimple hsl hpl ht
  have hva : a.Valued t := hta.valued hpa hba ht
  have hvl := hrl.valued
  have hvn := Expr.valued_of_isSimple (Expr.isSimple_negated hsl hbl) (Expr.proper_negated hbl hpl) ht
  have hinl : l.negated.Holds t ↔ l.Fails t := hrl.invertible hbl
  have hna : a.negated.Holds t → a.Fails t := hta.fails_of_negated hpa hba ht
  have hcmp : (Expr.cmp .eq a l).Holds t ↔ (a.Holds t ↔ l.Holds t) := by
    rw [Expr.holds_cmp_num hva hvl, hvl.holds_iff_num hpl hbl ht, hva.holds_iff_num hpa hba ht, Relation.holds,
      beq_iff_eq]
    have := hpa.num_boolean hba ht hva.exact_eq
    have := hpl.num_boolean hbl ht hvl.exact_eq
    omega
  simp only [halves, List.forall_mem_cons, List.not_mem_nil, false_imp_iff, implies_true, and_true]
  rw [Expr.holds_implies_iff hvl, Expr.holds_implies_iff hvn, hinl, hcmp, Expr.Invertible]
  rw [hva.fails_iff] at hna ⊢
  rw [hvl.fails_iff]
  tauto

def pieces : Expr → List Expr
  | .cmp .eq a l => if isSplit a l then halves a l else [.cmp .eq a l]
  | e => [e]

theorem pieces_eq (h : ∀ a l, e = .cmp .eq a l → isSplit a l = false) : pieces e = [e] := by
  unfold pieces
  split
  · rw [if_neg (by simp [h _ _ rfl])]
  · rfl

theorem proper_pieces (hp : e.Proper σ.Owns) : ∀ f ∈ pieces e, f.Proper σ.Owns := by
  unfold pieces
  split
  · split
    · exact fun f hf => (formed_halves ‹_› hp f hf).1
    · simpa using hp
  · simpa using hp

theorem constraint_eq (h : ∀ a l, e = .cmp .eq a l → isSplit a l = false) : Guarded.constraint e = pure [e] := by
  unfold Guarded.constraint
  split
  · rw [if_neg (by simp [h _ _ rfl])]
  · rfl

theorem holds_pieces (hp : e.Proper σ.Owns) (ht : t.Within σ)
    (htame : ∀ a l, e = .cmp .eq a l → isSplit a l → a.Tame t) : (∀ f ∈ pieces e, f.Holds t) ↔
      e.Holds t ∧ ∀ a l, e = .cmp .eq a l → isSplit a l → a.Invertible t := by
  by_cases hs : ∃ a l, e = .cmp .eq a l ∧ isSplit a l
  · obtain ⟨a, l, rfl, hs⟩ := hs
    have hpieces : pieces (.cmp .eq a l) = halves a l := if_pos hs
    rw [hpieces, holds_halves hs hp (htame a l rfl hs) ht]
    refine and_congr_right fun _ => ⟨?_, fun h => h a l rfl hs⟩
    rintro h _ _ ⟨⟩ -
    exact h
  · rw [pieces_eq fun a l he => Bool.eq_false_of_not_eq_true fun h => hs ⟨a, l, he, h⟩, List.forall_mem_singleton]
    exact (and_iff_left fun a l he h => absurd ⟨a, l, he, h⟩ hs).symm

end Guarded

/-- Every flat constraint is replaced by what it says when it is split. -/
theorem splitReifications_pieces {q : Prop} {S : Expr → Prop} (hS : ∀ e, e.Steady q → S e) {w : World} {es : List Expr}
    (hw : w.constraints = es.flatMap Guarded.pieces) (h : ∀ e ∈ es, S e ∧ ∀ a l, e = .cmp .eq a l →
      Guarded.isSplit a l → (Expr.cmp .eq a l).Proper w.store.Owns ∧ (q → a.Total) ∧
        ∀ t : Assignment, t.Within w.store → a.Tame t) :
    (splitReifications es).Rewrites True (fun _ => S) w := by
  refine Lowering.rewrites_flatMap (P := fun _ => S) (fun _ _ _ _ h => h) hw fun v hg e he hv => ?_
  by_cases hs : ∃ a l, e = .cmp .eq a l ∧ Guarded.isSplit a l
  · obtain ⟨a, l, rfl, hs⟩ := hs
    obtain ⟨hp, htotal, htame⟩ := (h _ he).2 a l rfl hs
    have hpieces : Guarded.pieces (.cmp .eq a l) = Guarded.halves a l := if_pos hs
    replace hp : (Expr.cmp .eq a l).Proper v.store.Owns := hp.imp fun _ hx => hx.mono hg
    have hstep : Guarded.constraint (.cmp .eq a l) = flatten v.constraints := by
      rw [hv, hpieces]
      exact if_pos hs
    rw [hpieces] at hv
    rw [hstep]
    refine fun hhab => (flatten_rewrites (q := q) (w := v) (fun f hf => ?_)
      (World.grounded_of_tame fun t ht f hf => ?_) hhab).imp ?_
    · rw [hv] at hf
      exact ⟨(Guarded.formed_halves hs hp f hf).2, fun hq => Guarded.total_halves hs hp (htotal hq) f hf⟩
    · rw [hv] at hf
      exact Guarded.tame_halves hs hp (htame t (ht.mono hg)) ht f hf
    · rintro fs τ - ⟨w', hτ, hfs, hr, hsteady⟩
      exact ⟨w', hτ, hfs, hr, fun f hf => hS f (hsteady f hf)⟩
  · have hs (a l : Expr) (he : e = .cmp .eq a l) : Guarded.isSplit a l = false :=
      Bool.eq_false_of_not_eq_true fun h => hs ⟨a, l, he, h⟩
    rw [Guarded.pieces_eq hs] at hv
    rw [Guarded.constraint_eq hs, ← hv]
    refine .pure ?_
    rw [hv, List.forall_mem_singleton]
    exact (h e he).1

/-- Splitting the reifications of tame expressions keeps the solutions. -/
theorem splitReifications_rewrites {q : Prop} {w : World} (h : ∀ e ∈ w.constraints, e.Steady q ∧
    ∀ a l, e = .cmp .eq a l → Guarded.isSplit a l → ∀ t : Assignment, t.Within w.store → e.Tame t) :
    (splitReifications w.constraints).Rewrites True (fun _ => Steady q) w := by
  have htame (e : Expr) (he : e ∈ w.constraints) (a l : Expr) (heq : e = .cmp .eq a l) (hs : Guarded.isSplit a l)
      (t : Assignment) (ht : t.Within w.store) : a.Tame t ∧ a.Invertible t := by
    have htame := (h e he).2 a l heq hs t ht
    subst heq
    exact ⟨htame.arg (by simp [Expr.args]), htame.here.1.1 (Guarded.isSplit_iff hs).1⟩
  let w' : World := ⟨w.store, w.constraints.flatMap Guarded.pieces, List.forall_mem_flatMap.2 fun e he =>
    Guarded.proper_pieces (w.proper e he)⟩
  have hr : w.Refines True w' := World.refines_of_admits rfl fun t => by
    have hiff (ht : t.Within w.store) : (∀ f ∈ w'.constraints, f.Holds t) ↔ ∀ e ∈ w.constraints, e.Holds t := by
      rw [List.forall_mem_flatMap]
      refine forall₂_congr fun e he => ?_
      rw [Guarded.holds_pieces (w.proper e he) ht fun a l heq hs => (htame e he a l heq hs t ht).1]
      exact and_iff_left fun a l heq hs => (htame e he a l heq hs t ht).2
    exact ⟨fun ht => ⟨ht.within, (hiff ht.within).1 ht.holds⟩, fun ht => ⟨ht.within, (hiff ht.within).2 ht.holds⟩⟩
  refine fun hhab => (splitReifications_pieces (q := q) (w := w') (fun _ h => h) rfl (fun e he =>
    ⟨(h e he).1, fun a l heq hs => ?_⟩) hhab).imp ?_
  · subst heq
    exact ⟨w.proper _ he, fun hq => ((h _ he).1.total hq).arg (by simp [Expr.args]),
      fun t ht => (htame _ he a l rfl hs t ht).1⟩
  · rintro fs τ - ⟨v, hτ, hfs, hr', hP⟩
    exact ⟨v, hτ, hfs, hr.trans hr', hP⟩

end ConstraintModel
