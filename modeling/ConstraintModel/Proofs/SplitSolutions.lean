import ConstraintModel.Proofs.ComparedFunctions
import ConstraintModel.Proofs.LinearConfined
import ConstraintModel.Proofs.SplitMeaning

namespace ConstraintModel

variable {σ τ υ : Store} {cs flat out : List Expr} {s : Assignment}

/-- Flat constraints are over variables of the store that flattening ends with,
whether or not the constraints that were flattened can hold. -/
theorem flatten_proper (hσ : σ.Valid) (hne : σ.Habitable) (h : ∀ c ∈ cs, c.isBool ∧ c.Proper σ.Owns)
    (hrun : flatten cs σ = .ok flat τ) : ∀ f ∈ flat, (f.IsFlat ∨ f = .bool true) ∧ f.Proper τ.Owns := by
  obtain ⟨-, hflat⟩ := (flatten_yields_isFlat (fun c hc =>
    ⟨(h c hc).1, (h c hc).2.imp fun _ _ => trivial⟩) σ).ok hrun
  let B : Start := ⟨σ, fun x => x ∈ cs.flatMap Expr.occurrences, True, fun _ x hx => by
    obtain ⟨c, hc, hx⟩ := List.mem_flatMap.1 hx
    obtain ⟨s, hs⟩ := hne
    exact hs.lower_le_upper ((h c hc).2.scope x hx).1⟩
  have hstays : (flatten cs).Stays B σ B.Keeps :=
    flatten_keeps fun c hc x hx _ => .inl (List.mem_flatMap.2 ⟨c, hc, hx⟩)
  replace hstays := hstays (.refl σ)
  rw [hrun] at hstays
  obtain ⟨hext, hkeeps⟩ := hstays
  refine fun f hf => ⟨(hflat f hf).1, (hflat f hf).2.typed, fun x hx => ?_⟩
  have hhas : τ.Has x := by
    rcases hkeeps f hf x hx trivial with hx | ⟨-, hx⟩
    · obtain ⟨c, hc, hx⟩ := List.mem_flatMap.1 hx
      exact ((h c hc).2.scope x hx).1.mono hext.grows
    · exact hx
  exact ⟨hhas, hhas.boolean (hext.valid hσ)⟩

namespace Model

variable {m : Model}

/-- Splitting the reifications among flat constraints never adds a solution.
It keeps exactly those under which the negation of every reified expression is
its opposite, and determines the new variables. -/
theorem splitReifications_solutions (hm : m.store.Valid)
    (h : ∀ c ∈ m.constraints, c.FormedIn m.store)
    (hflat : flatten m.constraints m.store = .ok flat τ) (hrun : splitReifications flat τ = .ok out υ)
    (hs : s.Within τ) :
    ((∃ t, Extends ⟨τ, flat⟩ out υ s t) ↔ (∀ f ∈ flat, f.Holds s) ∧
      ∀ a l, .cmp .eq a l ∈ flat → Guarded.isSplit a l → a.Invertible s) ∧
    ∀ t t', Extends ⟨τ, flat⟩ out υ s t → Extends ⟨τ, flat⟩ out υ s t' → t.Agrees υ.size t' := by
  have hformed := formed hm h
  have hgrows : m.store.Grows τ := (flatten_yields_isFlat (fun c hc =>
    ⟨(hformed c hc).1, (hformed c hc).2.1.imp fun _ _ => trivial⟩) m.store).ok hflat |>.1
  have hflat := flatten_proper hm ⟨s, hs.mono hgrows⟩ (fun c hc => ⟨(hformed c hc).1, (hformed c hc).2.1⟩) hflat
  have htame {t : Assignment} (ht : t.Within τ) (f : Expr) (hf : f ∈ flat) (a l : Expr) (heq : f = .cmp .eq a l)
      (hsplit : Guarded.isSplit a l) : a.Tame t := by
    subst heq
    obtain ⟨hshape, hp⟩ := hflat _ hf
    obtain ⟨hba, -⟩ := Guarded.isSplit_iff hsplit
    have htruth : a.IsFlatTruth := Supported.isFlatTruth_of_isFlat (hshape.resolve_right (by simp)) hba
    refine htruth.tame ?_ (Expr.proper_cmp.1 hp).1 ht
    rintro c rfl
    cases hsplit
  let w : World := ⟨τ, flat.flatMap Guarded.pieces, List.forall_mem_flatMap.2 fun f hf =>
    Guarded.proper_pieces (hflat f hf).2⟩
  have hrewrites : (splitReifications flat).Rewrites True (fun _ _ => True) w :=
    splitReifications_pieces (q := False) (fun _ _ => trivial) rfl fun f hf =>
      ⟨trivial, fun a l heq hsplit => ⟨heq ▸ (hflat f hf).2, False.elim, fun t ht => htame ht f hf a l heq hsplit⟩⟩
  obtain ⟨-, w', rfl, rfl, hr, -⟩ := (hrewrites ⟨s, hs⟩).ok hrun
  have hextends {t : Assignment} : Extends ⟨τ, flat⟩ w'.constraints w'.store s t ↔ w'.Admits t ∧ s.Agrees τ.size t :=
    extends_iff
  refine ⟨?_, fun t t' ht ht' => ?_⟩
  · simp only [hextends]
    rw [← hr.holds_iff_extends hs, List.forall_mem_flatMap]
    constructor
    · intro hall
      have hboth (f : Expr) (hf : f ∈ flat) := (Guarded.holds_pieces (hflat f hf).2 hs (htame hs f hf)).1 (hall f hf)
      exact ⟨fun f hf => (hboth f hf).1, fun a l hf => (hboth _ hf).2 a l rfl⟩
    · rintro ⟨hholds, hinv⟩ f hf
      exact (Guarded.holds_pieces (hflat f hf).2 hs (htame hs f hf)).2
        ⟨hholds f hf, fun a l heq hsplit => hinv a l (heq ▸ hf) hsplit⟩
  · obtain ⟨ht, hst⟩ := hextends.1 ht
    obtain ⟨ht', hst'⟩ := hextends.1 ht'
    exact hr.unique trivial t t' ht ht' (hst.symm.trans hst')

def markedEntry : Model := ⟨pointing, [.cmp .eq (.cmp .eq entry (.int 1)) (.var mark)]⟩

theorem splitReifications_markedEntry : ∃ flat τ out υ,
    flatten markedEntry.constraints markedEntry.store = .ok flat τ ∧ splitReifications flat τ = .ok out υ ∧
      out.length = 2 ∧ (∃ t, Extends ⟨τ, flat⟩ out υ (pointed 0 true) t) ∧
      (∀ f ∈ flat, f.Holds (pointed 2 false)) ∧ ¬∃ t, Extends ⟨τ, flat⟩ out υ (pointed 2 false) t := by
  have hformed : ∀ c ∈ markedEntry.constraints, c.FormedIn markedEntry.store := by
    rw [markedEntry, List.forall_mem_singleton]
    refine formed_pointing rfl ?_ ?_
    · have hbuilt := built_entry
      simp_all [entry, Function.args, Expr.Built, Expr.OperandsBoolean]
    · simp [entry, Expr.occurrences_eq, Expr.occurrences_var, Expr.args, Function.args]
  obtain ⟨flat, τ, hflat, rfl, rfl⟩ : ∃ flat τ, flatten markedEntry.constraints markedEntry.store = .ok flat τ ∧
      flat = markedEntry.constraints ∧ τ = markedEntry.store := ⟨_, _, by cbv, rfl, rfl⟩
  obtain ⟨out, υ, hrun, hlength⟩ : ∃ out υ,
      splitReifications markedEntry.constraints markedEntry.store = .ok out υ ∧ out.length = 2 := ⟨_, _, by cbv, rfl⟩
  have hposted := List.mem_singleton_self (Expr.cmp .eq (.cmp .eq entry (.int 1)) (.var mark))
  have hproper := Expr.proper_cmp.1 (formed valid_pointing hformed _ hposted).2.1
  have hpast := within_pointing (n := 2) (by decide) false
  have hone : (Expr.cmp .eq entry (.int 1)).exact (pointed 0 true) = some 1 := by
    rw [Expr.exact_cmp, exact_entry, Expr.exact_int]
    rfl
  have hnone : (Expr.cmp .eq entry (.int 1)).exact (pointed 2 false) = some 0 := by
    rw [Expr.exact_cmp_within hproper.1 hpast, exact_entry, Expr.exact_int]
    rfl
  have hinvertible : (Expr.cmp .eq entry (.int 1)).Invertible (pointed 0 true) := by
    rw [Expr.Invertible, Expr.Fails, hone, Expr.negated_cmp, Expr.holds_cmp, exact_entry, Expr.exact_int]
    simp [Exact.truth, entryAt?, Relation.negated, Relation.holds]
  have hstuck : ¬(Expr.cmp .eq entry (.int 1)).Invertible (pointed 2 false) := by
    rw [Expr.Invertible, Expr.Fails, hnone, Expr.negated_cmp, Expr.holds_cmp, exact_entry]
    simp [Exact.truth, entryAt?]
  have hholds (n : Int) (b : Bool) (h : (Expr.cmp .eq entry (.int 1)).exact (pointed n b) = some b.toInt) :
      ∀ f ∈ markedEntry.constraints, f.Holds (pointed n b) := by
    rw [markedEntry, List.forall_mem_singleton, Expr.holds_cmp]
    exact ⟨_, _, h, exact_mark n b, beq_self_eq_true _⟩
  have solutions {n : Int} (hn : n ∈ pointer.bounds) (b : Bool) :=
    (splitReifications_solutions valid_pointing hformed hflat hrun (within_pointing hn b)).1
  refine ⟨_, _, out, υ, hflat, hrun, hlength, (solutions (by decide) true).2 ⟨hholds 0 true hone, ?_⟩,
    hholds 2 false hnone, fun h => ?_⟩
  · intro a l hmem _
    obtain ⟨-, rfl, rfl⟩ := Expr.cmp.inj (List.mem_singleton.1 hmem)
    exact hinvertible
  · exact hstuck (((solutions (by decide) false).1 h).2 _ _ hposted rfl)

end Model

end ConstraintModel
