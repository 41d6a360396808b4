import ConstraintModel.Proofs.ComparedFunctions
import ConstraintModel.Proofs.LiftedMeaning

namespace ConstraintModel

def Condition.direct (caps : Capabilities) : Condition :=
  ⟨fun s e => e.Direct caps s, fun hp h => h.congr hp, fun h _ ha => h.arg ha⟩

/-- A conjunction is direct if its parts are. -/
theorem Expr.direct_of_conjuncts {caps : Capabilities} {σ : Store} {e : Expr} {t : Assignment} (hb : e.isBool)
    (hp : e.Proper σ.Owns) (ht : t.Within σ) (h : ∀ c ∈ e.conjuncts, c.Direct caps t) : e.Direct caps t := by
  induction e using induction_args with
  | h e ih =>
    by_cases htrue : e = bool true
    · subst htrue
      exact (tame_of_isSimple rfl).direct
    · by_cases hand : ∃ as, e = and as
      · obtain ⟨as, rfl⟩ := hand
        rw [conjuncts_and, List.forall_mem_flatMap] at h
        refine direct_of_args fun a ha => ?_
        have hba := (proper_and.1 hp).1 a ha
        have hdirect := ih a ha hba (hp.arg ha) (h a ha)
        exact ⟨hdirect.here.boolean_valued (hp.arg ha) hba ht, hdirect⟩
      · rw [conjuncts_eq htrue fun as he => hand ⟨as, he⟩, List.forall_mem_singleton] at h
        exact h

structure RendersExactly (P Q : Condition) (σ : Store) (es fs : List Expr) (τ : Store) : Prop extends
    Renders P Q σ es fs τ where
  forces : ∀ t, t.Within τ → (∀ f ∈ fs, Q.holds t f → f.Holds t) → ∀ e ∈ es, P.holds t e

namespace RendersExactly

variable {P Q R : Condition} {σ τ υ : Store} {es fs gs N : List Expr}

theorem comp (h : RendersExactly P Q σ es fs τ) (h' : Renders Q R τ fs gs υ) (hes : ∀ e ∈ es, e.Proper σ.Owns) :
    RendersExactly P R σ es gs υ :=
  ⟨h.toRenders.comp h' hes, fun t ht hall => h.forces t (ht.mono h'.grows) (h'.sound t ht hall)⟩

theorem trans (h : RendersExactly P Q σ es (fs ++ N) τ) (h' : Renders Q Q τ N gs υ) (hes : ∀ e ∈ es, e.Proper σ.Owns) :
    RendersExactly P Q σ es (fs ++ gs) υ :=
  have hproper := List.forall_mem_append.1 h.proper
  h.comp ((Renders.refl hproper.1).append h' hproper.2) hes

theorem of_split {caps : Capabilities} (h : RendersExactly (.direct caps) Q σ (topLevel es) fs τ)
    (hes : ∀ e ∈ es, e.isBool ∧ e.Proper σ.Owns) : RendersExactly (.direct caps) Q σ es fs τ := by
  refine ⟨.of_split h.toRenders, fun t ht hall e he => ?_⟩
  refine Expr.direct_of_conjuncts (hes e he).1 (hes e he).2 (ht.mono h.grows) fun c hc => ?_
  exact h.forces t ht hall c (List.mem_flatMap.2 ⟨e, he, hc⟩)

end RendersExactly

namespace Lifted

open World (settled)

variable {caps : Capabilities} {σ : Store} {es cs : List Expr} (hcaps : "element" ∉ caps.supported)

/-- What is kept of constraints that have been examined, where their definitions
are in the world. -/
theorem kept_iff {w : World} {parts : List (List Expr)}
    (h : List.Forall₂ (fun e fs => ∃ e', Cleared caps w e e' ∧ fs = e'.conjuncts) es parts) {t : Assignment}
    (ht : w.Admits t) : (∀ f ∈ parts.flatten, f.Holds t) ↔ ∀ e ∈ es, e.Holds t := by
  simp only [List.mem_flatten, forall_exists_index, and_imp]
  constructor
  · intro hall e he
    obtain ⟨_, hfs, e', hee, rfl⟩ := forall₂_mem_left h he
    exact (hee.stands.holds_iff ht).1 (e'.holds_conjuncts.1 fun f hf => hall f _ hfs hf)
  · intro hall f fs hfs hf
    obtain ⟨e, he, e', hee, rfl⟩ := forall₂_mem_right h hfs
    exact e'.holds_conjuncts.2 ((hee.stands.holds_iff ht).2 (hall e he)) f hf

/-- What is kept and the definitions are never undefined. -/
theorem kept_tame {w : World} {parts : List (List Expr)} (hes : ∀ e ∈ es, e.isBool)
    (h : List.Forall₂ (fun e fs => ∃ e', Cleared caps w e e' ∧ fs = e'.conjuncts) es parts) :
    ∀ f ∈ parts.flatten, f.isBool ∧ f.Proper w.store.Owns ∧ ∀ t, t.Within w.store → f.Tame t := by
  simp only [List.mem_flatten, forall_exists_index, and_imp]
  intro f fs hfs hf
  obtain ⟨e, he, e', hee, rfl⟩ := forall₂_mem_right h hfs
  refine e'.forall_conjuncts (p := fun f => f.isBool ∧ f.Proper w.store.Owns ∧ ∀ t, t.Within w.store → f.Tame t)
    (fun as h a ha => ⟨(Expr.proper_and.1 h.2.1).1 a ha, h.2.1.arg ha, fun t ht => (h.2.2 t ht).arg ha⟩) ?_ f hf
  exact ⟨hee.isBool.trans (hes e he), hee.sound.proper, fun t ht => hee.sound.tame (World.admits_bare.2 ht)⟩

include hcaps

/-- The first round leaves nothing that can be undefined. -/
theorem round_renders (hes : ∀ e ∈ es, e.isBool ∧ e.Proper σ.Owns ∧ e.Steady False) (hσ : σ.Habitable) :
    (Defining.collect (es.mapM fun e => return (← Supported.expr caps (Supported.depth e) .top e).conjuncts)).Sat
      False σ
      fun p τ => RendersExactly (.direct caps) .tame σ es (p.1.flatten ++ p.2) τ ∧ τ.Habitable ∧
        ∀ f ∈ p.1.flatten ++ p.2, f.isBool ∧ f.Proper τ.Owns ∧ ∀ t, t.Within τ → f.Tame t := by
  let G (s : Assignment) : Prop := ∀ e ∈ es, e.Direct caps s
  have hproper : ∀ e ∈ es, e.Proper σ.Owns := fun e he => (hes e he).2.1
  have hG : Local (World.bare σ).store G := fun s t hst h =>
    Condition.forall_agrees (P := .direct caps) hproper h hst
  have hstable : (Defining.refining (.refinesOn G) settled).Stable
      fun w e fs => ∃ e', Cleared caps w e e' ∧ fs = e'.conjuncts :=
    fun _ _ _ _ hr ⟨e', h, hfs⟩ => ⟨e', h.mono hr.le, hfs⟩
  have hruns := (Defining.refining (.refinesOn G) settled).mapM (i := World.bare σ) hstable
    (f := fun e => return (← Supported.expr caps (Supported.depth e) .top e).conjuncts) fun e he w hr => by
      have hready : Ready caps G w e := ⟨(hproper e he).imp fun _ hx => hx.mono hr.grows, (hes e he).2.2,
        fun _ _ hG => hG e he⟩
      have hvalued (t : Assignment) (ht : w.Admits t) (hGt : G t) : e.Valued t :=
        (hGt e he).here.boolean_valued hready.proper (hes e he).1 ht.within
      exact ((meanings hcaps G _).expr .top w e hready hvalued).bind fun e' w' _ h => .pure ⟨e', h, rfl⟩
  refine (Defining.Refining.collect hruns ⟨hσ, hG⟩).imp ?_
  rintro ⟨parts, N⟩ τ - ⟨w, rfl, hN, hr, hsettled, hparts⟩
  replace hN : w.constraints = N := hN
  have htame : ∀ f ∈ parts.flatten ++ N, f.isBool ∧ f.Proper w.store.Owns ∧ ∀ t, t.Within w.store → f.Tame t :=
    List.forall_mem_append.2 ⟨kept_tame (fun e he => (hes e he).1) hparts, fun d hd => ⟨(hsettled d hd).1,
      (hsettled d hd).2.proper, fun t ht => (hsettled d hd).2.tame (World.admits_bare.2 ht)⟩⟩
  have hsolution {t : Assignment} (ht : t.Within w.store) (hall : ∀ f ∈ parts.flatten ++ N, f.Tame t → f.Holds t) :
      w.Admits t ∧ ∀ e ∈ es, e.Holds t := by
    obtain ⟨hkept, hdefs⟩ := List.forall_mem_append.1 fun f hf => hall f hf ((htame f hf).2.2 t ht)
    have hw : w.Admits t := ⟨ht, hN ▸ hdefs⟩
    exact ⟨hw, (kept_iff hparts hw).1 hkept⟩
  refine ⟨⟨⟨hr.grows, fun f hf => (htame f hf).2.1, fun s hs hdirect => ?_, fun t ht hall e he _ =>
    (hsolution ht hall).2 e he, fun t ht _ _ f hf => (htame f hf).2.2 t ht, fun t t' ht ht' _ hall hall' hagree => ?_⟩,
    fun t ht hall e he => ?_⟩, hr.habitable hσ, htame⟩
  · obtain ⟨t, ht, -, hst⟩ := hr.complete s (World.admits_bare.2 hs) hdirect
    refine ⟨t, ht.within, hst, fun f hf => (htame f hf).2.2 t ht.within, fun hholds => List.forall_mem_append.2
      ⟨(kept_iff hparts ht).2 (Renders.holds_agrees hproper hholds hst), hN ▸ ht.holds⟩⟩
  · exact hr.unique t t' (hsolution ht fun f hf _ => hall f hf).1 (hsolution ht' fun f hf _ => hall' f hf).1 hagree
  · obtain ⟨_, -, e', hee, -⟩ := forall₂_mem_left hparts he
    exact hee.direct t (hsolution ht hall).1

/-- The definitions that the first round leaves are rendered in the next ones. -/
theorem decomposeTree_renders_exactly (hcs : ∀ c ∈ cs, c.isBool ∧ c.Proper σ.Owns ∧ c.Steady False) (hσ : σ.Habitable) :
    (decomposeTree caps cs).Sat False σ fun fs τ => RendersExactly (.direct caps) .tame σ cs fs τ ∧
      (∀ f ∈ fs, f.isBool) ∧ ∃ t, t.Within τ ∧ ∀ f ∈ fs, f.Tame t := by
  unfold decomposeTree Supported.rounds
  cases cs with
  | nil => exact .pure ⟨⟨.nil, by simp⟩, by simp, hσ.imp fun s hs => ⟨hs, by simp⟩⟩
  | cons c cs =>
    have hsplit := Expr.forall_topLevel_steady hcs
    rw [Supported.examine]
    · refine (round_renders hcaps hsplit hσ).bind fun p τ _ hp => ?_
      obtain ⟨parts, N⟩ := p
      obtain ⟨hround, ⟨s, hs⟩, htame⟩ := hp
      obtain ⟨hparts, hN⟩ := List.forall_mem_append.1 htame
      refine (Supported.examine_renders (fun d hd => ⟨(hN d hd).1, (hN d hd).2.1⟩)
        ⟨s, hs, fun d hd => (hN d hd).2.2 s hs⟩).bind fun fs υ _ hrest => ?_
      obtain ⟨hfs, hbfs⟩ := hrest
      refine .pure ⟨?_, ?_, ?_⟩
      · exact .of_split (hround.trans hfs fun e he => (hsplit e he).2.1) fun e he => ⟨(hcs e he).1, (hcs e he).2.1⟩
      · exact List.forall_mem_append.2 ⟨fun f hf => (hparts f hf).1, hbfs⟩
      · obtain ⟨t, ht, hst, hfstame, -⟩ := hfs.extend s hs fun d hd => (hN d hd).2.2 s hs
        exact ⟨t, ht, List.forall_mem_append.2 ⟨Condition.forall_agrees (P := .tame) (fun f hf => (hparts f hf).2.1)
          (fun f hf => (hparts f hf).2.2 s hs) hst, hfstame⟩⟩
    · simp

end Lifted

namespace Model

variable {m : Model} {caps : Capabilities} {strategy : Strategy} {σ τ : Store} {out : List Expr} {s t : Assignment}

/-- If the backend takes no entries of arrays, decomposing first renders the
posted constraints, and every function that is not decomposed together with a
comparison is required to have a value. -/
theorem toPrimitive_renders_exactly (hcaps : "element" ∉ caps.supported)
    (h : ∀ c ∈ m.constraints, c.isBool ∧ c.Proper σ.Owns ∧ c.Steady False) (hσ : σ.Habitable) :
    (m.toPrimitive caps .tree).Sat False σ fun out τ => RendersExactly (.direct caps) .any σ m.constraints out τ := by
  have hsplit := Expr.forall_topLevel_steady h
  unfold toPrimitive
  refine (Lifted.decomposeTree_renders_exactly hcaps hsplit hσ).bind fun fs τ _ ⟨hfs, hb, t, ht, htame⟩ => ?_
  have hflat := flatten_decomposeFlat_renders caps (fun f hf =>
    ⟨hb f hf, hfs.proper f hf, (htame f hf).steady False.elim⟩) ⟨t, ht, fun f hf => (htame f hf).asserted⟩
  refine hflat.imp fun out υ _ ⟨hout, _⟩ => ?_
  exact .of_split (hfs.comp (hout.strengthen fun _ _ _ => Expr.Tame.asserted) fun c hc => (hsplit c hc).2.1)
    fun c hc => ⟨(h c hc).1, (h c hc).2.1⟩

/-- An assignment can be extended to the new variables exactly if the posted
constraints hold and meet the condition. There is only one way to do so. -/
theorem extends_of_renders_exactly {P Q : Condition} (h : RendersExactly P Q m.store m.constraints out τ)
    (hp : ∀ c ∈ m.constraints, c.Proper m.store.Owns) (hs : s.Within m.store) :
    ((∃ t, m.Extends out τ s t) ↔ ∀ c ∈ m.constraints, c.Holds s ∧ P.holds s c) ∧
      ∀ t t', m.Extends out τ s t → m.Extends out τ s t' → t.Agrees τ.size t' := by
  have met {t : Assignment} (ht : m.Extends out τ s t) : ∀ c ∈ m.constraints, P.holds s c :=
    Condition.forall_agrees hp (h.forces t ht.within fun f hf _ => ht.holds f hf) ht.agrees.symm
  have solutions (hP : ∀ c ∈ m.constraints, P.holds s c) := extends_of_renders h.toRenders hp hs hP
  refine ⟨⟨fun ⟨t, ht⟩ c hc => ⟨(solutions (met ht)).1.2 ⟨t, ht⟩ c hc, met ht c hc⟩, fun hall => ?_⟩,
    fun t t' ht => (solutions (met ht)).2 t t' ht⟩
  exact (solutions fun c hc => (hall c hc).2).1.1 fun c hc => (hall c hc).1

/-- For a backend that takes no entries of arrays, decomposing before flattening
keeps exactly the solutions in which every function has a value that is not
decomposed together with a comparison. The new variables are determined by the
others. -/
theorem toPrimitive_direct_solutions (hcaps : "element" ∉ caps.supported) (hm : m.store.Valid)
    (h : ∀ c ∈ m.constraints, c.FormedIn m.store)
    (hrun : m.toPrimitive caps .tree m.store = .ok out τ) (hs : s.Within m.store) :
    ((∃ t, m.Extends out τ s t) ↔ ∀ c ∈ m.constraints, c.Holds s ∧ c.Direct caps s) ∧
      ∀ t t', m.Extends out τ s t → m.Extends out τ s t' → t.Agrees τ.size t' :=
  have hexactly := (toPrimitive_renders_exactly hcaps (formed hm h) ⟨s, hs⟩).ok hrun
  extends_of_renders_exactly hexactly.2 (fun c hc => (formed hm h c hc).2.1) hs

def shiftedOrMarked : Model := ⟨pointing, [.or [.cmp .eq (.sum [entry, .int 1]) (.int 3), .var mark]]⟩

theorem toPrimitive_shiftedOrMarked : ∃ out τ,
    shiftedOrMarked.toPrimitive .none .tree shiftedOrMarked.store = .ok out τ ∧
      (∃ t, shiftedOrMarked.Extends out τ (pointed 1 false) t) ∧
      (∀ c ∈ shiftedOrMarked.constraints, c.Holds (pointed 2 true)) ∧
      ¬∃ t, shiftedOrMarked.Extends out τ (pointed 2 true) t := by
  have hformed : ∀ c ∈ shiftedOrMarked.constraints, c.FormedIn shiftedOrMarked.store := by
    rw [shiftedOrMarked, List.forall_mem_singleton]
    refine formed_pointing rfl ?_ ?_
    · have hbuilt := built_entry
      simp_all [entry, Function.args, Expr.Built, Expr.OperandsBoolean, Expr.isBool, mark, Variable.isBool]
    · simp [entry, Expr.occurrences_eq, Expr.occurrences_var, Expr.args, Function.args]
  obtain ⟨out, τ, hrun⟩ : ∃ out τ, shiftedOrMarked.toPrimitive .none .tree shiftedOrMarked.store = .ok out τ :=
    ⟨_, _, by cbv⟩
  have solutions {n : Int} (hn : n ∈ pointer.bounds) (b : Bool) :=
    (toPrimitive_direct_solutions (show "element" ∉ Capabilities.none.supported by decide) valid_pointing hformed hrun
      (within_pointing hn b)).1
  refine ⟨out, τ, hrun, (solutions (by decide) false).2 ?_, ?_, fun h => ?_⟩
  · have hentry : entry.exact (pointed 1 false) = some 2 := exact_entry 1 false
    have hsum : (Expr.sum [entry, .int 1]).exact (pointed 1 false) = some 3 := by
      simp [Expr.exact_sum, hentry, Exact.sum]
    have hcmp : (Expr.cmp .eq (.sum [entry, .int 1]) (.int 3)).exact (pointed 1 false) = some 1 := by
      rw [Expr.exact_cmp, hsum, Expr.exact_int]
      rfl
    have hint (n : Int) : (Expr.int n).Valued (pointed 1 false) := Expr.valued_of_eq (Expr.exact_int ..)
    have hpointer : (Expr.var pointer).Valued (pointed 1 false) := Expr.valued_of_eq (by rw [Expr.exact_var]; rfl)
    rw [shiftedOrMarked, List.forall_mem_singleton, Expr.holds_or]
    refine ⟨⟨_, List.mem_cons_self .., by rw [Expr.Holds, hcmp]; rfl⟩, ?_⟩
    simpa [entry, Function.args, Expr.Direct, Expr.GivenHere, Expr.args, hint] using
      ⟨⟨Expr.valued_of_eq hcmp, Expr.valued_of_eq (exact_mark 1 false)⟩, Expr.valued_of_eq hsum,
        Expr.valued_of_eq hentry, hpointer⟩
  · rw [shiftedOrMarked, List.forall_mem_singleton, Expr.holds_or]
    exact ⟨.var mark, by simp, (holds_mark 2 true).2 rfl⟩
  · have hdirect := ((solutions (by decide) true).1 h _ (List.mem_singleton_self _)).2
    have hsum : (Expr.sum [entry, .int 1]).Direct .none (pointed 2 true) :=
      (hdirect.arg (a := .cmp .eq (.sum [entry, .int 1]) (.int 3)) (by simp [Expr.args])).arg (by simp [Expr.args])
    have hvalued : entry.Valued (pointed 2 true) := hsum.here entry (by simp [Expr.args])
    rw [Expr.Valued, exact_entry] at hvalued
    exact absurd hvalued (by decide)

/-- Solutions of the primitive form are solutions of the posted constraints, if
the strategy decomposes first and the backend takes no entries of arrays, or else
if the constraints are what the strategy relies on. -/
theorem toPrimitive_sound (hm : m.store.Valid) (h : ∀ c ∈ m.constraints, c.FormedIn m.store)
    (hrun : m.toPrimitive caps strategy m.store = .ok out τ) (ht : t.Within τ) (hout : ∀ f ∈ out, f.Holds t)
    (hcond : strategy = .tree ∧ "element" ∉ caps.supported ∨ ∀ c ∈ m.constraints, strategy.condition.holds t c) :
    ∀ c ∈ m.constraints, c.Holds t := by
  have hformed := formed hm h
  have hyields : (m.toPrimitive caps strategy).Yields True _ := toPrimitive_yields (t := True) fun c hc =>
    ⟨(hformed c hc).1, (hformed c hc).2.1.imp fun _ _ => trivial, .inl trivial⟩
  have hs : t.Within m.store := ht.mono ((hyields m.store).ok hrun).1
  rcases hcond with ⟨rfl, hcaps⟩ | hcond
  · obtain ⟨-, hexactly⟩ := (toPrimitive_renders_exactly hcaps hformed ⟨t, hs⟩).ok hrun
    have hall : ∀ f ∈ out, Condition.any.holds t f → f.Holds t := fun f hf _ => hout f hf
    exact fun c hc => hexactly.sound t ht hall c hc (hexactly.forces t ht hall c hc)
  · obtain ⟨-, hrenders, -⟩ := (toPrimitive_renders caps strategy hformed ⟨t, hs, hcond⟩).ok hrun
    exact fun c hc => hrenders.sound t ht (fun f hf _ => hout f hf) c hc (hcond c hc)

def notFirst : Model := ⟨pointing, [.not (.cmp .eq entry (.int 1))]⟩

theorem toPrimitive_notFirst : ∃ out τ t, notFirst.toPrimitive .none .tree notFirst.store = .ok out τ ∧
    t.Within τ ∧ (∀ f ∈ out, f.Holds t) ∧ ∀ c ∈ notFirst.constraints, c.Holds t := by
  have hformed : ∀ c ∈ notFirst.constraints, c.FormedIn notFirst.store := by
    rw [notFirst, List.forall_mem_singleton]
    refine formed_pointing rfl ?_ ?_
    · have hbuilt := built_entry
      simp_all [entry, Function.args, Expr.Built, Expr.OperandsBoolean, Expr.isBool]
    · simp [entry, Expr.occurrences_eq, Expr.occurrences_var, Expr.args, Function.args]
  let t : Assignment := ⟨fun i => some (if i = 0 then 2 else if i = 2 then 1 else 0)⟩
  obtain ⟨out, τ, hrun, hwithin, hout⟩ : ∃ out τ, notFirst.toPrimitive .none .tree notFirst.store = .ok out τ ∧
      t.Within τ ∧ ∀ f ∈ out, f.Holds t := by
    refine ⟨_, _, by cbv, ?_, ?_⟩
    · rintro (_ | _ | _ | _ | _ | i) d h <;> simp at h <;> subst h
      · exact ⟨2, by decide, rfl⟩
      · exact ⟨0, by decide, rfl⟩
      · exact ⟨1, by decide, rfl⟩
      · exact ⟨0, by decide, rfl⟩
      · exact ⟨0, by decide, rfl⟩
    · simp only [List.forall_mem_cons, List.not_mem_nil, false_imp_iff, implies_true, and_true]
      refine ⟨?_, ?_, ?_, ?_⟩ <;> (rw [Expr.Holds]; cbv)
  exact ⟨out, τ, t, hrun, hwithin, hout,
    toPrimitive_sound valid_pointing hformed hrun hwithin hout (.inl ⟨rfl, by decide⟩)⟩

end Model

end ConstraintModel
