import ConstraintModel.Proofs.Sound

namespace ConstraintModel

namespace World

variable {σ τ : Store} {e : Expr} {s t : Assignment}

def pin (σ : Store) (e : Expr) (he : e.Proper σ.Owns) (s : Assignment) : World :=
  ⟨σ, e.occurrences.map fun x => .cmp .eq (.var x) (.int ((Expr.var x).num s)), by
    rw [List.forall_mem_map]
    exact fun x hx => Expr.proper_cmp.2 ⟨Expr.proper_var.2 (he.scope x hx), Expr.proper_int⟩⟩

theorem admits_pin (he : e.Proper σ.Owns) (hs : s.Within σ) :
    (pin σ e he s).Admits t ↔ t.Within σ ∧ ∀ x ∈ e.occurrences, t.value? x = s.value? x := by
  have holds (x : Variable) (hx : x ∈ e.occurrences) (ht : t.Within σ) :
      (Expr.cmp .eq (.var x) (.int ((Expr.var x).num s))).Holds t ↔ t.value? x = s.value? x := by
    have hp := Expr.proper_var.2 (he.scope x hx)
    have hvs := (Expr.valued_of_isSimple rfl hp hs).exact_eq
    have hvt := Expr.valued_of_isSimple rfl hp ht
    rw [Expr.holds_cmp_num hvt (Expr.valued_of_eq (Expr.exact_int ..)), Expr.num_eq (Expr.exact_int ..),
      ← Expr.exact_var, ← Expr.exact_var, hvs, hvt.exact_eq, Option.some_inj, Relation.holds, beq_iff_eq]
  constructor
  · exact fun h => ⟨h.within, fun x hx => (holds x hx h.within).1 (h.holds _ (List.mem_map_of_mem hx))⟩
  · exact fun h => ⟨h.1, List.forall_mem_map.2 fun x hx => (holds x hx h.1).2 (h.2 x hx)⟩

theorem admits_pin_agrees (he : e.Proper σ.Owns) (hs : s.Within σ) (ht : t.Within σ) (hst : s.Agrees σ.size t) :
    (pin σ e he s).Admits t :=
  (admits_pin he hs).2 ⟨ht, fun x hx => (hst _ (he.scope x hx).1.index_lt).symm⟩

theorem admits_pin_self (he : e.Proper σ.Owns) (hs : s.Within σ) : (pin σ e he s).Admits s :=
  admits_pin_agrees he hs hs (.refl _ _)

/-- The constraints are tame in solutions. This may depend on other constraints,
as long as some of them can be trusted in turn. -/
structure Grounded (w : World) : Prop where
  inhabited : w.store.Habitable → ∃ s, s.Within w.store ∧ ∀ e ∈ w.constraints, e.Tame s
  tame : ∀ t, t.Within w.store → (∀ e ∈ w.constraints, e.Tame t → e.Holds t) → ∀ e ∈ w.constraints, e.Tame t

theorem grounded_of_tame {w : World} (h : ∀ t, t.Within w.store → ∀ e ∈ w.constraints, e.Tame t) : w.Grounded :=
  ⟨fun ⟨s, hs⟩ => ⟨s, hs, h s hs⟩, fun t ht _ => h t ht⟩

end World

/-- Something that is required of expressions under assignments. It depends only
on the values of the variables, and the parts of a conjunction have it. -/
structure Condition where
  holds : Assignment → Expr → Prop
  congr {s t : Assignment} {e : Expr} : e.Proper (fun x => s.value? x = t.value? x) → holds s e → holds t e
  conjunct {s : Assignment} {as : List Expr} : holds s (.and as) → ∀ a ∈ as, holds s a

namespace Condition

def any : Condition := ⟨fun _ _ => True, fun _ => id, fun _ _ _ => trivial⟩

def tame : Condition := ⟨fun s e => e.Tame s, fun hp h => h.congr hp, fun h _ ha => h.arg ha⟩

variable {P : Condition} {σ : Store} {e : Expr} {es : List Expr} {s t : Assignment}

theorem agrees (hp : e.Proper σ.Owns) (hst : s.Agrees σ.size t) (h : P.holds s e) : P.holds t e :=
  P.congr (hp.imp fun _ hx => hst _ hx.1.index_lt) h

/-- An expression that meets the condition once meets it in all solutions. -/
theorem pin (he : e.Proper σ.Owns) (hs : s.Within σ) (h : P.holds s e) :
    ∀ t, (World.pin σ e he s).Admits t → P.holds t e := fun _ ht =>
  P.congr ⟨he.typed, fun x hx => (((World.admits_pin he hs).1 ht).2 x hx).symm⟩ h

theorem forall_agrees (hp : ∀ e ∈ es, e.Proper σ.Owns) (h : ∀ e ∈ es, P.holds s e) (hst : s.Agrees σ.size t) :
    ∀ e ∈ es, P.holds t e := fun e he => agrees (hp e he) hst (h e he)

theorem forall_topLevel (h : ∀ e ∈ es, P.holds s e) : ∀ e ∈ topLevel es, P.holds s e := by
  rw [topLevel, List.forall_mem_flatMap]
  exact fun e he => e.forall_conjuncts (fun _ => P.conjunct) (h e he)

/-- Conjunctions hold wherever they meet the condition if their parts do. -/
theorem holds_of_topLevel (h : ∀ e ∈ topLevel es, P.holds s e → e.Holds s) : ∀ e ∈ es, P.holds s e → e.Holds s :=
  fun e he hP => e.holds_conjuncts.1 fun a ha => h a (List.mem_flatMap.2 ⟨e, he, ha⟩)
    (e.forall_conjuncts (fun _ => P.conjunct) hP a ha)

end Condition

/-- The constraints `fs` take the place of the constraints `es` wherever these
meet the condition `P`. The new constraints meet the condition `Q` there, where
they may depend on each other. -/
structure Renders (P Q : Condition) (σ : Store) (es fs : List Expr) (τ : Store) : Prop where
  grows : σ.Grows τ
  proper : ∀ f ∈ fs, f.Proper τ.Owns
  extend : ∀ s, s.Within σ → (∀ e ∈ es, P.holds s e) → ∃ t, t.Within τ ∧ s.Agrees σ.size t ∧
    (∀ f ∈ fs, Q.holds t f) ∧ ((∀ e ∈ es, e.Holds s) → ∀ f ∈ fs, f.Holds t)
  sound : ∀ t, t.Within τ → (∀ f ∈ fs, Q.holds t f → f.Holds t) → ∀ e ∈ es, P.holds t e → e.Holds t
  meets : ∀ t, t.Within τ → (∀ e ∈ es, P.holds t e) → (∀ f ∈ fs, Q.holds t f → f.Holds t) → ∀ f ∈ fs, Q.holds t f
  unique : ∀ t t', t.Within τ → t'.Within τ → (∀ e ∈ es, P.holds t e) → (∀ f ∈ fs, f.Holds t) →
    (∀ f ∈ fs, f.Holds t') → t.Agrees σ.size t' → t.Agrees τ.size t'

namespace Renders

open World

variable {P Q R : Condition} {σ τ υ : Store} {e : Expr} {es es' fs gs N : List Expr} {w : World} {s t : Assignment}

theorem nil : Renders P Q σ [] [] σ :=
  ⟨.refl _, by simp, fun s hs _ => ⟨s, hs, .refl _ _, by simp, by simp⟩, by simp, by simp,
    fun _ _ _ _ _ _ _ h => h⟩

/-- Constraints that are left as they are. -/
theorem refl (hes : ∀ e ∈ es, e.Proper σ.Owns) : Renders P P σ es es σ :=
  ⟨.refl _, hes, fun s hs hP => ⟨s, hs, .refl _ _, hP, id⟩, fun _ _ h => h, fun _ _ hP _ => hP,
    fun _ _ _ _ _ _ _ h => h⟩

/-- A condition can be replaced by a stronger one. -/
theorem strengthen (h : Renders P Q σ es fs τ) (hP : ∀ s, ∀ e ∈ es, R.holds s e → P.holds s e) :
    Renders R Q σ es fs τ where
  grows := h.grows
  proper := h.proper
  extend s hs hR := h.extend s hs fun e he => hP s e he (hR e he)
  sound t ht hall e he hR := h.sound t ht hall e he (hP t e he hR)
  meets t ht hR := h.meets t ht fun e he => hP t e he (hR e he)
  unique t t' ht ht' hR := h.unique t t' ht ht' fun e he => hP t e he (hR e he)

theorem holds_agrees (hp : ∀ e ∈ es, e.Proper σ.Owns) (h : ∀ e ∈ es, e.Holds s) (hst : s.Agrees σ.size t) :
    ∀ e ∈ es, e.Holds t := fun e he => (Expr.Over.holds_congr (hp e he).scope hst).1 (h e he)

theorem append (h : Renders P Q σ es fs τ) (h' : Renders P Q τ es' gs υ) (hes' : ∀ e ∈ es', e.Proper σ.Owns) :
    Renders P Q σ (es ++ es') (fs ++ gs) υ where
  grows := h.grows.trans h'.grows
  proper := List.forall_mem_append.2 ⟨World.proper_mono h'.grows h.proper, h'.proper⟩
  extend s hs hP := by
    obtain ⟨hP, hP'⟩ := List.forall_mem_append.1 hP
    obtain ⟨t, ht, hst, hfs, hholds⟩ := h.extend s hs hP
    obtain ⟨t', ht', htt', hgs, hholds'⟩ := h'.extend t ht (Condition.forall_agrees hes' hP' hst)
    refine ⟨t', ht', hst.trans (htt'.mono h.grows.size_le), List.forall_mem_append.2
      ⟨Condition.forall_agrees h.proper hfs htt', hgs⟩, fun hall => ?_⟩
    obtain ⟨hall, hall'⟩ := List.forall_mem_append.1 hall
    exact List.forall_mem_append.2 ⟨holds_agrees h.proper (hholds hall) htt',
      hholds' (holds_agrees hes' hall' hst)⟩
  sound t ht hall := by
    obtain ⟨hfs, hgs⟩ := List.forall_mem_append.1 hall
    exact List.forall_mem_append.2 ⟨h.sound t (ht.mono h'.grows) hfs, h'.sound t ht hgs⟩
  meets t ht hP hall := by
    obtain ⟨hP, hP'⟩ := List.forall_mem_append.1 hP
    obtain ⟨hfs, hgs⟩ := List.forall_mem_append.1 hall
    exact List.forall_mem_append.2 ⟨h.meets t (ht.mono h'.grows) hP hfs, h'.meets t ht hP' hgs⟩
  unique t t' ht ht' hP hall hall' hagree := by
    obtain ⟨hP, hP'⟩ := List.forall_mem_append.1 hP
    obtain ⟨hfs, hgs⟩ := List.forall_mem_append.1 hall
    obtain ⟨hfs', hgs'⟩ := List.forall_mem_append.1 hall'
    exact h'.unique t t' ht ht' hP' hgs hgs'
      (h.unique t t' (ht.mono h'.grows) (ht'.mono h'.grows) hP hfs hfs' hagree)

/-- The new constraints are rendered in turn. -/
theorem comp (h : Renders P Q σ es fs τ) (h' : Renders Q R τ fs gs υ) (hes : ∀ e ∈ es, e.Proper σ.Owns) :
    Renders P R σ es gs υ where
  grows := h.grows.trans h'.grows
  proper := h'.proper
  extend s hs hP := by
    obtain ⟨t, ht, hst, hQ, hholds⟩ := h.extend s hs hP
    obtain ⟨t', ht', htt', hR, hholds'⟩ := h'.extend t ht hQ
    exact ⟨t', ht', hst.trans (htt'.mono h.grows.size_le), hR, fun hall => hholds' (hholds hall)⟩
  sound t ht hall := h.sound t (ht.mono h'.grows) (h'.sound t ht hall)
  meets t ht hP hall := h'.meets t ht (h.meets t (ht.mono h'.grows) hP (h'.sound t ht hall)) hall
  unique t t' ht ht' hP hall hall' hagree := by
    have middle {t : Assignment} (ht : t.Within υ) (hP : ∀ e ∈ es, P.holds t e) (hall : ∀ f ∈ gs, f.Holds t) :
        (∀ f ∈ fs, Q.holds t f) ∧ ∀ f ∈ fs, f.Holds t := by
      have hsound := h'.sound t ht fun f hf _ => hall f hf
      have hQ := h.meets t (ht.mono h'.grows) hP hsound
      exact ⟨hQ, fun f hf => hsound f hf (hQ f hf)⟩
    obtain ⟨hQ, hfs⟩ := middle ht hP hall
    obtain ⟨-, hfs'⟩ := middle ht' (Condition.forall_agrees hes hP hagree) hall'
    exact h'.unique t t' ht ht' hQ hall hall'
      (h.unique t t' (ht.mono h'.grows) (ht'.mono h'.grows) hP hfs hfs' hagree)

/-- Some of the new constraints are rendered in turn. -/
theorem trans (h : Renders P Q σ es (fs ++ N) τ) (h' : Renders Q Q τ N gs υ) (hes : ∀ e ∈ es, e.Proper σ.Owns) :
    Renders P Q σ es (fs ++ gs) υ :=
  have hproper := List.forall_mem_append.1 h.proper
  h.comp ((refl hproper.1).append h' hproper.2) hes

/-- A step that keeps the solutions can follow. -/
theorem followed (h : Renders P Q σ es w.constraints w.store) {w' : World} (hr : w.Refines True w') :
    Renders P .any σ es w'.constraints w'.store where
  grows := h.grows.trans hr.grows
  proper := w'.proper
  extend s hs hP := by
    obtain ⟨t, ht, hst, -, hholds⟩ := h.extend s hs hP
    by_cases hall : ∀ e ∈ es, e.Holds s
    · obtain ⟨t', ht', htt'⟩ := hr.complete t ⟨ht, hholds hall⟩
      exact ⟨t', ht'.within, hst.trans (htt'.mono h.grows.size_le), fun _ _ => trivial, fun _ => ht'.holds⟩
    · obtain ⟨t', ht'⟩ := hr.habitable ⟨t, ht⟩
      exact ⟨_, ht.splice hr.grows ht', hst.trans ((Assignment.agrees_splice _ _ _).mono h.grows.size_le),
        fun _ _ => trivial, fun h => absurd h hall⟩
  sound t ht hall := by
    have hw := hr.sound t ⟨ht, fun f hf => hall f hf trivial⟩
    exact h.sound t hw.within fun f hf _ => hw.holds f hf
  meets _ _ _ _ _ _ := trivial
  unique t t' ht ht' hP hall hall' hagree := by
    have hw := hr.sound t ⟨ht, hall⟩
    have hw' := hr.sound t' ⟨ht', hall'⟩
    exact hr.unique trivial t t' ⟨ht, hall⟩ ⟨ht', hall'⟩
      (h.unique t t' hw.within hw'.within hP hw.holds hw'.holds hagree)

/-- The order of the new constraints does not matter. -/
theorem of_mem (h : Renders P Q σ es fs τ) (hfs : ∀ f, f ∈ gs ↔ f ∈ fs) : Renders P Q σ es gs τ := by
  have hiff {p : Expr → Prop} : (∀ f ∈ gs, p f) ↔ ∀ f ∈ fs, p f := forall_congr' fun f => by rw [hfs f]
  obtain ⟨hgrows, hproper, hextend, hsound, hmeets, hunique⟩ := h
  simp only [← hiff] at *
  exact ⟨hgrows, hproper, hextend, hsound, hmeets, hunique⟩

/-- Conjunctions are rendered by what renders their parts. -/
theorem of_split (h : Renders P Q σ (topLevel es) fs τ) : Renders P Q σ es fs τ where
  grows := h.grows
  proper := h.proper
  extend s hs hP := by
    obtain ⟨t, ht, hst, hfs, hholds⟩ := h.extend s hs (Condition.forall_topLevel hP)
    exact ⟨t, ht, hst, hfs, fun hes => hholds (Expr.holds_topLevel.2 hes)⟩
  sound t ht hfs := Condition.holds_of_topLevel (h.sound t ht hfs)
  meets t ht hP := h.meets t ht (Condition.forall_topLevel hP)
  unique t t' ht ht' hP := h.unique t t' ht ht' (Condition.forall_topLevel hP)

theorem refines (h : Renders .tame Q w.store w.constraints fs τ) (hg : w.Grounded) :
    w.Refines True ⟨τ, fs, h.proper⟩ := by
  have tame {t : Assignment} (ht : t.Within τ) (hfs : ∀ f ∈ fs, f.Holds t) : ∀ e ∈ w.constraints, e.Tame t :=
    hg.tame t (ht.mono h.grows) (h.sound t ht fun f hf _ => hfs f hf)
  refine ⟨h.grows, fun s hs => ?_, fun t ht => ⟨ht.within.mono h.grows, fun e he => ?_⟩,
    fun _ t t' ht ht' => h.unique t t' ht.within ht'.within (tame ht.within ht.holds) ht.holds ht'.holds, fun hw => ?_⟩
  · obtain ⟨t, ht, hst, -, hholds⟩ := h.extend s hs.within (hg.tame s hs.within fun e he _ => hs.holds e he)
    exact ⟨t, ⟨ht, hholds hs.holds⟩, hst⟩
  · exact h.sound t ht.within (fun f hf _ => ht.holds f hf) e he (tame ht.within ht.holds e he)
  · obtain ⟨s, hs, htame⟩ := hg.inhabited hw
    obtain ⟨t, ht, -⟩ := h.extend s hs htame
    exact ⟨t, ht⟩

/-- It is enough to know what a constraint is rendered by in the worlds in which
its variables have values for which it meets the condition. -/
theorem of_pin (he : e.Proper σ.Owns) (hex : ∃ s, s.Within σ ∧ P.holds s e) (h : ∀ s, s.Within σ → P.holds s e →
    ∃ w' : World, w'.store = τ ∧ w'.constraints = (pin σ e he s).constraints ++ N ∧
      (pin σ e he s).Refines True w' ∧ (∀ f ∈ fs, f.Proper τ.Owns) ∧
      (∀ t, w'.Admits t → (∀ f ∈ fs, Q.holds t f) ∧ ((∀ f ∈ fs, f.Holds t) ↔ e.Holds t)) ∧
      ∀ t, t.Within τ → (pin σ e he s).Admits t → (∀ d ∈ N, Q.holds t d → d.Holds t) → ∀ d ∈ N, Q.holds t d) :
    Renders P Q σ [e] (fs ++ N) τ := by
  have hg : σ.Grows τ := by
    obtain ⟨s, hs, hP⟩ := hex
    obtain ⟨w', rfl, -, hr, -⟩ := h s hs hP
    exact hr.grows
  -- In the world that pins the variables of `e` nothing else is required of the
  -- new variables, so whatever satisfies the definitions belongs to it.
  have at_pin {s t : Assignment} (hs : s.Within σ) (ht : t.Within τ) (hst : s.Agrees σ.size t)
      (hP : P.holds s e) (hN : ∀ d ∈ N, Q.holds t d → d.Holds t) : (∀ d ∈ N, Q.holds t d) ∧
        (∀ f ∈ fs, Q.holds t f) ∧ ((∀ f ∈ fs, f.Holds t) ↔ e.Holds t) := by
    obtain ⟨w', rfl, hw', -, -, hnew, hdefined⟩ := h s hs hP
    have hpin := admits_pin_agrees he hs (ht.mono hg) hst
    have hmeets := hdefined t ht hpin hN
    have hw : w'.Admits t := ⟨ht, hw' ▸ List.forall_mem_append.2 ⟨hpin.holds, fun d hd => hN d hd (hmeets d hd)⟩⟩
    exact ⟨hmeets, hnew t hw⟩
  have at_self {t : Assignment} (ht : t.Within τ) := at_pin (ht.mono hg) ht (.refl _ _)
  refine ⟨hg, ?_, fun s hs hP => ?_, fun t ht hall => ?_, fun t ht hP hall => ?_,
    fun t t' ht ht' hP hall hall' hagree => ?_⟩
  · obtain ⟨s, hs, hP⟩ := hex
    obtain ⟨w', rfl, hw', hr, hfs, -⟩ := h s hs hP
    exact List.forall_mem_append.2 ⟨hfs, fun d hd => w'.proper d (hw' ▸ List.mem_append_right _ hd)⟩
  · rw [List.forall_mem_singleton] at hP
    obtain ⟨w', rfl, hw', hr, -, hnew, -⟩ := h s hs hP
    obtain ⟨t, ht, hst⟩ := hr.complete s (admits_pin_self he hs)
    have hN : ∀ d ∈ N, d.Holds t := fun d hd => ht.holds d (hw' ▸ List.mem_append_right _ hd)
    obtain ⟨hmeets, hfs, hholds⟩ := at_pin hs ht.within hst hP fun d hd _ => hN d hd
    refine ⟨t, ht.within, hst, List.forall_mem_append.2 ⟨hfs, hmeets⟩, fun he' => List.forall_mem_append.2
      ⟨hholds.2 ?_, hN⟩⟩
    exact (Expr.Over.holds_congr he.scope hst).1 (he' e (List.mem_singleton_self e))
  · obtain ⟨hfs, hN⟩ := List.forall_mem_append.1 hall
    rw [List.forall_mem_singleton]
    intro hP
    obtain ⟨-, hmeets, hholds⟩ := at_self ht hP hN
    exact hholds.1 fun f hf => hfs f hf (hmeets f hf)
  · rw [List.forall_mem_singleton] at hP
    obtain ⟨hmeetsN, hmeets, -⟩ := at_self ht hP (List.forall_mem_append.1 hall).2
    exact List.forall_mem_append.2 ⟨hmeets, hmeetsN⟩
  · rw [List.forall_mem_singleton] at hP
    have hs := ht.mono hg
    obtain ⟨w', rfl, hw', hr, -⟩ := h t hs hP
    have admits {t' : Assignment} (ht' : t'.Within w'.store) (hst : t.Agrees σ.size t')
        (hall : ∀ f ∈ fs ++ N, f.Holds t') : w'.Admits t' := ⟨ht', hw' ▸ List.forall_mem_append.2
      ⟨(admits_pin_agrees he hs (ht'.mono hg) hst).holds, (List.forall_mem_append.1 hall).2⟩⟩
    exact hr.unique trivial t t' (admits ht (.refl _ _) hall) (admits ht' hagree hall') hagree

end Renders

namespace Defining

/-- A step that renders the constraints one by one, by what it computes for them
and by new definitions. -/
theorem sat_mapM_renders {P Q : Condition} {p : Expr → Prop} {σ : Store} {f : Expr → Defining (List Expr)}
    {es : List Expr} (hes : ∀ e ∈ es, e.Proper σ.Owns) (hex : ∃ s, s.Within σ ∧ ∀ e ∈ es, P.holds s e)
    (h : ∀ τ, σ.Grows τ → ∀ e ∈ es, e.Proper τ.Owns → (∃ s, s.Within τ ∧ P.holds s e) →
      (f e).Sat False τ fun fs N υ => Renders P Q τ [e] (fs ++ N) υ ∧ ∀ f ∈ fs ++ N, p f) :
    (es.mapM f).Sat False σ fun parts N τ => Renders P Q σ es (parts.flatten ++ N) τ ∧
      ∀ f ∈ parts.flatten ++ N, p f := by
  induction es generalizing σ with
  | nil => exact .pure ⟨.nil, by simp⟩
  | cons e es ih =>
    obtain ⟨he, hes⟩ := List.forall_mem_cons.1 hes
    obtain ⟨s, hs, hP⟩ := hex
    obtain ⟨hPe, hP⟩ := List.forall_mem_cons.1 hP
    rw [List.mapM_cons]
    refine (h σ (.refl σ) e (List.mem_cons_self ..) he ⟨s, hs, hPe⟩).bind fun fs N τ hg ⟨hfs, hp⟩ => ?_
    obtain ⟨t, ht, hst, -⟩ := hfs.extend s hs (by simpa using hPe)
    refine (ih (World.proper_mono hg hes) ⟨t, ht, Condition.forall_agrees hes hP hst⟩ fun υ hτ d hd =>
      h υ (hg.trans hτ) d (List.mem_cons_of_mem _ hd)).bind fun parts M υ _ ⟨hparts, hps⟩ => .pure ?_
    have hmem : ∀ f, f ∈ (fs :: parts).flatten ++ (N ++ (M ++ [])) ↔ f ∈ (fs ++ N) ++ (parts.flatten ++ M) := by
      simp only [List.flatten_cons, List.append_nil, List.mem_append]
      tauto
    exact ⟨(hfs.append hparts hes).of_mem hmem, fun f hf =>
      List.forall_mem_append.2 ⟨hp, hps⟩ f ((hmem f).1 hf)⟩

end Defining

namespace Lowering

/-- A pass that renders the constraints one by one. -/
theorem sat_mapM_renders {P Q : Condition} {p : Expr → Prop} {σ : Store} {f : Expr → Lowering (List Expr)}
    {es : List Expr} (hes : ∀ e ∈ es, e.Proper σ.Owns) (hex : ∃ s, s.Within σ ∧ ∀ e ∈ es, P.holds s e)
    (h : ∀ τ, σ.Grows τ → ∀ e ∈ es, (∃ s, s.Within τ ∧ P.holds s e) →
      (f e).Sat False τ fun fs υ => Renders P Q τ [e] fs υ ∧ ∀ f ∈ fs, p f) :
    (es.mapM f).Sat False σ fun parts τ => Renders P Q σ es parts.flatten τ ∧ ∀ f ∈ parts.flatten, p f := by
  induction es generalizing σ with
  | nil => exact .pure ⟨.nil, by simp⟩
  | cons e es ih =>
    obtain ⟨he, hes⟩ := List.forall_mem_cons.1 hes
    obtain ⟨s, hs, hP⟩ := hex
    obtain ⟨hPe, hP⟩ := List.forall_mem_cons.1 hP
    rw [List.mapM_cons]
    refine (h σ (.refl σ) e (List.mem_cons_self ..) ⟨s, hs, hPe⟩).bind fun fs τ hg ⟨hfs, hp⟩ => ?_
    obtain ⟨t, ht, hst, -⟩ := hfs.extend s hs (by simpa using hPe)
    refine (ih (World.proper_mono hg hes) ⟨t, ht, Condition.forall_agrees hes hP hst⟩ fun υ hτ d hd =>
      h υ (hg.trans hτ) d (List.mem_cons_of_mem _ hd)).bind fun parts υ _ ⟨hparts, hps⟩ => .pure ?_
    exact ⟨hfs.append hparts hes, List.forall_mem_append.2 ⟨hp, hps⟩⟩

/-- A pass that renders the constraints of a world. -/
theorem rewrites_of_renders {Q : Condition} {p : Expr → Prop} {w : World} {x : Lowering (List Expr)} (hg : w.Grounded)
    (h : (∃ s, s.Within w.store ∧ ∀ e ∈ w.constraints, e.Tame s) →
      x.Sat False w.store fun fs τ => Renders .tame Q w.store w.constraints fs τ ∧ ∀ f ∈ fs, p f) :
    x.Rewrites True (fun _ => p) w := by
  refine fun hw => (h (hg.inhabited hw)).imp fun fs τ _ ⟨hfs, hp⟩ => ?_
  exact ⟨⟨τ, fs, hfs.proper⟩, rfl, rfl, hfs.refines hg, hp⟩

end Lowering

end ConstraintModel
