import ConstraintModel.Proofs.Agreement
import ConstraintModel.Proofs.Sound
import ConstraintModel.Proofs.World

namespace ConstraintModel

/-- The evaluation of the expression tells whether the proposition holds. It
gives no other value, and it can only overflow. -/
structure Expr.Decides (s : Assignment) (e : Expr) (p : Prop) : Prop where
  computes : e.value.Computes s (e.exact s)
  holds : e.exact s = some 1 ↔ p
  fails : e.exact s = some 0 ↔ ¬p

theorem Expr.Proper.decides {σ : Store} {s : Assignment} {e : Expr} {p : Prop} (h : e.Proper σ.Owns) (hb : e.isBool)
    (hs : s.Within σ) (hv : e.Valued s) (hp : e.Holds s ↔ p) : e.Decides s p := by
  refine ⟨e.computes_exact s, ?_, ?_⟩
  · rw [← hp, hv.holds_iff_num h hb hs, hv.exact_eq, Option.some_inj]
  · rw [← hp, ← hv.fails_iff, hv.fails_iff_num, hv.exact_eq, Option.some_inj]

/-- The negation of an expression in which nothing is undefined tells the
opposite. -/
theorem Expr.Sound.decides {q : Prop} {w : World} {s : Assignment} {e : Expr} {p : Prop} (h : e.Sound q w)
    (hb : e.isBool) (hs : w.Admits s) (hp : e.Holds s ↔ p) : e.Decides s p ∧ e.negated.Decides s (¬p) := by
  have hn := h.negated hb
  refine ⟨h.proper.decides hb hs.within (h.valued hs) hp, ?_⟩
  refine hn.proper.decides (Expr.isBool_negated hb h.proper) hs.within (hn.valued hs) ?_
  have hinvertible : e.negated.Holds s ↔ e.Fails s := (h.regular s hs).invertible hb
  rw [hinvertible, (h.valued hs).fails_iff, hp]

namespace Decomposition

structure Extends (d : Decomposition) (σ τ : Store) (s t : Assignment) : Prop where
  within : t.Within τ
  agrees : s.Agrees σ.size t
  defining : ∀ a ∈ d.defining, a.Holds t

/-- Every assignment determines the values of the auxiliary variables. The
constraining part then has the value of the expression, and its negation the
opposite one. -/
def Reifies (d : Decomposition) (σ τ : Store) (e : Expr) : Prop :=
  ∀ s, s.Within σ → ∃ t, d.Extends σ τ s t ∧ (∀ t', d.Extends σ τ s t' → t.Agrees τ.size t') ∧
    (Expr.all d.constraining).exact t = e.exact s ∧
    (Expr.all d.constraining).negated.exact t = (e.exact s).map (1 - ·)

/-- What a decomposition is used for: its definitions can be posted anywhere,
and its constraining part can take the place of the expression and be negated
there. Neither part relies on the definitions to have a value. -/
structure Replaces (d : Decomposition) (q : Prop) (w : World) (τ : Store) (e : Expr) : Prop where
  grows : w.store.Grows τ
  isBool : ∀ a ∈ d.toList, a.isBool
  sound : ∀ a ∈ d.toList, a.Sound q (w.widen τ grows)
  refines : ∃ w' : World, w'.store = τ ∧ w'.constraints = w.constraints ++ d.defining ∧ w.Refines True w' ∧
    ∀ t, w'.Admits t → ((∀ a ∈ d.constraining, a.Holds t) ↔ e.Holds t)

variable {q : Prop} {σ τ : Store} {d : Decomposition} {e : Expr} {w : World} {s t : Assignment}

theorem Replaces.constraining (h : d.Replaces q w τ e) :
    ∀ a ∈ d.constraining, a.isBool ∧ a.Sound q (w.widen τ h.grows) :=
  fun a ha => ⟨h.isBool a (List.mem_append_left _ ha), h.sound a (List.mem_append_left _ ha)⟩

theorem Replaces.isBool_all (h : d.Replaces q w τ e) : (Expr.all d.constraining).isBool :=
  Expr.isBool_all fun a ha => (h.constraining a ha).1

theorem Replaces.sound_all (h : d.Replaces q w τ e) : (Expr.all d.constraining).Sound q (w.widen τ h.grows) :=
  Expr.sound_all (fun a ha => (h.constraining a ha).1) fun a ha => (h.constraining a ha).2

/-- The decomposition of an expression that always has a value reifies it. The
expression itself need not have a negation of the opposite value. -/
theorem Replaces.reifies_of_defined (h : σ.Habitable → d.Replaces q (World.bare σ) τ e) (hp : e.Proper σ.Owns)
    (hv : e.Defined (World.bare σ)) (hb : e.isBool) : d.Reifies σ τ e := by
  intro s hs
  replace h := h ⟨s, hs⟩
  obtain ⟨w, rfl, hw, hr, hholds⟩ := h.refines
  replace hw : w.constraints = d.defining := hw
  have admits {t} (ht : d.Extends σ w.store s t) : w.Admits t := ⟨ht.within, hw ▸ ht.defining⟩
  obtain ⟨t, ht, hst⟩ := hr.complete s (World.admits_bare.2 hs)
  have hext : d.Extends σ w.store s t := ⟨ht.within, hst, hw ▸ ht.holds⟩
  have hall : (Expr.all d.constraining).Sound q w := h.sound_all.mono (World.widen_le hr.le)
  have hexact : (Expr.all d.constraining).exact t = e.exact s := by
    rw [Expr.Over.exact_congr hp.scope hst]
    exact Expr.exact_eq_of_holds hall.proper h.isBool_all hp hb ht.within (ht.within.mono hr.grows)
      (hall.valued ht) (hv t (hr.sound t ht)) (Expr.holds_all.trans (hholds t ht))
  refine ⟨t, hext, fun t' ht' => ?_, hexact, ?_⟩
  · exact hr.unique trivial t t' ht (admits ht') (hst.symm.trans ht'.agrees)
  · rw [← hexact, (hall.valued ht).exact_eq,
      (hall.regular t ht).exact_negated hall.proper h.isBool_all ht.within]
    rfl

theorem Replaces.reifies (h : σ.Habitable → d.Replaces q (World.bare σ) τ e) (he : e.Sound q (World.bare σ))
    (hb : e.isBool) : d.Reifies σ τ e :=
  reifies_of_defined h he.proper he.defined hb

/-- Without auxiliary variables the constraining part is evaluated under the
same assignment. -/
theorem Replaces.decides {as : List Expr} {p : Prop} (h : (direct as).Replaces q (World.bare σ) σ e)
    (hs : s.Within σ) (hp : e.Holds s ↔ p) : (Expr.all as).Decides s p ∧ (Expr.all as).negated.Decides s (¬p) := by
  obtain ⟨w, hstore, hw, -, hholds⟩ := h.refines
  replace hw : w.constraints = [] := hw
  have hadmits : w.Admits s := ⟨by rwa [hstore], by simp [hw]⟩
  exact h.sound_all.decides h.isBool_all ⟨hs, by simp [World.widen, World.bare]⟩
    (Expr.holds_all.trans ((hholds s hadmits).trans hp))

/-- A decomposition without auxiliary variables. -/
theorem replaces_direct {as : List Expr} (hb : ∀ a ∈ as, a.isBool) (hs : ∀ a ∈ as, a.Sound q w)
    (h : ∀ t, w.Admits t → ((∀ a ∈ as, a.Holds t) ↔ e.Holds t)) : (direct as).Replaces q w w.store e := by
  refine ⟨.refl _, ?_, ?_, w, rfl, (List.append_nil _).symm, .refl w, h⟩
  · simpa [toList, direct] using hb
  · simp only [toList, direct, List.append_nil]
    exact hs

theorem Replaces.congr {f : Expr} (h : d.Replaces q w τ e) (hf : ∀ t, w.Admits t → (e.Holds t ↔ f.Holds t)) :
    d.Replaces q w τ f := by
  obtain ⟨w', hτ, hw', hr, hholds⟩ := h.refines
  exact ⟨h.grows, h.isBool, h.sound, w', hτ, hw', hr, fun t ht => (hholds t ht).trans (hf t (hr.sound t ht))⟩

/-- A constraint that has been posted is replaced by others that say the same
with the constraining part in place of the expression. -/
theorem Replaces.substituted {v : World} {c : Expr} (fs : List Expr) (h : d.Replaces q w τ e)
    (hstore : v.store = w.store)
    (hv : ∀ a, a ∈ v.constraints ↔ a ∈ w.constraints ∨ a = c) (hfs : ∀ f ∈ fs, f.Proper τ.Owns)
    (hiff : ∀ t, (w.widen τ h.grows).Admits t → ((∀ a ∈ d.constraining, a.Holds t) ↔ e.Holds t) →
      ((∀ f ∈ fs, f.Holds t) ↔ c.Holds t)) : ∃ v' : World, v'.store = τ ∧
        v'.constraints = w.constraints ++ (fs ++ d.defining) ∧ v.Refines True v' := by
  obtain ⟨w', rfl, hw', hr, hholds⟩ := h.refines
  have hc : c.Proper w.store.Owns := hstore ▸ v.proper c ((hv c).2 (.inr rfl))
  let v' : World := ⟨w'.store, w.constraints ++ (fs ++ d.defining), List.forall_mem_append.2
    ⟨World.proper_mono hr.grows w.proper, List.forall_mem_append.2
      ⟨hfs, fun a ha => (h.sound a (List.mem_append_right _ ha)).proper⟩⟩⟩
  let m : World := w'.post [c] (World.proper_mono hr.grows (List.forall_mem_singleton.2 hc))
  have hm : v.Refines True m := hr.frame [c] hstore (by simpa using hv) rfl fun c => List.mem_append
  refine ⟨v', rfl, rfl, hm.trans (World.refines_of_admits rfl fun t => ?_)⟩
  have hadmits : v'.Admits t ↔ w'.Admits t ∧ ∀ f ∈ fs, f.Holds t := by
    constructor
    · intro ht
      obtain ⟨hw, hd⟩ := List.forall_mem_append.1 ht.holds
      obtain ⟨hfs, hdef⟩ := List.forall_mem_append.1 hd
      exact ⟨⟨ht.within, hw' ▸ List.forall_mem_append.2 ⟨hw, hdef⟩⟩, hfs⟩
    · rintro ⟨ht, hfs⟩
      obtain ⟨hw, hdef⟩ := List.forall_mem_append.1 (hw' ▸ ht.holds)
      exact ⟨ht.within, List.forall_mem_append.2 ⟨hw, List.forall_mem_append.2 ⟨hfs, hdef⟩⟩⟩
  rw [hadmits, World.admits_post, List.forall_mem_singleton]
  exact and_congr_right fun ht => hiff t ((World.widen_le hr.le).2 t ht) (hholds t ht)

/-- A constraint that has been posted is replaced by its decomposition. -/
theorem Replaces.posted {v : World} (h : d.Replaces q w τ e) (hstore : v.store = w.store)
    (hv : ∀ c, c ∈ v.constraints ↔ c ∈ w.constraints ∨ c = e) : ∃ v' : World, v'.store = τ ∧
      v'.constraints = w.constraints ++ d.toList ∧ v.Refines True v' :=
  h.substituted d.constraining hstore hv (fun a ha => (h.constraining a ha).2.proper) fun _ _ h => h

/-- The constraining part has the value of an expression that always has one. -/
theorem Replaces.exact_all (h : d.Replaces q w τ e) (he : e.Proper w.store.Owns) (hb : e.isBool)
    (hv : e.Defined w) (ht : (w.widen τ h.grows).Admits t) (hiff : (∀ a ∈ d.constraining, a.Holds t) ↔ e.Holds t) :
    (Expr.all d.constraining).exact t = e.exact t := by
  have hall := h.sound_all
  exact Expr.exact_eq_of_holds hall.proper h.isBool_all he hb ht.within (ht.within.mono h.grows) (hall.valued ht)
    (hv t ((World.le_widen h.grows).2 t ht)) (Expr.holds_all.trans hiff)

end Decomposition

end ConstraintModel
