import ConstraintModel.Proofs.Pliable
import ConstraintModel.Proofs.Posting
import ConstraintModel.Proofs.TreeMeaning

namespace ConstraintModel

namespace Expr

def TakenBy (caps : Capabilities) (e : Expr) : Prop := ∀ g, e = function g → caps.supports .top g.name

/-- All arguments have values, apart from a function that is decomposed together
with the comparison it is a side of. If both sides are functions, this is the
first one that the backend does not take. -/
def Direct (caps : Capabilities) (s : Assignment) (e : Expr) : Prop := e.Everywhere (GivenHere (TakenBy caps) s)

variable {caps : Capabilities} {σ : Store} {e : Expr} {s t : Assignment}

theorem direct_iff : e.Direct caps s ↔ e.GivenHere (TakenBy caps) s ∧ ∀ a ∈ e.args, a.Direct caps s := everywhere_iff

theorem direct_of_args (h : ∀ a ∈ e.args, a.Valued s ∧ a.Direct caps s) : e.Direct caps s :=
  direct_iff.2 ⟨givenHere_of_args fun a ha => (h a ha).1, fun a ha => (h a ha).2⟩

theorem Tame.direct (h : e.Tame s) : e.Direct caps s := h.imp fun _ h => h.givenHere

theorem Direct.congr (h : e.Direct caps s) (hp : e.Proper fun x => s.value? x = t.value? x) : e.Direct caps t := by
  induction e using induction_args with
  | h e ih => exact direct_iff.2 ⟨h.here.congr hp, fun a ha => ih a ha (h.arg ha) (hp.arg ha)⟩

end Expr

namespace World

/-- The second world has the solutions of the first for which `G` holds, apart
from the variables that are new in it and determined by the others. It has no
solutions that are not solutions of the first. -/
structure RefinesOn (G : Assignment → Prop) (w w' : World) : Prop where
  grows : w.store.Grows w'.store
  complete : ∀ s, w.Admits s → G s → ∃ t, w'.Admits t ∧ G t ∧ s.Agrees w.store.size t
  sound : ∀ t, w'.Admits t → w.Admits t
  unique : ∀ t t', w'.Admits t → w'.Admits t' → t.Agrees w.store.size t' → t.Agrees w'.store.size t'
  habitable : w.store.Habitable → w'.store.Habitable

variable {G : Assignment → Prop} {w w' w'' : World} {x : Variable} {e d : Expr}

theorem RefinesOn.le (h : w.RefinesOn G w') : w ≤ w' := ⟨h.grows, h.sound⟩

theorem RefinesOn.refl (w : World) : w.RefinesOn G w :=
  ⟨.refl _, fun s hs hG => ⟨s, hs, hG, .refl _ _⟩, fun _ h => h, fun _ _ _ _ h => h, id⟩

theorem RefinesOn.trans (h : w.RefinesOn G w') (h' : w'.RefinesOn G w'') : w.RefinesOn G w'' := by
  refine ⟨h.grows.trans h'.grows, fun s hs hG => ?_, fun t ht => h.sound t (h'.sound t ht),
    fun t t' ht ht' hagree => ?_, fun hs => h'.habitable (h.habitable hs)⟩
  · obtain ⟨t, ht, hGt, hst⟩ := h.complete s hs hG
    obtain ⟨v, hv, hGv, htv⟩ := h'.complete t ht hGt
    exact ⟨v, hv, hGv, hst.trans (htv.mono h.grows.size_le)⟩
  · exact h'.unique t t' ht ht' (h.unique t t' (h'.sound t ht) (h'.sound t' ht') hagree)

theorem Refines.on (h : w.Refines True w') (hG : Local w.store G) : w.RefinesOn G w' := by
  refine ⟨h.grows, fun s hs hGs => ?_, h.sound, h.unique trivial, h.habitable⟩
  obtain ⟨t, ht, hst⟩ := h.complete s hs
  exact ⟨t, ht, hG s t hst hGs, hst⟩

/-- A new variable is given the value of an expression that has one wherever `G`
holds. -/
theorem refinesOn_define (hG : Local w.store G) (hσ : w.store.Habitable) (hx : w.store.Creates x w'.store)
    (hp : e.Proper w.store.Owns) (hrange : x.bounds = e.range) (he : ∀ t, w.Admits t → G t → e.Valued t)
    (hw' : w'.constraints = w.constraints ++ [.cmp .eq e (.var x)]) : w.RefinesOn G w' := by
  have hold (t : Assignment) : w'.Admits t ↔ t.Within w'.store ∧ w.Admits t ∧ (Expr.cmp .eq e (.var x)).Holds t := by
    constructor
    · intro ht
      have hholds := ht.holds
      rw [hw', List.forall_mem_append, List.forall_mem_singleton] at hholds
      exact ⟨ht.within, ⟨ht.within.mono hx.grows, hholds.1⟩, hholds.2⟩
    · rintro ⟨hwithin, ht, hholds⟩
      exact ⟨hwithin, hw' ▸ List.forall_mem_append.2 ⟨ht.holds, List.forall_mem_singleton.2 hholds⟩⟩
  have value {t : Assignment} (ht : t.Within w'.store) (hv : e.Valued t) :
      (Expr.cmp .eq e (.var x)).Holds t ↔ t.value? x = some (e.num t) :=
    (show IsDefinition x e _ from .inl rfl).holds_iff hv (valued_var hx.owns.1 ht)
  refine ⟨hx.grows, fun s hs hGs => ?_, fun t ht => ((hold t).1 ht).2.1, fun t t' ht ht' hagree => ?_, ?_⟩
  · have hv := he s hs hGs
    have hagree := Assignment.agrees_extend s hx (e.num s)
    have hwithin :=
      hs.within.extend hx (n := e.num s) (hrange ▸ hv.num_mem_range (Expr.Over.inBounds hp.scope hs.within))
    have hve := he _ (hs.congr hagree) (hG _ _ hagree hGs)
    refine ⟨s.assign x (e.num s), (hold _).2 ⟨hwithin, hs.congr hagree, (value hwithin hve).2 ?_⟩,
      hG _ _ hagree hGs, hagree⟩
    rw [Assignment.value?_assign_self, ← hp.num_congr hagree]
  · have assigned {t : Assignment} (ht : w'.Admits t) : t.value? x = some (e.num t) := by
      obtain ⟨hwithin, -, hholds⟩ := (hold t).1 ht
      obtain ⟨n, -, hn, -, -⟩ := Expr.holds_cmp.1 hholds
      exact (value hwithin (Expr.valued_of_eq hn)).1 hholds
    refine hagree.extend hx ?_
    rw [assigned ht, assigned ht', hp.num_congr hagree]
  · exact fun _ => hx.habitable (hrange ▸ hp.lower_le_upper hσ) hσ

def Passage.refinesOn (G : Assignment → Prop) : Passage where
  starts w := w.store.Habitable ∧ Local w.store G
  leads := RefinesOn G
  refl := .refl
  trans := .trans
  keeps h hw := ⟨h.habitable hw.1, hw.2.mono h.grows⟩

def settled : Trace where
  holds _ N w' := ∀ d ∈ N, d.isBool ∧ d.Sound False (.bare w'.store)
  nil := by simp
  append _ hg h h' := List.forall_mem_append.2 ⟨fun d hd => ⟨(h d hd).1, (h d hd).2.mono (bare_mono hg)⟩, h'⟩

end World

namespace Lifted

open Defining (Refining refining)
open ConstraintModel.Expr (Direct TakenBy)
open Supported (argContext comparison expr parts takes untaken? untakenSide?)
open World (settled)

structure Ready (caps : Capabilities) (G : Assignment → Prop) (w : World) (e : Expr) : Prop where
  proper : e.Proper w.store.Owns
  steady : e.Steady False
  direct : ∀ t, w.Admits t → G t → e.Direct caps t

structure Cleared (caps : Capabilities) (w : World) (e e' : Expr) : Prop where
  stands : w.Stands e e'
  sound : e'.Sound False (.bare w.store)
  isBool : e'.isBool = e.isBool
  direct : ∀ t, w.Admits t → e.Direct caps t

variable {caps : Capabilities} {G : Assignment → Prop} {w w' : World} {e e' a b : Expr} {t : Assignment}

theorem Ready.mono (h : Ready caps G w e) (hw : w ≤ w') : Ready caps G w' e :=
  ⟨h.proper.imp fun _ hx => hx.mono hw.1, h.steady, fun t ht => h.direct t (hw.2 t ht)⟩

theorem Ready.arg (h : Ready caps G w e) (ha : a ∈ e.args) : Ready caps G w a :=
  ⟨h.proper.arg ha, h.steady.arg ha, fun t ht hG => (h.direct t ht hG).arg ha⟩

theorem Cleared.mono (h : Cleared caps w e e') (hw : w ≤ w') : Cleared caps w' e e' :=
  ⟨h.stands.mono hw, h.sound.mono (World.bare_mono hw.1), h.isBool, fun t ht => h.direct t (hw.2 t ht)⟩

theorem cleared_stable : (refining (.refinesOn G) settled).Stable (Cleared caps) := fun _ _ _ _ hr h => h.mono hr.le

theorem Cleared.valued (h : Cleared caps w e e') (ht : w.Admits t) : e.Valued t := by
  rw [Expr.Valued, ← h.stands.exact t ht]
  exact h.sound.valued (World.admits_bare.2 ht.within)

/-- Expressions built from arguments that have been examined. -/
theorem cleared_mapped (h : e.Mapped (Cleared caps w) e') (he : e.Proper w.store.Owns) (here : e'.TotalHere)
    (hw : w.store.Habitable) : Cleared caps w e e' := by
  have hstands : w.Stands e e' := .mapped (h.mono fun _ _ h => h.stands) he hw
  refine ⟨hstands, Expr.sound_of_args hstands.proper here fun b hb => ?_, h.isBool_eq, fun t ht =>
    Expr.direct_of_args fun a ha => ?_⟩
  · obtain ⟨a, -, hab⟩ := h.args b hb
    exact hab.sound
  · obtain ⟨b, -, hab⟩ := forall₂_mem_left h.forall₂_args ha
    exact ⟨hab.valued ht, hab.direct t ht⟩

variable {context : Context} (hcaps : "element" ∉ caps.supported)

include hcaps

theorem ne_element {g : Function Expr} (hg : caps.supports .top g.name) : ∀ as i, g ≠ .element as i := by
  rintro as i rfl
  exact hcaps (List.contains_iff_mem.1 hg)

/-- A backend that does not take entries of arrays takes a function everywhere
or nowhere. -/
theorem takes_eq {g : Function Expr} {kept : Bool} (h : takes caps context g = .ok kept) :
    kept = caps.supports .top g.name := by
  unfold takes at h
  cases hg : caps.supports .top g.name with
  | false =>
    rw [hg] at h
    cases h
    rfl
  | true =>
    have helement := ne_element hcaps hg
    have htotal : g.isTotal = .ok true := by
      cases g with
      | element as i => exact absurd rfl (helement as i)
      | _ => rfl
    rw [hg, htotal] at h
    rw [if_neg (by simp)] at h
    split at h <;> cases h <;> rfl

theorem untaken?_eq_none (h : untaken? caps context a = .ok none) : a.TakenBy caps := fun g hg =>
  (takes_eq hcaps (Supported.takes_of_untaken? h g hg)).symm

theorem untaken?_eq_some {g : Function Expr} (h : untaken? caps context a = .ok (some g)) :
    a = .function g ∧ ¬a.TakenBy caps := by
  obtain rfl := Supported.untaken?_eq_ok h
  obtain ⟨kept, hkept, h⟩ := Checked.bind_eq_ok.1 h
  refine ⟨rfl, fun htaken => ?_⟩
  rw [takes_eq hcaps hkept, htaken g rfl] at h
  cases h

theorem untakenSide?_eq_some {r s : Relation} {other : Expr} {g : Function Expr}
    (h : untakenSide? caps context r a b = .ok (some (g, s, other))) :
    a = .function g ∧ s = r ∧ other = b ∧ ¬a.TakenBy caps ∨
      b = .function g ∧ s = r.converse ∧ other = a ∧ a.TakenBy caps := by
  obtain ⟨a?, ha, h⟩ := Checked.bind_eq_ok.1 h
  obtain ⟨b?, hb, h⟩ := Checked.bind_eq_ok.1 h
  split at h
  · cases h
    obtain ⟨rfl, htaken⟩ := untaken?_eq_some hcaps ha
    exact .inl ⟨rfl, rfl, rfl, htaken⟩
  · cases h
    obtain ⟨rfl, -⟩ := untaken?_eq_some hcaps hb
    exact .inr ⟨rfl, rfl, rfl, untaken?_eq_none hcaps ha⟩
  · cases h

theorem untakenSide?_eq_none {r : Relation} (h : untakenSide? caps context r a b = .ok none) :
    a.TakenBy caps ∧ b.TakenBy caps := by
  obtain ⟨a?, ha, h⟩ := Checked.bind_eq_ok.1 h
  obtain ⟨b?, hb, h⟩ := Checked.bind_eq_ok.1 h
  split at h
  · cases h
  · cases h
  · exact ⟨untaken?_eq_none hcaps ha, untaken?_eq_none hcaps hb⟩

/-- A function that the backend takes has a value if its arguments do. -/
theorem valued_of_takenBy {σ : Store} {g : Function Expr} (hg : (Expr.function g).TakenBy caps)
    (hp : (Expr.function g).Proper σ.Owns) (ht : t.Within σ) (h : (Expr.function g).Direct caps t) :
    (Expr.function g).Valued t :=
  Expr.valued_of_args hp ht (h.here.valued (by simp)) fun as i he =>
    absurd (Expr.function.inj he) (ne_element hcaps (hg g rfl) as i)

structure Meanings (caps : Capabilities) (G : Assignment → Prop) (depth : Nat) : Prop where
  expr (context : Context) (w : World) (e : Expr) : Ready caps G w e → (∀ t, w.Admits t → G t → e.Valued t) →
    (expr caps depth context e).Refining (.refinesOn G) settled w fun e' w' => Cleared caps w' e e'
  comparison (context : Context) (w : World) (r : Relation) (a b : Expr) : Ready caps G w (.cmp r a b) →
    (comparison caps depth context r a b).Refining (.refinesOn G) settled w fun e' w' => Cleared caps w' (.cmp r a b) e'
  parts (context : Context) (w : World) (d : Decomposition) (τ : Store) (a e : Expr) :
    d.Replaces False (.bare w.store) τ a → e.Proper w.store.Owns → e.isBool → e.isSimple = false →
    (∀ t, w.Admits t → e.Direct caps t ∧ (a.Holds t ↔ e.Holds t)) → (World.Passage.refinesOn G).starts w →
    (parts caps depth context d).Sat False τ fun e' N υ => ∃ w' : World, w'.store = υ ∧
      w'.constraints = w.constraints ++ N ∧ w.RefinesOn G w' ∧ settled.holds w N w' ∧ Cleared caps w' e e'

section

variable {depth : Nat} (ih : Meanings caps G depth)

include ih

omit hcaps in
theorem parts_meaning {d : Decomposition} {τ : Store} (h : d.Replaces False (.bare w.store) τ a)
    (hp : e.Proper w.store.Owns) (hb : e.isBool) (hs : e.isSimple = false)
    (hold : ∀ t, w.Admits t → e.Direct caps t ∧ (a.Holds t ↔ e.Holds t)) (hw : (World.Passage.refinesOn G).starts w) :
    (parts caps (depth + 1) context d).Sat False τ fun e' N υ => ∃ w' : World, w'.store = υ ∧
      w'.constraints = w.constraints ++ N ∧ w.RefinesOn G w' ∧ settled.holds w N w' ∧ Cleared caps w' e e' := by
  obtain ⟨u, rfl, hu, hr₀, hholds⟩ := h.refines
  replace hu : u.constraints = d.defining := hu
  have hsound : ∀ c ∈ d.toList, c.isBool ∧ c.Sound False (.bare u.store) := fun c hc => ⟨h.isBool c hc, h.sound c hc⟩
  let v : World := ⟨u.store, w.constraints ++ d.defining, List.forall_mem_append.2
    ⟨World.proper_mono hr₀.grows w.proper, hu ▸ u.proper⟩⟩
  have hv : w.Refines True v := hr₀.frame w.constraints rfl (by simp [World.bare]) rfl fun c => by
    simp only [v, hu, List.mem_append, or_comm]
  have hdefined {t : Assignment} (ht : v.Admits t) : (∀ c ∈ d.constraining, c.Holds t) ↔ a.Holds t :=
    hholds t ⟨ht.within, hu ▸ (List.forall_mem_append.1 ht.holds).2⟩
  have hr := hv.on hw.2
  have hsv := World.Passage.keeps (.refinesOn G) hr hw
  have hconjuncts : (d.constraining.mapM (expr caps depth context)).Refining (.refinesOn G) settled v
      fun es w' => List.Forall₂ (Cleared caps w') d.constraining es :=
    (refining (.refinesOn G) settled).mapM cleared_stable fun c hc w' hr' => by
      have hc := (hsound c (List.mem_append_left _ hc)).2
      have hregular {t : Assignment} (ht : w'.Admits t) : c.Regular t :=
        hc.regular t (World.admits_bare.2 (hr'.sound t ht).within)
      obtain ⟨s, hs⟩ := hsv.1
      refine ih.expr context w' c ⟨hc.proper.imp fun _ hx => hx.mono hr'.grows, ?_, fun t ht _ =>
        (hregular ht).tame.direct⟩ fun t ht _ => (hregular ht).valued
      exact (hc.tame (World.admits_bare.2 hs)).steady False.elim
  rw [parts]
  refine (hconjuncts hsv).bind ?_
  rintro es N _ - ⟨w', rfl, hw', hr', hN, hes⟩
  refine Defining.Sat.defineAll.bind ?_
  rintro _ _ _ - ⟨rfl, rfl⟩
  have hmem : ∀ c, c ∈ w.constraints ++ (N ++ (d.defining ++ [])) ↔ c ∈ w'.constraints := by
    simp only [hw', v, List.append_nil, List.mem_append]
    tauto
  let m : World := ⟨w'.store, w.constraints ++ (N ++ (d.defining ++ [])), fun c hc => w'.proper c ((hmem c).1 hc)⟩
  have hreordered : w'.Refines True m := World.refines_of_mem rfl hmem
  have hm := hreordered.on (World.Passage.keeps (.refinesOn G) hr' hsv).2
  have hall : ∀ e' ∈ es, e'.isBool ∧ e'.Sound False (.bare w'.store) := by
    intro e' he'
    obtain ⟨c, hc, hce⟩ := forall₂_mem_right hes he'
    exact ⟨hce.isBool.trans (hsound c (List.mem_append_left _ hc)).1, hce.sound⟩
  have hbool : (Expr.all es).isBool := Expr.isBool_all fun e' he' => (hall e' he').1
  have hsall : (Expr.all es).Sound False (.bare w'.store) :=
    Expr.sound_all (fun e' he' => (hall e' he').1) fun e' he' => (hall e' he').2
  have hiff {t : Assignment} (ht : w'.Admits t) : (Expr.all es).Holds t ↔ e.Holds t := by
    rw [Expr.holds_all, ← (hold t (hv.sound t (hr'.sound t ht))).2, ← hdefined (hr'.sound t ht)]
    constructor
    · intro h c hc
      obtain ⟨e', he', hce⟩ := forall₂_mem_left hes hc
      exact (hce.stands.holds_iff ht).1 (h e' he')
    · intro h e' he'
      obtain ⟨c, hc, hce⟩ := forall₂_mem_right hes he'
      exact (hce.stands.holds_iff ht).2 (h c hc)
  have hle : w ≤ m := (hr.trans (hr'.trans hm)).le
  refine .pure ⟨m, rfl, rfl, hr.trans (hr'.trans hm), ?_, ?_, hsall, hbool.trans hb.symm, fun t ht =>
    (hold t (hle.2 t ht)).1⟩
  · rw [List.append_nil]
    refine List.forall_mem_append.2 ⟨hN, fun c hc => ?_⟩
    have hc := hsound c (List.mem_append_right _ hc)
    exact ⟨hc.1, hc.2.mono (World.bare_mono hr'.grows)⟩
  · refine World.Stands.of_holds (hp.imp fun _ hx => hx.mono hle.1) hb hsall.proper hbool ?_ fun t ht => ?_
    · rw [Expr.range_of_isBool hb hs]
      exact hsall.proper.range_eq hbool
    · have hadmits := hle.2 t ht
      exact ⟨(hold t hadmits).1.here.boolean_valued hp hb hadmits.within, hsall.valued (World.admits_bare.2 ht.within),
        hiff (hm.sound t ht)⟩

omit hcaps in
theorem args_meaning (he : Ready caps G w e) (h : ∀ t, w.Admits t → G t → ∀ a ∈ e.args, a.Valued t) : ∀ a ∈ e.args,
    ∀ w', w.RefinesOn G w' → (expr caps depth (argContext context a) a).Refining (.refinesOn G) settled w'
      fun b w'' => Cleared caps w'' a b :=
  fun a ha w' hr => ih.expr _ w' a ((he.arg ha).mono hr.le) fun t ht hG => h t (hr.sound t ht) hG a ha

omit hcaps ih in
/-- The arguments of a function that have been examined. -/
theorem sound_args {g g' : Function Expr} (h : g.Related (Cleared caps w) g') :
    ∀ b ∈ g'.args, b.Sound False (.bare w.store) := by
  intro b hb
  obtain ⟨a, -, hab⟩ := forall₂_mem_right h.args hb
  exact hab.sound

omit hcaps ih in
theorem direct_function {g g' : Function Expr} (h : g.Related (Cleared caps w) g') (ht : w.Admits t) :
    (Expr.function g).Direct caps t := by
  refine Expr.direct_of_args fun a ha => ?_
  obtain ⟨b, -, hab⟩ := forall₂_mem_left h.args ha
  exact ⟨hab.valued ht, hab.direct t ht⟩

theorem untakenSide_meaning {r s : Relation} {other : Expr} {g : Function Expr}
    (h : a = .function g ∧ s = r ∧ other = b ∧ ¬a.TakenBy caps ∨
      b = .function g ∧ s = r.converse ∧ other = a ∧ a.TakenBy caps)
    (he : Ready caps G w (.cmp r a b)) : Defining.Refining (.refinesOn G) settled (do
      let g ← g.mapM fun a => expr caps depth (argContext context a) a
      let other ← expr caps depth (argContext context other) other
      parts caps depth context (← g.decompose s other)) w fun e' w' => Cleared caps w' (.cmp r a b) e' := by
  have ha := he.arg (a := a) (by simp [Expr.args])
  have hb := he.arg (a := b) (by simp [Expr.args])
  have hg : Ready caps G w (.function g) := by
    rcases h with ⟨rfl, -⟩ | ⟨rfl, -⟩
    · exact ha
    · exact hb
  have hother : Ready caps G w other ∧ ∀ t, w.Admits t → G t → other.Valued t := by
    rcases h with ⟨rfl, -, rfl, htaken⟩ | ⟨rfl, -, rfl, htaken⟩
    · exact ⟨hb, fun t ht hG => (he.direct t ht hG).here.2.resolve_left fun h => htaken h.1⟩
    · refine ⟨ha, fun t ht hG => (he.direct t ht hG).here.1.elim ?_ id⟩
      rintro ⟨g', rfl⟩
      exact valued_of_takenBy hcaps htaken ha.proper ht.within (ha.direct t ht hG)
  have hsides : a = .function g ∧ s = r ∧ other = b ∨ b = .function g ∧ s = r.converse ∧ other = a :=
    h.imp (fun h => ⟨h.1, h.2.1, h.2.2.1⟩) fun h => ⟨h.1, h.2.1, h.2.2.1⟩
  refine ((refining (.refinesOn G) settled).function_mapM cleared_stable (args_meaning ih hg fun t ht hG =>
    (hg.direct t ht hG).here.valued (by simp))).bind fun g' w₁ hr₁ hg' => ?_
  refine (ih.expr _ w₁ other (hother.1.mono hr₁.le) fun t ht hG => hother.2 t (hr₁.sound t ht) hG).bind
    fun other' w₂ hr₂ ho => ?_
  have hle : w ≤ w₂ := (hr₁.trans hr₂).le
  replace hg' : g.Related (Cleared caps w₂) g' := hg'.mono fun _ _ h => h.mono hr₂.le
  refine .lift_bind (g'.decompose_sat s other') fun hw₂ d τ _ hd => ?_
  have hstands : w₂.Stands (.function g) (.function g') :=
    .mapped (.function (hg'.mono fun _ _ h => h.stands)) (hg.mono hle).proper hw₂.1
  have hreplaces := hd.replaces (w := .bare w₂.store) (World.inhabited_bare hw₂.1)
    (Expr.proper_function.1 hstands.proper).1 (sound_args hg') ho.sound
  refine ih.parts context w₂ d τ _ _ hreplaces (he.mono hle).proper rfl rfl (fun t ht => ⟨?_, ?_⟩) hw₂
  · have hdg := direct_function hg' ht
    rcases h with ⟨rfl, -, rfl, -⟩ | ⟨rfl, -, rfl, htaken⟩
    · refine Expr.direct_iff.2 ⟨⟨.inl ⟨g, rfl⟩, .inr (ho.valued ht)⟩, ?_⟩
      simpa [Expr.args] using ⟨hdg, ho.direct t ht⟩
    · refine Expr.direct_iff.2 ⟨⟨.inr (ho.valued ht), .inl ⟨htaken, g, rfl⟩⟩, ?_⟩
      simpa [Expr.args] using ⟨ho.direct t ht, hdg⟩
  · exact World.Stands.holds_cmp hsides (he.mono hle).proper hw₂.1 hstands ho.stands ht

theorem comparison_meaning {r : Relation} (he : Ready caps G w (.cmp r a b)) :
    (comparison caps (depth + 1) context r a b).Refining (.refinesOn G) settled w
      fun e' w' => Cleared caps w' (.cmp r a b) e' := by
  rw [comparison]
  refine .checked_bind fun found? hfound => ?_
  split
  · exact untakenSide_meaning hcaps ih (untakenSide?_eq_some hcaps hfound) he
  · obtain ⟨hta, htb⟩ := untakenSide?_eq_none hcaps hfound
    have ha := he.arg (a := a) (by simp [Expr.args])
    have hb := he.arg (a := b) (by simp [Expr.args])
    have valued {c : Expr} (hc : Ready caps G w c) (htc : c.TakenBy caps) (h : ∀ t, w.Admits t → G t →
        (∃ g, c = .function g) ∨ c.Valued t) (t : Assignment) (ht : w.Admits t) (hG : G t) : c.Valued t := by
      rcases h t ht hG with ⟨g, rfl⟩ | hv
      · exact valued_of_takenBy hcaps htc hc.proper ht.within (hc.direct t ht hG)
      · exact hv
    refine .assume fun hw => (ih.expr _ w a ha (valued ha hta fun t ht hG => (he.direct t ht hG).here.1)).bind
      fun a' w₁ hr₁ ha' => ?_
    refine (ih.expr _ w₁ b (hb.mono hr₁.le) fun t ht => valued hb htb (fun t ht hG =>
      (he.direct t ht hG).here.2.imp_left And.right) t (hr₁.sound t ht)).bind fun b' w₂ hr₂ hb' => .pure ?_
    have hr := hr₁.trans hr₂
    exact cleared_mapped (.cmp r (ha'.mono hr₂.le) hb') (he.mono hr.le).proper trivial (hr.habitable hw.1)

omit hcaps in
theorem constraint_meaning {c : Constraint Expr} (he : Ready caps G w (.constraint c)) :
    (expr caps (depth + 1) context (.constraint c)).Refining (.refinesOn G) settled w
      fun e' w' => Cleared caps w' (.constraint c) e' := by
  rw [expr]
  refine .assume fun hw => ((refining (.refinesOn G) settled).constraint_mapM cleared_stable (args_meaning ih he
    fun t ht hG => (he.direct t ht hG).here.valued (by simp))).bind fun c' w₁ hr hc' => ?_
  have hlasting : c'.Lasting := (he.steady.here.1 c rfl).related (hc'.mono fun _ _ h => h.stands.range)
  have hex := cleared_mapped (.constraint hc') (he.mono hr.le).proper hlasting (hr.habitable hw.1)
  split
  · exact .pure hex
  · refine .lift_bind c'.decompose_sat fun hw₁ d τ _ hd => ?_
    have hreplaces := hd.replaces (w := .bare w₁.store) (World.inhabited_bare hw₁.1)
      (Expr.proper_constraint.1 hex.stands.proper).1 hlasting
      fun b hb => by
        obtain ⟨a, -, hab⟩ := forall₂_mem_right hc'.args hb
        exact hab.sound
    exact ih.parts context w₁ d τ _ _ hreplaces (he.mono hr.le).proper rfl rfl
      (fun t ht => ⟨hex.direct t ht, hex.stands.holds_iff ht⟩) hw₁

omit hcaps ih in
/-- A function that the backend does not take is given a variable that is defined
to have its value. This restricts the solutions to those in which there is one. -/
theorem lift_meaning {g g' : Function Expr} (he : Ready caps G w (.function g))
    (hv : ∀ t, w.Admits t → G t → (Expr.function g).Valued t) (hg : g.Related (Cleared caps w) g') :
    Defining.Refining (.refinesOn G) settled (do
      let x ← freshInt (← (Expr.function g').bounds)
      defineAll (← g'.decompose .eq x).toList
      return x) w fun e' w' => Cleared caps w' (.function g) e' := by
  refine .checked_bind fun bounds hbounds => .lift_bind (Lowering.Sat.freshInt bounds) ?_
  rintro hw _ τ - ⟨x, rfl, hx, hxb, rfl⟩
  have hstands : w.Stands (.function g) (.function g') :=
    .mapped (.function (hg.mono fun _ _ h => h.stands)) he.proper hw.1
  have hrange := (Expr.function g').range_of_bounds _ hbounds
  have hdef : (Expr.cmp .eq (.function g') (.var x)).Proper τ.Owns :=
    Expr.proper_cmp.2 ⟨hstands.proper.imp fun _ hx' => hx'.mono hx.grows, Expr.proper_var.2 hx.owns⟩
  -- Where `G` holds the function has a value, so no such solution is lost by
  -- the equation that defines the variable.
  let v : World := (w.widen τ hx.grows).post [.cmp .eq (.function g') (.var x)] (List.forall_mem_singleton.2 hdef)
  have hv : w.RefinesOn G v := World.refinesOn_define hw.2 hw.1 hx hstands.proper hrange
    (fun t ht hG => hstands.valued ht (hv t ht hG)) rfl
  have hsv := World.Passage.keeps (.refinesOn G) hv hw
  refine Defining.Sat.bind (Defining.Sat.lift (g'.decompose_sat .eq (.var x))) ?_
  rintro d _ υ - ⟨rfl, hd⟩
  have hreplaces := hd.replaces (q := False) (w := .bare τ) (World.inhabited_bare hsv.1)
    (Expr.proper_function.1 hstands.proper).1 (fun b hb => (sound_args hg b hb).mono (World.bare_mono hx.grows))
    (Expr.sound_var hx.owns)
  obtain ⟨u, rfl, hu, hr⟩ :=
    hreplaces.posted (v := (World.bare τ).post _ (List.forall_mem_singleton.2 hdef)) rfl fun c =>
    List.mem_append.trans (by simp)
  replace hu : u.constraints = d.toList := hu
  refine Defining.Sat.defineAll.bind ?_
  rintro _ _ _ - ⟨rfl, rfl⟩
  let w' : World := ⟨u.store, w.constraints ++ d.toList, List.forall_mem_append.2
    ⟨World.proper_mono (hv.grows.trans hr.grows) w.proper, hu ▸ u.proper⟩⟩
  have hr' : v.Refines True w' := hr.frame w.constraints rfl
    (fun c => by simp only [v, World.post, World.widen, World.bare, List.nil_append, List.mem_append, or_comm])
    rfl fun c => by
      simp only [w', hu, List.mem_append, or_comm]
  have hle : w ≤ w' := (hv.trans (hr'.on hsv.2)).le
  refine .pure ⟨w', rfl, by simp [w'], hv.trans (hr'.on hsv.2), ?_,
    ⟨Expr.proper_var.2 (hx.owns.mono hr.grows), by simp [Expr.isBool], ?_, fun t ht => ?_⟩,
    Expr.sound_var (hx.owns.mono hr.grows), Bool.eq_false_of_not_eq_true hxb,
    fun t ht => direct_function hg (hle.2 t ht)⟩
  · rw [List.nil_append, List.append_nil]
    exact fun c hc => ⟨hreplaces.isBool c hc, hreplaces.sound c hc⟩
  · rw [Expr.range, hrange]
    exact hstands.range
  · obtain ⟨hwiden, hholds⟩ := World.admits_post.1 (hr'.sound t ht)
    rw [List.forall_mem_singleton] at hholds
    obtain ⟨m, n, hm, hn, heq⟩ := Expr.holds_cmp.1 hholds
    rw [← hstands.exact t (hle.2 t ht), hm, hn, Option.some_inj]
    exact (beq_iff_eq.1 heq).symm

theorem function_meaning {g : Function Expr} (he : Ready caps G w (.function g))
    (hv : ∀ t, w.Admits t → G t → (Expr.function g).Valued t) :
    (expr caps (depth + 1) context (.function g)).Refining (.refinesOn G) settled w
      fun e' w' => Cleared caps w' (.function g) e' := by
  rw [expr]
  refine .assume fun hw => ((refining (.refinesOn G) settled).function_mapM cleared_stable (args_meaning ih he
    fun t ht hG => (he.direct t ht hG).here.valued (by simp))).bind fun g' w₁ hr hg' =>
      .checked_bind fun kept hkept => ?_
  split
  · refine .pure (cleared_mapped (.function hg') (he.mono hr.le).proper ?_ (hr.habitable hw.1))
    have helement := ne_element hcaps ((takes_eq hcaps hkept).symm.trans ‹_›)
    cases g' with
    | element as i => exact absurd rfl (helement as i)
    | _ => trivial
  · exact lift_meaning (he.mono hr.le) (fun t ht hG => hv t (hr.sound t ht) hG) hg'

theorem expr_meaning (he : Ready caps G w e) (hv : ∀ t, w.Admits t → G t → e.Valued t) :
    (expr caps (depth + 1) context e).Refining (.refinesOn G) settled w fun e' w' => Cleared caps w' e e' := by
  have simple (hs : e.isSimple) (here : e.TotalHere) : (Pure.pure e : Defining Expr).Refining (.refinesOn G) settled w
      fun e' w' => Cleared caps w' e e' :=
    .assume fun hw => .pure (cleared_mapped (.simple hs) he.proper here hw.1)
  have mapped (hcmp : ∀ r a b, e ≠ .cmp r a b) (hcall : ∀ d, e ≠ .call d) (hc : ∀ c, e ≠ .constraint c)
      (hg : ∀ g, e ≠ .function g) : (e.mapArgsM fun a => expr caps depth (argContext context a) a).Refining
        (.refinesOn G) settled w fun e' w' => Cleared caps w' e e' :=
    .assume fun hw => ((refining (.refinesOn G) settled).mapArgsM cleared_stable hcall
      (args_meaning ih he fun t ht hG =>
      (he.direct t ht hG).here.valued hcmp)).imp fun e' w' hr h => by
        have here : e'.TotalHere := by
          cases h with
          | simple => exact Expr.totalHere_of_ne hc hg
          | constraint | function => simp at hc hg
          | _ => trivial
        exact cleared_mapped h (he.mono hr.le).proper here (hr.habitable hw.1)
  cases e with
  | bool _ | int _ | var _ | negVar _ => rw [expr]; exact simple rfl trivial
  | cmp r a b => rw [expr]; exact ih.comparison context w r a b he
  | constraint c => exact constraint_meaning ih he
  | function g => exact function_meaning hcaps ih he hv
  | call d => exact absurd he.proper Expr.proper_call
  | _ => rw [expr] <;> first | exact mapped (by simp) (by simp) (by simp) (by simp) | simp

end

theorem meanings (G : Assignment → Prop) (depth : Nat) : Meanings caps G depth := by
  induction depth with
  | zero => exact {
      expr := fun _ _ _ _ _ => .throw
      comparison := fun _ _ _ _ _ _ => .throw
      parts := fun _ _ _ _ _ _ _ _ _ _ _ _ => .throw False.elim }
  | succ depth ih => exact {
      expr := fun _ _ _ => expr_meaning hcaps ih
      comparison := fun _ _ _ _ _ => comparison_meaning hcaps ih
      parts := fun _ _ _ _ _ _ => parts_meaning ih }

end Lifted

end ConstraintModel
