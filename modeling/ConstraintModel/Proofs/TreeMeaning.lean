import ConstraintModel.Proofs.Constraints
import ConstraintModel.Proofs.FlatMeaning
import ConstraintModel.Proofs.SupportedTree

namespace ConstraintModel

/-- A comparison says the same when what stands for its sides is compared, from
either side. -/
theorem World.Stands.holds_cmp {w : World} {r s : Relation} {a b c d c' d' : Expr} {t : Assignment}
    (h : a = c ∧ s = r ∧ d = b ∨ b = c ∧ s = r.converse ∧ d = a) (hp : (Expr.cmp r a b).Proper w.store.Owns)
    (hw : w.store.Habitable) (hc : w.Stands c c') (hd : w.Stands d d') (ht : w.Admits t) :
    (Expr.cmp s c' d').Holds t ↔ (Expr.cmp r a b).Holds t := by
  rcases h with ⟨rfl, rfl, rfl⟩ | ⟨rfl, rfl, rfl⟩
  · exact (mapped (.cmp s hc hd) hp hw).holds_iff ht
  · obtain ⟨ha, hb⟩ := Expr.proper_cmp.1 hp
    rw [(mapped (.cmp r.converse hc hd) (Expr.proper_cmp.2 ⟨hb, ha⟩) hw).holds_iff ht, Expr.Holds, Expr.Holds,
      Expr.exact_cmp_converse hp ht.within]

namespace World

/-- The added constraints are tame, where each of them may rely on the ones
that it can trust. -/
def trusted : Trace where
  holds w N w' := (∀ d ∈ N, d.isBool) ∧
    ∀ t, t.Within w'.store → w.Admits t → (∀ d ∈ N, d.Tame t → d.Holds t) → ∀ d ∈ N, d.Tame t
  nil := by simp
  append {w w' _ _ _} hN hg h h' := by
    refine ⟨List.forall_mem_append.2 ⟨h.1, h'.1⟩, fun t ht hw hall => ?_⟩
    obtain ⟨hfs, hgs⟩ := List.forall_mem_append.1 hall
    have htame := h.2 t (ht.mono hg) hw hfs
    have hw' : w'.Admits t :=
      ⟨ht.mono hg, hN ▸ List.forall_mem_append.2 ⟨hw.holds, fun d hd => hfs d hd (htame d hd)⟩⟩
    exact List.forall_mem_append.2 ⟨htame, h'.2 t ht hw' hgs⟩

end World

namespace Supported

open Defining (Refining refining)
open ConstraintModel.Expr (Valued Defined Tame num)
open World (trusted)

structure Ready (w : World) (e : Expr) : Prop where
  proper : e.Proper w.store.Owns
  tame : ∀ t, w.Admits t → e.Tame t

/-- What examining an expression keeps. The result is tame and negations still
reach it, and only a comparison is given a function without a value. -/
structure Faithful (w : World) (e e' : Expr) : Prop where
  stands : w.Stands e e'
  tame : ∀ t, w.Admits t → e'.Tame t
  negated : e.isBool → ∀ t, w.Admits t → e.negated.Holds t → e'.negated.Holds t
  isBool : e'.isBool = e.isBool
  isSimple : e.isSimple → e'.isSimple
  function : ∀ g, e = .function g → e.Defined w ∨ ∃ g', e' = .function g'

section

variable {u : Prop} {w w' : World} {e e' a b : Expr} {t : Assignment}

theorem Ready.mono (h : Ready w e) (hw : w ≤ w') : Ready w' e :=
  ⟨h.proper.imp fun _ hx => hx.mono hw.1, fun t ht => h.tame t (hw.2 t ht)⟩

theorem Ready.arg (h : Ready w e) (ha : a ∈ e.args) : Ready w a := ⟨h.proper.arg ha, fun t ht => (h.tame t ht).arg ha⟩

theorem Ready.defined (h : Ready w e) (hb : e.isBool) : e.Defined w :=
  fun t ht => (h.tame t ht).valued h.proper hb ht.within

theorem Faithful.mono (h : Faithful w e e') (hr : w.Refines u w') : Faithful w' e e' :=
  ⟨h.stands.mono hr.le, fun t ht => h.tame t (hr.sound t ht), fun hb t ht => h.negated hb t (hr.sound t ht), h.isBool,
    h.isSimple, fun g hg => (h.function g hg).imp_left fun hd => hd.mono hr.le⟩

theorem faithful_stable : (refining (.refines True) trusted).Stable Faithful := fun _ _ _ _ hr h => h.mono hr

theorem Faithful.invertible (h : Faithful w e e') (hb : e.isBool) (ht : w.Admits t) (he : e.Invertible t) :
    e'.Invertible t := by
  constructor
  · exact (h.tame t ht).fails_of_negated h.stands.proper (h.stands.isBool hb) ht.within
  · exact fun hf => h.negated hb t ht (he.2 ((h.stands.fails_iff ht).1 hf))

/-- Nothing is lost of an expression that has a value and can be negated. -/
theorem Faithful.sound (h : Faithful w e e') (he : ∀ t, w.Admits t → e.Regular t) : e'.Sound False w :=
  ⟨h.stands.proper, fun t ht => ⟨h.tame t ht, h.stands.valued ht (he t ht).valued, fun hb =>
    have hb : e.isBool := h.isBool ▸ hb
    h.invertible hb ht ((he t ht).invertible hb)⟩, False.elim⟩

/-- Expressions built from arguments that have been examined. -/
theorem faithful_mapped (h : e.Mapped (Faithful w) e') (he : Ready w e) (hw : w.store.Habitable) :
    Faithful w e e' := by
  have hstands : w.Stands e e' := .mapped (h.mono fun _ _ h => h.stands) he.proper hw
  refine ⟨hstands, fun t ht => Expr.tame_iff.2 ⟨?_, fun b hb => ?_⟩, fun hb t ht => ?_, h.isBool_eq, ?_, ?_⟩
  · have here := (he.tame t ht).here
    have valued {a b : Expr} (h : Faithful w a b) : a.Valued t → b.Valued t := h.stands.valued ht
    have invertible {a b : Expr} (h : Faithful w a b) (ha : a.isBool → a.Invertible t) (hb : b.isBool) :
        b.Invertible t :=
      have hba : a.isBool := h.isBool ▸ hb
      h.invertible hba ht (ha hba)
    have list {as bs : List Expr} (h : List.Forall₂ (Faithful w) as bs) (has : ∀ a ∈ as, a.Valued t) :
        ∀ b ∈ bs, b.Valued t := by
      intro b hb
      obtain ⟨a, ha, hab⟩ := forall₂_mem_right h hb
      exact valued hab (has a ha)
    cases h with
    | simple h => exact here
    | and h | or h | sum h => exact list h here
    | wsum h =>
      refine List.forall_mem_map.2 fun u hu => ?_
      obtain ⟨t', ht', htu⟩ := forall₂_mem_right h hu
      exact valued htu.2 (here _ (List.mem_map_of_mem ht'))
    | sub h₁ h₂ | mul h₁ h₂ => exact list (.cons h₁ (.cons h₂ .nil)) here
    | neg h => exact list (.cons h .nil) here
    | implies h₁ h₂ =>
      have hba := (Expr.proper_implies.1 he.proper).1.1
      exact ⟨invertible h₁ (fun _ => here.1) (h₁.isBool ▸ hba), valued h₁ here.2.1, valued h₂ here.2.2⟩
    | not h =>
      have hba := (Expr.proper_not.1 he.proper).1
      exact ⟨invertible h (fun _ => here.1) (h.isBool ▸ hba), valued h here.2⟩
    | cmp r h₁ h₂ =>
      refine ⟨⟨invertible h₁ here.1.1, ?_⟩, invertible h₂ here.2.1, valued h₂ here.2.2⟩
      rcases here.1.2 with ⟨⟨g, rfl⟩, hs⟩ | hv
      · exact (h₁.function g rfl).elim (fun hd => .inr (valued h₁ (hd t ht))) fun hg => .inl ⟨hg, h₂.isSimple hs⟩
      · exact .inr (valued h₁ hv)
    | constraint h =>
      refine ⟨here.1.related (h.mono fun _ _ h => h.stands.range), fun b hb => ?_⟩
      obtain ⟨a, ha, hab⟩ := forall₂_mem_right h.args hb
      exact ⟨valued hab (here.2 a ha).1, invertible hab (here.2 a ha).2⟩
    | function h =>
      intro b hb
      obtain ⟨a, ha, hab⟩ := forall₂_mem_right h.args hb
      exact ⟨valued hab (here a ha).1, invertible hab (here a ha).2⟩
  · obtain ⟨a, -, hab⟩ := h.args b hb
    exact hab.tame t ht
  · intro hn
    cases h with
    | simple h => exact hn
    | and h =>
      rw [Expr.negated_and, Expr.holds_or] at *
      obtain ⟨_, hmem, hn⟩ := hn
      obtain ⟨a, ha, rfl⟩ := List.mem_map.1 hmem
      obtain ⟨b, hb, hab⟩ := forall₂_mem_left h ha
      exact ⟨_, List.mem_map_of_mem hb, hab.negated ((Expr.proper_and.1 he.proper).1 a ha) t ht hn⟩
    | or h =>
      rw [Expr.negated_or, Expr.holds_and, List.forall_mem_map] at *
      intro b hb
      obtain ⟨a, ha, hab⟩ := forall₂_mem_right h hb
      exact hab.negated ((Expr.proper_or.1 he.proper).1 a ha) t ht (hn a ha)
    | implies h₁ h₂ =>
      rw [Expr.negated_implies, Expr.holds_and] at *
      simp only [List.forall_mem_cons, List.not_mem_nil, false_imp_iff, implies_true, and_true] at *
      exact ⟨(h₁.stands.holds_iff ht).2 hn.1, h₂.negated (Expr.proper_implies.1 he.proper).1.2 t ht hn.2⟩
    | not h =>
      rw [Expr.negated_not] at *
      exact (h.stands.holds_iff ht).2 hn
    | cmp r h₁ h₂ =>
      rw [Expr.negated_cmp, Expr.holds_cmp] at *
      rwa [h₁.stands.exact t ht, h₂.stands.exact t ht]
    | constraint h =>
      rw [Expr.negated_constraint, Expr.holds_not] at *
      exact (hstands.fails_iff ht).2 hn
    | sum _ | wsum _ | sub _ _ | mul _ _ | neg _ | function _ => cases hb
  · intro hs
    cases h with
    | simple => exact hs
    | _ => cases hs
  · rintro g rfl
    cases h with
    | simple h => cases h
    | function h => exact .inr ⟨_, rfl⟩

end

variable {caps : Capabilities} {context : Context}

/-- A function is not taken less when the ranges of its arguments shrink. -/
theorem takes_related {g g' : Function Expr} {kept : Bool} (h : g.Related (fun a b => b.range ⊆ a.range) g')
    (hg : takes caps context g = .ok true) (hg' : takes caps context g' = .ok kept) : kept := by
  unfold takes at hg hg'
  rw [← h.name_eq] at hg'
  split at hg
  · cases hg
  · rename_i htop
    rw [if_neg htop] at hg'
    split at hg
    · rename_i hcontext
      rw [if_pos hcontext] at hg'
      cases hg'
      rfl
    · rename_i hcontext
      rw [if_neg hcontext] at hg'
      obtain ⟨total, ht, hg⟩ := Checked.bind_eq_ok.1 hg
      obtain ⟨total', ht', hg'⟩ := Checked.bind_eq_ok.1 hg'
      cases hg'
      have hkept : (total || caps.supports .nested g.name) = true := Except.ok.inj hg
      rcases Bool.or_eq_true_iff.1 hkept with hkept | hkept
      · exact Bool.or_eq_true_iff.2 (.inl ((Expr.isTotal_iff ht').2
          (Function.totalHere_of_related h ((Expr.isTotal_iff ht).1 hkept))))
      · exact Bool.or_eq_true_iff.2 (.inr hkept)

def Standing (caps : Capabilities) (context : Context) (w : World) (e : Expr) : Prop :=
  e.Defined w ∨ ∃ g, e = .function g ∧ takes caps context g = .ok true

structure Meanings (caps : Capabilities) (depth : Nat) : Prop where
  expr (context : Context) (w : World) (e : Expr) : Ready w e → Standing caps context w e →
    (expr caps depth context e).Refining (.refines True) trusted w fun e' w' => Faithful w' e e'
  comparison (context : Context) (w : World) (r : Relation) (a b : Expr) : Ready w (.cmp r a b) →
    (comparison caps depth context r a b).Refining (.refines True) trusted w fun e' w' => Faithful w' (.cmp r a b) e'
  parts (context : Context) (w : World) (d : Decomposition) (τ : Store) (e : Expr) : d.Replaces False w τ e →
    Ready w e → e.isBool → e.isSimple = false → w.Inhabited →
    (parts caps depth context d).Sat False τ fun e' N υ => ∃ w' : World, w'.store = υ ∧
      w'.constraints = w.constraints ++ N ∧ w.Refines True w' ∧ trusted.holds w N w' ∧ Faithful w' e e'

theorem takes_of_untaken? {a : Expr} (h : untaken? caps context a = .ok none) :
    ∀ g, a = .function g → takes caps context g = .ok true := by
  rintro g rfl
  obtain ⟨kept, hkept, h⟩ := Checked.bind_eq_ok.1 h
  cases kept with
  | true => exact hkept
  | false => cases h

theorem takes_of_untakenSide? {r : Relation} {a b : Expr} (h : untakenSide? caps context r a b = .ok none) :
    (∀ g, a = .function g → takes caps context g = .ok true) ∧
      ∀ g, b = .function g → takes caps context g = .ok true := by
  obtain ⟨a?, ha, h⟩ := Checked.bind_eq_ok.1 h
  obtain ⟨b?, hb, h⟩ := Checked.bind_eq_ok.1 h
  split at h
  · cases h
  · cases h
  · exact ⟨takes_of_untaken? ha, takes_of_untaken? hb⟩

section

variable {depth : Nat} (ih : Meanings caps depth) {w : World} {e a b : Expr}

include ih

theorem parts_meaning {d : Decomposition} {τ : Store} (h : d.Replaces False w τ e) (he : Ready w e)
    (hb : e.isBool) (hs : e.isSimple = false) (hw : w.Inhabited) :
    (parts caps (depth + 1) context d).Sat False τ fun e' N υ => ∃ w' : World, w'.store = υ ∧
      w'.constraints = w.constraints ++ N ∧ w.Refines True w' ∧ trusted.holds w N w' ∧ Faithful w' e e' := by
  obtain ⟨v, rfl, hv, hr, hholds⟩ := h.refines
  have hsound : ∀ c ∈ d.constraining, c.isBool ∧ c.Sound False v := fun c hc =>
    ⟨(h.constraining c hc).1, (h.constraining c hc).2.mono (World.widen_le hr.le)⟩
  have hconjuncts : (d.constraining.mapM (expr caps depth context)).Refining (.refines True) trusted v
      fun es w' => List.Forall₂ (Faithful w') d.constraining es :=
    (refining (.refines True) trusted).mapM faithful_stable fun c hc w' hr' => by
      have hc := (hsound c hc).2.mono hr'.le
      exact ih.expr context w' c ⟨hc.proper, fun t ht => hc.tame ht⟩ (.inl hc.defined)
  rw [parts]
  refine (hconjuncts (hr.keeps hw)).bind ?_
  rintro es N _ - ⟨w', rfl, hw', hr', htrusted, hes⟩
  refine Defining.Sat.defineAll.bind ?_
  rintro _ _ _ - ⟨rfl, rfl⟩
  have hmem : ∀ c, c ∈ w.constraints ++ (N ++ (d.defining ++ [])) ↔ c ∈ w'.constraints := by
    simp only [hw', hv, List.append_nil, List.mem_append]
    tauto
  -- The conjuncts are examined in the world of the definitions, but these are
  -- collected after what examining the conjuncts adds.
  let m : World := ⟨w'.store, w.constraints ++ (N ++ (d.defining ++ [])), fun c hc => w'.proper c ((hmem c).1 hc)⟩
  have hm : w'.Refines True m := World.refines_of_mem rfl hmem
  have back {t : Assignment} (ht : m.Admits t) : w'.Admits t := hm.sound t ht
  have hconj {t : Assignment} (ht : w'.Admits t) : ∀ e' ∈ es, ∃ c ∈ d.constraining,
      Faithful w' c e' ∧ c.Valued t ∧ e'.Valued t := by
    intro e' he'
    obtain ⟨c, hc, hce⟩ := forall₂_mem_right hes he'
    have hv := (hsound c hc).2.valued (hr'.sound t ht)
    exact ⟨c, hc, hce, hv, hce.stands.valued ht hv⟩
  have hall : ∀ e' ∈ es, e'.isBool ∧ e'.Proper w'.store.Owns := by
    intro e' he'
    obtain ⟨c, hc, hce⟩ := forall₂_mem_right hes he'
    exact ⟨hce.isBool.trans (hsound c hc).1, hce.stands.proper⟩
  have hbool : (Expr.all es).isBool := Expr.isBool_all fun e' he' => (hall e' he').1
  have hproper : (Expr.all es).Proper w'.store.Owns :=
    Expr.proper_all (fun e' he' => (hall e' he').1) fun e' he' => (hall e' he').2
  have htame {t : Assignment} (ht : w'.Admits t) : (Expr.all es).Tame t := Expr.tame_all fun e' he' => by
    obtain ⟨c, -, hce, -, hv⟩ := hconj ht e' he'
    exact ⟨hce.tame t ht, hv⟩
  have hiff {t : Assignment} (ht : w'.Admits t) : (Expr.all es).Holds t ↔ e.Holds t := by
    rw [Expr.holds_all, ← hholds t (hr'.sound t ht)]
    constructor
    · intro h c hc
      obtain ⟨e', he', hce⟩ := forall₂_mem_left hes hc
      exact (hce.stands.holds_iff ht).1 (h e' he')
    · intro h e' he'
      obtain ⟨c, hc, hce, -⟩ := hconj ht e' he'
      exact (hce.stands.holds_iff ht).2 (h c hc)
  refine .pure ⟨m, rfl, rfl, (hr.trans hr').trans hm, ⟨?_, fun t ht hadmits hN => ?_⟩, ?_, fun t ht => htame (back ht),
    fun _ t ht hn => ?_, hbool.trans hb.symm, by simp [hs], fun g hg => ?_⟩
  · rw [List.append_nil]
    exact List.forall_mem_append.2 ⟨htrusted.1, fun c hc => h.isBool c (List.mem_append_right _ hc)⟩
  · obtain ⟨hN, hd⟩ := List.forall_mem_append.1 hN
    rw [List.append_nil] at hd
    have hwiden : (w.widen v.store h.grows).Admits t := ⟨ht.mono hr'.grows, hadmits.holds⟩
    have hdefining : ∀ c ∈ d.defining, c.Tame t := fun c hc => (h.sound c (List.mem_append_right _ hc)).tame hwiden
    have hv' : v.Admits t := ⟨ht.mono hr'.grows, hv ▸ List.forall_mem_append.2
      ⟨hadmits.holds, fun c hc => hd c hc (hdefining c hc)⟩⟩
    rw [List.append_nil]
    exact List.forall_mem_append.2 ⟨htrusted.2 t ht hv' hN, hdefining⟩
  · refine World.Stands.of_holds (he.mono ((hr.trans hr').trans hm).le).proper hb hproper hbool ?_ fun t ht => ?_
    · rw [Expr.range_of_isBool hb hs]
      exact hproper.range_eq hbool
    · have ht := back ht
      exact ⟨he.defined hb t (hr.sound t (hr'.sound t ht)), (htame ht).valued hproper hbool ht.within, hiff ht⟩
  · have ht := back ht
    have hadmits := hr.sound t (hr'.sound t ht)
    have hfails := (he.tame t hadmits).fails_of_negated he.proper hb hadmits.within hn
    rw [(he.defined hb t hadmits).fails_iff, ← hholds t (hr'.sound t ht)] at hfails
    simp only [not_forall] at hfails
    obtain ⟨c, hc, hfails⟩ := hfails
    have hregular := (hsound c hc).2.regular t (hr'.sound t ht)
    obtain ⟨e', he', hce⟩ := forall₂_mem_left hes hc
    refine Expr.holds_negated_all.2 ⟨e', he', hce.negated (hsound c hc).1 t ht ?_⟩
    exact (hregular.invertible (hsound c hc).1).2 (hregular.valued.fails_iff.2 hfails)
  · subst hg
    cases hb

theorem args_meaning (he : Ready w e) (hd : ∀ a ∈ e.args, a.Defined w) : ∀ a ∈ e.args, ∀ w', w.Refines True w' →
    (expr caps depth (argContext context a) a).Refining (.refines True) trusted w' fun b w'' => Faithful w'' a b :=
  fun a ha w' hr => ih.expr _ w' a ((he.arg ha).mono hr.le) (.inl ((hd a ha).mono hr.le))

omit ih in
theorem function_args_regular {g : Function Expr} (he : Ready w (.function g)) :
    ∀ a ∈ g.args, ∀ t, w.Admits t → a.Regular t := fun a ha t ht =>
  ⟨((he.tame t ht).arg ha), ((he.tame t ht).here a ha).1, ((he.tame t ht).here a ha).2⟩

omit ih in
/-- The arguments of a function that have been examined. -/
theorem sound_args {g g' : Function Expr} {w' : World} (he : Ready w (.function g)) (hr : w.Refines True w')
    (h : g.Related (Faithful w') g') : ∀ a ∈ g'.args, a.Sound False w' := by
  intro b hb
  obtain ⟨a, ha, hab⟩ := forall₂_mem_right h.args hb
  exact hab.sound fun t ht => function_args_regular he a ha t (hr.sound t ht)

theorem untakenSide_meaning {r s : Relation} {other : Expr} {g : Function Expr}
    (h : a = .function g ∧ s = r ∧ other = b ∨ b = .function g ∧ s = r.converse ∧ other = a)
    (he : Ready w (.cmp r a b)) : Defining.Refining (.refines True) trusted (do
      let g ← g.mapM fun a => expr caps depth (argContext context a) a
      let other ← expr caps depth (argContext context other) other
      parts caps depth context (← g.decompose s other)) w fun e' w' => Faithful w' (.cmp r a b) e' := by
  have hg : Ready w (.function g) := by
    rcases h with ⟨rfl, -, -⟩ | ⟨rfl, -, -⟩
    · exact he.arg (by simp [Expr.args])
    · exact he.arg (by simp [Expr.args])
  have hother : Ready w other ∧ ∀ t, w.Admits t → other.Regular t := by
    rcases h with ⟨-, -, rfl⟩ | ⟨rfl, -, rfl⟩
    · have hb := he.arg (a := other) (by simp [Expr.args])
      exact ⟨hb, fun t ht => ⟨hb.tame t ht, (he.tame t ht).here.2.2, (he.tame t ht).here.2.1⟩⟩
    · have ha := he.arg (a := other) (by simp [Expr.args])
      exact ⟨ha, fun t ht => ⟨ha.tame t ht, (he.tame t ht).here.1.2.resolve_left (by simp [Expr.isSimple]),
        (he.tame t ht).here.1.1⟩⟩
  refine ((refining (.refines True) trusted).function_mapM faithful_stable (args_meaning ih hg fun x hx t ht =>
    (function_args_regular hg x hx t ht).valued)).bind fun g' w₁ hr₁ hg' => ?_
  refine (ih.expr _ w₁ other (hother.1.mono hr₁.le) (.inl fun t ht => (hother.2 t (hr₁.sound t ht)).valued)).bind
    fun other' w₂ hr₂ ho => ?_
  have hr := hr₁.trans hr₂
  replace hg' : g.Related (Faithful w₂) g' := hg'.mono fun _ _ h => h.mono hr₂
  refine .lift_bind (g'.decompose_sat s other') fun hw₂ d τ _ hd => ?_
  have hstands : w₂.Stands (.function g) (.function g') :=
    .mapped (.function (hg'.mono fun _ _ h => h.stands)) (hg.mono hr.le).proper hw₂.habitable
  have hreplaces := hd.replaces hw₂ (Expr.proper_function.1 hstands.proper).1 (sound_args hg hr hg')
    (ho.sound fun t ht => hother.2 t (hr.sound t ht))
  refine ih.parts context w₂ d τ _ (hreplaces.congr fun t ht => ?_) (he.mono hr.le) rfl rfl hw₂
  exact World.Stands.holds_cmp h (he.mono hr.le).proper hw₂.habitable hstands ho.stands ht

theorem comparison_meaning {r : Relation} (he : Ready w (.cmp r a b)) :
    (comparison caps (depth + 1) context r a b).Refining (.refines True) trusted w fun e' w' =>
      Faithful w' (.cmp r a b) e' := by
  rw [comparison]
  refine .checked_bind fun found? hfound => ?_
  split
  · exact untakenSide_meaning ih (untakenSide?_eq_ok hfound) he
  · obtain ⟨hga, -⟩ := takes_of_untakenSide? hfound
    have ha := he.arg (a := a) (by simp [Expr.args])
    have hb := he.arg (a := b) (by simp [Expr.args])
    have hstanding : Standing caps (argContext context a) w a := by
      by_cases hg : ∃ g, a = .function g
      · obtain ⟨g, rfl⟩ := hg
        exact .inr ⟨g, rfl, hga g rfl⟩
      · exact .inl fun t ht => (he.tame t ht).here.1.2.resolve_left fun h => hg h.1
    refine .assume fun hw => (ih.expr _ w a ha hstanding).bind fun a' w₁ hr₁ ha' => ?_
    refine (ih.expr _ w₁ b (hb.mono hr₁.le) (.inl fun t ht => (he.tame t (hr₁.sound t ht)).here.2.2)).bind
      fun b' w₂ hr₂ hb' => .pure ?_
    have hr := hr₁.trans hr₂
    exact faithful_mapped (.cmp r (ha'.mono hr₂) hb') (he.mono hr.le) (hr.keeps hw).habitable

theorem constraint_meaning {c : Constraint Expr} (he : Ready w (.constraint c)) :
    (expr caps (depth + 1) context (.constraint c)).Refining (.refines True) trusted w
      fun e' w' => Faithful w' (.constraint c) e' := by
  have hregular : ∀ a ∈ c.args, ∀ t, w.Admits t → a.Regular t := fun a ha t ht =>
    ⟨(he.tame t ht).arg ha, ((he.tame t ht).here.2 a ha).1, ((he.tame t ht).here.2 a ha).2⟩
  rw [expr]
  refine .assume fun hw => ((refining (.refines True) trusted).constraint_mapM faithful_stable
    (args_meaning ih he fun a ha t ht =>
    (hregular a ha t ht).valued)).bind fun c' w₁ hr hc' => ?_
  have hex := faithful_mapped (.constraint hc') (he.mono hr.le) (hr.keeps hw).habitable
  split
  · exact .pure hex
  · refine .lift_bind c'.decompose_sat fun hw₁ d τ _ hd => ?_
    obtain ⟨t, ht⟩ := hw₁
    have hreplaces := hd.replaces ⟨t, ht⟩ (Expr.proper_constraint.1 hex.stands.proper).1 (hex.tame t ht).here.1
      fun b hb => by
        obtain ⟨a, ha, hab⟩ := forall₂_mem_right hc'.args hb
        exact hab.sound fun t ht => hregular a ha t (hr.sound t ht)
    exact ih.parts context w₁ d τ _ (hreplaces.congr fun t ht => hex.stands.holds_iff ht) (he.mono hr.le) rfl
      rfl ⟨t, ht⟩

omit ih in
/-- A function that is not taken is given a variable that is defined to have its
value. -/
theorem lift_meaning {g g' : Function Expr} (he : Ready w (.function g)) (hd : (Expr.function g).Defined w)
    (hg : g.Related (Faithful w) g') : Defining.Refining (.refines True) trusted (do
      let x ← freshInt (← (Expr.function g').bounds)
      defineAll (← g'.decompose .eq x).toList
      return x) w fun e' w' => Faithful w' (.function g) e' := by
  refine .checked_bind fun bounds hbounds => .lift_bind (Lowering.Sat.freshInt bounds) ?_
  rintro hw _ τ - ⟨x, rfl, hx, hxb, rfl⟩
  have hex := faithful_mapped (.function hg) he hw.habitable
  obtain hrange := (Expr.function g').range_of_bounds _ hbounds
  have hvalued {t : Assignment} (ht : w.Admits t) : (Expr.function g').Valued t := hex.stands.valued ht (hd t ht)
  have hle := World.le_widen hx.grows
  have hdef : (Expr.cmp .eq (.function g') (.var x)).Proper τ.Owns :=
    Expr.proper_cmp.2 ⟨hex.stands.proper.imp fun _ hx' => hx'.mono hx.grows, Expr.proper_var.2 hx.owns⟩
  let v : World := (w.widen τ hx.grows).post [.cmp .eq (.function g') (.var x)] (List.forall_mem_singleton.2 hdef)
  have hv : w.Refines True v := World.refines_define hw hx hex.stands.proper (fun t ht => ⟨hvalued ht, by
    rw [hrange]
    exact (hvalued ht).num_mem_range (Expr.Over.inBounds hex.stands.proper.scope ht.within)⟩) (.inl rfl) rfl
  have hin : (w.widen τ hx.grows).Inhabited := (hv.keeps hw).imp fun t ht => (World.admits_post.1 ht).1
  refine Defining.Sat.bind (Defining.Sat.lift (g'.decompose_sat .eq (.var x))) ?_
  rintro d _ υ - ⟨rfl, hd'⟩
  have hreplaces := hd'.replaces (q := False) (w := w.widen τ hx.grows) hin
    (Expr.proper_function.1 hex.stands.proper).1 (fun b hb => (sound_args he (.refl w) hg b hb).mono hle)
    (Expr.sound_var hx.owns)
  obtain ⟨w', rfl, hw', hr⟩ := hreplaces.posted (v := v) rfl fun c => List.mem_append.trans (by simp)
  refine Defining.Sat.defineAll.bind ?_
  rintro _ _ _ - ⟨rfl, rfl⟩
  refine .pure ⟨w', rfl, by rw [hw', List.nil_append, List.append_nil]; rfl, hv.trans hr,
    ⟨?_, fun t ht hadmits _ => ?_⟩,
    ⟨⟨?_, by simp [Expr.isBool], ?_, fun t ht => ?_⟩, fun t _ => Expr.tame_of_isSimple rfl, by simp [Expr.isBool],
      Bool.eq_false_of_not_eq_true hxb, fun _ => rfl, fun _ _ => .inl (hd.mono (hv.trans hr).le)⟩⟩
  · rw [List.nil_append, List.append_nil]
    exact hreplaces.isBool
  · rw [List.nil_append, List.append_nil]
    have hwiden : ((w.widen τ hx.grows).widen w'.store hreplaces.grows).Admits t := ⟨ht, hadmits.holds⟩
    exact fun c hc => (hreplaces.sound c hc).tame hwiden
  · exact Expr.proper_var.2 (hx.owns.mono hreplaces.grows)
  · rw [Expr.range, hrange]
    exact hex.stands.range
  · have ht' := hr.sound t ht
    obtain ⟨hwiden, hholds⟩ := World.admits_post.1 ht'
    have hadmits := hle.2 t hwiden
    rw [List.forall_mem_singleton, (show World.IsDefinition x _ _ from .inl rfl).holds_iff (hvalued hadmits)
      (World.valued_var hx.owns.1 hwiden.within)] at hholds
    rw [Expr.exact_var, hholds, ← (hvalued hadmits).exact_eq, hex.stands.exact t hadmits]

theorem function_meaning {g : Function Expr} (he : Ready w (.function g))
    (hs : Standing caps context w (.function g)) :
    (expr caps (depth + 1) context (.function g)).Refining (.refines True) trusted w
      fun e' w' => Faithful w' (.function g) e' := by
  rw [expr]
  refine .assume fun hw => ((refining (.refines True) trusted).function_mapM faithful_stable
    (args_meaning ih he fun a ha t ht =>
    (function_args_regular he a ha t ht).valued)).bind fun g' w₁ hr hg' => .checked_bind fun kept hkept => ?_
  have hex := faithful_mapped (.function hg') (he.mono hr.le) (hr.keeps hw).habitable
  split
  · exact .pure hex
  · refine lift_meaning (he.mono hr.le) (hs.elim (fun hd => hd.mono hr.le) ?_) hg'
    rintro ⟨_, hg, htakes⟩
    cases hg
    have := takes_related (hg'.mono fun _ _ h => h.stands.range) htakes hkept
    contradiction

theorem expr_meaning (he : Ready w e) (hs : Standing caps context w e) :
    (expr caps (depth + 1) context e).Refining (.refines True) trusted w fun e' w' => Faithful w' e e' := by
  have simple (hs : e.isSimple) :
      (Pure.pure e : Defining Expr).Refining (.refines True) trusted w fun e' w' => Faithful w' e e' :=
    .assume fun hw => .pure (faithful_mapped (.simple hs) he hw.habitable)
  have mapped (hcall : ∀ d, e ≠ .call d) (hcmp : ∀ r a b, e ≠ .cmp r a b) :
      (e.mapArgsM fun a => expr caps depth (argContext context a) a).Refining (.refines True) trusted w
        fun e' w' => Faithful w' e e' :=
    .assume fun hw => ((refining (.refines True) trusted).mapArgsM faithful_stable hcall
      (args_meaning ih he fun a ha t ht =>
      (he.tame t ht).here.valued hcmp a ha)).imp fun e' w' hr h =>
        faithful_mapped h (he.mono hr.le) (hr.keeps hw).habitable
  cases e with
  | bool _ | int _ | var _ | negVar _ => rw [expr]; exact simple rfl
  | cmp r a b => rw [expr]; exact ih.comparison context w r a b he
  | constraint c => exact constraint_meaning ih he
  | function g => exact function_meaning ih he hs
  | call d => exact absurd he.proper Expr.proper_call
  | _ => rw [expr] <;> first | exact mapped (by simp) (by simp) | simp

end

theorem meanings (caps : Capabilities) (depth : Nat) : Meanings caps depth := by
  induction depth with
  | zero => exact {
      expr := fun _ _ _ _ _ => .throw
      comparison := fun _ _ _ _ _ _ => .throw
      parts := fun _ _ _ _ _ _ _ _ _ _ => .throw False.elim }
  | succ depth ih => exact {
      expr := fun _ _ _ => expr_meaning ih
      comparison := fun _ _ _ _ _ => comparison_meaning ih
      parts := fun _ _ _ _ _ => parts_meaning ih }

end Supported

end ConstraintModel
