import ConstraintModel.Proofs.Calculus
import ConstraintModel.Proofs.Fresh
import ConstraintModel.Proofs.Yields

namespace ConstraintModel

def Local (σ : Store) (p : Assignment → Prop) : Prop := ∀ s t, s.Agrees σ.size t → p s → p t

theorem Local.mono {σ τ : Store} {p : Assignment → Prop} (h : Local σ p) (hg : σ.Grows τ) : Local τ p :=
  fun s t hst => h s t (hst.mono hg.size_le)

def Store.Habitable (σ : Store) : Prop := ∃ s : Assignment, s.Within σ

structure World where
  store : Store
  constraints : List Expr
  proper : ∀ e ∈ constraints, e.Proper store.Owns

namespace World

structure Admits (w : World) (s : Assignment) : Prop where
  within : s.Within w.store
  holds : ∀ e ∈ w.constraints, e.Holds s

/-- The second world has the same solutions as the first, apart from the
variables that are new in it. Their values are determined by the others if
`u` holds. -/
structure Refines (u : Prop) (w w' : World) : Prop where
  grows : w.store.Grows w'.store
  complete : ∀ s, w.Admits s → ∃ t, w'.Admits t ∧ s.Agrees w.store.size t
  sound : ∀ t, w'.Admits t → w.Admits t
  unique : u → ∀ t t', w'.Admits t → w'.Admits t' → t.Agrees w.store.size t' →
    t.Agrees w'.store.size t'
  habitable : w.store.Habitable → w'.store.Habitable

variable {u : Prop} {w w' w'' : World} {s t : Assignment} {es fs : List Expr}

theorem scope (w : World) {e : Expr} (he : e ∈ w.constraints) : e.Over w.store := (w.proper e he).scope

theorem Admits.congr (h : w.Admits s) (hst : s.Agrees w.store.size t) : w.Admits t :=
  ⟨h.within.congr hst, fun e he => ((w.scope he).holds_congr hst).1 (h.holds e he)⟩

instance : Preorder World where
  le w w' := w.store.Grows w'.store ∧ ∀ t, w'.Admits t → w.Admits t
  le_refl _ := ⟨.refl _, fun _ h => h⟩
  le_trans _ _ _ h h' := ⟨h.1.trans h'.1, fun t ht => h.2 t (h'.2 t ht)⟩

theorem Refines.le (h : w.Refines u w') : w ≤ w' := ⟨h.grows, h.sound⟩

theorem Refines.refl (w : World) : w.Refines u w :=
  ⟨.refl _, fun s hs => ⟨s, hs, .refl _ _⟩, fun _ h => h, fun _ _ _ _ _ h => h, id⟩

theorem Refines.trans (h : w.Refines u w') (h' : w'.Refines u w'') : w.Refines u w'' := by
  refine ⟨h.grows.trans h'.grows, fun s hs => ?_, fun t ht => h.sound t (h'.sound t ht),
    fun hu t t' ht ht' hagree => ?_, fun hs => h'.habitable (h.habitable hs)⟩
  · obtain ⟨t, ht, hst⟩ := h.complete s hs
    obtain ⟨v, hv, htv⟩ := h'.complete t ht
    exact ⟨v, hv, hst.trans (htv.mono h.grows.size_le)⟩
  · exact h'.unique hu t t' ht ht' (h.unique hu t t' (h'.sound t ht) (h'.sound t' ht') hagree)

/-- An assignment is a solution exactly if it can be extended to one of the
second world. -/
theorem Refines.holds_iff_extends (h : w.Refines u w') (hs : s.Within w.store) :
    (∀ e ∈ w.constraints, e.Holds s) ↔ ∃ t, w'.Admits t ∧ s.Agrees w.store.size t := by
  constructor
  · exact fun hholds => h.complete s ⟨hs, hholds⟩
  · rintro ⟨t, ht, hst⟩ e he
    exact ((w.scope he).holds_congr hst).2 ((h.sound t ht).holds e he)

theorem Refines.relax (h : w.Refines True w') : w.Refines u w' :=
  ⟨h.grows, h.complete, h.sound, fun _ => h.unique trivial, h.habitable⟩

/-- Nothing but the solutions matters. -/
theorem refines_of_admits (hstore : w'.store = w.store) (h : ∀ t, w'.Admits t ↔ w.Admits t) :
    w.Refines u w' := by
  refine ⟨hstore ▸ .refl _, fun s hs => ⟨s, (h s).2 hs, .refl _ _⟩, fun t ht => (h t).1 ht, ?_, ?_⟩ <;>
    rw [hstore]
  · exact fun _ _ _ _ _ h => h
  · exact id

def Inhabited (w : World) : Prop := ∃ s, w.Admits s

theorem Refines.keeps (h : w.Refines u w') (hw : w.Inhabited) : w'.Inhabited := by
  obtain ⟨s, hs⟩ := hw
  obtain ⟨t, ht, -⟩ := h.complete s hs
  exact ⟨t, ht⟩

theorem Inhabited.habitable (hw : w.Inhabited) : w.store.Habitable := hw.imp fun _ hs => hs.within

def bare (σ : Store) : World := ⟨σ, [], by simp⟩

theorem admits_bare {σ : Store} : (bare σ).Admits s ↔ s.Within σ :=
  ⟨fun h => h.within, fun h => ⟨h, by simp [bare]⟩⟩

theorem bare_mono {σ τ : Store} (hg : σ.Grows τ) : bare σ ≤ bare τ :=
  ⟨hg, fun _ ht => admits_bare.2 ((admits_bare.1 ht).mono hg)⟩

theorem inhabited_bare {σ : Store} (h : σ.Habitable) : (bare σ).Inhabited :=
  h.imp fun _ => admits_bare.2

def post (w : World) (es : List Expr) (h : ∀ e ∈ es, e.Proper w.store.Owns) : World :=
  ⟨w.store, w.constraints ++ es, List.forall_mem_append.2 ⟨w.proper, h⟩⟩

theorem admits_post {h : ∀ e ∈ es, e.Proper w.store.Owns} :
    (w.post es h).Admits s ↔ w.Admits s ∧ ∀ e ∈ es, e.Holds s := by
  constructor
  · intro hs
    exact ⟨⟨hs.within, fun e he => hs.holds e (List.mem_append_left _ he)⟩,
      fun e he => hs.holds e (List.mem_append_right _ he)⟩
  · rintro ⟨hw, hs⟩
    exact ⟨hw.within, List.forall_mem_append.2 ⟨hw.holds, hs⟩⟩

theorem proper_mono {σ τ : Store} (hg : σ.Grows τ) (h : ∀ e ∈ es, e.Proper σ.Owns) :
    ∀ e ∈ es, e.Proper τ.Owns := fun e he => (h e he).imp fun _ hx => hx.mono hg

/-- Constraints over the old variables can be posted before or after the
step. -/
theorem Refines.post (h : w.Refines u w') (hes : ∀ e ∈ es, e.Proper w.store.Owns) :
    (w.post es hes).Refines u (w'.post es (proper_mono h.grows hes)) := by
  refine ⟨h.grows, fun s hs => ?_, fun t ht => ?_, fun hu t t' ht ht' => ?_, h.habitable⟩
  · obtain ⟨hw, hs⟩ := admits_post.1 hs
    obtain ⟨t, ht, hst⟩ := h.complete s hw
    exact ⟨t, admits_post.2 ⟨ht, fun e he => (Expr.Over.holds_congr (hes e he).scope hst).1 (hs e he)⟩,
      hst⟩
  · obtain ⟨hw, ht⟩ := admits_post.1 ht
    exact admits_post.2 ⟨h.sound t hw, ht⟩
  · exact h.unique hu t t' (admits_post.1 ht).1 (admits_post.1 ht').1

/-- Constraints are replaced by others that say the same. -/
theorem refines_post {hes : ∀ e ∈ es, e.Proper w.store.Owns} {hfs : ∀ e ∈ fs, e.Proper w.store.Owns}
    (h : ∀ t, w.Admits t → ((∀ f ∈ fs, f.Holds t) ↔ ∀ e ∈ es, e.Holds t)) :
    (w.post es hes).Refines u (w.post fs hfs) :=
  refines_of_admits rfl fun t => by rw [admits_post, admits_post, and_congr_right (h t)]

/-- Neither the order of the constraints nor repetitions matter. -/
theorem refines_of_mem (hstore : w'.store = w.store) (h : ∀ e, e ∈ w'.constraints ↔ e ∈ w.constraints) :
    w.Refines u w' := by
  refine refines_of_admits hstore fun t => ?_
  constructor
  · exact fun ht => ⟨hstore ▸ ht.within, fun e he => ht.holds e ((h e).2 he)⟩
  · exact fun ht => ⟨hstore ▸ ht.within, fun e he => ht.holds e ((h e).1 he)⟩

/-- The step is taken in the presence of further constraints. -/
theorem Refines.frame {v v' : World} (es : List Expr) (h : w.Refines u w') (hv : v.store = w.store)
    (hmem : ∀ e, e ∈ v.constraints ↔ e ∈ w.constraints ∨ e ∈ es) (hv' : v'.store = w'.store)
    (hmem' : ∀ e, e ∈ v'.constraints ↔ e ∈ w'.constraints ∨ e ∈ es) : v.Refines u v' := by
  have hes : ∀ e ∈ es, e.Proper w.store.Owns := fun e he => hv ▸ v.proper e ((hmem e).2 (.inr he))
  have hstart : v.Refines u (w.post es hes) :=
    refines_of_mem hv.symm fun e => by rw [hmem e]; exact List.mem_append
  have hend : (w'.post es (proper_mono h.grows hes)).Refines u v' :=
    refines_of_mem hv' fun e => by rw [hmem' e]; exact List.mem_append.symm
  exact (hstart.trans (h.post hes)).trans hend

def widen (w : World) (τ : Store) (hg : w.store.Grows τ) : World :=
  ⟨τ, w.constraints, fun e he => (w.proper e he).imp fun _ hx => hx.mono hg⟩

theorem le_widen {τ : Store} (hg : w.store.Grows τ) : w ≤ w.widen τ hg :=
  ⟨hg, fun _ ht => ⟨ht.within.mono hg, ht.holds⟩⟩

/-- Among the worlds above a world, the one with the same constraints is the
lowest over its store. -/
theorem widen_le (h : w ≤ w') : w.widen w'.store h.1 ≤ w' :=
  ⟨.refl _, fun t ht => ⟨ht.within, (h.2 t ht).holds⟩⟩

/-- A new variable is defined by constraints that hold for a single value,
which the old variables determine. -/
theorem refines_create (hw : w.Inhabited) {x : Variable} (hx : w.store.Creates x w'.store)
    {ds : List Expr} (hds : w'.constraints = w.constraints ++ ds) {v : Assignment → Int}
    (hv : ∀ s, w.Admits s → v s ∈ x.bounds)
    (hcongr : ∀ s t, s.Agrees w.store.size t → v s = v t)
    (hd : ∀ t, t.Within w'.store → w.Admits t →
      ((∀ d ∈ ds, d.Holds t) ↔ t.value? x = some (v t))) : w.Refines u w' := by
  have hold (t : Assignment) : w'.Admits t ↔ t.Within w'.store ∧ w.Admits t ∧ ∀ d ∈ ds, d.Holds t := by
    constructor
    · intro ht
      have hholds := ht.holds
      rw [hds, List.forall_mem_append] at hholds
      exact ⟨ht.within, ⟨ht.within.mono hx.grows, hholds.1⟩, hholds.2⟩
    · rintro ⟨hw, ht, hholds⟩
      exact ⟨hw, hds ▸ List.forall_mem_append.2 ⟨ht.holds, hholds⟩⟩
  refine ⟨hx.grows, fun s hs => ?_, fun t ht => ((hold t).1 ht).2.1, fun _ t t' ht ht' hagree => ?_, ?_⟩
  · have hagree := Assignment.agrees_extend s hx (v s)
    have hw := hs.congr hagree
    have hwithin := hs.within.extend hx (hv s hs)
    refine ⟨s.assign x (v s), (hold _).2 ⟨hwithin, hw, (hd _ hwithin hw).2 ?_⟩, hagree⟩
    rw [Assignment.value?_assign_self, ← hcongr s _ hagree]
  · obtain ⟨hwithin, hw, hholds⟩ := (hold t).1 ht
    obtain ⟨hwithin', hw', hholds'⟩ := (hold t').1 ht'
    refine hagree.extend hx ?_
    rw [(hd t hwithin hw).1 hholds, (hd t' hwithin' hw').1 hholds', hcongr t t' hagree]
  · obtain ⟨s, hs⟩ := hw
    exact fun _ => ⟨_, hs.within.extend hx (hv s hs)⟩

structure Trace where
  holds : World → List Expr → World → Prop
  nil (w : World) : holds w [] w
  append {w w' w'' : World} {N M : List Expr} : w'.constraints = w.constraints ++ N →
    w'.store.Grows w''.store → holds w N w' → holds w' M w'' → holds w (N ++ M) w''

def Trace.each (P : Expr → Prop) : Trace :=
  ⟨fun _ N _ => ∀ d ∈ N, P d, fun _ => by simp, fun _ _ h h' => List.forall_mem_append.2 ⟨h, h'⟩⟩

/-- How a step leads from one world to the next, and the worlds that it can be
taken in. -/
structure Passage where
  starts : World → Prop
  leads : World → World → Prop
  refl (w : World) : leads w w
  trans {w w' w'' : World} : leads w w' → leads w' w'' → leads w w''
  keeps {w w' : World} : leads w w' → starts w → starts w'

def Passage.refines (u : Prop) : Passage := ⟨Inhabited, Refines u, .refl, .trans, Refines.keeps⟩

end World

namespace Defining

variable {α β : Type} {P : World.Passage} {T : World.Trace} {w : World} {x : Defining α} {f : α → Defining β}
  {Q Q' : α → World → Prop} {R : β → World → Prop}

def Refining (P : World.Passage) (T : World.Trace) (x : Defining α) (w : World) (Q : α → World → Prop) : Prop :=
  P.starts w → x.Sat False w.store fun a N τ => ∃ w' : World, w'.store = τ ∧
    w'.constraints = w.constraints ++ N ∧ P.leads w w' ∧ T.holds w N w' ∧ Q a w'

theorem Refining.pure {a : α} (h : Q a w) : Refining P T (pure a) w Q :=
  fun _ => .pure ⟨w, rfl, by simp, P.refl w, T.nil w, h⟩

theorem Refining.bind (hx : x.Refining P T w Q)
    (hf : ∀ a w', P.leads w w' → Q a w' → (f a).Refining P T w' R) :
    (x >>= f).Refining P T w R := by
  refine fun hw => (hx hw).bind ?_
  rintro a N τ - ⟨w', rfl, hN, hr, hT, ha⟩
  refine (hf a w' hr ha (P.keeps hr hw)).imp ?_
  rintro b M υ hg ⟨w'', rfl, hM, hr', hT', hb⟩
  exact ⟨w'', rfl, by rw [hM, hN, List.append_assoc], P.trans hr hr', T.append hN hg hT hT', hb⟩

theorem Refining.imp (hx : x.Refining P T w Q) (h : ∀ a w', P.leads w w' → Q a w' → Q' a w') :
    x.Refining P T w Q' := by
  refine fun hw => (hx hw).imp ?_
  rintro a N τ - ⟨w', hτ, hN, hr, hT, ha⟩
  exact ⟨w', hτ, hN, hr, hT, h a w' hr ha⟩

/-- Only a world that the step can be taken in needs to be considered. -/
theorem Refining.assume (h : P.starts w → x.Refining P T w Q) : x.Refining P T w Q := fun hw => h hw hw

def refining (P : World.Passage) (T : World.Trace) : Calculus Defining World where
  le := P.leads
  sat x w Q := x.Refining P T w Q
  refl := P.refl
  trans := P.trans
  pure := .pure
  bind := .bind
  imp := .imp

theorem Refining.throw {e : LoweringError} : Refining P T (throw e : Defining α) w Q :=
  fun _ => .throw False.elim

theorem Refining.checked {c : Checked α} (h : ∀ a, c = .ok a → Q a w) :
    Refining P T (liftM c : Defining α) w Q :=
  fun _ => .checked fun a ha => ⟨w, rfl, by simp, P.refl w, T.nil w, h a ha⟩

theorem Refining.checked_bind {c : Checked α} (h : ∀ a, c = .ok a → (f a).Refining P T w R) :
    (liftM c >>= f).Refining P T w R := fun hw => .checked_bind fun a ha => h a ha hw

/-- A step that starts by changes to the store. -/
theorem Refining.lift_bind {y : Lowering α} {K : α → Store → Prop} (hy : y.Sat False w.store K)
    (h : P.starts w → ∀ a τ, w.store.Grows τ → K a τ → (f a).Sat False τ fun b N υ =>
      ∃ w' : World, w'.store = υ ∧ w'.constraints = w.constraints ++ N ∧ P.leads w w' ∧
        T.holds w N w' ∧ R b w') : (liftM y >>= f).Refining P T w R := by
  refine fun hw => (Sat.lift hy).bind ?_
  rintro a N τ hg ⟨rfl, ha⟩
  exact h hw a τ hg ha

/-- All definitions that the step has left behind are in the new world. -/
theorem Refining.collect (h : x.Refining P T w Q) (hw : P.starts w) :
    x.collect.Sat False w.store fun p τ => ∃ w' : World, w'.store = τ ∧
      w'.constraints = w.constraints ++ p.2 ∧ P.leads w w' ∧ T.holds w p.2 w' ∧ Q p.1 w' :=
  (h hw).collect

end Defining

namespace Lowering

/-- The run of a pass over the constraints of a world, whose result takes their
place. What is required of the new constraints is kept when the store grows. -/
def Rewrites (u : Prop) (P : Store → Expr → Prop) (x : Lowering (List Expr)) (w : World) : Prop :=
  w.store.Habitable → x.Sat False w.store fun fs τ => ∃ w' : World, w'.store = τ ∧ w'.constraints = fs ∧
    w.Refines u w' ∧ ∀ f ∈ fs, P τ f

variable {u : Prop} {P Q : Store → Expr → Prop} {w w' : World} {x : Lowering (List Expr)}

theorem Rewrites.pure (h : ∀ f ∈ w.constraints, P w.store f) :
    Rewrites u P (pure w.constraints) w :=
  fun _ => .pure ⟨w, rfl, rfl, .refl w, h⟩

theorem Rewrites.throw {e : LoweringError} : Rewrites u P (throw e) w := fun _ => .throw False.elim

theorem Rewrites.bind {f : List Expr → Lowering (List Expr)} (hx : x.Rewrites u P w)
    (hf : ∀ w' : World, w.Refines u w' → (∀ e ∈ w'.constraints, P w'.store e) →
      (f w'.constraints).Rewrites u Q w') : (x >>= f).Rewrites u Q w := by
  refine fun hw => (hx hw).bind ?_
  rintro _ _ - ⟨w', rfl, rfl, hr, hP⟩
  refine (hf w' hr hP (hr.habitable hw)).imp ?_
  rintro fs τ - ⟨w'', hτ, hfs, hr', hQ⟩
  exact ⟨w'', hτ, hfs, hr.trans hr', hQ⟩

theorem Rewrites.relax (hx : x.Rewrites True P w) : x.Rewrites u P w := by
  refine fun hw => (hx hw).imp ?_
  rintro fs τ - ⟨w', hτ, hfs, hr, hP⟩
  exact ⟨w', hτ, hfs, hr.relax, hP⟩

/-- What is known about the result in all runs. -/
theorem Rewrites.and_yields {S : Expr → Prop} (hx : x.Rewrites u P w) (h : x.Yields True fun fs => ∀ f ∈ fs, S f) :
    x.Rewrites u (fun σ f => P σ f ∧ S f) w := by
  refine fun hw => ((hx hw).and (h.relax w.store)).imp ?_
  rintro fs τ - ⟨⟨w', hτ, hfs, hr, hP⟩, hS⟩
  exact ⟨w', hτ, hfs, hr, fun f hf => ⟨hP f hf, hS f hf⟩⟩

/-- The pass treats its inputs one by one and rewrites what each of them stands
for. -/
theorem rewrites_flatMap (hP : ∀ σ τ e, σ.Grows τ → P σ e → P τ e) {f : Expr → Lowering (List Expr)}
    {g : Expr → List Expr} {es : List Expr} (hw : w.constraints = es.flatMap g) (h : ∀ w' : World,
      w.store.Grows w'.store → ∀ e ∈ es, w'.constraints = g e → (f e).Rewrites u P w') :
    (do return (← es.mapM f).flatten : Lowering (List Expr)).Rewrites u P w := by
  intro hs
  suffices hparts : (es.mapM f).Sat False w.store fun parts τ => ∃ w' : World, w'.store = τ ∧
      w'.constraints = parts.flatten ∧ w.Refines u w' ∧ ∀ f ∈ parts.flatten, P τ f from
    hparts.bind fun _ _ _ hparts => .pure hparts
  induction es generalizing w with
  | nil => exact .pure ⟨w, rfl, hw, .refl w, by simp⟩
  | cons e es ih =>
    have hproper := w.proper
    rw [hw, List.flatMap_cons, List.forall_mem_append] at hproper
    rw [List.mapM_cons]
    let v : World := ⟨w.store, g e, hproper.1⟩
    refine (h v (.refl _) e (List.mem_cons_self ..) rfl hs).bind ?_
    rintro fs _ - ⟨v', rfl, rfl, hr, hfs⟩
    let r : World := ⟨v'.store, es.flatMap g, World.proper_mono hr.grows hproper.2⟩
    refine (ih (w := r) rfl (fun w' hg e he => h w' (hr.grows.trans hg) e (List.mem_cons_of_mem _ he))
      (hr.habitable hs)).bind ?_
    rintro parts _ - ⟨r', rfl, hparts, hr', hgs⟩
    let m : World := ⟨v'.store, v'.constraints ++ es.flatMap g, List.forall_mem_append.2 ⟨v'.proper, r.proper⟩⟩
    let w' : World := ⟨r'.store, v'.constraints ++ r'.constraints,
      List.forall_mem_append.2 ⟨World.proper_mono hr'.grows v'.proper, r'.proper⟩⟩
    refine .pure ⟨w', rfl, by simp [w', hparts], ?_, ?_⟩
    · have hfirst : w.Refines u m :=
        hr.frame (es.flatMap g) rfl (fun d => by rw [hw, List.flatMap_cons]; exact List.mem_append) rfl
          fun d => List.mem_append
      have hrest : m.Refines u w' := hr'.frame v'.constraints rfl
        (fun d => List.mem_append.trans or_comm) rfl fun d => List.mem_append.trans or_comm
      exact hfirst.trans hrest
    · rw [List.flatten_cons]
      exact List.forall_mem_append.2 ⟨fun f hf => hP _ _ f hr'.grows (hfs f hf), hgs⟩

/-- The pass treats the constraints one by one. -/
theorem rewrites_mapM (hP : ∀ σ τ e, σ.Grows τ → P σ e → P τ e) {f : Expr → Lowering (List Expr)}
    {es : List Expr} (hw : w.constraints = es) (h : ∀ w' : World, w.store.Grows w'.store → ∀ e ∈ es,
      w'.constraints = [e] → (f e).Rewrites u P w') :
    (do return (← es.mapM f).flatten : Lowering (List Expr)).Rewrites u P w :=
  rewrites_flatMap (g := fun e => [e]) hP (by rw [hw, List.flatMap_singleton']) h

end Lowering

end ConstraintModel
