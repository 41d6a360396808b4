import ConstraintModel.Proofs.Sound
import ConstraintModel.Proofs.World

namespace ConstraintModel

namespace Assignment

variable {σ τ : Store} {s t : Assignment} {k : Nat}

theorem num_assign (s : Assignment) (x : Variable) (n : Int) : (Expr.var x).num (s.assign x n) = n := by
  refine Expr.num_eq ?_
  rw [Expr.exact_var, value?_assign_self]

/-- New variables can be given any values in their domains. -/
theorem Within.extends (hs : s.Within σ) {xs : List Variable} (h : σ.CreatesAll xs τ) {ns : List Int}
    (hns : List.Forall₂ (fun x n => n ∈ x.bounds) xs ns) :
    ∃ t, t.Within τ ∧ s.Agrees σ.size t ∧ xs.map (Expr.num t ∘ .var) = ns := by
  induction h generalizing s ns with
  | nil =>
    cases hns
    exact ⟨s, hs, .refl _ _, rfl⟩
  | @cons σ τ υ x xs hx hxs ih =>
    cases hns with
    | cons hn hns =>
      rename_i n ns
      obtain ⟨t, ht, hst, hvalues⟩ := ih (hs.extend hx hn) hns
      refine ⟨t, ht, (agrees_extend s hx n).trans (hst.mono hx.grows.size_le), ?_⟩
      have hvalue : t.value? x = some n := by
        rw [← value?_assign_self s x n]
        exact (hst _ hx.owns.1.index_lt).symm
      rw [List.map_cons, hvalues]
      exact congrArg (· :: ns) (Expr.num_eq (by rw [Expr.exact_var, hvalue]))

theorem Within.extends_bits (hs : s.Within σ) {xs : List Variable} (h : σ.CreatesAll xs τ) (hb : ∀ x ∈ xs, x.isBool)
    (ns : List Int) (hlength : ns.length = xs.length) (hns : ∀ n ∈ ns, n = 0 ∨ n = 1) :
    ∃ t, t.Within τ ∧ s.Agrees σ.size t ∧ xs.map (Expr.num t ∘ .var) = ns := by
  refine hs.extends h (List.forall₂_iff_zip.2 ⟨hlength.symm, fun {x n} hp => ?_⟩)
  obtain ⟨hx, hn⟩ := List.of_mem_zip hp
  rw [(h.owns hx).2 (hb x hx)]
  rcases hns n hn with rfl | rfl <;> decide

end Assignment

theorem Store.Creates.habitable {σ τ : Store} {x : Variable} (h : σ.Creates x τ)
    (hne : x.bounds.lower ≤ x.bounds.upper) (hσ : σ.Habitable) : τ.Habitable :=
  hσ.imp' (·.assign x x.bounds.lower) fun _ hs => hs.extend h ⟨le_refl _, hne⟩

theorem Store.CreatesAll.habitable {σ τ : Store} {xs : List Variable} (h : σ.CreatesAll xs τ)
    (hne : ∀ x ∈ xs, x.bounds.lower ≤ x.bounds.upper) (hσ : σ.Habitable) : τ.Habitable := by
  induction h with
  | nil => exact hσ
  | cons hx _ ih =>
    obtain ⟨hx', hxs⟩ := List.forall_mem_cons.1 hne
    exact ih hxs (hx.habitable hx' hσ)

namespace World

variable {u : Prop} {w w' : World} {s t : Assignment} {σ τ : Store}

structure Widens (w w' : World) : Prop where
  grows : w.store.Grows w'.store
  constraints : w'.constraints = w.constraints
  habitable : w.store.Habitable → w'.store.Habitable

theorem Widens.admits_iff (h : w.Widens w') : w'.Admits t ↔ t.Within w'.store ∧ w.Admits t :=
  ⟨fun ht => ⟨ht.within, ht.within.mono h.grows, h.constraints ▸ ht.holds⟩,
    fun ht => ⟨ht.1, h.constraints ▸ ht.2.holds⟩⟩

theorem Widens.extend (h : w.Widens w') (hs : w.Admits s) (ht : t.Within w'.store)
    (hst : s.Agrees w.store.size t) : w'.Admits t := h.admits_iff.2 ⟨ht, hs.congr hst⟩

theorem Widens.refines (h : w.Widens w') : w.Refines False w' := by
  refine ⟨h.grows, fun s hs => ?_, fun t ht => (h.admits_iff.1 ht).2, nofun, h.habitable⟩
  obtain ⟨t, ht⟩ := h.habitable ⟨s, hs.within⟩
  have hagree := Assignment.agrees_splice w.store.size s t
  exact ⟨_, h.extend hs (hs.within.splice h.grows ht) hagree, hagree⟩

theorem widens_widen (hg : w.store.Grows τ) (h : w.store.Habitable → τ.Habitable) :
    w.Widens (w.widen τ hg) := ⟨hg, rfl, h⟩

end World

namespace Linear

open Defining (Refining)

structure Posted (w : World) (p : Assignment → Prop) (fs : List Expr) (w' : World) : Prop where
  formed : ∀ f ∈ fs, f.isBool ∧ f.Proper w'.store.Owns
  complete : ∀ s, w.Admits s → p s → ∃ t, w'.Admits t ∧ s.Agrees w.store.size t ∧ ∀ f ∈ fs, f.Holds t
  sound : ∀ t, w'.Admits t → (∀ f ∈ fs, f.Holds t) → p t

def Posts (p : Assignment → Prop) (x : Defining (List Expr)) (w : World) : Prop :=
  x.Refining (.refines False) (.each fun _ => True) w (Posted w p)

/-- A property of the variables in a world, with some of them chosen suitably,
is the property of the variables in the world before they were created. -/
structure Projects (w w' : World) (p p' : Assignment → Prop) : Prop where
  complete : ∀ s, w.Admits s → p s → ∃ t, t.Within w'.store ∧ s.Agrees w.store.size t ∧ p' t
  sound : ∀ t, w'.Admits t → p' t → p t

variable {α β : Type} {w w' w'' : World} {p q : Assignment → Prop} {fs gs : List Expr} {s t : Assignment}
  {x y : Defining (List Expr)} {e : Expr} {σ τ : Store}

theorem local_holds (h : e.Proper σ.Owns) : Local σ e.Holds :=
  fun _ _ hst => (Expr.Over.holds_congr h.scope hst).1

theorem Posted.congr (h : Posted w p fs w') (hr : w.Refines False w') (hpq : ∀ s, w.Admits s → (p s ↔ q s)) :
    Posted w q fs w' :=
  ⟨h.formed, fun s hs hq => h.complete s hs ((hpq s hs).2 hq),
    fun t ht hfs => (hpq t (hr.sound t ht)).1 (h.sound t ht hfs)⟩

/-- The constraints are posted in a world that is refined further. -/
theorem Posted.refine (h : Posted w p fs w') (hr : w.store.Grows w'.store) (hr' : w'.Refines False w'') :
    Posted w p fs w'' := by
  refine ⟨fun f hf => ⟨(h.formed f hf).1, (h.formed f hf).2.imp fun _ hx => hx.mono hr'.grows⟩,
    fun s hs hp => ?_, fun t ht hfs => h.sound t (hr'.sound t ht) hfs⟩
  obtain ⟨t, ht, hst, hfs⟩ := h.complete s hs hp
  obtain ⟨t', ht', htt'⟩ := hr'.complete t ht
  exact ⟨t', ht', hst.trans (htt'.mono hr.size_le), fun f hf =>
    (Expr.Over.holds_congr (h.formed f hf).2.scope htt').1 (hfs f hf)⟩

theorem Posted.append (h : Posted w p fs w') (hr : w.Refines False w') (h' : Posted w' q gs w'')
    (hr' : w'.Refines False w'') (hq : Local w.store q) : Posted w (fun s => p s ∧ q s) (fs ++ gs) w'' := by
  refine ⟨List.forall_mem_append.2 ⟨(h.refine hr.grows hr').formed, h'.formed⟩, ?_, fun t ht hholds => ?_⟩
  · rintro s hs ⟨hp, hqs⟩
    obtain ⟨t, ht, hst, hfs⟩ := h.complete s hs hp
    obtain ⟨t', ht', htt', hgs⟩ := h'.complete t ht (hq s t hst hqs)
    exact ⟨t', ht', hst.trans (htt'.mono hr.grows.size_le), List.forall_mem_append.2
      ⟨fun f hf => (Expr.Over.holds_congr (h.formed f hf).2.scope htt').1 (hfs f hf), hgs⟩⟩
  · obtain ⟨hfs, hgs⟩ := List.forall_mem_append.1 hholds
    exact ⟨h.sound t (hr'.sound t ht) hfs, h'.sound t ht hgs⟩

theorem Posted.widen (hw : w.Widens w') (h : Posted w' q fs w'') (hr : w'.Refines False w'')
    (hpq : Projects w w' p q) : Posted w p fs w'' := by
  refine ⟨h.formed, fun s hs hp => ?_, fun t ht hfs => hpq.sound t (hr.sound t ht) (h.sound t ht hfs)⟩
  obtain ⟨t, ht, hst, hq⟩ := hpq.complete s hs hp
  obtain ⟨t', ht', htt', hfs⟩ := h.complete t (hw.extend hs ht hst) hq
  exact ⟨t', ht', hst.trans (htt'.mono hw.grows.size_le), hfs⟩

theorem Posted.after (hr : w.Refines False w') (hp : Local w.store p) (h : Posted w' p fs w'') :
    Posted w p fs w'' := by
  refine ⟨h.formed, fun s hs hps => ?_, h.sound⟩
  obtain ⟨t, ht, hst⟩ := hr.complete s hs
  obtain ⟨t', ht', htt', hfs⟩ := h.complete t ht (hp s t hst hps)
  exact ⟨t', ht', hst.trans (htt'.mono hr.grows.size_le), hfs⟩

theorem Posts.congr (h : Posts p x w) (hpq : ∀ s, w.Admits s → (p s ↔ q s)) : Posts q x w :=
  h.imp fun _ _ hr h => h.congr hr hpq

theorem Posts.after (hr : w.Refines False w') (hp : Local w.store p) (h : Posts p x w') :
    x.Refining (.refines False) (.each fun _ => True) w' (Posted w p) := h.imp fun _ _ _ h => h.after hr hp

theorem Posts.throw {e : LoweringError} : Posts p (throw e) w := Refining.throw

theorem Posts.pure (hf : ∀ f ∈ fs, f.isBool ∧ f.Proper w.store.Owns)
    (h : ∀ s, w.Admits s → ((∀ f ∈ fs, f.Holds s) ↔ p s)) : Posts p (pure fs) w :=
  Refining.pure ⟨hf, fun s hs hp => ⟨s, hs, .refl _ _, (h s hs).2 hp⟩, fun t ht => (h t ht).1⟩

theorem Posts.single (hb : e.isBool) (he : e.Proper w.store.Owns) (h : ∀ s, w.Admits s → (e.Holds s ↔ p s)) :
    Posts p (Pure.pure [e]) w :=
  .pure (by simpa using ⟨hb, he⟩) (by simpa using h)

theorem Posts.append (hx : Posts p x w) (hy : ∀ w', w.Refines False w' → Posts q y w') (hq : Local w.store q) :
    Posts (fun s => p s ∧ q s) (do return (← x) ++ (← y)) w :=
  hx.bind fun _ w' hr hfs => (hy w' hr).bind fun _ _ hr' hgs => .pure (hfs.append hr hgs hr' hq)

/-- One property is posted after the other. -/
theorem Posts.mapM {f : α → Defining (List Expr)} {p : α → Assignment → Prop} {as : List α}
    (hp : ∀ a ∈ as, Local w.store (p a)) (h : ∀ a ∈ as, ∀ w', w.Refines False w' → Posts (p a) (f a) w') :
    (as.mapM f).Refining (.refines False) (.each fun _ => True) w fun parts =>
      Posted w (fun s => ∀ a ∈ as, p a s) parts.flatten := by
  induction as generalizing w with
  | nil => exact .pure ⟨by simp, fun s hs _ => ⟨s, hs, .refl _ _, by simp⟩, by simp⟩
  | cons a as ih =>
    rw [List.mapM_cons]
    refine (h a (List.mem_cons_self ..) w (.refl w)).bind fun fs w' hr hfs => ?_
    refine (ih (fun b hb => (hp b (List.mem_cons_of_mem _ hb)).mono hr.grows)
      fun b hb w'' hr' => h b (List.mem_cons_of_mem _ hb) w'' (hr.trans hr')).bind fun parts w'' hr' hparts => ?_
    refine .pure ((hfs.append hr hparts hr' fun s t hst hs b hb => ?_).congr (hr.trans hr') fun s _ => ?_)
    · exact hp b (List.mem_cons_of_mem _ hb) s t hst (hs b hb)
    · rw [List.forall_mem_cons]

/-- A step that is taken after the creation of variables. -/
theorem refining_of_widens {f : Defining β} {R : β → World → Prop} (hw : w.Widens w') (hin : w.Inhabited)
    (h : f.Refining (.refines False) (.each fun _ => True) w' R) : f.Sat False w'.store fun b N υ =>
      ∃ v : World, v.store = υ ∧ v.constraints = w.constraints ++ N ∧ w.Refines False v ∧ (∀ d ∈ N, True) ∧ R b v := by
  refine (h (hw.refines.keeps hin)).imp ?_
  rintro b N υ - ⟨v, hυ, hN, hr, hP, hb⟩
  exact ⟨v, hυ, by rw [hN, hw.constraints], hw.refines.trans hr, hP, hb⟩

theorem refining_widen {f : α → Defining β} {y : Lowering α} {K : α → Store → Prop} {R : β → World → Prop}
    (hy : y.Sat False w.store K) (hK : ∀ a τ, K a τ → w.store.Habitable → τ.Habitable)
    (h : ∀ a w', w.Widens w' → K a w'.store → (f a).Refining (.refines False) (.each fun _ => True) w' R) :
    (liftM y >>= f).Refining (.refines False) (.each fun _ => True) w R := by
  refine Refining.lift_bind hy fun hw a τ hg ha => ?_
  have hwiden := World.widens_widen (w := w) hg (hK a τ ha)
  exact refining_of_widens hwiden hw (h a _ hwiden ha)

/-- A step that starts by the creation of variables, with a property of suitable
values for them. -/
theorem Posts.widen {f : α → Defining (List Expr)} {y : Lowering α} {K : α → Store → Prop}
    (hy : y.Sat False w.store K) (hK : ∀ a τ, K a τ → w.store.Habitable → τ.Habitable)
    (h : ∀ a w', w.Widens w' → K a w'.store → ∃ q, Projects w w' p q ∧ Posts q (f a) w') :
    Posts p (liftM y >>= f) w := by
  refine refining_widen hy hK fun a w' hw ha => ?_
  obtain ⟨q, hpq, hf⟩ := h a w' hw ha
  exact hf.imp fun fs v hr hfs => hfs.widen hw hr hpq

/-- Constraints on new variables that old values can always be extended to. -/
theorem Posts.define_sat {g : List Expr → Defining α} {R : α → World → Prop} (hw : w.Widens w') (hin : w'.Inhabited)
    (hx : Posts q x w') (hq : ∀ s, w.Admits s → ∃ t, t.Within w'.store ∧ s.Agrees w.store.size t ∧ q t)
    (hg : ∀ fs v, w.Refines False v → w'.store.Grows v.store → (∀ t, v.Admits t → q t) →
      (g fs).Refining (.refines False) (.each fun _ => True) v R) :
    (do let fs ← x; defineAll fs; g fs : Defining α).Sat False w'.store fun a N υ =>
      ∃ v : World, v.store = υ ∧ v.constraints = w.constraints ++ N ∧ w.Refines False v ∧
        (∀ d ∈ N, True) ∧ R a v := by
  refine (hx hin).bind ?_
  rintro fs N τ - ⟨v, rfl, hN, hr, -, hfs⟩
  refine Defining.Sat.defineAll.bind ?_
  rintro - M υ - ⟨rfl, rfl⟩
  let v' : World := v.post M fun f hf => (hfs.formed f hf).2
  have hdefined : w.Refines False v' := by
    refine ⟨hw.grows.trans hr.grows, fun s hs => ?_, fun t ht => ?_, nofun,
      fun h => hr.habitable (hw.habitable h)⟩
    · obtain ⟨t, ht, hst, hqt⟩ := hq s hs
      obtain ⟨t', ht', htt', hholds⟩ := hfs.complete t (hw.extend hs ht hst) hqt
      exact ⟨t', World.admits_post.2 ⟨ht', hholds⟩, hst.trans (htt'.mono hw.grows.size_le)⟩
    · exact (hw.admits_iff.1 (hr.sound t (World.admits_post.1 ht).1)).2
  have hwin : w.Inhabited := by
    obtain ⟨t, ht⟩ := hin
    exact ⟨t, (hw.admits_iff.1 ht).2⟩
  have hsound (t : Assignment) (ht : v'.Admits t) : q t :=
    hfs.sound t (World.admits_post.1 ht).1 (World.admits_post.1 ht).2
  refine (hg M v' hdefined hr.grows hsound (hdefined.keeps hwin)).imp ?_
  rintro a L υ - ⟨v'', rfl, hL, hr', hP, ha⟩
  refine ⟨v'', rfl, ?_, hdefined.trans hr', by simp, ha⟩
  rw [hL, show v'.constraints = v.constraints ++ M from rfl, hN, hw.constraints]
  simp

end Linear

end ConstraintModel
