import ConstraintModel.Proofs.LinearEncodings

namespace ConstraintModel

namespace Linear

open Defining (Refining)
open ConstraintModel.Expr (Operand Valued num)

variable {caps : Capabilities} {depth : Nat} {reified : Bool} {r : Relation} {w w' : World} {a b : Expr}
  {s : Assignment}

/-- Refined constraints take the place of the ones they refine. -/
theorem projects_of_refines {u : Prop} {v v' : World} (hr : v.Refines u v') (hv : v.store = w.store)
    (hv' : v'.store = w'.store) : Projects w w' (fun s => ∀ c ∈ v.constraints, c.Holds s)
      fun s => ∀ c ∈ v'.constraints, c.Holds s := by
  refine ⟨fun s hs h => ?_, fun t ht h => (hr.sound t ⟨hv' ▸ ht.within, h⟩).holds⟩
  obtain ⟨t, ht, hst⟩ := hr.complete s ⟨hv ▸ hs.within, h⟩
  exact ⟨t, hv' ▸ ht.within, hv ▸ hst, ht.holds⟩

section

variable (ih : Meanings caps depth)

include ih

theorem functionComparison_posts {g : Function Expr} (hs : ∀ x ∈ g.args, x.isSimple)
    (hp : (Expr.function g).Proper w.store.Owns) (hb : b.Operand w.store) :
    Posts (Expr.cmp r (.function g) b).Holds (functionComparison caps (depth + 1) reified g r b) w := by
  have decompose : Posts (Expr.cmp r (.function g) b).Holds
      (liftM (g.decompose r b) >>= fun d => reformulate caps depth d.toList) w :=
    decompose_posts ih (c := Decomposition.constraining) (local_holds (Expr.proper_cmp.2 ⟨hp, hb.proper⟩)) hs hp hb
      fun d w' _ hd => ⟨hd, fun t _ h => h⟩
  unfold functionComparison
  cases reified
  · cases g with
    | element array index => exact ih.element w array index r b hs hp hb
    | _ => exact decompose
  · exact .throw

theorem reformulate_posts {cs : List Expr} (h : ∀ c ∈ cs, c.isBool ∧ c.Sound True w) :
    Posts (fun s => ∀ c ∈ cs, c.Holds s) (reformulate caps (depth + 1) cs) w := by
  refine Refining.assume fun hin => ?_
  let v : World := ⟨w.store, cs, fun c hc => (h c hc).2.proper⟩
  have hflatten := (flatten_rewrites (q := True) (w := v) (fun c hc => ⟨(h c hc).1, (h c hc).2.total⟩)
    (World.grounded_of_tame fun t ht c hc =>
      (((h c hc).2.total trivial).regular (h c hc).2.proper ht).tame) hin.habitable).and
    (flatten_yields_isFlat (fun c (hc : c ∈ cs) => ⟨(h c hc).1, (h c hc).2.proper.imp fun _ _ => trivial⟩)
      w.store).relax
  rw [reformulate]
  refine Posts.widen hflatten ?_ ?_
  · rintro fs τ ⟨⟨v', rfl, -, hr, -⟩, -⟩ hh
    exact hr.habitable hh
  rintro _ w' hw ⟨⟨v', hv', rfl, hr, hsteady⟩, hflat⟩
  refine ⟨_, projects_of_refines hr rfl hv', ?_⟩
  have hsplit := ((splitReifications_rewrites (q := True) (w := v') fun f hf =>
    ⟨hsteady f hf, fun _ _ _ _ t ht => (((hsteady f hf).total trivial).regular (v'.proper f hf) ht).tame⟩)
      (hv' ▸ hw.habitable hin.habitable)).and (splitReifications_yields hflat v'.store).relax
  rw [hv'] at hsplit
  refine Posts.widen hsplit ?_ ?_
  · rintro es τ ⟨⟨v'', rfl, -, hr', -⟩, -⟩ hh
    exact hr'.habitable (hv' ▸ hh)
  rintro _ w'' hw' ⟨⟨v'', hv'', rfl, hr', -⟩, hinput⟩
  have hproper : ∀ e ∈ v''.constraints, e.Proper w''.store.Owns := fun e he => hv'' ▸ v''.proper e he
  refine ⟨_, projects_of_refines hr' hv' hv'', ?_⟩
  refine (Posts.mapM (p := fun e s => e.Holds s) (fun e he => local_holds (hproper e he)) fun e he u hu => ?_).bind
    fun parts _ _ hparts => .pure hparts
  exact ih.constraint u false e (hinput e he).1 ((hproper e he).imp fun _ h => h.mono hu.grows)

end

theorem meanings (depth : Nat) : Meanings caps depth := by
  induction depth with
  | zero => constructor <;> intros <;> exact .throw
  | succ depth ih =>
    exact {
      constraint := fun _ _ _ => constraint_posts ih
      implication := fun _ _ _ => implication_posts ih
      guarded := fun _ _ _ => guarded_posts ih
      comparison := fun _ _ _ _ _ => comparison_posts ih
      sum := fun _ _ _ _ _ => sum_posts ih
      relation := fun _ _ _ _ _ => relation_posts ih
      strict := fun _ _ _ _ _ _ => strict_posts ih
      bigM := fun _ _ _ => bigM_posts ih
      termsOf := fun _ _ => termsOf_terms ih
      functionComparison := fun _ _ _ _ _ => functionComparison_posts ih
      element := fun _ _ _ _ _ => element_posts ih
      allDifferent := fun _ _ => allDifferent_posts ih
      reformulate := fun _ _ => reformulate_posts ih }

end Linear

/-- Linearization keeps the solutions, up to the values of the new variables. -/
theorem linearize_rewrites {caps : Capabilities} {w : World} (h : ∀ e ∈ w.constraints, Linear.IsInput e) :
    (linearize caps w.constraints).Rewrites False (fun _ _ => True) w := by
  refine Lowering.rewrites_mapM (P := fun _ _ => True) (fun _ _ _ _ _ => trivial) rfl fun v hg e he hv hs => ?_
  have hp : e.Proper v.store.Owns := v.proper e (by simp [hv])
  refine ((((Linear.meanings _).constraint (World.bare v.store) false e (h e he) hp).collect
    (World.inhabited_bare hs))).bind ?_
  rintro ⟨fs, N⟩ τ - ⟨w', rfl, hN, hr, -, hfs⟩
  replace hN : w'.constraints = N := hN
  subst hN
  let w'' : World := ⟨w'.store, fs ++ w'.constraints,
    List.forall_mem_append.2 ⟨fun f hf => (hfs.formed f hf).2, w'.proper⟩⟩
  refine .pure ⟨w'', rfl, rfl, ⟨hr.grows, fun s hs => ?_, fun t ht => ?_, nofun, hr.habitable⟩, fun _ _ => trivial⟩
  · obtain ⟨t, ht, hst, hholds⟩ := hfs.complete s (World.admits_bare.2 hs.within) (hs.holds e (by simp [hv]))
    exact ⟨t, ⟨ht.within, List.forall_mem_append.2 ⟨hholds, ht.holds⟩⟩, hst⟩
  · obtain ⟨hholds, hN⟩ := List.forall_mem_append.1 ht.holds
    refine ⟨ht.within.mono hr.grows, ?_⟩
    rw [hv, List.forall_mem_singleton]
    exact hfs.sound t ⟨ht.within, hN⟩ hholds

/-- An assignment to the variables of flat constraints satisfies them exactly if
it can be extended so that it satisfies their linear forms. Functions may be
undefined for some values of their arguments. -/
theorem linearize_solutions {caps : Capabilities} {σ τ : Store} {cs out : List Expr}
    (h : ∀ c ∈ cs, c.IsFlat ∧ c.Proper σ.Owns) (hrun : linearize caps cs σ = .ok out τ) {s : Assignment}
    (hs : s.Within σ) : (∀ c ∈ cs, c.Holds s) ↔
      ∃ t : Assignment, t.Within τ ∧ s.Agrees σ.size t ∧ ∀ f ∈ out, f.Holds t := by
  let w : World := ⟨σ, cs, fun c hc => (h c hc).2⟩
  have hrewrites : (linearize caps w.constraints).Rewrites False (fun _ _ => True) w :=
    linearize_rewrites fun c hc => Linear.isInput_of_isFlat (h c hc).1
  obtain ⟨-, w', rfl, rfl, hr, -⟩ := (hrewrites ⟨s, hs⟩).ok hrun
  constructor
  · intro hholds
    obtain ⟨t, ht, hst⟩ := hr.complete s ⟨hs, hholds⟩
    exact ⟨t, ht.within, hst, ht.holds⟩
  · rintro ⟨t, ht, hst, hholds⟩ c hc
    exact (Expr.Over.holds_congr (h c hc).2.scope hst).2 ((hr.sound t ⟨ht, hholds⟩).holds c hc)

def farStore : Store := ⟨#[⟨⟨0, 5⟩, .int, .user⟩]⟩

def farIndex : Variable := ⟨0, ⟨0, 5⟩, .int⟩

def farEntry : Expr := .cmp .eq (.element [.int 3, .int 5] (.var farIndex)) (.int 5)

theorem linearize_farEntry : ∃ out τ, linearize .none [farEntry] farStore = .ok out τ ∧
    (∃ t : Assignment, t.Within τ ∧ t.value? farIndex = some 1 ∧ ∀ f ∈ out, f.Holds t) ∧
    ∀ t : Assignment, t.Within τ → t.value? farIndex = some 4 → ¬∀ f ∈ out, f.Holds t := by
  have hflat : ∀ c ∈ [farEntry], c.IsFlat ∧ c.Proper farStore.Owns := by
    have howns : farStore.Owns farIndex := ⟨⟨.user, rfl⟩, by simp [Variable.isBool, farIndex]⟩
    have hproper : (Expr.element [.int 3, .int 5] (.var farIndex)).Proper farStore.Owns :=
      (Expr.proper_iff_args (by simp [Expr.element]) (by trivial)).2
        (by simp [Expr.element, Expr.args, Function.args, howns])
    rw [List.forall_mem_singleton]
    exact ⟨.inl ⟨by simp [Expr.IsFlatSide, Expr.element, Function.args, Expr.isSimple], rfl⟩,
      Expr.proper_cmp.2 ⟨hproper, Expr.proper_int⟩⟩
  let s (n : Int) : Assignment := Assignment.empty.assign farIndex n
  have hs (n : Int) (hn : n ∈ farIndex.bounds) : (s n).Within farStore := by
    rintro (_ | i) d hd <;> simp [farStore] at hd
    subst hd
    exact ⟨n, hn, rfl⟩
  have hholds (n : Int) : (∀ c ∈ [farEntry], c.Holds (s n)) ↔ entryAt? [(3 : Int), 5] n = some 5 := by
    have hentry : (Expr.element [.int 3, .int 5] (.var farIndex)).exact (s n) = entryAt? [(3 : Int), 5] n := by
      have hvalues : [Expr.int 3, .int 5].map (Expr.exact (s n)) = [(3 : Int), 5].map some := by simp
      have hindex : (s n).value? farIndex = some n := rfl
      rw [Expr.element, Expr.exact_function, Function.map, Function.exact, hvalues, Expr.exact_var, hindex]
      simp only [Option.bind_eq_bind, Option.bind_some, entryAt?_map]
      cases entryAt? [(3 : Int), 5] n <;> rfl
    rw [List.forall_mem_singleton, farEntry, Expr.holds_cmp, hentry]
    simp [Relation.holds]
  obtain ⟨out, τ, hrun⟩ : ∃ out τ, linearize .none [farEntry] farStore = .ok out τ := ⟨_, _, by cbv⟩
  refine ⟨out, τ, hrun, ?_, fun t ht hfour hall => ?_⟩
  · obtain ⟨t, ht, hst, hall⟩ := (linearize_solutions hflat hrun (hs 1 (by decide))).1 ((hholds 1).2 rfl)
    exact ⟨t, ht, (hst 0 (by decide)).symm, hall⟩
  · have hagree : (s 4).Agrees farStore.size t := by
      intro i hi
      obtain rfl : i = 0 := by simpa [farStore, Store.size] using hi
      exact hfour.symm
    have := (hholds 4).1 ((linearize_solutions hflat hrun (hs 4 (by decide))).2 ⟨t, ht, hagree, hall⟩)
    cases this

end ConstraintModel
