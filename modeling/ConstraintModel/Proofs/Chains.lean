import ConstraintModel.Proofs.Cycles
import ConstraintModel.Proofs.Reified
import ConstraintModel.Proofs.Stands

namespace ConstraintModel

open ConstraintModel.Expr (num)

variable {q : Prop} {w : World} {τ : Store} {succ : List Expr} {hull : Bounds} {x : Variable} {s : Assignment}

theorem sound_successor (hsucc : ∀ e ∈ succ, e.Sound q w) (hhull : hull.lower ≤ hull.upper) (hx : w.store.Owns x)
    (hbounds : x.bounds = hull) : (successor succ hull (.var x)).Sound q w := by
  refine Expr.sound_function trivial ?_ ?_
  · rw [Expr.TotalHere, List.length_map, Bounds.length_values]
    split_ifs
    · rw [Expr.range, hbounds]
      omega
    · rw [Expr.range, Expr.range, Expr.range, hbounds, Bounds.sub_def]
      simp only [Bounds.point]
      omega
  · have hentry (p : Int) : ((entryAt? succ p).getD (.int p)).Sound q w := by
      cases ha : entryAt? succ p with
      | none => exact Expr.sound_int
      | some e => exact hsucc e (mem_of_entryAt? ha)
    simp only [Function.args, List.mem_append, List.mem_map, List.mem_singleton]
    rintro a (⟨p, -, rfl⟩ | rfl)
    · exact hentry p
    · split_ifs <;> simp [hx]

/-- The successor of a node in the hull. -/
theorem exact_successor (hsucc : ∀ e ∈ succ, e.Sound q w) (hs : w.Admits s) (hx : w.store.Owns x)
    (hbounds : x.bounds = hull) :
    (successor succ hull (.var x)).exact s = some (follow (succ.map (num s)) ((Expr.var x).num s)) := by
  have hvar : (Expr.var x).Sound q w := Expr.sound_var hx
  have hv := hvar.valued hs
  have hmem := hvar.num_mem_range hs
  rw [Expr.range, hbounds] at hmem
  have hindex : (if hull.lower = 0 then Expr.var x else .sub (.var x) (.int hull.lower)).exact s =
      some ((Expr.var x).num s - hull.lower) := by
    split_ifs with hzero
    · rw [hv.exact_eq, hzero, sub_zero]
    · rw [Expr.num_sub hv (Expr.valued_of_eq (Expr.exact_int ..)), Expr.num_int]
  have hentry : entryAt? (hull.values.map fun p => (entryAt? succ p).getD (.int p))
      ((Expr.var x).num s - hull.lower) =
        some ((entryAt? succ ((Expr.var x).num s)).getD (.int ((Expr.var x).num s))) := by
    rw [entryAt?_map, entryAt?_values hmem, Option.map_some]
  rw [successor, Expr.exact_element hindex hentry, follow, entryAt?_map]
  cases ha : entryAt? succ ((Expr.var x).num s) with
  | none => simp
  | some e => exact ((hsucc e (mem_of_entryAt? ha)).valued hs).exact_eq

/-- All values that can be reached from a value in the hull are in the hull. -/
theorem follow_mem_hull (hsucc : ∀ e ∈ succ, e.Sound q w ∧ e.range ⊆ hull) (hs : w.Admits s) {p : Int}
    (hp : p ∈ hull) : follow (succ.map (num s)) p ∈ hull := by
  rw [follow, entryAt?_map]
  cases ha : entryAt? succ p with
  | none => exact hp
  | some e =>
    obtain ⟨he, hrange⟩ := hsucc e (mem_of_entryAt? ha)
    exact Bounds.mem_of_subset hrange (he.num_mem_range hs)

theorem chain_cons (succ : List Expr) (hull : Bounds) (a b : Expr) (as : List Expr) :
    chain succ hull (a :: b :: as) = .cmp .eq b (successor succ hull a) :: chain succ hull (b :: as) := rfl

theorem sound_chain {xs : List Variable} (hsucc : ∀ e ∈ succ, e.Sound q w) (hhull : hull.lower ≤ hull.upper)
    (hxs : ∀ x ∈ xs, w.store.Owns x ∧ x.bounds = hull) :
    ∀ d ∈ chain succ hull (xs.map .var), d.isBool ∧ d.Sound q w := by
  simp only [chain, List.forall_mem_map, Prod.forall]
  intro a b hab
  obtain ⟨ha, hb⟩ := mem_of_neighbours hab
  obtain ⟨x, hx, rfl⟩ := List.mem_map.1 ha
  obtain ⟨y, hy, rfl⟩ := List.mem_map.1 hb
  exact ⟨rfl, Expr.sound_cmp (Expr.sound_var (hxs y hy).1)
    (sound_successor hsucc hhull (hxs x hx).1 (hxs x hx).2)⟩

/-- Each new variable is the successor of the one before it. -/
theorem refines_chain {xs : List Variable} (hw : w.Inhabited)
    (hsucc : ∀ e ∈ succ, e.Sound q w ∧ e.range ⊆ hull) (hhull : hull.lower ≤ hull.upper)
    (hx : w.store.Owns x) (hbounds : x.bounds = hull) (hxs : w.store.CreatesAll xs τ)
    (hxsb : ∀ y ∈ xs, ¬y.isBool ∧ y.bounds = hull) : ∃ w' : World, w'.store = τ ∧
      w'.constraints = w.constraints ++ chain succ hull ((x :: xs).map .var) ∧ w.Refines True w' ∧
      ∀ t, w'.Admits t → xs.map (fun y => (Expr.var y).num t) =
        List.iterate (follow (succ.map (num t))) (follow (succ.map (num t)) ((Expr.var x).num t)) xs.length := by
  induction xs generalizing w x with
  | nil =>
    cases hxs
    exact ⟨w, rfl, by simp [chain, neighbours], .refl w, by simp⟩
  | cons y ys ih =>
    cases hxs with
    | @cons _ υ _ _ _ hy hys =>
    obtain ⟨hyb, hysb⟩ := List.forall_mem_cons.1 hxsb
    have hs : ∀ e ∈ succ, e.Sound q w := fun e he => (hsucc e he).1
    have hsound := sound_successor hs hhull hx hbounds
    have hnext {t : Assignment} (ht : w.Admits t) := exact_successor hs ht hx hbounds
    have hdef : (Expr.cmp .eq (.var y) (successor succ hull (.var x))).Sound q (w.widen υ hy.grows) :=
      Expr.sound_cmp (Expr.sound_var hy.owns) (hsound.mono (World.le_widen hy.grows))
    let v : World := (w.widen υ hy.grows).post [.cmp .eq (.var y) (successor succ hull (.var x))]
      (List.forall_mem_singleton.2 hdef.proper)
    have hv : w.Refines True v := by
      refine World.refines_define hw hy hsound.proper (fun t ht => ?_) (.inr rfl) rfl
      refine ⟨Expr.valued_of_eq (hnext ht), ?_⟩
      rw [Expr.num_eq (hnext ht), hyb.2]
      have hmem := (Expr.sound_var (q := q) hx).num_mem_range ht
      rw [Expr.range, hbounds] at hmem
      exact follow_mem_hull hsucc ht hmem
    obtain ⟨w', hτ, hw', hr, htour⟩ := ih (hv.keeps hw)
      (fun e he => ⟨(hs e he).mono hv.le, (hsucc e he).2⟩) hy.owns hyb.2 hys hysb
    refine ⟨w', hτ, ?_, hv.trans hr, fun t ht => ?_⟩
    · rw [hw', List.map_cons, List.map_cons, List.map_cons, chain_cons, List.append_cons]
      rfl
    · have ht' := hr.sound t ht
      have hholds : (Expr.cmp .eq (.var y) (successor succ hull (.var x))).Holds t :=
        ht'.holds _ (List.mem_append_right _ (List.mem_singleton_self _))
      have hwithin := hv.sound t ht'
      have hstep : (Expr.var y).num t = follow (succ.map (num t)) ((Expr.var x).num t) := by
        rw [Expr.holds_cmp_num ((Expr.sound_var (q := q) hy.owns).valued ht')
          (Expr.valued_of_eq (hnext hwithin)), Expr.num_eq (hnext hwithin)] at hholds
        simpa [Relation.holds] using hholds
      rw [List.map_cons, List.length_cons, List.iterate, htour t ht, hstep]

/-- The first new variable has the value of an expression, and each further one
is the successor of the one before it. -/
theorem refines_walk {xs : List Variable} {e : Expr} (hw : w.Inhabited)
    (hsucc : ∀ a ∈ succ, a.Sound q w ∧ a.range ⊆ hull) (hhull : hull.lower ≤ hull.upper) (he : e.Sound q w)
    (hrange : e.range ⊆ hull) (hxs : w.store.CreatesAll (x :: xs) τ)
    (hbounds : ∀ y ∈ x :: xs, ¬y.isBool ∧ y.bounds = hull) : ∃ w' : World, w'.store = τ ∧
      w'.constraints = w.constraints ++ (.cmp .eq (.var x) e :: chain succ hull ((x :: xs).map .var)) ∧
      w.Refines True w' ∧ ∀ t, w'.Admits t → (x :: xs).map (fun y => (Expr.var y).num t) =
        List.iterate (follow (succ.map (num t))) (e.num t) (x :: xs).length := by
  obtain ⟨⟨-, hxb⟩, hxsb⟩ := List.forall_mem_cons.1 hbounds
  cases hxs with
  | @cons _ υ _ _ _ hx hxs =>
  have hdef : (Expr.cmp .eq (.var x) e).Sound q (w.widen υ hx.grows) :=
    Expr.sound_cmp (Expr.sound_var hx.owns) (he.mono (World.le_widen hx.grows))
  let v : World := (w.widen υ hx.grows).post [.cmp .eq (.var x) e] (List.forall_mem_singleton.2 hdef.proper)
  have hv : w.Refines True v := by
    refine World.refines_define hw hx he.proper (fun t ht => ⟨he.valued ht, ?_⟩) (.inr rfl) rfl
    rw [hxb]
    exact Bounds.mem_of_subset hrange (he.num_mem_range ht)
  obtain ⟨w', hτ, hw', hr, hwalk⟩ := refines_chain (hv.keeps hw)
    (fun a ha => ⟨(hsucc a ha).1.mono hv.le, (hsucc a ha).2⟩) hhull hx.owns hxb hxs hxsb
  refine ⟨w', hτ, ?_, hv.trans hr, fun t ht => ?_⟩
  · rw [hw']
    exact List.append_assoc ..
  · have ht' := hr.sound t ht
    have hholds : (Expr.cmp .eq (.var x) e).Holds t :=
      ht'.holds _ (List.mem_append_right _ (List.mem_singleton_self _))
    have hfirst : (Expr.var x).num t = e.num t := by
      rw [Expr.holds_cmp_num ((Expr.sound_var (q := q) hx.owns).valued ht') (he.valued (hv.sound t ht'))] at hholds
      simpa [Relation.holds] using hholds
    rw [List.map_cons, hwalk t ht, hfirst]
    rfl

end ConstraintModel
