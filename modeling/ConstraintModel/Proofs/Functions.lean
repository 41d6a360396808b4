import ConstraintModel.Proofs.Globals
import ConstraintModel.Proofs.Reified
import ConstraintModel.Proofs.Sized
import Mathlib

namespace ConstraintModel

open ConstraintModel.Expr (num)

variable {q : Prop} {w : World} {τ : Store} {s t : Assignment} {as : List Expr} {x y rhs : Expr} {z : Variable}
  {r : Relation} {g : Function Expr}

namespace Expr

theorem exact_abs (h : x.Valued s) : (function (.abs x)).exact s = some ((x.num s).natAbs : Int) := by
  simp [exact_function, Function.map, Function.exact, h.exact_eq]

theorem exact_minimum (h : ∀ a ∈ as, a.Valued s) :
    (function (.minimum as)).exact s = (as.map (num s)).min? := by
  simp [exact_function, Function.map, Function.exact, values_num h]

theorem exact_maximum (h : ∀ a ∈ as, a.Valued s) :
    (function (.maximum as)).exact s = (as.map (num s)).max? := by
  simp [exact_function, Function.map, Function.exact, values_num h]

theorem exact_count (h : ∀ a ∈ as, a.Valued s) (hx : x.Valued s) :
    (function (.count as x)).exact s = some ((as.map (num s)).count (x.num s) : Int) := by
  simp [exact_function, Function.map, Function.exact, values_num h, hx.exact_eq, Count.value]

theorem exact_distinct (h : ∀ a ∈ as, a.Valued s) :
    (function (.distinct as)).exact s = some ((as.map (num s)).eraseDups.length : Int) := by
  simp [exact_function, Function.map, Function.exact, values_num h, Distinct.value]

theorem num_sum (h : ∀ a ∈ as, a.Valued s) : (sum as).num s = (as.map (num s)).sum :=
  num_eq (exact_sum_num h)

theorem valued_sum (h : ∀ a ∈ as, a.Valued s) : (sum as).Valued s := valued_of_eq (exact_sum_num h)

theorem num_cmp (hx : x.Valued s) (hy : y.Valued s) :
    (cmp r x y).num s = (r.holds (x.num s) (y.num s)).toInt := num_eq (exact_cmp_num hx hy)

theorem sound_minus (h : x.minus = .ok y) (hx : x.Sound q w) : y.Sound q w := by
  rcases minus_cases h with ⟨n, rfl, rfl⟩ | rfl
  · exact sound_int
  · exact sound_neg hx

theorem exact_minus (h : x.minus = .ok y) (hx : x.Valued s) : y.exact s = some (-x.num s) := by
  rcases minus_cases h with ⟨n, rfl, rfl⟩ | rfl
  · rw [exact_int, num_int]
  · rw [exact_neg, hx.exact_eq]
    rfl

/-- The summands of a sum that is added to need not be invertible. -/
theorem sound_plus {a b : Expr} (ha : a.Sound q w) (hb : b.Sound q w) : (a.plus b).Sound q w ∧
    ∀ s, w.Admits s → (a.plus b).num s = a.num s + b.num s := by
  unfold plus
  split
  · rename_i as
    have hp : (sum (as ++ [b])).Proper w.store.Owns :=
      proper_sum.2 (List.forall_mem_append.2 ⟨proper_sum.1 ha.proper, List.forall_mem_singleton.2 hb.proper⟩)
    have hvalued (s : Assignment) (hs : w.Admits s) : ∀ a ∈ as, a.Valued s := (ha.tame hs).here
    have hall (s : Assignment) (hs : w.Admits s) : ∀ a ∈ as ++ [b], a.Valued s :=
      List.forall_mem_append.2 ⟨hvalued s hs, List.forall_mem_singleton.2 (hb.valued hs)⟩
    refine ⟨⟨hp, fun s hs => ⟨tame_iff.2 ⟨hall s hs, ?_⟩, valued_sum (hall s hs), nofun⟩, fun hq => ?_⟩, fun s hs => ?_⟩
    · exact List.forall_mem_append.2 ⟨fun a h => (ha.tame hs).arg h, List.forall_mem_singleton.2 (hb.tame hs)⟩
    · exact total_iff.2 ⟨trivial, List.forall_mem_append.2
        ⟨fun a h => (ha.total hq).arg h, List.forall_mem_singleton.2 (hb.total hq)⟩⟩
    · rw [num_sum (hall s hs), num_sum (hvalued s hs)]
      simp
  · have hargs : ∀ c ∈ [a, b], c.Sound q w := by simpa using ⟨ha, hb⟩
    refine ⟨sound_sum hargs, fun s hs => ?_⟩
    rw [num_sum fun c hc => (hargs c hc).valued hs]
    simp

end Expr

/-- The number of occurrences is a sum of truth values. -/
theorem sum_toInt_eq_count (ns : List Int) (m : Int) :
    (ns.map fun n => (n == m).toInt).sum = (ns.count m : Int) := by
  induction ns with
  | nil => rfl
  | cons n ns ih =>
    rw [List.map_cons, List.sum_cons, ih, List.count_cons]
    cases n == m <;> simp [Bool.toInt, add_comm]

/-- The number of different values is a sum of truth values, one for every
integer that can be a value. -/
theorem sum_toInt_mem {ns : List Int} {b : Bounds} (h : ∀ n ∈ ns, n ∈ b) :
    (b.values.map fun n => (decide (n ∈ ns)).toInt).sum = (ns.eraseDups.length : Int) := by
  have hnodup : b.values.Nodup := by
    refine List.nodup_range.map fun i j hij => ?_
    simpa using hij
  have hperm : (b.values.filter (· ∈ ns)).Perm ns.eraseDups := by
    refine (List.perm_ext_iff_of_nodup (hnodup.filter _) (Distinct.nodup_eraseDups ns)).2 fun n => ?_
    rw [List.mem_filter, List.mem_eraseDups, Bounds.mem_values, decide_eq_true_eq]
    exact and_iff_right_of_imp (h n)
  rw [← hperm.length_eq]
  induction b.values with
  | nil => rfl
  | cons n vs ih =>
    rw [List.map_cons, List.sum_cons, ih, List.filter_cons]
    by_cases hn : n ∈ ns <;> simp [hn, Bool.toInt, add_comm]

namespace Function

/-- A function with a value in all cases is compared by way of an auxiliary
variable that is defined to have its value. -/
theorem replaces_auxiliary {defining : List Expr} (hw : w.Inhabited) (hz : w.store.Creates z τ)
    (hg : (Expr.function g).Sound q w) (hrange : z.bounds = (Expr.function g).range) (hrhs : rhs.Sound q w)
    (hd : ∀ d ∈ defining, d.isBool ∧ d.Sound q (w.widen τ hz.grows))
    (h : ∀ t, (w.widen τ hz.grows).Admits t → ((∀ d ∈ defining, d.Holds t) ↔
      (Expr.function g).exact t = some ((Expr.var z).num t))) :
    (Decomposition.mk [.cmp r (.var z) rhs] defining).Replaces q w τ (.cmp r (.function g) rhs) := by
  have hle := World.le_widen hz.grows
  have hvar : (Expr.var z).Sound q (w.widen τ hz.grows) := Expr.sound_var hz.owns
  have hgv := hg.mono hle
  have hrhsv := hrhs.mono hle
  refine ⟨hz.grows, ?_, ?_, ?_⟩
  · exact List.forall_mem_cons.2 ⟨rfl, fun d hd' => (hd d hd').1⟩
  · exact List.forall_mem_cons.2 ⟨Expr.sound_cmp hvar hrhsv, fun d hd' => (hd d hd').2⟩
  · have hvalue {t : Assignment} (ht : (w.widen τ hz.grows).Admits t) :
        t.value? z = some ((Expr.var z).num t) := by
      rw [← Expr.exact_var, (hvar.valued ht).exact_eq]
    let w' : World := (w.widen τ hz.grows).post defining fun d hd' => (hd d hd').2.proper
    have hr : w.Refines True w' := by
      refine World.refines_create (v := fun t => (Expr.function g).num t) hw hz rfl
        (fun t ht => ?_) (fun t t' htt' => hg.proper.num_congr htt') fun t ht htw => ?_
      · rw [hrange]
        exact hg.num_mem_range ht
      · have ht : (w.widen τ hz.grows).Admits t := ⟨ht, htw.holds⟩
        rw [h t ht, hvalue ht, (hgv.valued ht).exact_eq, Option.some_inj, Option.some_inj, eq_comm]
    refine ⟨w', rfl, rfl, hr, fun t ht => ?_⟩
    obtain ⟨ht, hholds⟩ := World.admits_post.1 ht
    have hnum := (h t ht).1 hholds
    rw [List.forall_mem_singleton, Expr.holds_cmp_num (hvar.valued ht) (hrhsv.valued ht),
      Expr.holds_cmp_num (hgv.valued ht) (hrhsv.valued ht), Expr.num_eq hnum]

theorem replaces_abs (hw : w.Inhabited) (hx : x.Sound q w) (hrhs : rhs.Sound q w) (hz : w.store.Creates z τ)
    (hbounds : z.bounds = x.range.magnitude) (hy : x.minus = .ok y) :
    (Decomposition.mk [.cmp r (.var z) rhs] [.implies (.cmp .ge x (.int 0)) (.cmp .eq x (.var z)),
      .implies (.cmp .lt x (.int 0)) (.cmp .eq y (.var z))]).Replaces q w τ (.cmp r (.function (.abs x)) rhs) := by
  have hvar : (Expr.var z).Sound q (w.widen τ hz.grows) := Expr.sound_var hz.owns
  have hxv := hx.mono (World.le_widen hz.grows)
  have hyv := Expr.sound_minus hy hxv
  refine replaces_auxiliary hw hz ?_ (by rw [Expr.range_function]; exact hbounds) hrhs ?_ fun t ht => ?_
  · exact Expr.sound_function trivial trivial (by simpa [args] using hx)
  · simp only [List.forall_mem_cons, List.not_mem_nil, false_imp_iff, implies_true, and_true]
    exact ⟨⟨rfl, Expr.sound_implies rfl rfl (Expr.sound_cmp hxv Expr.sound_int) (Expr.sound_cmp hxv hvar)⟩,
      rfl, Expr.sound_implies rfl rfl (Expr.sound_cmp hxv Expr.sound_int) (Expr.sound_cmp hyv hvar)⟩
  · have hvx := hxv.valued ht
    have hzero : (Expr.int 0).Valued t := Expr.valued_of_eq (Expr.exact_int ..)
    have hcmp (r' : Relation) : (Expr.cmp r' x (.int 0)).Valued t :=
      (Expr.sound_cmp hxv Expr.sound_int).valued ht
    simp only [List.forall_mem_cons, List.not_mem_nil, false_imp_iff, implies_true, and_true,
      Expr.holds_implies_iff (hcmp _), Expr.holds_cmp_num hvx hzero, Expr.holds_cmp_num hvx (hvar.valued ht),
      Expr.holds_cmp_num (hyv.valued ht) (hvar.valued ht), Expr.num_eq (Expr.exact_minus hy hvx),
      Expr.exact_abs hvx, Expr.num_int, Relation.holds, decide_eq_true_eq, beq_iff_eq, Option.some_inj]
    omega

/-- An auxiliary variable on one side of all arguments that is one of them is
their extreme value. -/
theorem replaces_extremum (hw : w.Inhabited) (hg : (Expr.function g).Sound q w) (hgs : ∀ a ∈ g.args, a.Sound q w)
    (has : g.args = as) (hrhs : rhs.Sound q w) (hz : w.store.Creates z τ)
    (hbounds : z.bounds = (Expr.function g).range) (side : Relation)
    (h : ∀ t, (w.widen τ hz.grows).Admits t → ∀ n, (Expr.function g).exact t = some n ↔
      n ∈ as.map (num t) ∧ ∀ m ∈ as.map (num t), side.holds n m) :
    (Decomposition.mk [.cmp r (.var z) rhs] [.all (as.map fun a => .cmp side (.var z) a),
      .any (as.map fun a => .cmp .eq (.var z) a)]).Replaces q w τ (.cmp r (.function g) rhs) := by
  subst has
  have hvar : (Expr.var z).Sound q (w.widen τ hz.grows) := Expr.sound_var hz.owns
  have hsound : ∀ a ∈ g.args, a.Sound q (w.widen τ hz.grows) :=
    fun a ha => (hgs a ha).mono (World.le_widen hz.grows)
  have hcmp (r' : Relation) : ∀ c ∈ g.args.map fun a => Expr.cmp r' (.var z) a,
      c.isBool ∧ c.Sound q (w.widen τ hz.grows) := by
    rw [List.forall_mem_map]
    exact fun a ha => ⟨rfl, Expr.sound_cmp hvar (hsound a ha)⟩
  refine replaces_auxiliary hw hz hg hbounds hrhs ?_ fun t ht => ?_
  · simp only [List.forall_mem_cons, List.not_mem_nil, false_imp_iff, implies_true, and_true]
    exact ⟨⟨Expr.isBool_all fun c hc => (hcmp _ c hc).1,
        Expr.sound_all (fun c hc => (hcmp _ c hc).1) fun c hc => (hcmp _ c hc).2⟩,
      Expr.isBool_any fun c hc => (hcmp _ c hc).1,
        Expr.sound_any (fun c hc => (hcmp _ c hc).1) fun c hc => (hcmp _ c hc).2⟩
  · have hnum {r' : Relation} {a : Expr} (ha : a ∈ g.args) :=
      Expr.holds_cmp_num (r := r') (hvar.valued ht) ((hsound a ha).valued ht)
    rw [List.forall_mem_cons, List.forall_mem_singleton, Expr.holds_all, Expr.holds_any, List.forall_mem_map,
      h t ht, List.forall_mem_map, and_comm]
    refine and_congr ?_ (forall₂_congr fun a ha => hnum ha)
    simp only [List.mem_map, exists_exists_and_eq_and]
    exact exists_congr fun a => and_congr_right fun ha => by
      rw [hnum ha, Relation.holds, beq_iff_eq, eq_comm]

theorem replaces_count (has : ∀ a ∈ as, a.Sound q w) (hx : x.Sound q w) (hrhs : rhs.Sound q w) :
    (Count.decompose as x r rhs).Replaces q w w.store (.cmp r (.function (.count as x)) rhs) := by
  have hcmp : ∀ c ∈ as.map fun a => Expr.cmp .eq a x, c.Sound q w :=
    List.forall_mem_map.2 fun a ha => Expr.sound_cmp (has a ha) hx
  refine Decomposition.replaces_direct (by simp [Expr.isBool]) ?_ fun t ht => ?_
  · rw [List.forall_mem_singleton]
    exact Expr.sound_cmp (Expr.sound_sum hcmp) hrhs
  · have hv : ∀ a ∈ as, a.Valued t := fun a ha => (has a ha).valued ht
    have hcv : ∀ c ∈ as.map fun a => Expr.cmp .eq a x, c.Valued t := fun c hc => (hcmp c hc).valued ht
    have hcount := Expr.exact_count hv (hx.valued ht)
    have hsum : (Expr.sum (as.map fun a => Expr.cmp .eq a x)).num t = (as.map (num t)).count (x.num t) := by
      rw [Expr.num_sum hcv, ← sum_toInt_eq_count, List.map_map, List.map_map]
      exact congrArg _ (List.map_congr_left fun a ha => Expr.num_cmp (hv a ha) (hx.valued ht))
    rw [List.forall_mem_singleton, Expr.holds_cmp_num (Expr.valued_sum hcv) (hrhs.valued ht),
      Expr.holds_cmp_num (Expr.valued_of_eq hcount) (hrhs.valued ht), hsum, Expr.num_eq hcount]

theorem replaces_distinct (has : ∀ a ∈ as, a.Sound q w) (hrhs : rhs.Sound q w) :
    (Decomposition.direct [Distinct.encoding as r rhs]).Replaces q w w.store
      (.cmp r (.function (.distinct as)) rhs) := by
  have hone (n : Int) : (Expr.any (as.map fun a => .cmp .eq a (.int n))).isBool ∧
      (Expr.any (as.map fun a => .cmp .eq a (.int n))).Sound q w := by
    have hcmp : ∀ c ∈ as.map fun a => Expr.cmp .eq a (.int n), c.isBool ∧ c.Sound q w :=
      List.forall_mem_map.2 fun a ha => ⟨rfl, Expr.sound_cmp (has a ha) Expr.sound_int⟩
    exact ⟨Expr.isBool_any fun c hc => (hcmp c hc).1,
      Expr.sound_any (fun c hc => (hcmp c hc).1) fun c hc => (hcmp c hc).2⟩
  have hterms (ns : List Int) :
      ∀ c ∈ ns.map fun n => Expr.any (as.map fun a => .cmp .eq a (.int n)), c.Sound q w :=
    List.forall_mem_map.2 fun n _ => (hone n).2
  refine Decomposition.replaces_direct (by simp [Expr.isBool, Distinct.encoding]) ?_ fun t ht => ?_
  · rw [List.forall_mem_singleton]
    exact Expr.sound_cmp (Expr.sound_sum (hterms _)) hrhs
  · have hv : ∀ a ∈ as, a.Valued t := fun a ha => (has a ha).valued ht
    have hdistinct := Expr.exact_distinct hv
    have hint (n : Int) : (Expr.int n).Valued t := Expr.valued_of_eq (Expr.exact_int ..)
    have hnum (n : Int) : (Expr.any (as.map fun a => .cmp .eq a (.int n))).num t =
        (decide (n ∈ as.map (num t))).toInt := by
      refine (hone n).2.num_eq_toInt (hone n).1 ht ?_
      simp only [Expr.holds_any, List.mem_map, exists_exists_and_eq_and]
      exact exists_congr fun a => and_congr_right fun ha => by
        rw [Expr.holds_cmp_num (hv a ha) (hint n), Relation.holds, beq_iff_eq, Expr.num_int]
    have hsum : (Expr.sum (((Bounds.hull? (as.map Expr.range)).elim [] Bounds.values).map fun n =>
        Expr.any (as.map fun a => .cmp .eq a (.int n)))).num t = ((as.map (num t)).eraseDups.length : Int) := by
      rw [Expr.num_sum fun c hc => (hterms _ c hc).valued ht, List.map_map]
      simp only [Function.comp_def, hnum]
      cases as with
      | nil => rfl
      | cons a as =>
        refine sum_toInt_mem (b := .hull ((a :: as).map Expr.range)) ?_
        rw [List.forall_mem_map]
        exact fun b hb => Bounds.mem_of_subset (Bounds.subset_hull (List.mem_map_of_mem hb))
          ((has b hb).num_mem_range ht)
    rw [List.forall_mem_singleton, Distinct.encoding,
      Expr.holds_cmp_num (Expr.valued_sum fun c hc => (hterms _ c hc).valued ht) (hrhs.valued ht),
      Expr.holds_cmp_num (Expr.valued_of_eq hdistinct) (hrhs.valued ht), hsum, Expr.num_eq hdistinct]

/-- The comparison of an element function is false when the index leaves the
list. -/
theorem holds_element (has : ∀ a ∈ as, a.Valued t) (hx : x.Valued t) (hrhs : rhs.Valued t) :
    (Expr.cmp r (.function (.element as x)) rhs).Holds t ↔
      ∃ a, entryAt? as (x.num t) = some a ∧ r.holds (a.num t) (rhs.num t) := by
  rw [Expr.holds_cmp]
  cases ha : entryAt? as (x.num t) with
  | none =>
    have : (Expr.function (.element as x)).exact t = none := by
      simp [Expr.exact_function, map, exact, hx.exact_eq, entryAt?_map, ha]
    simp [this]
  | some a =>
    rw [Expr.exact_element hx.exact_eq ha, (has a (mem_of_entryAt? ha)).exact_eq, hrhs.exact_eq]
    simp

theorem replaces_element (has : ∀ a ∈ as, a.Sound q w) (hx : x.Sound q w) (hrhs : rhs.Sound q w) :
    (Decomposition.direct (Element.encoding as x r rhs)).Replaces q w w.store
      (.cmp r (.function (.element as x)) rhs) := by
  have hv {t : Assignment} (ht : w.Admits t) : ∀ a ∈ as, a.Valued t := fun a ha => (has a ha).valued ht
  unfold Element.encoding
  cases hc : x.constant? with
  | some i =>
    refine Decomposition.replaces_direct ?_ ?_ fun t ht => ?_
    · rw [List.forall_mem_singleton]
      cases entryAt? as i <;> rfl
    · rw [List.forall_mem_singleton]
      cases ha : entryAt? as i with
      | none => exact Expr.sound_bool
      | some a => exact Expr.sound_cmp (has a (mem_of_entryAt? ha)) hrhs
    · rw [List.forall_mem_singleton, holds_element (hv ht) (hx.valued ht) (hrhs.valued ht),
        Expr.num_of_constant hc]
      cases ha : entryAt? as i with
      | none => simp [Expr.holds_bool]
      | some a => simp [Expr.holds_cmp_num (hv ht a (mem_of_entryAt? ha)) (hrhs.valued ht)]
  | none =>
    have himplies : ∀ c ∈ ((indexed as).filter fun p => p.1 ∈ x.range).map fun p =>
        Expr.implies (.cmp .eq x (.int p.1)) (.cmp r p.2 rhs), c.isBool ∧ c.Sound q w := by
      simp only [List.forall_mem_map, List.mem_filter, and_imp, Prod.forall]
      intro i a hi _
      exact ⟨rfl, Expr.sound_implies rfl rfl (Expr.sound_cmp hx Expr.sound_int)
        (Expr.sound_cmp (has a (mem_of_indexed hi)) hrhs)⟩
    refine Decomposition.replaces_direct ?_ ?_ fun t ht => ?_
    · exact List.forall_mem_append.2 ⟨fun g hg => (Expr.sound_guards hx g hg).1, fun c hc => (himplies c hc).1⟩
    · exact List.forall_mem_append.2 ⟨fun g hg => (Expr.sound_guards hx g hg).2, fun c hc => (himplies c hc).2⟩
    · have hxv := hx.valued ht
      have hmem := hx.num_mem_range ht
      have hint (n : Int) : (Expr.int n).Valued t := Expr.valued_of_eq (Expr.exact_int ..)
      rw [List.forall_mem_append, Expr.holds_guards hxv hmem, holds_element (hv ht) hxv (hrhs.valued ht)]
      simp only [List.forall_mem_map, List.mem_filter, decide_eq_true_eq, and_imp, Prod.forall]
      -- Of all the implications only the one at the index requires something.
      have himp {i : Int} {a : Expr} (hi : (i, a) ∈ indexed as) :
          (Expr.implies (.cmp .eq x (.int i)) (.cmp r a rhs)).Holds t ↔
            (x.num t = i → r.holds (a.num t) (rhs.num t)) := by
        have hcmp : (Expr.cmp .eq x (.int i)).Valued t := Expr.valued_of_eq (Expr.exact_cmp_num hxv (hint i))
        rw [Expr.holds_implies_iff hcmp, Expr.holds_cmp_num hxv (hint i),
          Expr.holds_cmp_num (hv ht a (mem_of_indexed hi)) (hrhs.valued ht), Relation.holds, beq_iff_eq,
          Expr.num_int]
      constructor
      · rintro ⟨hpos, hall⟩
        cases ha : entryAt? as (x.num t) with
        | none => exact absurd hpos (entryAt?_eq_none.1 ha)
        | some a =>
          have hi := mem_indexed_iff.2 ha
          exact ⟨a, rfl, (himp hi).1 (hall _ a hi hmem) rfl⟩
      · rintro ⟨a, ha, hr⟩
        refine ⟨?_, fun i b hi _ => (himp hi).2 fun heq => ?_⟩
        · by_contra hpos
          rw [entryAt?_eq_none.2 hpos] at ha
          cases ha
        · rw [heq, mem_indexed_iff.1 hi, Option.some_inj] at ha
          rwa [ha]

/-- What the comparison of a function is replaced by. -/
theorem Decomposes.replaces {d : Decomposition} (h : g.Decomposes w.store r rhs d τ) (hw : w.Inhabited)
    (hf : g.Formed) (hg : ∀ a ∈ g.args, a.Sound q w) (hrhs : rhs.Sound q w) :
    d.Replaces q w τ (.cmp r (.function g) rhs) := by
  cases h with
  | @absSame x hrange =>
    have hx := hg x (by simp [args])
    refine Decomposition.replaces_direct (by simp [Expr.isBool]) (by simp [hx, hrhs]) fun t ht => ?_
    have habs := Expr.exact_abs (hx.valued ht)
    have hmem := hx.num_mem_range ht
    rw [Bounds.mem_iff] at hmem
    rw [List.forall_mem_singleton, Expr.holds_cmp_num (hx.valued ht) (hrhs.valued ht),
      Expr.holds_cmp_num (Expr.valued_of_eq habs) (hrhs.valued ht), Expr.num_eq habs,
      Int.natAbs_of_nonneg (by omega)]
  | @absOpposite x y hrange hy =>
    have hx := hg x (by simp [args])
    have hys := Expr.sound_minus hy hx
    refine Decomposition.replaces_direct (by simp [Expr.isBool]) (by simp [hys, hrhs]) fun t ht => ?_
    have habs := Expr.exact_abs (hx.valued ht)
    have hmem := hx.num_mem_range ht
    rw [Bounds.mem_iff] at hmem
    rw [List.forall_mem_singleton, Expr.holds_cmp_num (hys.valued ht) (hrhs.valued ht),
      Expr.holds_cmp_num (Expr.valued_of_eq habs) (hrhs.valued ht), Expr.num_eq habs,
      Expr.num_eq (Expr.exact_minus hy (hx.valued ht)), Int.ofNat_natAbs_of_nonpos (by omega)]
  | @abs x y z τ hz _ hbounds hy => exact replaces_abs hw (hg x (by simp [args])) hrhs hz hbounds hy
  | minimum as hz _ hbounds =>
    have hmin : (Expr.function (.minimum as)).Sound q w := Expr.sound_function hf trivial hg
    refine replaces_extremum hw hmin hg rfl hrhs hz hbounds .le fun t ht n => ?_
    have hv : ∀ a ∈ as, a.Valued t := fun a ha => ((hg a ha).mono (World.le_widen hz.grows)).valued ht
    rw [Expr.exact_minimum hv, List.min?_eq_some_iff]
    simp [Relation.holds, args]
  | maximum as hz _ hbounds =>
    have hmax : (Expr.function (.maximum as)).Sound q w := Expr.sound_function hf trivial hg
    refine replaces_extremum hw hmax hg rfl hrhs hz hbounds .ge fun t ht n => ?_
    have hv : ∀ a ∈ as, a.Valued t := fun a ha => ((hg a ha).mono (World.le_widen hz.grows)).valued ht
    rw [Expr.exact_maximum hv, List.max?_eq_some_iff]
    simp [Relation.holds, args]
  | count as v =>
    exact replaces_count (fun a ha => hg a (List.mem_append_left _ ha)) (hg v (by simp [args])) hrhs
  | distinct as => exact replaces_distinct hg hrhs
  | element as i =>
    exact replaces_element (fun a ha => hg a (List.mem_append_left _ ha)) (hg i (by simp [args])) hrhs

end Function

/-- The comparison of a global function holds exactly if the function has a
value that stands in the relation to the other side, and fails if it has none.
Each assignment determines the auxiliary variables of its decomposition, which
has the same value and can be negated also where the function is undefined. -/
theorem comparison_decompose_reifies {σ : Store} (r : Relation) (hσ : σ.Valid)
    (hbuilt : g.rebuild = .ok (.function g)) (hargs : ∀ a ∈ g.args, a.TermIn σ) (hrhs : rhs.TermIn σ) :
    (∀ s, s.Within σ → ∃ n, rhs.exact s = some n ∧ rhs.value.Computes s (some n) ∧
      (Expr.function g).value.Computes s ((Expr.function g).exact s) ∧
      (Expr.cmp r (.function g) rhs).Decides s (∃ v, (Expr.function g).exact s = some v ∧ r.holds v n)) ∧
    (g.decompose r rhs).Sat True σ fun d τ => d.Reifies σ τ (.cmp r (.function g) rhs) := by
  have hformed := Function.formed_of_rebuild hbuilt
  have hsound : ∀ a ∈ g.args, a.Sound True (World.bare σ) := fun a ha => (hargs a ha).sound hσ
  have hrhssound : rhs.Sound True (World.bare σ) := hrhs.sound hσ
  have hproper : (Expr.cmp r (.function g) rhs).Proper σ.Owns :=
    Expr.proper_cmp.2 ⟨Expr.proper_function.2 ⟨hformed, fun a ha => (hsound a ha).proper⟩, hrhssound.proper⟩
  have hdefined : (Expr.cmp r (.function g) rhs).Defined (World.bare σ) :=
    fun s hs => Expr.valued_cmp hproper hs.within
  constructor
  · intro s hs
    have hn := (hrhssound.valued (World.admits_bare.2 hs)).exact_eq
    refine ⟨rhs.num s, hn, hn ▸ Expr.computes_exact _ s, Expr.computes_exact _ s, ?_⟩
    refine hproper.decides rfl hs (hdefined s (World.admits_bare.2 hs)) ?_
    rw [Expr.holds_cmp, hn]
    simp
  · refine (Function.decompose_sat g r rhs).imp fun d τ _ hd => ?_
    exact Decomposition.Replaces.reifies_of_defined
      (fun hs => hd.replaces (World.inhabited_bare hs) hformed hsound hrhssound) hproper hdefined rfl

def indexStore : Store := ⟨#[⟨⟨-1, 2⟩, .int, .user⟩]⟩

def looseIndex : Variable := ⟨0, ⟨-1, 2⟩, .int⟩

def looseEntry : Function Expr := .element [.int 1, .var looseIndex] (.var looseIndex)

theorem decompose_looseEntry : indexStore.Valid ∧ looseEntry.rebuild = .ok (.function looseEntry) ∧
    (∀ a ∈ looseEntry.args, a.TermIn indexStore) ∧ (Expr.int 3).TermIn indexStore ∧
    Assignment.Within indexStore ⟨fun _ => some 2⟩ ∧
    (Expr.cmp .ne (.function looseEntry) (.int 3)).Decides ⟨fun _ => some 2⟩ False ∧
    ∃ d τ, looseEntry.decompose .ne (.int 3) indexStore = .ok d τ ∧
      d.Reifies indexStore τ (.cmp .ne (.function looseEntry) (.int 3)) := by
  have hvalid : indexStore.Valid := by
    rintro (_ | i) d h hk <;> simp [indexStore] at h
    subst h
    cases hk
  have hterms : ∀ a ∈ looseEntry.args, a.TermIn indexStore := by
    have hindex : (Expr.var looseIndex).TermIn indexStore := Expr.termIn_var ⟨.user, rfl⟩
    simp only [looseEntry, Function.args, List.forall_mem_append, List.forall_mem_cons, List.not_mem_nil,
      false_imp_iff, implies_true, and_true]
    exact ⟨⟨Expr.termIn_int 1, hindex⟩, hindex⟩
  have hbuilt : looseEntry.rebuild = .ok (.function looseEntry) := rfl
  have hwithin : Assignment.Within indexStore ⟨fun _ => some 2⟩ := by
    rintro (_ | i) d h <;> simp [indexStore] at h
    subst h
    simp [Bounds.mem_iff]
  obtain ⟨hvalue, hdecompose⟩ := comparison_decompose_reifies .ne hvalid hbuilt hterms (Expr.termIn_int 3)
  obtain ⟨n, -, -, -, hdecides⟩ := hvalue _ hwithin
  have hundefined : (Expr.function looseEntry).exact ⟨fun _ => some 2⟩ = none := by
    simp only [looseEntry, Expr.exact_function, Function.map, List.map_cons, List.map_nil, Expr.exact_var,
      Expr.exact_int]
    decide
  simp only [hundefined, reduceCtorEq, false_and, exists_false] at hdecides
  obtain ⟨d, τ, hrun⟩ : ∃ d τ, looseEntry.decompose .ne (.int 3) indexStore = .ok d τ := ⟨_, _, by cbv⟩
  exact ⟨hvalid, hbuilt, hterms, Expr.termIn_int 3, hwithin, hdecides, d, τ, hrun, (hdecompose.ok hrun).2⟩

end ConstraintModel
