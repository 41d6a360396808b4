import ConstraintModel.Proofs.Circuits
import ConstraintModel.Proofs.Functions

namespace ConstraintModel

open ConstraintModel.Expr (num)

namespace Subcircuit

open Circuit (follow_mem follow_getElem)

variable {succ : List Int} {start p : Int} {k j n : Nat}

def InRange (succ : List Int) (p : Int) : Prop := 0 ≤ p ∧ p < succ.length

/-- The nodes that have been visited after a number of steps, the latest
first. -/
def trail (succ : List Int) (start : Int) (j : Nat) : List Int :=
  ((List.range (j + 1)).map fun l => (follow succ)^[l] start).reverse

theorem mem_trail : p ∈ trail succ start j ↔ ∃ l ≤ j, (follow succ)^[l] start = p := by
  simp only [trail, List.mem_reverse, List.mem_map, List.mem_range, Nat.lt_succ_iff]

theorem trail_succ : trail succ start (j + 1) = (follow succ)^[j + 1] start :: trail succ start j := by
  rw [trail, List.range_succ, List.map_append, List.reverse_append]
  rfl

/-- The walk comes to an end if it reaches the start before any other node comes
up again. -/
theorem cycle_eq_some {visited : List Int} :
    cycle succ start k ((follow succ)^[j] start) (trail succ start j) = some visited ↔
      ∃ m, j < m ∧ m ≤ j + k ∧ (follow succ)^[m] start = start ∧
        (∀ l, j ≤ l → l < m → InRange succ ((follow succ)^[l] start)) ∧
        (∀ l, j < l → l < m → (follow succ)^[l] start ∉ trail succ start (l - 1)) ∧
        visited = trail succ start (m - 1) := by
  -- The nodes that have been visited are the trail, so the start of the run can vary.
  induction k generalizing j with
  | zero =>
    simp only [cycle, reduceCtorEq, false_iff]
    rintro ⟨m, hjm, hm, -⟩
    omega
  | succ k ih =>
    rw [cycle]
    cases ha : entryAt? succ ((follow succ)^[j] start) with
    | none =>
      simp only [reduceCtorEq, false_iff]
      rintro ⟨m, hjm, -, -, hrange, -⟩
      exact entryAt?_eq_none.1 ha (hrange j (le_refl j) hjm)
    | some next =>
      have hrange : InRange succ ((follow succ)^[j] start) := by
        by_contra h
        rw [entryAt?_eq_none.2 h] at ha
        cases ha
      have hnext : next = (follow succ)^[j + 1] start := by
        rw [Function.iterate_succ_apply', follow, ha]
        rfl
      have hstart : start ∈ trail succ start j := mem_trail.2 ⟨0, Nat.zero_le j, rfl⟩
      dsimp only
      rw [hnext, show j + (k + 1) = j + 1 + k by omega]
      by_cases hreturn : (follow succ)^[j + 1] start = start
      · rw [if_pos hreturn, Option.some_inj, eq_comm]
        constructor
        · rintro rfl
          refine ⟨j + 1, by omega, by omega, hreturn, fun l hl hlt => ?_, fun l _ _ => by omega, rfl⟩
          rwa [show l = j by omega]
        · rintro ⟨m, hjm, -, -, -, hnew, rfl⟩
          by_contra hm
          have hm : j + 1 < m := by
            by_contra hle
            exact hm (by rw [show m = j + 1 by omega]; rfl)
          exact hnew (j + 1) (by omega) hm (hreturn.symm ▸ hstart)
      · rw [if_neg hreturn]
        by_cases hseen : (follow succ)^[j + 1] start ∈ trail succ start j
        · simp only [hseen, if_true, reduceCtorEq, false_iff]
          rintro ⟨m, hjm, -, hm, -, hnew, -⟩
          refine hnew (j + 1) (by omega) ?_ hseen
          exact lt_of_le_of_ne hjm fun h => hreturn (h ▸ hm)
        · rw [if_neg hseen, ← trail_succ, ih]
          constructor
          · rintro ⟨m, hjm, hm, hclose, hin, hnew, rfl⟩
            refine ⟨m, by omega, hm, hclose, fun l hl hlm => ?_, fun l hl hlm => ?_, rfl⟩
            · rcases Nat.eq_or_lt_of_le hl with rfl | hl
              · exact hrange
              · exact hin l hl hlm
            · rcases Nat.eq_or_lt_of_le (Nat.succ_le_of_lt hl) with rfl | hl
              · exact hseen
              · exact hnew l hl hlm
          · rintro ⟨m, hjm, hm, hclose, hin, hnew, rfl⟩
            refine ⟨m, lt_of_le_of_ne hjm fun h => hreturn (h ▸ hclose), hm, hclose, fun l hl => hin l (by omega),
              fun l hl => hnew l (by omega), rfl⟩

/-- The walk from the start back to it visits the nodes on its cycle. -/
theorem cycle_start_eq_some {visited : List Int} : cycle succ start (n + 1) start [start] = some visited ↔
    0 < Function.minimalPeriod (follow succ) start ∧ Function.minimalPeriod (follow succ) start ≤ n + 1 ∧
      (∀ l < Function.minimalPeriod (follow succ) start, InRange succ ((follow succ)^[l] start)) ∧
      visited = trail succ start (Function.minimalPeriod (follow succ) start - 1) := by
  refine (cycle_eq_some (j := 0)).trans ?_
  constructor
  · rintro ⟨m, hm, hmn, hclose, hin, hnew, rfl⟩
    have hperiodic : Function.IsPeriodicPt (follow succ) m start := hclose
    have hpos : 0 < Function.minimalPeriod (follow succ) start := hperiodic.minimalPeriod_pos hm
    have hle : Function.minimalPeriod (follow succ) start ≤ m := hperiodic.minimalPeriod_le hm
    obtain rfl : m = Function.minimalPeriod (follow succ) start := by
      by_contra hne
      refine hnew (Function.minimalPeriod (follow succ) start) hpos (by omega) (mem_trail.2 ⟨0, Nat.zero_le _, ?_⟩)
      exact Function.iterate_minimalPeriod.symm
    exact ⟨hpos, by omega, fun l hl => hin l (Nat.zero_le l) hl, rfl⟩
  · rintro ⟨hpos, hn, hin, rfl⟩
    refine ⟨_, hpos, by omega, Function.iterate_minimalPeriod, fun l _ => hin l, fun l h0 hl hmem => ?_, rfl⟩
    obtain ⟨l', hl', heq⟩ := mem_trail.1 hmem
    have := Function.iterate_injOn_Iio_minimalPeriod (show l' < _ by omega) (show l < _ from hl) heq
    omega

theorem getElem_indexed {i : Nat} (hi : i < succ.length) (h : i < (indexed succ).length) :
    (indexed succ)[i] = ((i : Int), succ[i]) := by
  simp [indexed]

/-- A value at a position. -/
theorem mem_indexed_iff {q : Int × Int} : q ∈ indexed succ ↔ InRange succ q.1 ∧ q.2 = follow succ q.1 := by
  rw [mem_indexed]
  constructor
  · rintro ⟨i, hi, hget⟩
    obtain ⟨hlt, hget⟩ := List.getElem?_eq_some_iff.1 hget
    rw [hi, follow_getElem hlt, hget]
    exact ⟨⟨by omega, by omega⟩, rfl⟩
  · rintro ⟨⟨h0, hlt⟩, hvalue⟩
    have hi : q.1.toNat < succ.length := by omega
    have hcast : (q.1.toNat : Int) = q.1 := Int.toNat_of_nonneg h0
    refine ⟨q.1.toNat, hcast.symm, List.getElem?_eq_some_iff.2 ⟨hi, ?_⟩⟩
    rw [hvalue, ← follow_getElem hi, hcast]

def starts (succ : List Int) : List Int := (indexed succ).map fun q => if q.2 = q.1 then (succ.length : Int) else q.1

theorem le_of_min?_starts (h : (starts succ).min? = some start) (hp : InRange succ p) (hne : follow succ p ≠ p) :
    start ≤ p := by
  refine (List.min?_eq_some_iff.1 h).2 p (List.mem_map.2 ⟨(p, follow succ p), mem_indexed_iff.2 ⟨hp, rfl⟩, ?_⟩)
  exact if_neg hne

theorem start_of_min?_starts (h : (starts succ).min? = some start) :
    start = succ.length ∨ InRange succ start ∧ follow succ start ≠ start := by
  obtain ⟨q, hq, rfl⟩ := List.mem_map.1 (List.min?_eq_some_iff.1 h).1
  obtain ⟨hrange, hvalue⟩ := mem_indexed_iff.1 hq
  by_cases hfixed : q.2 = q.1
  · exact .inl (if_pos hfixed)
  · rw [if_neg hfixed]
    exact .inr ⟨hrange, hvalue ▸ hfixed⟩

theorem eq_of_find? (h : (starts succ).min? = some start) {q : Int × Int}
    (hq : (indexed succ).find? (fun (i, s) => s ≠ i) = some q) : q.1 = start := by
  obtain ⟨hne, i, hi, hqi, hbefore⟩ := List.find?_eq_some_iff_getElem.1 hq
  have hi' : i < succ.length := by simpa [indexed] using hi
  rw [getElem_indexed hi'] at hqi
  subst hqi
  have hne : succ[i] ≠ (i : Int) := by simpa using hne
  have hle : start ≤ i := le_of_min?_starts h ⟨by omega, by omega⟩ (by rwa [follow_getElem hi'])
  rcases start_of_min?_starts h with hstart | ⟨hrange, hstart⟩
  · omega
  · obtain ⟨k, rfl⟩ := Int.eq_ofNat_of_zero_le hrange.1
    have hk : k < succ.length := by have := hrange.2; omega
    rw [follow_getElem hk] at hstart
    by_contra hki
    have hlt : k < i := by
      have : (k : Int) ≠ i := fun h => hki h.symm
      omega
    have := hbefore k hlt
    rw [getElem_indexed hk] at this
    exact hstart (by simpa using this)

/-- Positions with different successors are followed back to each other within
as many steps as there are positions. -/
theorem minimalPeriod_of_nodup (hpos : ∀ v ∈ succ, InRange succ v) (hnodup : succ.Nodup) (hstart : InRange succ start) :
    (0 < Function.minimalPeriod (follow succ) start ∧ Function.minimalPeriod (follow succ) start ≤ succ.length) ∧
      ∀ l, InRange succ ((follow succ)^[l] start) := by
  have hrange (l : Nat) : InRange succ ((follow succ)^[l] start) := by
    induction l with
    | zero => exact hstart
    | succ l ih =>
      rw [Function.iterate_succ_apply']
      exact hpos _ (follow_mem ih.1 ih.2)
  have hinj {p p' : Int} (hp : InRange succ p) (hp' : InRange succ p')
      (h : follow succ p = follow succ p') : p = p' := by
    obtain ⟨i, rfl⟩ := Int.eq_ofNat_of_zero_le hp.1
    obtain ⟨j, rfl⟩ := Int.eq_ofNat_of_zero_le hp'.1
    have hi : i < succ.length := by have := hp.2; omega
    have hj : j < succ.length := by have := hp'.2; omega
    rw [follow_getElem hi, follow_getElem hj, hnodup.getElem_inj_iff] at h
    rw [h]
  have cancel (l m : Nat) : (follow succ)^[l] ((follow succ)^[m] start) = (follow succ)^[l] start →
      (follow succ)^[m] start = start := by
    induction l with
    | zero => exact id
    | succ l ih =>
      intro h
      rw [Function.iterate_succ_apply', Function.iterate_succ_apply', ← Function.iterate_add_apply] at h
      exact ih (by rw [← Function.iterate_add_apply]; exact hinj (hrange _) (hrange _) h)
  refine ⟨?_, hrange⟩
  -- two of the nodes after so many steps are the same
  obtain ⟨a, ha, b, hb, hab, heq⟩ : ∃ a ∈ Finset.range (succ.length + 1), ∃ b ∈ Finset.range (succ.length + 1),
      a < b ∧ (follow succ)^[a] start = (follow succ)^[b] start := by
    obtain ⟨a, ha, b, hb, hne, heq⟩ := Finset.exists_ne_map_eq_of_card_lt_of_maps_to
      (s := Finset.range (succ.length + 1)) (t := Finset.Ico 0 (succ.length : Int)) (by simp)
      (f := fun l => (follow succ)^[l] start) fun l _ => by simpa [InRange] using hrange l
    rcases Nat.lt_or_gt_of_ne hne with h | h
    · exact ⟨a, ha, b, hb, h, heq⟩
    · exact ⟨b, hb, a, ha, h, heq.symm⟩
  have hb := Finset.mem_range.1 hb
  have hperiodic : Function.IsPeriodicPt (follow succ) (b - a) start := by
    refine cancel a (b - a) ?_
    rw [← Function.iterate_add_apply, Nat.add_sub_cancel' hab.le, heq]
  have hle := hperiodic.minimalPeriod_le (by omega)
  exact ⟨hperiodic.minimalPeriod_pos (by omega), by omega⟩

/-- All positions on the cycle are visited within as many steps as there are
positions. -/
theorem holds_iff_visits (hstart : (starts succ).min? = some start) : holds succ ↔ (∀ v ∈ succ, InRange succ v) ∧
    succ.Nodup ∧ ∀ q ∈ indexed succ, q.2 ≠ q.1 → q.1 ∈ List.iterate (follow succ) start succ.length := by
  have hindexed : ∀ v ∈ succ, ∃ q ∈ indexed succ, q.2 = v := by
    intro v hv
    obtain ⟨i, hi, rfl⟩ := List.getElem_of_mem hv
    exact ⟨(i, succ[i]), mem_indexed_iff.2 ⟨⟨by omega, by omega⟩, (follow_getElem hi).symm⟩, rfl⟩
  rw [holds]
  cases hfind : (indexed succ).find? fun (i, s) => s ≠ i with
  | none =>
    have hfixed : ∀ q ∈ indexed succ, q.2 = q.1 := by simpa using hfind
    simp only [true_iff]
    refine ⟨fun v hv => ?_, ?_, fun q hq hne => absurd (hfixed q hq) hne⟩
    · obtain ⟨q, hq, rfl⟩ := hindexed v hv
      rw [hfixed q hq]
      exact (mem_indexed_iff.1 hq).1
    · refine List.nodup_iff_injective_get.2 fun i j hij => ?_
      have hi := hfixed (i, succ[i]) (mem_indexed_iff.2 ⟨⟨by omega, by simp⟩, (follow_getElem i.2).symm⟩)
      have hj := hfixed (j, succ[j]) (mem_indexed_iff.2 ⟨⟨by omega, by simp⟩, (follow_getElem j.2).symm⟩)
      have : succ[i] = succ[j] := hij
      exact Fin.ext (by simpa [hi, hj] using hi.symm.trans (this.trans hj))
  | some q =>
    obtain rfl := eq_of_find? hstart hfind
    have hrange : InRange succ q.1 := (mem_indexed_iff.1 (List.mem_of_find?_eq_some hfind)).1
    simp only [Bool.and_eq_true, decide_eq_true_eq]
    constructor
    · rintro ⟨hnodup, hcycle⟩
      cases hvisited : cycle succ q.1 (succ.length + 1) q.1 [q.1] with
      | none => rw [hvisited] at hcycle; cases hcycle
      | some visited =>
      obtain ⟨hpos, -, hin, rfl⟩ := cycle_start_eq_some.1 hvisited
      have hmem : ∀ p ∈ indexed succ, p.2 ≠ p.1 → ∃ l < Function.minimalPeriod (follow succ) q.1,
          (follow succ)^[l] q.1 = p.1 := by
        intro p hp hne
        have hall := hcycle
        rw [hvisited] at hall
        have := List.all_eq_true.1 hall p hp
        simp only [Bool.or_eq_true, decide_eq_true_eq, beq_iff_eq, hne, or_false] at this
        obtain ⟨l, hl, heq⟩ := mem_trail.1 this
        exact ⟨l, by omega, heq⟩
      have hpositions : ∀ v ∈ succ, InRange succ v := by
        intro v hv
        obtain ⟨p, hp, rfl⟩ := hindexed v hv
        obtain ⟨hprange, hvalue⟩ := mem_indexed_iff.1 hp
        by_cases hne : p.2 = p.1
        · rwa [hne]
        · obtain ⟨l, hl, heq⟩ := hmem p hp hne
          rw [hvalue, ← heq, ← Function.iterate_succ_apply' (follow succ)]
          rcases Nat.eq_or_lt_of_le (Nat.succ_le_of_lt hl) with hlast | hlt
          · rw [hlast, Function.iterate_minimalPeriod]
            exact hrange
          · exact hin _ hlt
      obtain ⟨⟨-, hle⟩, -⟩ := minimalPeriod_of_nodup hpositions hnodup hrange
      refine ⟨hpositions, hnodup, fun p hp hne => ?_⟩
      obtain ⟨l, hl, heq⟩ := hmem p hp hne
      exact List.mem_iterate.2 ⟨l, by omega, heq.symm⟩
    · rintro ⟨hpositions, hnodup, hvisits⟩
      obtain ⟨⟨hpos, hle⟩, hin⟩ := minimalPeriod_of_nodup hpositions hnodup hrange
      refine ⟨hnodup, ?_⟩
      rw [cycle_start_eq_some.2 ⟨hpos, by omega, fun l _ => hin l, rfl⟩]
      refine List.all_eq_true.2 fun p hp => ?_
      simp only [Bool.or_eq_true, decide_eq_true_eq, beq_iff_eq]
      refine or_iff_not_imp_right.2 fun hne => ?_
      obtain ⟨l, -, heq⟩ := List.mem_iterate.1 (hvisits p hp hne)
      -- A node that is visited at all is visited before the start comes up again.
      refine mem_trail.2 ⟨l % Function.minimalPeriod (follow succ) q.1, Nat.le_sub_one_of_lt (Nat.mod_lt _ hpos), ?_⟩
      rw [Function.iterate_mod_minimalPeriod_eq, ← heq]

end Subcircuit

variable {q : Prop} {w : World} {τ υ : Store} {succ : List Expr} {start : Variable} {visits : List Variable}
  {s : Assignment}

namespace Expr

theorem holds_subcircuit (h : ∀ a ∈ succ, a.Valued s) :
    (constraint (.subcircuit succ)).Holds s ↔ Subcircuit.holds (succ.map (num s)) := by
  simp [holds_constraint, Constraint.map, Constraint.exact, values_num h]

theorem holds_subcircuitThrough {n : Nat} {a : Expr} (h : ∀ a ∈ succ, a.Valued s) (ha : succ[n]? = some a) :
    (constraint (.subcircuitThrough succ n)).Holds s ↔ Subcircuit.holds (succ.map (num s)) ∧ a.num s ≠ n := by
  have hv := (h a (List.mem_of_getElem? ha)).exact_eq
  simp [holds_constraint, Constraint.map, Constraint.exact, values_num h, ha, hv]

end Expr

namespace Subcircuit

theorem sound_candidates (hsucc : ∀ e ∈ succ, e.Sound q w) : ∀ a ∈ candidates succ, a.Sound q w :=
  List.forall_mem_map.2 fun _ hp => (Expr.sound_plus
    (Expr.sound_mul Expr.sound_int (Expr.sound_cmp (hsucc _ (mem_of_indexed hp)) Expr.sound_int)) Expr.sound_int).1

theorem num_candidates (hsucc : ∀ e ∈ succ, e.Sound q w) (hs : w.Admits s) :
    (candidates succ).map (num s) = starts (succ.map (num s)) := by
  rw [starts, indexed_map, candidates, List.map_map, List.map_map]
  refine List.map_congr_left fun p hp => ?_
  have hcmp : (Expr.cmp .eq p.2 (.int p.1)).Sound q w :=
    Expr.sound_cmp (hsucc _ (mem_of_indexed hp)) Expr.sound_int
  have hint (n : Int) : (Expr.int n).Valued s := Expr.valued_of_eq (Expr.exact_int ..)
  rw [Function.comp_apply, (Expr.sound_plus (Expr.sound_mul Expr.sound_int hcmp) Expr.sound_int).2 s hs, Expr.num_int,
    Expr.num_eq (by rw [Expr.exact_mul, Expr.exact_int, (hcmp.valued hs).exact_eq]; rfl),
    Expr.num_cmp ((hsucc _ (mem_of_indexed hp)).valued hs) (hint _), Expr.num_int, List.length_map]
  by_cases h : p.2.num s = p.1 <;> simp [h, Relation.holds, Bool.toInt, beq_false_of_ne]

/-- The nodes that are visited from the smallest position that is not its own
successor are the values of the auxiliary variables. -/
theorem refines_tour (hw : w.Inhabited) (hsucc : ∀ e ∈ succ, e.Sound q w) (hne : succ ≠ [])
    (hstart : w.store.Creates start τ) (hbounds : start.bounds = ⟨0, succ.length⟩)
    (hcreates : τ.CreatesAll visits υ) (hlength : visits.length = succ.length)
    (hvisits : ∀ x ∈ visits, ¬x.isBool ∧ x.bounds = hullAround succ ⟨0, succ.length⟩) :
    ∃ w' : World, w'.store = υ ∧ w'.constraints = w.constraints ++
        (encoding succ (hullAround succ ⟨0, succ.length⟩) (.var start) (visits.map .var)).defining ∧
      w.Refines True w' ∧ ∀ t, w'.Admits t → ∃ p, (starts (succ.map (num t))).min? = some p ∧
        visits.map (fun x => (Expr.var x).num t) = List.iterate (follow (succ.map (num t))) p succ.length := by
  obtain ⟨x, xs, rfl⟩ := List.exists_cons_of_ne_nil (List.ne_nil_of_length_pos (hlength ▸ List.length_pos_iff.2 hne))
  have hcands := sound_candidates hsucc
  have hminimum : (Expr.function (.minimum (candidates succ))).Sound q w :=
    Expr.sound_function (by simpa [Function.Formed, candidates, indexed] using hne) trivial hcands
  have hexact {t : Assignment} (ht : w.Admits t) : (starts (succ.map (num t))).min? =
      some ((Expr.function (.minimum (candidates succ))).num t) := by
    rw [← num_candidates hsucc ht, ← Expr.exact_minimum fun a ha => (hcands a ha).valued ht]
    exact (hminimum.valued ht).exact_eq
  have hdef : (Expr.cmp .eq (.var start) (.function (.minimum (candidates succ)))).Sound q (w.widen τ hstart.grows) :=
    Expr.sound_cmp (Expr.sound_var hstart.owns) (hminimum.mono (World.le_widen hstart.grows))
  let v : World := (w.widen τ hstart.grows).post [.cmp .eq (.var start) (.function (.minimum (candidates succ)))]
    (List.forall_mem_singleton.2 hdef.proper)
  have hv : w.Refines True v := by
    refine World.refines_define hw hstart hminimum.proper (fun t ht => ⟨hminimum.valued ht, ?_⟩) (.inr rfl) rfl
    rw [hbounds]
    rcases start_of_min?_starts (hexact ht) with h | ⟨⟨h0, hlt⟩, -⟩
    · rw [h, List.length_map]
      exact ⟨by simp, le_refl _⟩
    · rw [List.length_map] at hlt
      exact ⟨h0, hlt.le⟩
  have hpositions := subset_hullAround succ ⟨0, succ.length⟩
  obtain ⟨w', hυ, hw', hr, hwalk⟩ := refines_walk (hv.keeps hw)
    (fun a ha => ⟨(hsucc a ha).mono hv.le, range_subset_hullAround ha _⟩)
    (hpositions.1.trans ((Int.natCast_nonneg _).trans hpositions.2)) (Expr.sound_var hstart.owns)
    (by rw [Expr.range, hbounds]; exact hpositions) hcreates hvisits
  refine ⟨w', hυ, ?_, hv.trans hr, fun t ht => ⟨_, hexact (hv.sound t (hr.sound t ht)), ?_⟩⟩
  · rw [hw']
    exact List.append_assoc ..
  · have ht' := hr.sound t ht
    have hholds : (Expr.cmp .eq (.var start) (.function (.minimum (candidates succ)))).Holds t :=
      ht'.holds _ (List.mem_append_right _ (List.mem_singleton_self _))
    rw [Expr.holds_cmp_num ((Expr.sound_var (q := q) hstart.owns).valued ht') (hminimum.valued (hv.sound t ht')),
      Relation.holds, beq_iff_eq] at hholds
    rw [hwalk t ht, hlength, hholds]

theorem sound_encoding (hsucc : ∀ e ∈ succ, e.Sound q w) (hne : succ ≠ []) (hstart : w.store.Owns start)
    (hvisits : ∀ x ∈ visits, w.store.Owns x ∧ x.bounds = hullAround succ ⟨0, succ.length⟩) :
    ∀ a ∈ (encoding succ (hullAround succ ⟨0, succ.length⟩) (.var start) (visits.map .var)).toList,
      a.isBool ∧ a.Sound q w := by
  have hvars : ∀ x ∈ visits, (Expr.var x).Sound q w := fun x hx => Expr.sound_var (hvisits x hx).1
  have hpositions := subset_hullAround succ ⟨0, succ.length⟩
  have hvisit (i : Int) : ∀ a ∈ (visits.map Expr.var).map fun v => Expr.cmp .eq v (.int i), a.isBool ∧ a.Sound q w :=
    List.forall_mem_map.2 (List.forall_mem_map.2 fun x hx => ⟨rfl, Expr.sound_cmp (hvars x hx) Expr.sound_int⟩)
  refine List.forall_mem_append.2 ⟨?_, List.forall_mem_append.2 ⟨?_,
    sound_chain hsucc (hpositions.1.trans ((Int.natCast_nonneg _).trans hpositions.2)) hvisits⟩⟩
  · simp only [encoding, List.mem_append, List.mem_flatMap, List.mem_cons, List.not_mem_nil, or_false, List.mem_map]
    rintro a ((⟨e, he, ha⟩ | rfl) | ⟨p, hp, rfl⟩)
    · exact Expr.sound_guards (hsucc e he) a ha
    · exact ⟨rfl, Expr.sound_constraint trivial trivial hsucc⟩
    · have hany := Expr.isBool_any fun a ha => (hvisit p.1 a ha).1
      exact ⟨rfl, Expr.sound_implies rfl hany (Expr.sound_cmp (hsucc _ (mem_of_indexed hp)) Expr.sound_int)
        (Expr.sound_any (fun a ha => (hvisit p.1 a ha).1) fun a ha => (hvisit p.1 a ha).2)⟩
  · simp only [List.mem_cons, List.mem_map, Option.mem_toList, List.head?_map, Option.map_eq_some_iff]
    rintro a (rfl | ⟨_, ⟨x, hx, rfl⟩, rfl⟩)
    · refine ⟨rfl, Expr.sound_cmp (Expr.sound_var hstart) (Expr.sound_function ?_ trivial (sound_candidates hsucc))⟩
      simpa [Function.Formed, candidates, indexed] using hne
    · exact ⟨rfl, Expr.sound_cmp (hvars x (List.mem_of_head? hx)) (Expr.sound_var hstart)⟩

/-- The decomposition of a subcircuit constraint follows the successors from
the smallest position that is not its own successor. -/
theorem replaces (hw : w.Inhabited) (hsucc : ∀ e ∈ succ, e.Sound q w) (hne : succ ≠ [])
    (hstart : w.store.Creates start τ) (hbounds : start.bounds = ⟨0, succ.length⟩)
    (hcreates : τ.CreatesAll visits υ) (hlength : visits.length = succ.length)
    (hvisits : ∀ x ∈ visits, ¬x.isBool ∧ x.bounds = hullAround succ ⟨0, succ.length⟩) :
    (encoding succ (hullAround succ ⟨0, succ.length⟩) (.var start) (visits.map .var)).Replaces q w υ
      (.constraint (.subcircuit succ)) := by
  have hgrows := hstart.grows.trans hcreates.grows
  have hsounds := sound_encoding (fun e he => (hsucc e he).mono (World.le_widen hgrows)) hne
    (hstart.owns.mono hcreates.grows) fun x hx => ⟨hcreates.owns hx, (hvisits x hx).2⟩
  obtain ⟨w', rfl, hw', hr, htour⟩ := refines_tour hw hsucc hne hstart hbounds hcreates hlength hvisits
  refine ⟨hgrows, fun a ha => (hsounds a ha).1, fun a ha => (hsounds a ha).2, w', rfl, hw', hr, fun t ht => ?_⟩
  obtain ⟨p, hp, htour⟩ := htour t ht
  have hsucct : ∀ e ∈ succ, e.Sound q w' := fun e he => (hsucc e he).mono hr.le
  have hint (n : Int) : (Expr.int n).Valued t := Expr.valued_of_eq (Expr.exact_int ..)
  have hvisit (i : Int) : (Expr.any ((visits.map Expr.var).map fun v => .cmp .eq v (.int i))).Holds t ↔
      i ∈ List.iterate (follow (succ.map (num t))) p (succ.map (num t)).length := by
    rw [List.length_map, ← htour, Expr.holds_any]
    simp only [List.mem_map, exists_exists_and_eq_and]
    refine exists_congr fun x => and_congr_right fun hx => ?_
    rw [Expr.holds_cmp_num ((Expr.sound_var (q := q) (hcreates.owns hx)).valued ht) (hint i), Expr.num_int,
      Relation.holds, beq_iff_eq]
  have hguards : (∀ e ∈ succ, ∀ g ∈ e.guards succ.length, g.Holds t) ↔
      ∀ v ∈ succ.map (num t), InRange (succ.map (num t)) v := by
    rw [List.forall_mem_map]
    simp only [InRange, List.length_map]
    exact forall₂_congr fun e he => Expr.holds_guards ((hsucct e he).valued ht) ((hsucct e he).num_mem_range ht)
  have hcycle : (∀ q ∈ indexed (succ.map (num t)), q.2 ≠ q.1 →
        q.1 ∈ List.iterate (follow (succ.map (num t))) p (succ.map (num t)).length) ↔
      ∀ q ∈ indexed succ, (Expr.implies (.cmp .ne q.2 (.int q.1))
        (.any ((visits.map Expr.var).map fun v => .cmp .eq v (.int q.1)))).Holds t := by
    rw [indexed_map, List.forall_mem_map]
    refine forall₂_congr fun q hq => ?_
    have hv := (hsucct _ (mem_of_indexed hq)).valued ht
    rw [Expr.holds_implies_iff (Expr.valued_of_eq (Expr.exact_cmp_num hv (hint _))), hvisit,
      Expr.holds_cmp_num hv (hint _), Expr.num_int, Relation.holds, bne_iff_ne]
  rw [Expr.holds_subcircuit fun e he => (hsucct e he).valued ht, holds_iff_visits hp, ← hguards, hcycle,
    ← Expr.holds_allDifferent fun e he => (hsucct e he).valued ht]
  simp only [encoding, List.forall_mem_append, List.forall_mem_flatMap, List.forall_mem_map,
    List.forall_mem_singleton, and_assoc]

theorem replaces_through {n : Nat} (hsucc : ∀ e ∈ succ, e.Sound q w) (hlength : 2 ≤ succ.length)
    (hn : n < succ.length) :
    (decomposeThrough succ n).Replaces q w w.store (.constraint (.subcircuitThrough succ n)) := by
  have ha : succ[n]? = some succ[n] := List.getElem?_eq_getElem hn
  have hmem := hsucc _ (List.getElem_mem hn)
  rw [decomposeThrough, ha, Option.toList_some, List.map_singleton]
  refine Decomposition.replaces_direct ?_ ?_ fun t ht => ?_
  · simp [Expr.isBool]
  · exact List.forall_mem_cons.2 ⟨Expr.sound_constraint hlength trivial hsucc,
      List.forall_mem_singleton.2 (Expr.sound_cmp hmem Expr.sound_int)⟩
  · have hv : ∀ e ∈ succ, e.Valued t := fun e he => (hsucc e he).valued ht
    rw [List.forall_mem_cons, List.forall_mem_singleton, Expr.holds_subcircuit hv, Expr.holds_subcircuitThrough hv ha,
      Expr.holds_cmp_num (hmem.valued ht) (Expr.valued_of_eq (Expr.exact_int ..)), Expr.num_int, Relation.holds,
      bne_iff_ne]

end Subcircuit

end ConstraintModel
