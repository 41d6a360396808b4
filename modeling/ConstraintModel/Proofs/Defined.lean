import ConstraintModel.Proofs.WellFormed

namespace ConstraintModel

namespace Exact

variable {v : Option Int}

theorem truth_isSome : (truth v).isSome = v.isSome := by cases v <;> rfl

theorem ofTruth_isSome {b : Option Bool} : (ofTruth b).isSome = b.isSome := by cases b <;> rfl

theorem connective_isSome {b : Bool} {vs : List (Option Int)} (h : ∀ v ∈ vs, v.isSome) :
    (connective b vs).isSome := by
  unfold connective
  split
  · rfl
  · split
    · rename_i hnone
      obtain ⟨v, hv, htruth⟩ := List.mem_map.1 hnone
      have := h v hv
      rw [← truth_isSome, htruth] at this
      cases this
    · rfl

theorem mapM_isSome {vs : List (Option Int)} (h : ∀ v ∈ vs, v.isSome) : (vs.mapM id).isSome := by
  induction vs with
  | nil => rfl
  | cons v vs ih =>
    obtain ⟨n, hn⟩ := Option.isSome_iff_exists.1 (h v (List.mem_cons_self ..))
    obtain ⟨ns, hns⟩ := Option.isSome_iff_exists.1 (ih fun v hv => h v (List.mem_cons_of_mem _ hv))
    rw [List.mapM_cons, hns, hn]
    rfl

end Exact

theorem Constraint.exact_isSome {c : Constraint (Option Int)} (hc : ∀ s start, c = .subcircuitThrough s start →
    start < s.length) (h : ∀ v ∈ c.args, v.isSome) : c.exact.isSome := by
  have list (vs : List (Option Int)) (hvs : ∀ v ∈ vs, v ∈ c.args) : ∃ ns, vs.mapM id = some ns :=
    Option.isSome_iff_exists.1 (Exact.mapM_isSome fun v hv => h v (hvs v hv))
  cases c with
  | allDifferent vs | allDifferentExceptZero vs | allEqual vs | monotone _ vs | circuit vs
  | subcircuit vs | table vs _ | xor vs =>
    obtain ⟨ns, hns⟩ := list vs fun v hv => hv
    simp [exact, hns]
  | subcircuitThrough vs start =>
    obtain ⟨ns, hns⟩ := list vs fun v hv => hv
    have hlt := hc vs start rfl
    obtain ⟨n, hn⟩ := Option.isSome_iff_exists.1 (h vs[start] (List.getElem_mem hlt))
    simp [exact, hns, List.getElem?_eq_getElem hlt, hn]
  | inverse fs bs =>
    obtain ⟨ns, hns⟩ := list fs fun v hv => by simp [args, hv]
    obtain ⟨ms, hms⟩ := list bs fun v hv => by simp [args, hv]
    simp [exact, hns, hms]
  | cumulative ss ds es rs capacity =>
    obtain ⟨ns, hns⟩ := list ss fun v hv => by simp [args, hv]
    obtain ⟨ms, hms⟩ := list ds fun v hv => by simp [args, hv]
    obtain ⟨ks, hks⟩ := list es fun v hv => by simp [args, hv]
    obtain ⟨ls, hls⟩ := list rs fun v hv => by simp [args, hv]
    obtain ⟨n, hn⟩ := Option.isSome_iff_exists.1 (h capacity (by simp [args]))
    simp [exact, hns, hms, hks, hls, hn]
  | cardinality xs vs os =>
    obtain ⟨ns, hns⟩ := list xs fun v hv => by simp [args, hv]
    obtain ⟨ms, hms⟩ := list vs fun v hv => by simp [args, hv]
    obtain ⟨ks, hks⟩ := list os fun v hv => by simp [args, hv]
    simp [exact, hns, hms, hks]
  | memberOfSet v set =>
    obtain ⟨n, hn⟩ := Option.isSome_iff_exists.1 (h v (by simp [args]))
    simp [exact, hn]
  | memberOfList v vs =>
    obtain ⟨n, hn⟩ := Option.isSome_iff_exists.1 (h v (by simp [args]))
    obtain ⟨ns, hns⟩ := list vs fun v hv => by simp [args, hv]
    simp [exact, hn, hns]
  | ifThenElse a b c =>
    have truth {v : Option Int} (hv : v.isSome) : (Exact.truth v).isSome := by rwa [Exact.truth_isSome]
    obtain ⟨p, hp⟩ := Option.isSome_iff_exists.1 (truth (h a (by simp [args])))
    simp only [exact, hp, Option.bind_eq_bind, Option.bind_some]
    split
    · exact truth (h b (by simp [args]))
    · exact truth (h c (by simp [args]))

/-- Only an element whose index leaves the array has no value. -/
theorem Function.exact_isSome {g : Function (Option Int)} (hmin : ∀ vs, g = .minimum vs → vs ≠ [])
    (hmax : ∀ vs, g = .maximum vs → vs ≠ [])
    (helement : ∀ vs i, g = .element vs i → ∀ n, i = some n → 0 ≤ n ∧ n < vs.length)
    (h : ∀ v ∈ g.args, v.isSome) : g.exact.isSome := by
  have list (vs : List (Option Int)) (hvs : ∀ v ∈ vs, v ∈ g.args) : ∃ ns, vs.mapM id = some ns :=
    Option.isSome_iff_exists.1 (Exact.mapM_isSome fun v hv => h v (hvs v hv))
  have nonempty {vs : List (Option Int)} {ns : List Int} (hns : vs.mapM id = some ns) (hvs : vs ≠ []) :
      ns ≠ [] := by
    rintro rfl
    rw [Exact.mapM_eq_some, List.forall₂_nil_right_iff] at hns
    exact hvs hns
  cases g with
  | abs v =>
    obtain ⟨n, hn⟩ := Option.isSome_iff_exists.1 (h v (by simp [args]))
    simp [exact, hn]
  | minimum vs =>
    obtain ⟨ns, hns⟩ := list vs fun v hv => hv
    simp [exact, hns, List.isSome_min?_iff, nonempty hns (hmin vs rfl)]
  | maximum vs =>
    obtain ⟨ns, hns⟩ := list vs fun v hv => hv
    simp [exact, hns, List.isSome_max?_iff, nonempty hns (hmax vs rfl)]
  | count vs v =>
    obtain ⟨n, hn⟩ := Option.isSome_iff_exists.1 (h v (by simp [args]))
    obtain ⟨ns, hns⟩ := list vs fun v hv => by simp [args, hv]
    simp [exact, hn, hns]
  | distinct vs =>
    obtain ⟨ns, hns⟩ := list vs fun v hv => hv
    simp [exact, hns]
  | element vs i =>
    obtain ⟨n, hn⟩ := Option.isSome_iff_exists.1 (h i (by simp [args]))
    obtain ⟨hle, hlt⟩ := helement vs i rfl n hn
    obtain ⟨k, rfl⟩ := Int.eq_ofNat_of_zero_le hle
    have hk : k < vs.length := by omega
    simp only [exact, hn, Option.bind_eq_bind, Option.bind_some, entryAt?, hle, if_true]
    rw [Int.toNat_natCast, List.getElem?_eq_getElem hk]
    exact h _ (by simp [args])

namespace Expr

variable {s : Assignment} {σ τ : Store} {e f a b : Expr} {as : List Expr}

def Valued (s : Assignment) (e : Expr) : Prop := (e.exact s).isSome

def num (s : Assignment) (e : Expr) : Int := (e.exact s).getD 0

theorem Valued.exact_eq (h : e.Valued s) : e.exact s = some (e.num s) := by
  obtain ⟨n, hn⟩ := Option.isSome_iff_exists.1 h
  rw [num, hn]
  rfl

theorem num_eq {n : Int} (h : e.exact s = some n) : e.num s = n := by rw [num, h]; rfl

theorem valued_of_eq {n : Int} (h : e.exact s = some n) : e.Valued s := by simp [Valued, h]

theorem Valued.num_mem_range (h : e.Valued s) (hb : e.InBounds s) : e.num s ∈ e.range :=
  e.exact_mem_range hb _ h.exact_eq

def Assigned (s : Assignment) (e : Expr) : Prop := ∀ x ∈ e.occurrences, (s.value? x).isSome

theorem Over.isAssigned (h : e.Over σ) (hs : s.Within σ) : e.Assigned s := by
  intro x hx
  obtain ⟨n, -, hn⟩ := hs.value (h x hx).1
  simp [hn]

theorem valued_of_assigned {V : Variable → Prop} (hp : e.Proper V) (hs : e.Assigned s)
    (h : ∀ a ∈ e.args, a.Valued s)
    (hg : ∀ as i, e = function (.element as i) → 0 ≤ i.num s ∧ i.num s < as.length) : e.Valued s := by
  have list {as : List Expr} (has : ∀ a ∈ as, a.Valued s) : ∀ v ∈ as.map (exact s), v.isSome :=
    List.forall_mem_map.2 has
  unfold Valued
  cases e with
  | bool _ | int _ => simp
  | var x =>
    rw [exact_var]
    exact hs x (by simp [occurrences_var])
  | negVar x =>
    rw [exact_negVar, Option.isSome_map]
    exact hs x (by simp [occurrences_negVar])
  | and as =>
    rw [exact_and, Exact.ofTruth_isSome]
    exact Exact.connective_isSome (list h)
  | or as =>
    rw [exact_or, Exact.ofTruth_isSome]
    exact Exact.connective_isSome (list h)
  | implies a b =>
    have ha := (h a (by simp [args])).exact_eq
    have hb := (h b (by simp [args])).exact_eq
    rw [exact_implies, Exact.ofTruth_isSome, ha, hb, Exact.implication]
    simp only [Exact.truth, Option.map_some, Option.bind_some]
    split <;> rfl
  | not a =>
    rw [exact_not, (h a (by simp [args])).exact_eq]
    rfl
  | sum as =>
    rw [exact_sum, Exact.sum, Option.isSome_map]
    exact Exact.mapM_isSome (list h)
  | wsum ts =>
    rw [exact_wsum, Exact.weightedSum, Option.isSome_map]
    have hterms : ∀ v ∈ ts.map fun t => (t.2.exact s).map (t.1 * ·), v.isSome :=
      List.forall_mem_map.2 fun t ht => (Option.isSome_map ..).trans (h t.2 (List.mem_map_of_mem ht))
    have hvalues := Exact.mapM_isSome hterms
    rwa [List.mapM_map] at hvalues ⊢
  | sub a b | mul a b =>
    have ha := (h a (by simp [args])).exact_eq
    have hb := (h b (by simp [args])).exact_eq
    simp [exact_sub, exact_mul, ha, hb]
  | neg a => simp [exact_neg, (h a (by simp [args])).exact_eq]
  | cmp r a b =>
    have ha := (h a (by simp [args])).exact_eq
    have hb := (h b (by simp [args])).exact_eq
    rw [exact_cmp, Exact.ofTruth_isSome, ha, hb]
    rfl
  | constraint c =>
    rw [exact_constraint, Exact.ofTruth_isSome]
    refine Constraint.exact_isSome (fun vs start heq => ?_) (by rw [Constraint.args_map]; exact list h)
    have hc := (proper_constraint.1 hp).1
    cases c with
    | subcircuitThrough as start' =>
      simp only [Constraint.map, Constraint.subcircuitThrough.injEq] at heq
      rw [← heq.1, ← heq.2, List.length_map]
      exact hc.2
    | _ => cases heq
  | function g =>
    have hf := (proper_function.1 hp).1
    rw [exact_function]
    refine Function.exact_isSome (fun vs heq => ?_) (fun vs heq => ?_) (fun vs v heq n hn => ?_)
      (by rw [Function.args_map]; exact list h)
    · cases g with
      | minimum as => cases heq; exact fun h => hf (List.map_eq_nil_iff.1 h)
      | _ => cases heq
    · cases g with
      | maximum as => cases heq; exact fun h => hf (List.map_eq_nil_iff.1 h)
      | _ => cases heq
    · cases g with
      | element as i =>
        cases heq
        have := hg as i rfl
        rw [num_eq hn] at this
        simpa using this
      | _ => cases heq
  | call d => exact absurd hp proper_call

theorem valued_of_args (hp : e.Proper σ.Owns) (hs : s.Within σ) (h : ∀ a ∈ e.args, a.Valued s)
    (hg : ∀ as i, e = function (.element as i) → 0 ≤ i.num s ∧ i.num s < as.length) : e.Valued s :=
  valued_of_assigned hp (Over.isAssigned hp.scope hs) h hg

/-- A comparison is decided also when one of its sides has no value. -/
theorem valued_cmp {r : Relation} (hp : (cmp r a b).Proper σ.Owns) (hs : s.Within σ) :
    (cmp r a b).Valued s := by
  rw [Valued, exact_cmp, Exact.ofTruth_isSome, Over.assigned hp.scope hs]
  cases a.exact s <;> cases b.exact s <;> rfl

theorem Valued.fails_iff (h : e.Valued s) : e.Fails s ↔ ¬e.Holds s := by
  rw [Fails, Holds, h.exact_eq]
  cases hn : e.num s != 0 <;> simp [Exact.truth, hn]

theorem Valued.holds_iff (h : e.Valued s) : e.Holds s ↔ ¬e.Fails s := by
  rw [h.fails_iff, not_not]

/-- A Boolean expression has no values but 0 and 1. -/
theorem Proper.num_boolean (hp : e.Proper σ.Owns) (hb : e.isBool) (hs : s.Within σ) {n : Int}
    (hn : e.exact s = some n) : n = 0 ∨ n = 1 := by
  have hmem := e.exact_mem_range (Over.inBounds hp.scope hs) n hn
  have := Bounds.mem_of_subset (hp.range_eq hb) hmem
  simp only [Bounds.mem_iff, Bounds.boolean] at this
  omega

theorem Valued.holds_iff_num (hp : e.Proper σ.Owns) (hb : e.isBool) (hs : s.Within σ) (h : e.Valued s) :
    e.Holds s ↔ e.num s = 1 := by
  have := hp.num_boolean hb hs h.exact_eq
  rw [Holds, h.exact_eq, Exact.truth, Option.map_some, Option.some_inj, bne_iff_ne]
  omega

theorem Valued.fails_iff_num (h : e.Valued s) : e.Fails s ↔ e.num s = 0 := by
  rw [Fails, h.exact_eq, Exact.truth, Option.map_some, Option.some_inj, bne_eq_false_iff_eq]

/-- Boolean expressions with the same truth value have the same value. -/
theorem exact_eq_of_holds (hpe : e.Proper σ.Owns) (hbe : e.isBool) (hpf : f.Proper τ.Owns)
    (hbf : f.isBool) (hsσ : s.Within σ) (hsτ : s.Within τ) (he : e.Valued s) (hf : f.Valued s)
    (h : e.Holds s ↔ f.Holds s) : e.exact s = f.exact s := by
  rw [he.holds_iff_num hpe hbe hsσ, hf.holds_iff_num hpf hbf hsτ] at h
  have := hpe.num_boolean hbe hsσ he.exact_eq
  have := hpf.num_boolean hbf hsτ hf.exact_eq
  rw [he.exact_eq, hf.exact_eq, Option.some_inj]
  omega

theorem holds_cmp_num {r : Relation} (ha : a.Valued s) (hb : b.Valued s) :
    (cmp r a b).Holds s ↔ r.holds (a.num s) (b.num s) := by
  rw [holds_cmp]
  constructor
  · rintro ⟨m, n, hm, hn, h⟩
    rwa [num_eq hm, num_eq hn]
  · exact fun h => ⟨_, _, ha.exact_eq, hb.exact_eq, h⟩

/-- The negation of the expression holds exactly when the expression fails. -/
def Invertible (s : Assignment) (e : Expr) : Prop := e.negated.Holds s ↔ e.Fails s

end Expr

end ConstraintModel
