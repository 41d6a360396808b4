import ConstraintModel.Proofs.LinearMeaning

namespace ConstraintModel

namespace Linear

open ConstraintModel.Expr (Operand num)

variable {σ τ : Store} {a b : Expr} {s : Assignment} {caps : Capabilities} {depth : Nat}

/-- A variable, a view, or a sum of variables, views and constants with
weights. The same variable can be in several terms. -/
structure IsSum (σ : Store) (a : Expr) : Prop where
  shape : a.isSimple ∨ a.terms?.isSome
  operands : ∀ x ∈ a.args, x.isSimple
  proper : a.Proper σ.Owns

/-- The weighted terms of a sum. Any other expression is its only term. -/
def weighed (a : Expr) : List (Int × Expr) := a.terms?.getD [(1, a)]

theorem weighed_of_terms? {ts : List (Int × Expr)} (h : a.terms? = some ts) : weighed a = ts := by
  rw [weighed, h, Option.getD_some]

theorem weighed_of_isSimple (h : a.isSimple) : weighed a = [(1, a)] := by
  cases a with
  | sum _ | wsum _ => cases h
  | _ => rfl

theorem IsSum.operand (h : IsSum σ a) : ∀ t ∈ weighed a, t.2.Operand σ := by
  rcases h.shape with hs | hterms
  · rw [weighed_of_isSimple hs, List.forall_mem_singleton]
    exact ⟨hs, h.proper⟩
  · obtain ⟨ts, hts⟩ := Option.isSome_iff_exists.1 hterms
    rw [weighed_of_terms? hts]
    intro t ht
    have harg := args_of_asTerms? (asTerms?_of_terms? hts) t ht
    exact ⟨h.operands _ harg, h.proper.arg harg⟩

theorem IsSum.exact_eq (h : IsSum σ a) (hs : s.Within σ) : a.exact s = some (weight (weighed a) s) := by
  have hvalued : ∀ t ∈ weighed a, t.2.Valued s := fun t ht => (h.operand t ht).valued hs
  rcases h.shape with hsimple | hterms
  · rw [weighed_of_isSimple hsimple] at hvalued ⊢
    rw [(hvalued _ (List.mem_singleton_self _)).exact_eq]
    simp
  · obtain ⟨ts, hts⟩ := Option.isSome_iff_exists.1 hterms
    rw [weighed_of_terms? hts] at hvalued ⊢
    exact exact_asTerms? (asTerms?_of_terms? hts) hvalued

theorem IsSum.termsOf_eq (h : IsSum σ a) : termsOf caps (depth + 1) a = pure (weighed a, []) := by
  rw [termsOf]
  rcases h.shape with hsimple | hterms
  · have hnone : a.terms? = none := by
      cases a with
      | sum _ | wsum _ => cases hsimple
      | _ => rfl
    rw [weighed_of_isSimple hsimple, hnone]
    exact if_pos hsimple
  · obtain ⟨ts, hts⟩ := Option.isSome_iff_exists.1 hterms
    rw [weighed_of_terms? hts, hts]

theorem operand_subtract {ts : List (Int × Expr)} (hts : ∀ t ∈ ts, t.2.Operand σ) (hb : b.Operand σ) :
    ∀ t ∈ (subtract ts b).1, t.2.Operand σ := by
  unfold subtract
  split
  · exact hts
  · exact List.forall_mem_append.2 ⟨hts, by simpa using hb⟩

def Separates (es : List Expr) (s : Assignment) (z : Variable) (n : Int) : Prop :=
  n ∈ Bounds.boolean ∧ ∀ e ∈ es, e.Holds (s.assign z n)

/-- The indicator says on which side of the constant the sum lies. -/
theorem separates_iff {ts : List (Int × Expr)} {k n : Int} {range : Bounds} {z : Variable} {es : List Expr}
    (hts : ∀ t ∈ ts, t.2.Operand σ) (hrange : (Expr.wsum ts).bounds = .ok range)
    (hes : separated ts k (.var z) range = .ok es) (hz : σ.Creates z τ) (hzb : z.isBool) (hs : s.Within σ) :
    Separates es s z n ↔ (n = 0 ∧ weight ts s < k) ∨ (n = 1 ∧ k < weight ts s) := by
  have hproper : (Expr.wsum ts).Proper σ.Owns := Expr.proper_wsum.2 fun t ht => (hts t ht).proper
  have hbit : n ∈ Bounds.boolean ↔ n = 0 ∨ n = 1 := by
    simp only [Bounds.mem_iff, Bounds.boolean]
    omega
  rw [Separates, hbit]
  have hholds (hn : n = 0 ∨ n = 1) : (∀ e ∈ es, e.Holds (s.assign z n)) ↔
      if n = 0 then weight ts s < k else k < weight ts s := by
    have hwithin : (s.assign z n).Within τ := hs.extend hz (by rwa [hz.boolean hzb, hbit])
    have hvalued : ∀ t ∈ ts, t.2.Valued (s.assign z n) := fun t ht =>
      (hts t ht).valued (hwithin.mono hz.grows)
    have hmem : weight ts (s.assign z n) ∈ range := by
      have hexact := exact_wsum_weight hvalued
      rw [Expr.range_of_bounds _ _ hrange, ← Expr.num_eq hexact]
      exact (Expr.valued_of_eq hexact).num_mem_range (Expr.Over.inBounds hproper.scope (hwithin.mono hz.grows))
    have hz' : (Expr.var z).num (s.assign z n) = n := Assignment.num_assign ..
    have hzo : (Expr.var z).Operand τ := Expr.operand_var hz.owns
    have h := holds_separated hes hvalued (hzo.valued hwithin) (by rwa [hz']) hmem
    rwa [hz', ← weight_congr hts (Assignment.agrees_extend s hz n)] at h
  constructor
  · rintro ⟨hn, hall⟩
    have h := (hholds hn).1 hall
    rcases hn with rfl | rfl
    · exact .inl ⟨rfl, by simpa using h⟩
    · exact .inr ⟨rfl, by simpa using h⟩
  · rintro (⟨rfl, h⟩ | ⟨rfl, h⟩)
    · exact ⟨.inl rfl, (hholds (.inl rfl)).2 (by simpa using h)⟩
    · exact ⟨.inr rfl, (hholds (.inr rfl)).2 (by simpa using h)⟩

/-- Two constraints and one indicator separate the sides of a disequality. Only
where the sides differ does the indicator have a value for which both
constraints hold, and then it has only one. -/
theorem bigM_separates (ha : IsSum σ a) (hb : b.Operand σ) :
    (bigM caps (depth + 2) a b).Sat True σ fun es N τ =>
      N = [] ∧ es.length = 2 ∧ ∃ z : Variable, z.isBool ∧ σ.Creates z τ ∧
        ∀ s, s.Within σ → ∃ m n, a.exact s = some m ∧ b.exact s = some n ∧
          ((∃ v, Separates es s z v) ↔ m ≠ n) ∧
          ∀ v v', Separates es s z v → Separates es s z v' → v = v' := by
  have hoperands := operand_subtract ha.operand hb
  have hdifference := weight_subtract (weighed a) b
  rw [bigM, ha.termsOf_eq, pure_bind]
  dsimp only
  generalize subtract (weighed a) b = p at hoperands hdifference
  obtain ⟨ts, k⟩ := p
  refine Defining.Sat.checked_bind fun range hrange => ?_
  refine (Defining.Sat.lift Lowering.Sat.freshBool).bind ?_
  rintro _ _ τ - ⟨rfl, z, rfl, hz, hzb⟩
  refine Defining.Sat.checked_bind fun es hes => .pure ?_
  have hlength : es.length = 2 := by
    obtain ⟨m, -, rfl⟩ := separated_eq_ok hes
    rfl
  refine ⟨rfl, by simpa using hlength, z, hzb, hz, fun s hs => ?_⟩
  refine ⟨_, _, ha.exact_eq hs, (hb.valued hs).exact_eq, ?_⟩
  have hseparates (v : Int) := separates_iff (n := v) hoperands hrange hes hz hzb hs
  have hdifference : weight ts s - k = weight (weighed a) s - b.num s := hdifference s
  rw [List.nil_append]
  simp only [hseparates]
  constructor
  · constructor
    · rintro ⟨v, hv⟩
      omega
    · intro hne
      rcases Int.lt_or_gt_of_ne hne with hlt | hgt
      · exact ⟨0, .inl ⟨rfl, by omega⟩⟩
      · exact ⟨1, .inr ⟨rfl, by omega⟩⟩
  · intro v v' hv hv'
    omega

def stepStore : Store := ⟨#[⟨⟨-2, 4⟩, .int, .user⟩, ⟨.boolean, .bool, .user⟩, ⟨⟨-6, 6⟩, .int, .user⟩]⟩

def step : Variable := ⟨0, ⟨-2, 4⟩, .int⟩

def isShort : Variable := ⟨1, .boolean, .bool⟩

def target : Variable := ⟨2, ⟨-6, 6⟩, .int⟩

def distance : Expr := .wsum [(2, .var step), (-3, .negVar isShort), (1, .var step)]

theorem bigM_distance : IsSum stepStore distance ∧ (Expr.var target).Operand stepStore ∧
    ∃ es D τ, bigM .none 2 distance (.var target) #[] stepStore = .ok (es, D) τ ∧ es.length = 2 ∧
      ∃ z : Variable, stepStore.Creates z τ ∧
        (∃ v, Separates es ⟨fun i => some (if i = 2 then -1 else 1)⟩ z v) ∧
        ¬∃ v, Separates es ⟨fun i => some (if i = 2 then 3 else 1)⟩ z v := by
  have howns : stepStore.Owns step ∧ stepStore.Owns isShort ∧ stepStore.Owns target :=
    ⟨⟨⟨.user, rfl⟩, nofun⟩, ⟨⟨.user, rfl⟩, fun _ => rfl⟩, ⟨.user, rfl⟩, nofun⟩
  have hsum : IsSum stepStore distance := by
    refine ⟨.inr rfl, by simp [distance, Expr.args, Expr.isSimple], Expr.proper_wsum.2 ?_⟩
    simp only [List.forall_mem_cons, List.not_mem_nil, false_imp_iff, implies_true, and_true]
    exact ⟨Expr.proper_var.2 howns.1, Expr.proper_negVar.2 ⟨rfl, howns.2.1⟩, Expr.proper_var.2 howns.1⟩
  have htarget : (Expr.var target).Operand stepStore := Expr.operand_var howns.2.2
  have hwithin (n : Int) (hn : n ∈ target.bounds) :
      Assignment.Within stepStore ⟨fun i => some (if i = 2 then n else 1)⟩ := by
    rintro (_ | _ | _ | i) d h <;> simp [stepStore] at h <;> subst h
    · exact ⟨1, by decide, rfl⟩
    · exact ⟨1, by decide, rfl⟩
    · exact ⟨n, hn, rfl⟩
  obtain ⟨es, D, τ, hrun⟩ : ∃ es D τ, bigM .none 2 distance (.var target) #[] stepStore = .ok (es, D) τ :=
    ⟨_, _, _, by cbv⟩
  have hsat := @bigM_separates _ _ _ .none 0 hsum htarget #[]
  rw [hrun] at hsat
  obtain ⟨-, N, -, -, hlength, z, -, hz, hseparates⟩ := hsat
  have hiff (n : Int) (hn : n ∈ target.bounds) :
      (∃ v, Separates es ⟨fun i => some (if i = 2 then n else 1)⟩ z v) ↔ 3 ≠ n := by
    obtain ⟨k, l, hk, hl, hiff, -⟩ := hseparates _ (hwithin n hn)
    obtain rfl : 3 = k := by
      simpa [distance, Expr.exact_wsum, step, isShort, Assignment.value?, Exact.weightedSum, Exact.sum] using hk
    obtain rfl : n = l := by simpa [target, Assignment.value?] using hl
    exact hiff
  refine ⟨hsum, htarget, es, D, τ, hrun, hlength, z, hz, ?_, ?_⟩
  · exact (hiff (-1) (by decide)).2 (by decide)
  · exact fun h => (hiff 3 (by decide)).1 h rfl

end Linear

end ConstraintModel
