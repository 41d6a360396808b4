import ConstraintModel.Form.TopLevel
import ConstraintModel.Proofs.Exact
import Mathlib.Data.List.Basic

namespace ConstraintModel

namespace Exact

theorem truth_ofTruth (b : Option Bool) : truth (ofTruth b) = b := by
  cases b with
  | none => rfl
  | some b => cases b <;> rfl

theorem connective_eq_absorbing {b : Bool} {vs : List (Option Int)} :
    connective b vs = some b ↔ ∃ v ∈ vs, truth v = some b := by
  unfold connective
  rw [← List.mem_map]
  constructor
  · intro h
    split at h
    · assumption
    · split at h
      · cases h
      · simp at h
  · exact fun h => if_pos h

theorem connective_eq_neutral {b : Bool} {vs : List (Option Int)} :
    connective b vs = some (!b) ↔ ∀ v ∈ vs, truth v = some !b := by
  unfold connective
  constructor
  · intro h v hv
    have hm : truth v ∈ vs.map truth := List.mem_map_of_mem hv
    split at h
    · simp at h
    · split at h
      · cases h
      · cases ht : truth v with
        | none => simp_all
        | some c => cases b <;> cases c <;> simp_all
  · intro h
    have hn : ∀ c ∈ vs.map truth, c = some !b := by simpa using h
    rw [if_neg fun hm => by simpa using hn _ hm, if_neg fun hm => by simpa using hn _ hm]

theorem implication_eq_true {v w : Option Int} :
    implication v w = some true ↔
      truth v = some false ∨ truth v = some true ∧ truth w = some true := by
  unfold implication
  cases truth v with
  | none => simp
  | some b => cases b <;> simp

theorem implication_eq_false {v w : Option Int} :
    implication v w = some false ↔ truth v = some true ∧ truth w = some false := by
  unfold implication
  cases truth v with
  | none => simp
  | some b => cases b <;> simp

theorem comparison_eq_true {r : Relation} {p : Bool} {v w : Option Int} :
    comparison r p v w = some true ↔ ∃ m n, v = some m ∧ w = some n ∧ r.holds m n := by
  cases v <;> cases w <;> cases p <;> simp [comparison]

end Exact

namespace Expr

variable {s : Assignment}

/-- A constraint holds when it has a value other than 0, and fails when its
value is 0. It does neither when it has no value. -/
def Holds (s : Assignment) (e : Expr) : Prop := Exact.truth (e.exact s) = some true

def Fails (s : Assignment) (e : Expr) : Prop := Exact.truth (e.exact s) = some false

theorem holds_bool {b : Bool} : (bool b).Holds s ↔ b = true := by
  cases b <;> simp [Holds, Exact.truth]

theorem fails_bool {b : Bool} : (bool b).Fails s ↔ b = false := by
  cases b <;> simp [Fails, Exact.truth]

theorem holds_and {as : List Expr} : (and as).Holds s ↔ ∀ a ∈ as, a.Holds s := by
  rw [Holds, exact_and, Exact.truth_ofTruth]
  exact Exact.connective_eq_neutral.trans (by simp [Holds])

theorem fails_and {as : List Expr} : (and as).Fails s ↔ ∃ a ∈ as, a.Fails s := by
  rw [Fails, exact_and, Exact.truth_ofTruth]
  exact Exact.connective_eq_absorbing.trans (by simp only [List.mem_map, exists_exists_and_eq_and]; rfl)

theorem holds_or {as : List Expr} : (or as).Holds s ↔ ∃ a ∈ as, a.Holds s := by
  rw [Holds, exact_or, Exact.truth_ofTruth]
  exact Exact.connective_eq_absorbing.trans (by simp only [List.mem_map, exists_exists_and_eq_and]; rfl)

theorem fails_or {as : List Expr} : (or as).Fails s ↔ ∀ a ∈ as, a.Fails s := by
  rw [Fails, exact_or, Exact.truth_ofTruth]
  exact Exact.connective_eq_neutral.trans (by simp [Fails])

theorem holds_implies {a b : Expr} :
    (implies a b).Holds s ↔ a.Fails s ∨ a.Holds s ∧ b.Holds s := by
  rw [Holds, exact_implies, Exact.truth_ofTruth]
  exact Exact.implication_eq_true

theorem fails_implies {a b : Expr} : (implies a b).Fails s ↔ a.Holds s ∧ b.Fails s := by
  rw [Fails, exact_implies, Exact.truth_ofTruth]
  exact Exact.implication_eq_false

theorem holds_not {a : Expr} : (not a).Holds s ↔ a.Fails s := by
  rw [Holds, exact_not, Exact.truth_ofTruth, Fails]
  cases Exact.truth (a.exact s) <;> simp

theorem fails_not {a : Expr} : (not a).Fails s ↔ a.Holds s := by
  rw [Fails, exact_not, Exact.truth_ofTruth, Holds]
  cases Exact.truth (a.exact s) <;> simp

theorem holds_cmp {r : Relation} {a b : Expr} : (cmp r a b).Holds s ↔
    ∃ m n, a.exact s = some m ∧ b.exact s = some n ∧ r.holds m n := by
  rw [Holds, exact_cmp, Exact.truth_ofTruth]
  exact Exact.comparison_eq_true

theorem holds_constraint {c : Constraint Expr} :
    (constraint c).Holds s ↔ (c.map (exact s)).exact = some true := by
  rw [Holds, exact_constraint, Exact.truth_ofTruth]

theorem holds_all {es : List Expr} : (all es).Holds s ↔ ∀ e ∈ es, e.Holds s := by
  match es with
  | [] => simp [all, holds_bool]
  | [e] => simp [all]
  | e :: f :: es => exact holds_and

theorem holds_any {es : List Expr} : (any es).Holds s ↔ ∃ e ∈ es, e.Holds s := by
  match es with
  | [] => simp [any, holds_bool]
  | [e] => simp [any]
  | e :: f :: es => exact holds_or

/-- A property that passes from conjunctions to their parts. -/
theorem forall_conjuncts {p : Expr → Prop} (hp : ∀ as, p (and as) → ∀ a ∈ as, p a) (e : Expr) (h : p e) :
    ∀ c ∈ e.conjuncts, p c := by
  induction e using induction_args with
  | h e ih =>
    intro c hc
    by_cases ht : e = bool true
    · simp [ht] at hc
    · by_cases ha : ∃ as, e = and as
      · obtain ⟨as, rfl⟩ := ha
        rw [conjuncts_and, List.mem_flatMap] at hc
        obtain ⟨a, ha, hc⟩ := hc
        exact ih a ha (hp as h a ha) c hc
      · rw [conjuncts_eq ht fun as has => ha ⟨as, has⟩, List.mem_singleton] at hc
        rwa [hc]

theorem holds_conjuncts (e : Expr) : (∀ c ∈ e.conjuncts, c.Holds s) ↔ e.Holds s := by
  induction e using induction_args with
  | h e ih =>
    by_cases ht : e = bool true
    · simp [ht, holds_bool]
    · by_cases ha : ∃ as, e = and as
      · obtain ⟨as, rfl⟩ := ha
        rw [holds_and, conjuncts_and, List.forall_mem_flatMap]
        exact forall₂_congr ih
      · rw [conjuncts_eq ht fun as has => ha ⟨as, has⟩, List.forall_mem_singleton]

theorem holds_topLevel {es : List Expr} :
    (∀ c ∈ topLevel es, c.Holds s) ↔ ∀ e ∈ es, e.Holds s := by
  rw [topLevel, List.forall_mem_flatMap]
  exact forall₂_congr fun e _ => holds_conjuncts e

end Expr

end ConstraintModel
