import ConstraintModel.Proofs.Run
import ConstraintModel.Proofs.WellFormed

namespace ConstraintModel

namespace Store

structure Creates (σ : Store) (x : Variable) (τ : Store) : Prop where
  fresh : σ.add ⟨x.bounds, x.kind, .auxiliary⟩ = (x, τ)
  boolean : x.isBool → x.bounds = .boolean

inductive CreatesAll : Store → List Variable → Store → Prop
  | nil {σ : Store} : CreatesAll σ [] σ
  | cons {σ τ υ : Store} {x : Variable} {xs : List Variable} :
    σ.Creates x τ → CreatesAll τ xs υ → CreatesAll σ (x :: xs) υ

variable {σ τ υ : Store} {x : Variable} {xs : List Variable}

theorem Creates.index_eq (h : σ.Creates x τ) : x.index = σ.size :=
  (congrArg (fun p : Variable × Store => p.1.index) h.fresh).symm

theorem Creates.size_eq (h : σ.Creates x τ) : τ.size = σ.size + 1 :=
  (congrArg (fun p : Variable × Store => p.2.size) h.fresh).symm.trans (size_add ..)

theorem Creates.grows (h : σ.Creates x τ) : σ.Grows τ := by
  have := σ.grows_add ⟨x.bounds, x.kind, .auxiliary⟩
  rwa [h.fresh] at this

theorem Creates.owns (h : σ.Creates x τ) : τ.Owns x := by
  have := σ.has_add ⟨x.bounds, x.kind, .auxiliary⟩
  rw [h.fresh] at this
  exact ⟨this, h.boolean⟩

theorem CreatesAll.grows (h : σ.CreatesAll xs τ) : σ.Grows τ := by
  induction h with
  | nil => exact .refl _
  | cons hx _ ih => exact hx.grows.trans ih

theorem CreatesAll.size_eq (h : σ.CreatesAll xs τ) : τ.size = σ.size + xs.length := by
  induction h with
  | nil => rfl
  | cons hx _ ih => rw [ih, hx.size_eq, List.length_cons]; omega

theorem CreatesAll.owns (h : σ.CreatesAll xs τ) (hx : x ∈ xs) : τ.Owns x := by
  induction h with
  | nil => cases hx
  | cons hy hs ih =>
    rcases List.mem_cons.1 hx with rfl | hx
    · exact hy.owns.mono hs.grows
    · exact ih hx

theorem CreatesAll.append {ys : List Variable} (h : σ.CreatesAll xs τ) (h' : τ.CreatesAll ys υ) :
    σ.CreatesAll (xs ++ ys) υ := by
  induction h with
  | nil => exact h'
  | cons hx _ ih => exact .cons hx (ih h')

end Store

namespace Assignment

variable {σ τ : Store} {s t : Assignment} {x : Variable}

theorem Within.extend (h : s.Within σ) (hx : σ.Creates x τ) {n : Int} (hn : n ∈ x.bounds) :
    (s.assign x n).Within τ := by
  have := h.assign (d := ⟨x.bounds, x.kind, .auxiliary⟩) hn
  rwa [hx.fresh] at this

theorem agrees_extend (s : Assignment) (hx : σ.Creates x τ) (n : Int) :
    s.Agrees σ.size (s.assign x n) :=
  fun i hi => (if_neg (by rw [hx.index_eq]; omega)).symm

theorem Agrees.extend (h : s.Agrees σ.size t) (hx : σ.Creates x τ) (hv : s.value? x = t.value? x) :
    s.Agrees τ.size t := by
  intro i hi
  rw [hx.size_eq] at hi
  rcases Nat.lt_succ_iff_lt_or_eq.1 hi with hi | rfl
  · exact h i hi
  · rw [← hx.index_eq]
    exact hv

end Assignment

namespace Lowering

variable {strict : Prop} {σ : Store}

theorem Sat.freshBool : freshBool.Sat strict σ fun e τ =>
    ∃ x, e = .var x ∧ σ.Creates x τ ∧ x.isBool :=
  (Sat.fresh _ _).bind fun x τ _ h => .pure ⟨x, rfl, by
    obtain ⟨rfl, rfl⟩ := h
    exact ⟨⟨rfl, fun _ => rfl⟩, rfl⟩⟩

theorem Sat.freshInt (b : Bounds) : (freshInt b).Sat strict σ fun e τ =>
    ∃ x, e = .var x ∧ σ.Creates x τ ∧ ¬x.isBool ∧ x.bounds = b :=
  (Sat.fresh _ _).bind fun x τ _ h => .pure ⟨x, rfl, by
    obtain ⟨rfl, rfl⟩ := h
    exact ⟨⟨rfl, fun hx => absurd hx (by simp [Variable.isBool, Store.add])⟩,
      by simp [Variable.isBool, Store.add], rfl⟩⟩

theorem Sat.replicateM {x : Lowering Expr} {p : Variable → Prop}
    (h : ∀ σ, x.Sat strict σ fun e τ => ∃ y, e = .var y ∧ σ.Creates y τ ∧ p y) (n : Nat) :
    ((List.replicate n x).mapM id).Sat strict σ fun es τ =>
      ∃ xs : List Variable, es = xs.map .var ∧ σ.CreatesAll xs τ ∧ xs.length = n ∧ ∀ x ∈ xs, p x := by
  induction n generalizing σ with
  | zero => exact .pure ⟨[], rfl, .nil, rfl, by simp⟩
  | succ n ih =>
    rw [List.replicate_succ, List.mapM_cons]
    refine (h σ).bind ?_
    rintro _ τ - ⟨y, rfl, hy, hp⟩
    refine ih.bind ?_
    rintro _ υ - ⟨ys, rfl, hys, hlength, hps⟩
    exact .pure ⟨y :: ys, rfl, .cons hy hys, by simp [hlength], List.forall_mem_cons.2 ⟨hp, hps⟩⟩

theorem Sat.freshInts (b : Bounds) (n : Nat) : (freshInts b n).Sat strict σ fun es τ =>
    ∃ xs : List Variable, es = xs.map .var ∧ σ.CreatesAll xs τ ∧ xs.length = n ∧
      ∀ x ∈ xs, ¬x.isBool ∧ x.bounds = b :=
  Sat.replicateM (fun _ => Sat.freshInt b) n

theorem Sat.freshBools (n : Nat) : (freshBools n).Sat strict σ fun es τ =>
    ∃ xs : List Variable, es = xs.map .var ∧ σ.CreatesAll xs τ ∧ xs.length = n ∧
      ∀ x ∈ xs, x.isBool :=
  Sat.replicateM (fun _ => Sat.freshBool) n

/-- The new variable can take all values of the expression. -/
theorem Sat.freshFor (a : Expr) : (freshFor a).Sat strict σ fun e τ =>
    ∃ x, e = .var x ∧ σ.Creates x τ ∧ x.isBool = a.isBool ∧ (¬a.isBool → x.bounds = a.range) := by
  unfold ConstraintModel.freshFor
  split
  · rename_i hb
    refine Sat.freshBool.imp ?_
    rintro _ τ - ⟨x, rfl, hx, hxb⟩
    exact ⟨x, rfl, hx, by rw [hb, hxb], fun h => absurd hb h⟩
  · rename_i hb
    refine Sat.checked_bind fun b hbounds => ?_
    refine (Sat.freshInt b).imp ?_
    rintro _ τ - ⟨x, rfl, hx, hxb, rfl⟩
    refine ⟨x, rfl, hx, ?_, fun _ => a.range_of_bounds _ hbounds⟩
    rw [Bool.eq_false_of_not_eq_true hb, Bool.eq_false_of_not_eq_true hxb]

end Lowering

end ConstraintModel
