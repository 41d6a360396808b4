import ConstraintModel.Proofs.AffineValue
import ConstraintModel.Proofs.Tame

namespace ConstraintModel

namespace Exact

theorem connective_singleton (b : Bool) (v : Option Int) : connective b [v] = truth v := by
  simp only [connective, List.map_cons, List.map_nil, List.mem_singleton]
  cases truth v with
  | none => simp
  | some c => cases b <;> cases c <;> rfl

theorem ofTruth_truth {v : Option Int} (h : ∀ n, v = some n → n = 0 ∨ n = 1) : ofTruth (truth v) = v := by
  cases v with
  | none => rfl
  | some n => rcases h n rfl with rfl | rfl <;> rfl

end Exact

namespace Expr

/-- Every function in the expression is defined for all values in the ranges
of its arguments, and no task has a negative duration. -/
def Total (e : Expr) : Prop := e.Everywhere TotalHere

def Defined (w : World) (e : Expr) : Prop := ∀ s, w.Admits s → e.Valued s

/-- A well-formed expression over the variables of a world that has a value and
can be negated in all solutions. If `q` holds, nothing in it is ever undefined. -/
structure Sound (q : Prop) (w : World) (e : Expr) : Prop where
  proper : e.Proper w.store.Owns
  regular : ∀ s, w.Admits s → e.Regular s
  total : q → e.Total

variable {q : Prop} {w w' : World} {σ : Store} {s : Assignment} {e a b : Expr} {as : List Expr} {x : Variable}
  {r : Relation}

theorem total_iff : e.Total ↔ e.TotalHere ∧ ∀ a ∈ e.args, a.Total := everywhere_iff

theorem total_of_isSimple (h : e.isSimple) : e.Total := by
  refine total_iff.2 ⟨?_, by simp [args_of_isSimple h]⟩
  cases e with
  | constraint _ | function _ => cases h
  | _ => trivial

theorem Defined.mono (h : e.Defined w) (hw : w ≤ w') : e.Defined w' := fun s hs => h s (hw.2 s hs)

theorem defined_of_isSimple (h : e.isSimple) (hp : e.Proper w.store.Owns) : e.Defined w :=
  fun _ hs => valued_of_isSimple h hp hs.within

/-- An expression in which nothing is undefined is regular. -/
theorem Total.regular (h : e.Total) (hp : e.Proper σ.Owns) (hs : s.Within σ) : e.Regular s := by
  induction e using induction_args with
  | h e ih => exact regular_of_args hp h.here hs fun a ha => ih a ha (h.arg ha) (hp.arg ha)

theorem Total.sound (h : e.Total) (hp : e.Proper w.store.Owns) : e.Sound q w :=
  ⟨hp, fun _ hs => h.regular hp hs.within, fun _ => h⟩

namespace Sound

theorem mono (h : e.Sound q w) (hw : w ≤ w') : e.Sound q w' :=
  ⟨h.proper.imp fun _ hx => hx.mono hw.1, fun s hs => h.regular s (hw.2 s hs), h.total⟩

theorem defined (h : e.Sound q w) : e.Defined w := fun s hs => (h.regular s hs).valued

theorem tame (h : e.Sound q w) (hs : w.Admits s) : e.Tame s := (h.regular s hs).tame

theorem valued (h : e.Sound q w) (hs : w.Admits s) : e.Valued s := h.defined s hs

theorem num_mem_range (h : e.Sound q w) (hs : w.Admits s) : e.num s ∈ e.range :=
  (h.valued hs).num_mem_range (Over.inBounds h.proper.scope hs.within)

theorem holds_iff_num (h : e.Sound q w) (hb : e.isBool) (hs : w.Admits s) : e.Holds s ↔ e.num s = 1 :=
  (h.valued hs).holds_iff_num h.proper hb hs.within

theorem num_boolean (h : e.Sound q w) (hb : e.isBool) (hs : w.Admits s) : e.num s = 0 ∨ e.num s = 1 :=
  h.proper.num_boolean hb hs.within (h.valued hs).exact_eq

theorem num_eq_toInt {p : Prop} [Decidable p] (h : e.Sound q w) (hb : e.isBool) (hs : w.Admits s)
    (hp : e.Holds s ↔ p) : e.num s = (decide p).toInt := by
  rw [h.holds_iff_num hb hs] at hp
  have := h.num_boolean hb hs
  by_cases hq : p
  · simpa [hq, Bool.toInt] using hp
  · simp only [hq, iff_false] at hp
    simp only [hq, decide_false, Bool.toInt, cond_false]
    omega

end Sound

theorem Proper.num_congr {t : Assignment} (h : e.Proper σ.Owns) (hst : s.Agrees σ.size t) : e.num s = e.num t := by
  rw [num, num, Over.exact_congr h.scope hst]

theorem sound_of_args (hp : e.Proper w.store.Owns) (here : e.TotalHere) (h : ∀ a ∈ e.args, a.Sound q w) :
    e.Sound q w :=
  ⟨hp, fun s hs => regular_of_args hp here hs.within fun a ha => (h a ha).regular s hs,
    fun hq => total_iff.2 ⟨here, fun a ha => (h a ha).total hq⟩⟩

theorem sound_of_isSimple (h : e.isSimple) (hp : e.Proper w.store.Owns) : e.Sound q w :=
  (total_of_isSimple h).sound hp

@[simp] theorem sound_bool {b : Bool} : (bool b).Sound q w := sound_of_isSimple rfl proper_bool

@[simp] theorem sound_int {n : Int} : (int n).Sound q w := sound_of_isSimple rfl proper_int

@[simp] theorem sound_var (h : w.store.Owns x) : (var x).Sound q w := sound_of_isSimple rfl (proper_var.2 h)

@[simp] theorem sound_and (hb : ∀ a ∈ as, a.isBool) (h : ∀ a ∈ as, a.Sound q w) : (and as).Sound q w :=
  sound_of_args (proper_and.2 ⟨hb, fun a ha => (h a ha).proper⟩) trivial h

@[simp] theorem sound_or (hb : ∀ a ∈ as, a.isBool) (h : ∀ a ∈ as, a.Sound q w) : (or as).Sound q w :=
  sound_of_args (proper_or.2 ⟨hb, fun a ha => (h a ha).proper⟩) trivial h

@[simp] theorem sound_implies (hba : a.isBool) (hbb : b.isBool) (ha : a.Sound q w) (hb : b.Sound q w) :
    (implies a b).Sound q w :=
  sound_of_args (proper_implies.2 ⟨⟨hba, hbb⟩, ha.proper, hb.proper⟩) trivial (by simp [args, ha, hb])

@[simp] theorem sound_sum (h : ∀ a ∈ as, a.Sound q w) : (sum as).Sound q w :=
  sound_of_args (proper_sum.2 fun a ha => (h a ha).proper) trivial h

@[simp] theorem sound_sub (ha : a.Sound q w) (hb : b.Sound q w) : (sub a b).Sound q w :=
  sound_of_args (proper_sub.2 ⟨ha.proper, hb.proper⟩) trivial (by simp [args, ha, hb])

@[simp] theorem sound_mul (ha : a.Sound q w) (hb : b.Sound q w) : (mul a b).Sound q w :=
  sound_of_args (proper_mul.2 ⟨ha.proper, hb.proper⟩) trivial (by simp [args, ha, hb])

@[simp] theorem sound_neg (h : a.Sound q w) : (neg a).Sound q w :=
  sound_of_args (proper_neg.2 h.proper) trivial (by simp [args, h])

@[simp] theorem sound_cmp (ha : a.Sound q w) (hb : b.Sound q w) : (cmp r a b).Sound q w :=
  sound_of_args (proper_cmp.2 ⟨ha.proper, hb.proper⟩) trivial (by simp [args, ha, hb])

theorem sound_constraint {c : Constraint Expr} (hf : c.Formed) (hl : c.Lasting) (h : ∀ a ∈ c.args, a.Sound q w) :
    (constraint c).Sound q w :=
  sound_of_args (proper_constraint.2 ⟨hf, fun a ha => (h a ha).proper⟩) hl h

theorem sound_function {g : Function Expr} (hf : g.Formed) (ht : (function g).TotalHere)
    (h : ∀ a ∈ g.args, a.Sound q w) : (function g).Sound q w :=
  sound_of_args (proper_function.2 ⟨hf, fun a ha => (h a ha).proper⟩) ht h

theorem sound_all (hb : ∀ a ∈ as, a.isBool) (h : ∀ a ∈ as, a.Sound q w) : (all as).Sound q w := by
  match as with
  | [] => simp [all]
  | [a] => simpa [all] using h
  | a :: b :: as => exact sound_and hb h

theorem sound_any (hb : ∀ a ∈ as, a.isBool) (h : ∀ a ∈ as, a.Sound q w) : (any as).Sound q w := by
  match as with
  | [] => simp [any]
  | [a] => simpa [any] using h
  | a :: b :: as => exact sound_or hb h

theorem exact_all (hs : s.Within σ) (h : ∀ a ∈ as, a.Proper σ.Owns ∧ a.isBool) :
    (all as).exact s = Exact.ofTruth (Exact.conjunction (as.map (exact s))) := by
  match as with
  | [] => rw [all, exact_bool]; rfl
  | [a] =>
    obtain ⟨hp, hb⟩ := h a (List.mem_singleton_self a)
    rw [all, Exact.conjunction, List.map_singleton, Exact.connective_singleton, Exact.ofTruth_truth]
    exact fun n hn => hp.num_boolean hb hs hn
  | a :: b :: as => rw [all, exact_and] <;> simp

theorem exact_any (hs : s.Within σ) (h : ∀ a ∈ as, a.Proper σ.Owns ∧ a.isBool) :
    (any as).exact s = Exact.ofTruth (Exact.disjunction (as.map (exact s))) := by
  match as with
  | [] => rw [any, exact_bool]; rfl
  | [a] =>
    obtain ⟨hp, hb⟩ := h a (List.mem_singleton_self a)
    rw [any, Exact.disjunction, List.map_singleton, Exact.connective_singleton, Exact.ofTruth_truth]
    exact fun n hn => hp.num_boolean hb hs hn
  | a :: b :: as => rw [any, exact_or] <;> simp

/-- An implication from a constraint that has a value. -/
theorem holds_implies_iff (ha : a.Valued s) : (implies a b).Holds s ↔ (a.Holds s → b.Holds s) := by
  rw [holds_implies, ha.fails_iff]
  tauto

theorem exact_cmp_within (hp : (cmp r a b).Proper σ.Owns) (hs : s.Within σ) :
    (cmp r a b).exact s = Exact.ofTruth (Exact.comparison r true (a.exact s) (b.exact s)) := by
  rw [exact_cmp, Over.assigned hp.scope hs]

theorem exact_cmp_num (ha : a.Valued s) (hb : b.Valued s) :
    (cmp r a b).exact s = some (r.holds (a.num s) (b.num s)).toInt := by
  rw [exact_cmp, ha.exact_eq, hb.exact_eq]
  rfl

theorem exact_cmp_constants {m n : Int} (hm : a.constant? = some m) (hn : b.constant? = some n) :
    (cmp r a b).exact s = some (r.holds m n).toInt := by
  rw [exact_cmp, exact_of_constant hm, exact_of_constant hn]
  rfl

theorem tame_all (h : ∀ a ∈ as, a.Tame s ∧ a.Valued s) : (all as).Tame s := by
  match as with
  | [] => exact tame_of_isSimple rfl
  | [a] => exact (h a (List.mem_singleton_self a)).1
  | a :: b :: as => exact tame_iff.2 ⟨fun a ha => (h a ha).2, fun a ha => (h a ha).1⟩

theorem fails_all : (all as).Fails s ↔ ∃ a ∈ as, a.Fails s := by
  match as with
  | [] => simp [all, fails_bool]
  | [a] => simp [all]
  | a :: b :: as => exact fails_and

theorem holds_negated_all : (all as).negated.Holds s ↔ ∃ a ∈ as, a.negated.Holds s := by
  match as with
  | [] => simp [all, holds_bool]
  | [a] => simp [all]
  | a :: b :: as =>
    rw [all, negated_and, holds_or]
    · simp only [List.mem_map, exists_exists_and_eq_and]
    · simp
    · simp

/-- A conjunction can be negated where a member that fails can be. -/
theorem invertible_all (h : (∃ a ∈ as, a.Fails s) → ∃ a ∈ as, a.Fails s ∧ a.Invertible s)
    (hfails : ∀ a ∈ as, a.negated.Holds s → a.Fails s) : (all as).Invertible s := by
  rw [Invertible, holds_negated_all, fails_all]
  constructor
  · rintro ⟨a, ha, hn⟩
    exact ⟨a, ha, hfails a ha hn⟩
  · intro hall
    obtain ⟨a, ha, hf, hinv⟩ := h hall
    exact ⟨a, ha, hinv.2 hf⟩

/-- The value of the negation is the opposite truth value. -/
theorem Regular.exact_negated (h : e.Regular s) (hp : e.Proper σ.Owns) (hb : e.isBool) (hs : s.Within σ) :
    e.negated.exact s = some (1 - e.num s) := by
  have hpn := proper_negated hb hp
  have hbn := isBool_negated hb hp
  have hvn := (h.tame.negated hp hb hs).valued hpn hbn hs
  have hinv := h.invertible hb
  rw [Invertible, hvn.holds_iff_num hpn hbn hs, h.valued.fails_iff_num] at hinv
  have := hp.num_boolean hb hs h.valued.exact_eq
  have := hpn.num_boolean hbn hs hvn.exact_eq
  rw [hvn.exact_eq, Option.some_inj]
  omega

/-- Pushing a negation into an expression makes no constraints or functions. -/
theorem Everywhere.negated {V : Variable → Prop} {p : Expr → Prop}
    (hp : ∀ a, (∀ c, a ≠ constraint c) → (∀ g, a ≠ function g) → p a)
    (h : e.Everywhere p) (hb : e.isBool) (hproper : e.Proper V) : e.negated.Everywhere p := by
  induction e using induction_args with
  | h e ih =>
    have here {a : Expr} (h : ∀ b ∈ a.args, b.Everywhere p) (hc : ∀ c, a ≠ constraint c)
        (hg : ∀ g, a ≠ function g) : a.Everywhere p := everywhere_iff.2 ⟨hp a hc hg, h⟩
    cases e with
    | bool _ | negVar _ =>
      simp only [negated_bool, negated_negVar]
      exact here (by simp [args]) (by simp) (by simp)
    | var x =>
      rw [negated_var hb]
      exact here (by simp [args]) (by simp) (by simp)
    | not a => rw [negated_not]; exact h.arg (List.mem_singleton_self a)
    | and as =>
      have hbs := (proper_and.1 hproper).1
      rw [negated_and]
      exact here (List.forall_mem_map.2 fun a ha => ih a ha (h.arg ha) (hbs a ha) (hproper.arg ha))
        (by simp) (by simp)
    | or as =>
      have hbs := (proper_or.1 hproper).1
      rw [negated_or]
      exact here (List.forall_mem_map.2 fun a ha => ih a ha (h.arg ha) (hbs a ha) (hproper.arg ha))
        (by simp) (by simp)
    | implies a b =>
      have hb' : b ∈ (implies a b).args := by simp [args]
      have hnegated := ih b hb' (h.arg hb') (proper_implies.1 hproper).1.2 (hproper.arg hb')
      rw [negated_implies]
      exact here (by simpa [args] using ⟨h.arg (a := a) (by simp [args]), hnegated⟩) (by simp) (by simp)
    | cmp r a b =>
      rw [negated_cmp]
      exact here (fun c hc => h.arg hc) (by simp) (by simp)
    | constraint c =>
      rw [negated_constraint]
      exact here (by simpa [args] using h) (by simp) (by simp)
    | call d => exact absurd hproper proper_call
    | int _ | sum _ | wsum _ | sub _ _ | mul _ _ | neg _ | function _ => cases hb

theorem totalHere_of_ne (hc : ∀ c, e ≠ constraint c) (hg : ∀ g, e ≠ function g) : e.TotalHere := by
  cases e with
  | constraint c => exact absurd rfl (hc c)
  | function g => exact absurd rfl (hg g)
  | _ => trivial

theorem Total.negated (h : e.Total) (hb : e.isBool) (hp : e.Proper σ.Owns) : e.negated.Total :=
  Everywhere.negated (fun _ => totalHere_of_ne) h hb hp

theorem Regular.negated (h : e.Regular s) (hp : e.Proper σ.Owns) (hb : e.isBool) (hs : s.Within σ) :
    e.negated.Regular s := by
  have hpn := proper_negated hb hp
  have hbn := isBool_negated hb hp
  have hv := (h.tame.negated hp hb hs).valued hpn hbn hs
  refine ⟨h.tame.negated hp hb hs, hv, fun _ => (h.tame.holds_negated_negated hp hb).trans ?_⟩
  have hinv : e.negated.Holds s ↔ e.Fails s := h.invertible hb
  rw [h.valued.holds_iff, ← hinv, hv.fails_iff]

theorem Sound.negated (h : e.Sound q w) (hb : e.isBool) : e.negated.Sound q w :=
  ⟨proper_negated hb h.proper, fun s hs => (h.regular s hs).negated h.proper hb hs.within,
    fun hq => (h.total hq).negated hb h.proper⟩

structure TermIn (σ : Store) (e : Expr) : Prop extends e.FullyDefined where
  operands : e.Everywhere OperandsBoolean
  built : e.Everywhere Built
  scope : ∀ x ∈ e.vars, σ.Has x

theorem isTotal_iff {g : Function Expr} {total : Bool} (h : g.isTotal = .ok total) :
    total ↔ (function g).TotalHere := by
  cases g with
  | element as i =>
    obtain ⟨b, hb, h⟩ := Checked.bind_eq_ok.1 h
    obtain ⟨c, hc, h⟩ := Checked.bind_eq_ok.1 h
    rw [i.range_of_bounds b hb, i.range_of_bounds c hc] at h
    cases h
    simp [TotalHere]
  | _ => cases h; exact iff_of_true rfl trivial

theorem totalHere_of_isTotal {g : Function Expr} (h : g.isTotal = .ok true) : (function g).TotalHere :=
  (isTotal_iff h).1 rfl

theorem lasting_of_built {c : Constraint Expr} (hb : (constraint c).Built) : c.Lasting := by
  cases c with
  | cumulative _ _ _ _ _ => exact Constraint.durations_of_rebuild hb
  | _ => trivial

theorem totalHere_of (hb : e.Built) (hf : ∀ g, e = function g → g.isTotal = .ok true) : e.TotalHere := by
  cases e with
  | constraint c => exact lasting_of_built hb
  | function g => exact totalHere_of_isTotal (hf g rfl)
  | _ => trivial

theorem TermIn.inScope (h : e.TermIn σ) : e.Proper σ.Has :=
  ⟨((h.operands.and h.built).and h.callFree).imp fun _ h => typedHere_of h.1.1 h.1.2 h.2, fun x hx =>
    h.scope x (List.mem_eraseDups.2 hx)⟩

theorem TermIn.proper (h : e.TermIn σ) (hσ : σ.Valid) : e.Proper σ.Owns := h.inScope.owned hσ

theorem TermIn.total (h : e.TermIn σ) : e.Total :=
  (h.built.and h.functions).imp fun _ h => totalHere_of h.1 h.2

theorem TermIn.sound (h : e.TermIn σ) (hσ : σ.Valid) : e.Sound q (World.bare σ) := h.total.sound (h.proper hσ)

theorem termIn_var (h : σ.Has x) : (var x).TermIn σ := by
  refine ⟨⟨?_, ?_⟩, ?_, ?_, ?_⟩ <;> simp [CallFree, OperandsBoolean, Built, vars, occurrences_var, h]

theorem termIn_of_args (he : ∀ x, e ≠ var x ∧ e ≠ negVar x) (ho : e.OperandsBoolean) (hb : e.Built)
    (hc : ∀ d, e ≠ call d) (hg : ∀ g, e = function g → g.isTotal = .ok true) (h : ∀ a ∈ e.args, a.TermIn σ) :
    e.TermIn σ := by
  refine ⟨⟨?_, ?_⟩, ?_, ?_, ?_⟩
  · exact everywhere_iff.2 ⟨hc, fun a ha => (h a ha).callFree⟩
  · exact everywhere_iff.2 ⟨hg, fun a ha => (h a ha).functions⟩
  · exact everywhere_iff.2 ⟨ho, fun a ha => (h a ha).operands⟩
  · exact everywhere_iff.2 ⟨hb, fun a ha => (h a ha).built⟩
  · intro x hx
    rw [vars, List.mem_eraseDups, occurrences_eq he] at hx
    obtain ⟨a, ha, hx⟩ := List.mem_flatMap.1 hx
    exact (h a ha).scope x (List.mem_eraseDups.2 hx)

theorem termIn_int (n : Int) : (int n).TermIn σ :=
  termIn_of_args (by simp) trivial trivial (by simp) (by simp) (by simp [args])

theorem termIn_sum (h : ∀ a ∈ as, a.TermIn σ) : (sum as).TermIn σ :=
  termIn_of_args (by simp) trivial trivial (by simp) (by simp) h

theorem WellTypedIn.termIn (h : e.WellTypedIn σ) (hd : e.FullyDefined) : e.TermIn σ :=
  ⟨hd, h.operands, h.built, h.scope⟩

end Expr

end ConstraintModel
