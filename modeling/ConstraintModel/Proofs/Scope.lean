import ConstraintModel.Proofs.Range

namespace ConstraintModel

namespace Store

def Has (σ : Store) (x : Variable) : Prop :=
  ∃ origin, σ.definitions[x.index]? = some ⟨x.bounds, x.kind, origin⟩

/-- The variable belongs to the store, and is Boolean only when it ranges over
the truth values. -/
def Owns (σ : Store) (x : Variable) : Prop := σ.Has x ∧ (x.isBool → x.bounds = .boolean)

def Valid (σ : Store) : Prop :=
  ∀ (i : Nat) d, σ.definitions[i]? = some d → d.kind = .bool → d.bounds = .boolean

def Grows (σ τ : Store) : Prop :=
  ∀ (i : Nat) d, σ.definitions[i]? = some d → τ.definitions[i]? = some d

variable {σ τ υ : Store} {x : Variable}

theorem Grows.refl (σ : Store) : σ.Grows σ := fun _ _ h => h

theorem Grows.trans (h : σ.Grows τ) (h' : τ.Grows υ) : σ.Grows υ := fun i d hd => h' i d (h i d hd)

theorem Grows.size_le (h : σ.Grows τ) : σ.size ≤ τ.size := by
  by_contra hlt
  have hlt : τ.size < σ.size := by omega
  have hd := h τ.size _ (Array.getElem?_eq_getElem hlt)
  have hnone : τ.definitions[τ.size]? = none := Array.getElem?_eq_none (Nat.le_refl _)
  rw [hnone] at hd
  cases hd

theorem grows_add (σ : Store) (d : Definition) : σ.Grows (σ.add d).2 := by
  intro i c hc
  obtain ⟨hi, -⟩ := Array.getElem?_eq_some_iff.1 hc
  rw [definitions_add σ d hi, hc]

theorem has_add (σ : Store) (d : Definition) : (σ.add d).2.Has (σ.add d).1 :=
  ⟨d.origin, by simp [add, size]⟩

theorem Valid.add (h : σ.Valid) {d : Definition} (hd : d.kind = .bool → d.bounds = .boolean) :
    (σ.add d).2.Valid := by
  intro i c hc
  simp only [Store.add, Array.getElem?_push] at hc
  split at hc
  · cases hc
    exact hd
  · exact h i c hc

theorem Has.mono (h : σ.Has x) (hg : σ.Grows τ) : τ.Has x :=
  ⟨h.choose, hg _ _ h.choose_spec⟩

theorem Has.index_lt (h : σ.Has x) : x.index < σ.size := by
  obtain ⟨_, h⟩ := h
  exact (Array.getElem?_eq_some_iff.1 h).1

theorem Has.boolean (h : σ.Has x) (hv : σ.Valid) (hx : x.isBool) : x.bounds = .boolean := by
  obtain ⟨_, h⟩ := h
  exact hv _ _ h (by simpa [Variable.isBool] using hx)

theorem Owns.mono (h : σ.Owns x) (hg : σ.Grows τ) : τ.Owns x := ⟨h.1.mono hg, h.2⟩

end Store

namespace Assignment

def Within (σ : Store) (s : Assignment) : Prop :=
  ∀ (i : Nat) d, σ.definitions[i]? = some d → ∃ n ∈ d.bounds, s.get? i = some n

def Agrees (k : Nat) (s t : Assignment) : Prop := ∀ i < k, s.get? i = t.get? i

variable {σ τ : Store} {s t u : Assignment} {k l : Nat}

theorem Within.mono (h : t.Within τ) (hg : σ.Grows τ) : t.Within σ := fun i d hd => h i d (hg i d hd)

theorem Within.value (h : s.Within σ) {x : Variable} (hx : σ.Has x) :
    ∃ n ∈ x.bounds, s.value? x = some n := by
  obtain ⟨_, hx⟩ := hx
  exact h _ _ hx

theorem Within.lower_le_upper (h : s.Within σ) {x : Variable} (hx : σ.Has x) : x.bounds.lower ≤ x.bounds.upper := by
  obtain ⟨n, hn, -⟩ := h.value hx
  exact hn.1.trans hn.2

theorem Agrees.refl (k : Nat) (s : Assignment) : s.Agrees k s := fun _ _ => rfl

theorem Agrees.symm (h : s.Agrees k t) : t.Agrees k s := fun i hi => (h i hi).symm

theorem Agrees.trans (h : s.Agrees k t) (h' : t.Agrees k u) : s.Agrees k u :=
  fun i hi => (h i hi).trans (h' i hi)

theorem Agrees.mono (h : s.Agrees l t) (hkl : k ≤ l) : s.Agrees k t := fun i hi => h i (by omega)

theorem Within.congr (h : s.Within σ) (hst : s.Agrees σ.size t) : t.Within σ := by
  intro i d hd
  have hi : i < σ.size := (Array.getElem?_eq_some_iff.1 hd).1
  rw [← hst i hi]
  exact h i d hd

/-- An assignment extends to a new variable by each value of its domain. -/
theorem Within.assign (h : s.Within σ) {d : Definition} {n : Int} (hn : n ∈ d.bounds) :
    (s.assign (σ.add d).1 n).Within (σ.add d).2 := by
  intro i c hc
  simp only [Store.add, Array.getElem?_push] at hc
  split at hc
  · cases hc
    exact ⟨n, hn, if_pos ‹_›⟩
  · obtain ⟨m, hm, hs⟩ := h i c hc
    exact ⟨m, hm, (if_neg ‹_›).trans hs⟩

theorem value?_assign_self (s : Assignment) (x : Variable) (n : Int) :
    (s.assign x n).value? x = some n := if_pos rfl

def splice (k : Nat) (s t : Assignment) : Assignment := ⟨fun i => if i < k then s.get? i else t.get? i⟩

theorem agrees_splice (k : Nat) (s t : Assignment) : s.Agrees k (splice k s t) := fun _ hi => (if_pos hi).symm

theorem Within.splice (hg : σ.Grows τ) (hs : s.Within σ) (ht : t.Within τ) :
    (splice σ.size s t).Within τ := by
  intro i d hd
  by_cases hi : i < σ.size
  · obtain ⟨c, hc⟩ : ∃ c, σ.definitions[i]? = some c := ⟨_, Array.getElem?_eq_getElem hi⟩
    obtain ⟨n, hn, hv⟩ := hs i c hc
    rw [hg i c hc, Option.some_inj] at hd
    exact ⟨n, hd ▸ hn, (if_pos hi).trans hv⟩
  · obtain ⟨n, hn, hv⟩ := ht i d hd
    exact ⟨n, hn, (if_neg hi).trans hv⟩

end Assignment

namespace Expr

variable {σ τ : Store} {s t : Assignment} {e a : Expr}

def Over (σ : Store) (e : Expr) : Prop := ∀ x ∈ e.occurrences, σ.Owns x

theorem Over.inBounds (h : e.Over σ) (hs : s.Within σ) : e.InBounds s := by
  intro x hx n hn
  obtain ⟨m, hm, hv⟩ := hs.value (h x hx).1
  rw [hv, Option.some.injEq] at hn
  rwa [← hn]

theorem Over.assigned (h : e.Over σ) (hs : s.Within σ) : e.vars.all s.assigns = true := by
  rw [List.all_eq_true]
  intro x hx
  obtain ⟨n, -, hn⟩ := hs.value (h x (List.mem_eraseDups.1 hx)).1
  rw [Assignment.assigns, hn]
  rfl

/-- The value of an expression depends only on the values of its variables. -/
theorem exact_congr (e : Expr) (h : ∀ x ∈ e.occurrences, s.value? x = t.value? x) :
    e.exact s = e.exact t := by
  induction e using induction_args with
  | h e ih =>
    replace ih : ∀ a ∈ e.args, a.exact s = a.exact t := fun a ha =>
      ih a ha fun x hx => h x (mem_occurrences_of_arg ha hx)
    have hmap : e.args.map (exact s) = e.args.map (exact t) := List.map_congr_left ih
    cases e with
    | bool b => simp
    | int n => simp
    | var x => rw [exact_var, exact_var, h x (by simp [occurrences_var])]
    | negVar x => rw [exact_negVar, exact_negVar, h x (by simp [occurrences_negVar])]
    | and as => rw [exact_and, exact_and]; exact congrArg _ (congrArg _ hmap)
    | or as => rw [exact_or, exact_or]; exact congrArg _ (congrArg _ hmap)
    | implies a b => rw [exact_implies, exact_implies, ih a (by simp [args]), ih b (by simp [args])]
    | not a => rw [exact_not, exact_not, ih a (by simp [args])]
    | sum as => rw [exact_sum, exact_sum]; exact congrArg _ hmap
    | wsum ts =>
      rw [exact_wsum, exact_wsum]
      congr 1
      exact List.map_congr_left fun t' ht => by rw [ih t'.2 (List.mem_map_of_mem ht)]
    | sub a b => rw [exact_sub, exact_sub, ih a (by simp [args]), ih b (by simp [args])]
    | mul a b => rw [exact_mul, exact_mul, ih a (by simp [args]), ih b (by simp [args])]
    | neg a => rw [exact_neg, exact_neg, ih a (by simp [args])]
    | cmp r a b =>
      rw [exact_cmp, exact_cmp, ih a (by simp [args]), ih b (by simp [args])]
      congr 2
      rw [Bool.eq_iff_iff, List.all_eq_true, List.all_eq_true]
      refine forall₂_congr fun x hx => ?_
      rw [Assignment.assigns, Assignment.assigns, h x (List.mem_eraseDups.1 hx)]
    | constraint c =>
      rw [exact_constraint, exact_constraint]
      congr 2
      refine Constraint.eq_of_map_eq (f := fun _ => ()) ?_ ?_
      · rw [Constraint.map_map, Constraint.map_map]
      · rw [Constraint.args_map, Constraint.args_map]; exact hmap
    | function g =>
      rw [exact_function, exact_function]
      congr 1
      refine Function.eq_of_map_eq (f := fun _ => ()) ?_ ?_
      · rw [Function.map_map, Function.map_map]
      · rw [Function.args_map, Function.args_map]; exact hmap
    | call d => simp

theorem Over.exact_congr (h : e.Over σ) (hst : s.Agrees σ.size t) : e.exact s = e.exact t :=
  Expr.exact_congr e fun x hx => hst _ (h x hx).1.index_lt

theorem Over.holds_congr (h : e.Over σ) (hst : s.Agrees σ.size t) : e.Holds s ↔ e.Holds t := by
  rw [Holds, Holds, h.exact_congr hst]

end Expr

end ConstraintModel
