import ConstraintModel.Proofs.FlatForm
import ConstraintModel.Proofs.Mapped

namespace ConstraintModel.Expr

def Uses (V : Variable → Prop) (e : Expr) : Prop := ∀ x ∈ e.occurrences, V x

structure Measured (V : Variable → Prop) (typed t : Prop) (k n : Nat) (e : Expr) : Prop where
  uses : e.Uses V
  nesting : e.nesting k ≤ n
  proper : typed → e.Proper V
  tripleFree : t ∨ e.TripleFree

abbrev Sized (V : Variable → Prop) (k n : Nat) (e : Expr) : Prop := e.Measured V False True k n

variable {V W : Variable → Prop} {typed t : Prop} {k l m n : Nat} {e e' a b : Expr} {as : List Expr}

theorem Uses.imp (h : e.Uses V) (hVW : ∀ x, V x → W x) : e.Uses W := fun x hx => hVW x (h x hx)

theorem Uses.arg (h : e.Uses V) (ha : a ∈ e.args) : a.Uses V := fun x hx => h x (mem_occurrences_of_arg ha hx)

theorem uses_iff (h : ∀ x, e ≠ var x ∧ e ≠ negVar x) : e.Uses V ↔ ∀ a ∈ e.args, a.Uses V := by
  rw [Uses, occurrences_eq h, List.forall_mem_flatMap]
  rfl

@[simp] theorem uses_bool {b : Bool} : (bool b).Uses V := (uses_iff (by simp)).2 nofun

@[simp] theorem uses_int {n : Int} : (int n).Uses V := (uses_iff (by simp)).2 nofun

@[simp] theorem uses_var {x : Variable} : (var x).Uses V ↔ V x := by
  simp [Uses, occurrences_var]

@[simp] theorem uses_negVar {x : Variable} : (negVar x).Uses V ↔ V x := by
  simp [Uses, occurrences_negVar]

@[simp] theorem uses_and : (and as).Uses V ↔ ∀ a ∈ as, a.Uses V := uses_iff (by simp)

@[simp] theorem uses_or : (or as).Uses V ↔ ∀ a ∈ as, a.Uses V := uses_iff (by simp)

@[simp] theorem uses_sum : (sum as).Uses V ↔ ∀ a ∈ as, a.Uses V := uses_iff (by simp)

@[simp] theorem uses_wsum {ts : List (Int × Expr)} : (wsum ts).Uses V ↔ ∀ t ∈ ts, t.2.Uses V :=
  (uses_iff (by simp)).trans List.forall_mem_map

@[simp] theorem uses_implies : (implies a b).Uses V ↔ a.Uses V ∧ b.Uses V := by
  simp [uses_iff (e := implies a b), args]

@[simp] theorem uses_cmp {r : Relation} : (cmp r a b).Uses V ↔ a.Uses V ∧ b.Uses V := by
  simp [uses_iff (e := cmp r a b), args]

@[simp] theorem uses_sub : (sub a b).Uses V ↔ a.Uses V ∧ b.Uses V := by
  simp [uses_iff (e := sub a b), args]

@[simp] theorem uses_mul : (mul a b).Uses V ↔ a.Uses V ∧ b.Uses V := by
  simp [uses_iff (e := mul a b), args]

@[simp] theorem uses_not : (not a).Uses V ↔ a.Uses V := by
  simp [uses_iff (e := not a), args]

@[simp] theorem uses_neg : (neg a).Uses V ↔ a.Uses V := by
  simp [uses_iff (e := neg a), args]

@[simp] theorem uses_constraint {c : Constraint Expr} : (constraint c).Uses V ↔ ∀ a ∈ c.args, a.Uses V :=
  uses_iff (by simp)

@[simp] theorem uses_function {g : Function Expr} : (function g).Uses V ↔ ∀ a ∈ g.args, a.Uses V :=
  uses_iff (by simp)

@[simp] theorem uses_any : (any as).Uses V ↔ ∀ a ∈ as, a.Uses V := by
  match as with
  | [] => simp [any]
  | [a] => simp [any]
  | a :: b :: as => exact uses_or

theorem uses_negated (h : e.Uses V) : e.negated.Uses V := by
  induction e using induction_args with
  | h e ih =>
    replace ih := fun a ha => ih a ha (h.arg ha)
    cases e with
    | bool _ => simp
    | negVar x => simpa using h
    | cmp r a b => simpa using h
    | not a => simpa using h
    | and as =>
      rw [negated_and, uses_or]
      exact List.forall_mem_map.2 ih
    | or as =>
      rw [negated_or, uses_and]
      exact List.forall_mem_map.2 ih
    | implies a b =>
      rw [negated_implies]
      simpa using ⟨h.arg (a := a) (by simp [args]), ih b (by simp [args])⟩
    | var x =>
      rw [negated]
      split <;> simpa using h
    | int _ | sum _ | wsum _ | sub _ _ | mul _ _ | neg _ | constraint _ | function _ | call _ =>
      rw [negated, uses_not] <;> first | exact h | simp

theorem Uses.mapped {R : Expr → Expr → Prop} (h : e.Mapped R e') (he : e.Uses V)
    (hR : ∀ a b, R a b → b.Uses V) : e'.Uses V := by
  rcases h.eq_or_isSimple with ⟨rfl, -⟩ | hs
  · exact he
  · refine (uses_iff (ne_var_of_isSimple hs)).2 fun b hb => ?_
    obtain ⟨a, -, hab⟩ := h.args b hb
    exact hR a b hab

theorem uses_toExpr {f : Affine} (h : ∀ t ∈ f.terms.toList, t.2.Uses V) : f.toExpr.Uses V := by
  have hterms : ∀ u ∈ f.terms.toList ++ (if f.constant = 0 then [] else [(1, .int f.constant)]), u.2.Uses V := by
    refine List.forall_mem_append.2 ⟨h, ?_⟩
    split <;> simp
  unfold Affine.toExpr
  dsimp only
  generalize f.terms.toList ++ (if f.constant = 0 then [] else [(1, .int f.constant)]) = us at hterms
  split
  · exact uses_int
  · split
    · split
      · exact hterms (_, _) (List.mem_singleton_self _)
      · exact uses_sum.2 (List.forall_mem_map.2 hterms)
    · exact uses_wsum.2 hterms

theorem Uses.sized (h : e.Uses V) (hn : e.nesting k ≤ n) : e.Sized V k n := ⟨h, hn, False.elim, .inl trivial⟩

theorem Sized.mapped {R : Expr → Expr → Prop} (h : e.Mapped R e') (he : e.Uses V)
    (hR : ∀ a b, R a b → b.Sized V k (a.nesting k)) : e'.Sized V k (e.nesting k) :=
  (he.mapped h fun a b hab => (hR a b hab).uses).sized (h.nesting_le fun a b hab => (hR a b hab).nesting)

theorem tripleFree_of_args (hn : e.isNot = false) (h : ∀ a ∈ e.args, t ∨ a.TripleFree) : t ∨ e.TripleFree := by
  by_cases ht : t
  · exact .inl ht
  · refine .inr (tripleFree_iff.2 ⟨?_, fun a ha => (h a ha).resolve_left ht⟩)
    rintro x rfl
    cases hn

theorem minus_cases (h : a.minus = .ok b) : (∃ i, a = int i ∧ b = int (-i)) ∨ b = neg a := by
  unfold minus at h
  split at h
  · obtain ⟨i, hi, h⟩ := Checked.bind_eq_ok.1 h
    cases h
    rw [← (Checked.neg_eq_ok.1 hi).2]
    exact .inl ⟨_, rfl, rfl⟩
  · cases h
    exact .inr rfl

namespace Measured

theorem mono (h : e.Measured V typed t k m) (hmn : m ≤ n) : e.Measured V typed t k n :=
  ⟨h.uses, h.nesting.trans hmn, h.proper, h.tripleFree⟩

theorem imp (h : e.Measured V typed t k n) (hVW : ∀ x, V x → W x) : e.Measured W typed t k n :=
  ⟨h.uses.imp hVW, h.nesting, fun ht => (h.proper ht).imp hVW, h.tripleFree⟩

theorem arg (h : e.Measured V typed t k n) (he : ∀ d, e ≠ call d) (ha : a ∈ e.args) : a.Measured V typed t k n :=
  ⟨h.uses.arg ha, (nesting_arg ha he).trans h.nesting, fun ht => (h.proper ht).arg ha,
    h.tripleFree.imp_right fun h => h.arg ha⟩

/-- Simple expressions are not nested. -/
theorem simple (hs : e.isSimple) (h : e.Uses V) (hp : typed → e.Proper V) : e.Measured V typed t k n :=
  ⟨h, (nesting_of_isSimple hs).trans_le (Nat.zero_le n), hp, .inr (tripleFree_of_isSimple hs)⟩

theorem int {i : Int} : (int i).Measured V typed t k n := simple rfl uses_int fun _ => proper_int

theorem bool {b : Bool} : (bool b).Measured V typed t k n := simple rfl uses_bool fun _ => proper_bool

theorem var {x : Variable} (h : V x) : (var x).Measured V typed t k n :=
  simple rfl (uses_var.2 h) fun _ => proper_var.2 h

theorem cmp {r : Relation} (ha : a.Measured V typed t k m) (hb : b.Measured V typed t k n) (hl : k + m + n ≤ l) :
    (cmp r a b).Measured V typed t k l := by
  refine ⟨uses_cmp.2 ⟨ha.uses, hb.uses⟩, le_trans ?_ hl, fun h => proper_cmp.2 ⟨ha.proper h, hb.proper h⟩,
    tripleFree_of_args rfl ?_⟩
  · rw [nesting_cmp]
    exact Nat.add_le_add (Nat.add_le_add_left ha.nesting k) hb.nesting
  · simpa [args] using ⟨ha.tripleFree, hb.tripleFree⟩

theorem implies (hbool : typed → a.isBool ∧ b.isBool) (ha : a.Measured V typed t k m)
    (hb : b.Measured V typed t k n) (hl : k + m + n ≤ l) : (implies a b).Measured V typed t k l := by
  refine ⟨uses_implies.2 ⟨ha.uses, hb.uses⟩, le_trans ?_ hl,
    fun h => proper_implies.2 ⟨hbool h, ha.proper h, hb.proper h⟩, tripleFree_of_args rfl ?_⟩
  · rw [nesting_implies]
    exact Nat.add_le_add (Nat.add_le_add_left ha.nesting k) hb.nesting
  · simpa [args] using ⟨ha.tripleFree, hb.tripleFree⟩

theorem and (hbool : typed → ∀ a ∈ as, a.isBool) (h : ∀ a ∈ as, a.Measured V typed t k n) :
    (and as).Measured V typed t k (k + n) := by
  refine ⟨uses_and.2 fun a ha => (h a ha).uses, ?_,
    fun ht => proper_and.2 ⟨hbool ht, fun a ha => (h a ha).proper ht⟩,
    tripleFree_of_args rfl fun a ha => (h a ha).tripleFree⟩
  rw [nesting_and]
  exact Nat.add_le_add_left (greatest_map_le fun a ha => (h a ha).nesting) k

theorem or (hbool : typed → ∀ a ∈ as, a.isBool) (h : ∀ a ∈ as, a.Measured V typed t k n) :
    (or as).Measured V typed t k (k + n) := by
  refine ⟨uses_or.2 fun a ha => (h a ha).uses, ?_,
    fun ht => proper_or.2 ⟨hbool ht, fun a ha => (h a ha).proper ht⟩,
    tripleFree_of_args rfl fun a ha => (h a ha).tripleFree⟩
  rw [nesting_or]
  exact Nat.add_le_add_left (greatest_map_le fun a ha => (h a ha).nesting) k

theorem all (hbool : typed → ∀ a ∈ as, a.isBool) (h : ∀ a ∈ as, a.Measured V typed t k n) (hl : k + n ≤ l) :
    (all as).Measured V typed t k l := by
  match as with
  | [] => exact bool
  | [a] => exact (h a (List.mem_singleton_self a)).mono (by omega)
  | a :: b :: as => exact (and hbool h).mono hl

theorem any (hbool : typed → ∀ a ∈ as, a.isBool) (h : ∀ a ∈ as, a.Measured V typed t k n) (hl : k + n ≤ l) :
    (any as).Measured V typed t k l := by
  match as with
  | [] => exact bool
  | [a] => exact (h a (List.mem_singleton_self a)).mono (by omega)
  | a :: b :: as => exact (or hbool h).mono hl

theorem sum (h : ∀ a ∈ as, a.Measured V typed t k n) : (sum as).Measured V typed t k (k + n) := by
  refine ⟨uses_sum.2 fun a ha => (h a ha).uses, ?_, fun ht => proper_sum.2 fun a ha => (h a ha).proper ht,
    tripleFree_of_args rfl fun a ha => (h a ha).tripleFree⟩
  rw [nesting_sum]
  exact Nat.add_le_add_left (greatest_map_le fun a ha => (h a ha).nesting) k

theorem sub (ha : a.Measured V typed t k n) (hb : b.Measured V typed t k n) :
    (sub a b).Measured V typed t k (k + n) := by
  refine ⟨uses_sub.2 ⟨ha.uses, hb.uses⟩, ?_, fun h => proper_sub.2 ⟨ha.proper h, hb.proper h⟩,
    tripleFree_of_args rfl ?_⟩
  · rw [nesting_sub]
    exact Nat.add_le_add_left (max_le ha.nesting hb.nesting) k
  · simpa [args] using ⟨ha.tripleFree, hb.tripleFree⟩

theorem mul (ha : a.Measured V typed t k n) (hb : b.Measured V typed t k n) :
    (mul a b).Measured V typed t k (k + n) := by
  refine ⟨uses_mul.2 ⟨ha.uses, hb.uses⟩, ?_, fun h => proper_mul.2 ⟨ha.proper h, hb.proper h⟩,
    tripleFree_of_args rfl ?_⟩
  · rw [nesting_mul]
    exact Nat.add_le_add_left (max_le ha.nesting hb.nesting) k
  · simpa [args] using ⟨ha.tripleFree, hb.tripleFree⟩

theorem neg (h : a.Measured V typed t k n) : (neg a).Measured V typed t k (k + n) := by
  refine ⟨uses_neg.2 h.uses, ?_, fun ht => proper_neg.2 (h.proper ht), tripleFree_of_args rfl ?_⟩
  · rw [nesting_neg]
    exact Nat.add_le_add_left h.nesting k
  · simpa [args] using h.tripleFree

theorem constraint {c : Constraint Expr} (hc : typed → c.Formed) (h : ∀ a ∈ c.args, a.Measured V typed t k n)
    (hl : c.weight + 8 * n ≤ l) : (constraint c).Measured V typed t k l := by
  refine ⟨uses_constraint.2 fun a ha => (h a ha).uses, ?_,
    fun ht => proper_constraint.2 ⟨hc ht, fun a ha => (h a ha).proper ht⟩,
    tripleFree_of_args rfl fun a ha => (h a ha).tripleFree⟩
  have := greatest_map_le fun a ha => (h a ha).nesting
  rw [nesting_constraint]
  omega

theorem function {g : Function Expr} (hg : typed → g.Formed) (h : ∀ a ∈ g.args, a.Measured V typed t k n)
    (hl : 8 + 4 * n ≤ l) : (function g).Measured V typed t k l := by
  refine ⟨uses_function.2 fun a ha => (h a ha).uses, ?_,
    fun ht => proper_function.2 ⟨hg ht, fun a ha => (h a ha).proper ht⟩,
    tripleFree_of_args rfl fun a ha => (h a ha).tripleFree⟩
  have := greatest_map_le fun a ha => (h a ha).nesting
  rw [nesting_function]
  omega

theorem negated (hb : typed → e.isBool) (h : e.Measured V typed t k n) : e.negated.Measured V typed t k (n + k) :=
  ⟨uses_negated h.uses, (nesting_negated_le e).trans (Nat.add_le_add_right h.nesting k),
    fun ht => proper_negated (hb ht) (h.proper ht), h.tripleFree.imp_right TripleFree.negated⟩

theorem plus (ha : a.Measured V typed t k n) (hb : b.Measured V typed t k n) :
    (a.plus b).Measured V typed t k (k + n) := by
  unfold Expr.plus
  split
  · refine sum fun c hc => ?_
    rcases List.mem_append.1 hc with hc | hc
    · exact ha.arg (by simp) hc
    · rwa [List.mem_singleton.1 hc]
  · refine sum fun c hc => ?_
    simp only [List.mem_cons, List.not_mem_nil, or_false] at hc
    rcases hc with rfl | rfl
    · exact ha
    · exact hb

theorem minus (h : a.minus = .ok b) (ha : a.Measured V typed t k n) : b.Measured V typed t k (k + n) := by
  rcases minus_cases h with ⟨i, rfl, rfl⟩ | rfl
  · exact int
  · exact ha.neg

theorem conjuncts (h : e.Measured V typed t k n) : ∀ c ∈ e.conjuncts, c.Measured V typed t k n :=
  e.forall_conjuncts (fun _ h _ ha => h.arg (by simp) ha) h

end Measured

end ConstraintModel.Expr
