import ConstraintModel.Proofs.PrimitiveSolutions

namespace ConstraintModel

namespace Expr

/-- A function that can be undefined occurs nowhere but as a side of a
comparison, and as the second side only after a simple one. -/
def ComparedHere : Expr → Prop
  | cmp _ a b => a.isSimple ∨ ∀ g, b = function g → g.isTotal = .ok true
  | e => ∀ a ∈ e.args, ∀ g, a = function g → g.isTotal = .ok true

variable {σ : Store} {e a : Expr} {p q : Expr → Prop} {s : Assignment}

/-- Everything has a value but the functions that can be undefined. -/
theorem valued_of_compared (h : e.Everywhere ComparedHere) (hp : e.Proper σ.Owns) (hs : s.Within σ)
    (hg : ∀ g, e = function g → g.isTotal = .ok true) : e.Valued s := by
  induction e using induction_args with
  | h e ih =>
    by_cases hc : ∃ r a b, e = cmp r a b
    · obtain ⟨r, a, b, rfl⟩ := hc
      exact valued_cmp hp hs
    · have here : ∀ a ∈ e.args, ∀ g, a = function g → g.isTotal = .ok true := by
        have here := h.here
        cases e with
        | cmp r a b => exact absurd ⟨r, a, b, rfl⟩ hc
        | _ => exact here
      have hargs : ∀ a ∈ e.args, a.Valued s := fun a ha => ih a ha (h.arg ha) (hp.arg ha) (here a ha)
      cases e with
      | function g => exact valued_of_isTotal hp hargs (hg g rfl) hs
      | _ => exact valued_of_args hp hs hargs (by simp)

theorem givenHere_of_compared (h : e.Everywhere ComparedHere) (hp : e.Proper σ.Owns) (hs : s.Within σ) :
    e.GivenHere (·.isSimple) s := by
  have valued {a : Expr} (ha : a ∈ e.args) := valued_of_compared (h.arg ha) (hp.arg ha) hs
  have here := h.here
  cases e with
  | cmp r a b =>
    refine ⟨?_, ?_⟩
    · by_cases hg : ∃ g, a = function g
      · exact .inl hg
      · exact .inr (valued (by simp [args]) fun g he => absurd ⟨g, he⟩ hg)
    · have hb : b ∈ (cmp r a b).args := by simp [args]
      rcases here with hs | htotal
      · by_cases hg : ∃ g, b = function g
        · exact .inl ⟨hs, hg⟩
        · exact .inr (valued hb fun g he => absurd ⟨g, he⟩ hg)
      · exact .inr (valued hb htotal)
  | _ => exact fun a ha => valued ha (here a ha)

theorem given_of_compared (h : e.Everywhere ComparedHere) (hp : e.Proper σ.Owns) (hs : s.Within σ) :
    e.Everywhere (GivenHere (·.isSimple) s) := by
  induction e using induction_args with
  | h e ih =>
    exact everywhere_iff.2 ⟨givenHere_of_compared h hp hs, fun a ha => ih a ha (h.arg ha) (hp.arg ha)⟩

theorem AssertedHere.and (h : e.AssertedHere p) (h' : e.Everywhere q) : e.AssertedHere fun a => p a ∧ q a := by
  cases e with
  | implies a b => exact ⟨h.1.and (h'.arg (by simp [args])), h.2.and (h'.arg (by simp [args]))⟩
  | _ => exact Everywhere.and h h'

theorem Asserted.and (h : e.Asserted p) (h' : e.Everywhere q) : e.Asserted fun a => p a ∧ q a := fun c hc =>
  (h c hc).and (e.forall_conjuncts (fun _ h _ ha => h.arg ha) h' c hc)

end Expr

namespace Model

variable {m : Model} {out : List Expr} {τ : Store} {s : Assignment}

/-- Functions that can be undefined and are compared directly are kept where they
are by flattening. Wherever every negation that reaches such a comparison is its
opposite, the posted constraints hold if and only if the flat ones do for some
values of the new variables, and there is only one choice of these. -/
theorem flatten_compared_solutions (hm : m.store.Valid)
    (h : ∀ c ∈ m.constraints, c.FormedIn m.store) (hc : ∀ c ∈ m.constraints, c.Everywhere Expr.ComparedHere)
    (hrun : flatten m.constraints m.store = .ok out τ) (hs : s.Within m.store)
    (hn : ∀ c ∈ m.constraints, c.Asserted (Expr.NegatableHere s)) :
    ((∀ c ∈ m.constraints, c.Holds s) ↔ ∃ t, m.Extends out τ s t) ∧
      ∀ t t', m.Extends out τ s t → m.Extends out τ s t' → t.Agrees τ.size t' := by
  have hproper : ∀ c ∈ m.constraints, c.Proper m.store.Owns := fun c hmem => (formed hm h c hmem).2.1
  have hasserted : ∀ c ∈ m.constraints, Condition.asserted.holds s c := fun c hmem =>
    (hn c hmem).and (Expr.given_of_compared (hc c hmem) (hproper c hmem) hs)
  have hrenders := flatten_renders (formed hm h) ⟨s, hs, hasserted⟩
  exact extends_of_renders (hrenders.ok hrun).2.1 hproper hs hasserted

def pointer : Variable := ⟨0, ⟨0, 2⟩, .int⟩

def mark : Variable := ⟨1, .boolean, .bool⟩

def pointing : Store := ⟨#[⟨pointer.bounds, pointer.kind, .user⟩, ⟨mark.bounds, mark.kind, .user⟩]⟩

def pointed (n : Int) (b : Bool) : Assignment := ⟨fun i => some (if i = 0 then n else b.toInt)⟩

def entry : Expr := .function (.element [.int 1, .int 2] (.var pointer))

theorem valid_pointing : pointing.Valid := by
  rintro (_ | _ | i) d h hk <;> simp [pointing] at h <;> subst h
  · cases hk
  · rfl

theorem within_pointing {n : Int} (hn : n ∈ pointer.bounds) (b : Bool) : (pointed n b).Within pointing := by
  rintro (_ | _ | i) d h <;> simp [pointing] at h <;> subst h
  · exact ⟨n, hn, rfl⟩
  · exact ⟨b.toInt, by cases b <;> decide, rfl⟩

theorem exact_entry (n : Int) (b : Bool) : entry.exact (pointed n b) = (entryAt? [some 1, some 2] n).getD none := by
  simp [entry, Expr.exact_function, Function.map, Function.exact, Expr.exact_var, pointed, Assignment.value?, pointer]

theorem exact_mark (n : Int) (b : Bool) : (Expr.var mark).exact (pointed n b) = some b.toInt := by
  rw [Expr.exact_var]
  rfl

theorem holds_mark (n : Int) (b : Bool) : (Expr.var mark).Holds (pointed n b) ↔ b = true := by
  rw [Expr.Holds, exact_mark]
  cases b <;> decide

theorem formed_pointing {c : Expr} (hb : c.isBool)
    (h : c.Everywhere fun a => a.OperandsBoolean ∧ a.Built ∧ ∀ d, a ≠ .call d)
    (hs : ∀ x ∈ c.occurrences, x = pointer ∨ x = mark) : c.FormedIn pointing := by
  refine Expr.WellTypedIn.formedIn ⟨⟨hb, h.imp fun _ h => h.1, h.imp fun _ h => h.2.1⟩, fun x hx => ?_⟩
    (h.imp fun _ h => h.2.2)
  rcases hs x (List.mem_eraseDups.1 hx) with rfl | rfl
  · exact ⟨.user, rfl⟩
  · exact ⟨.user, rfl⟩

theorem built_entry : entry.Built := by
  rw [entry, Expr.Built]
  rfl

def pointedOrMarked : Model := ⟨pointing, [.or [.cmp .eq entry (.int 1), .var mark]]⟩

theorem flatten_pointedOrMarked : ∃ out τ,
    flatten pointedOrMarked.constraints pointedOrMarked.store = .ok out τ ∧ τ.size = 3 ∧
      (∃ t, pointedOrMarked.Extends out τ (pointed 2 true) t ∧
        ∀ t', pointedOrMarked.Extends out τ (pointed 2 true) t' → t.Agrees τ.size t') ∧
      ¬∃ t, pointedOrMarked.Extends out τ (pointed 2 false) t := by
  have hformed : ∀ c ∈ pointedOrMarked.constraints, c.FormedIn pointedOrMarked.store := by
    rw [pointedOrMarked, List.forall_mem_singleton]
    refine formed_pointing rfl ?_ ?_
    · have hbuilt := built_entry
      simp_all [entry, Function.args, Expr.Built, Expr.OperandsBoolean, Expr.isBool, mark, Variable.isBool]
    · simp [entry, Expr.occurrences_eq, Expr.occurrences_var, Expr.args, Function.args]
  have hcompared : ∀ c ∈ pointedOrMarked.constraints, c.Everywhere Expr.ComparedHere := by
    rw [pointedOrMarked, List.forall_mem_singleton]
    simp [entry, Function.args, Expr.args, Expr.ComparedHere]
  have hnegatable (s : Assignment) : ∀ c ∈ pointedOrMarked.constraints, c.Asserted (Expr.NegatableHere s) := by
    rw [pointedOrMarked, List.forall_mem_singleton]
    refine Expr.Everywhere.asserted ?_
    simp [entry, Function.args, Expr.NegatableHere, Expr.isBool]
  have hholds (b : Bool) : (∀ c ∈ pointedOrMarked.constraints, c.Holds (pointed 2 b)) ↔ b = true := by
    have hentry : entry.exact (pointed 2 b) = none := exact_entry 2 b
    rw [pointedOrMarked, List.forall_mem_singleton, Expr.holds_or]
    simp [Expr.holds_cmp, hentry, holds_mark]
  obtain ⟨out, τ, hrun, hsize⟩ : ∃ out τ,
      flatten pointedOrMarked.constraints pointedOrMarked.store = .ok out τ ∧ τ.size = 3 := ⟨_, _, by cbv, rfl⟩
  have solutions (b : Bool) := flatten_compared_solutions valid_pointing hformed hcompared hrun
    (within_pointing (n := 2) (by decide) b) (hnegatable _)
  refine ⟨out, τ, hrun, hsize, ?_, fun h => ?_⟩
  · obtain ⟨t, ht⟩ := (solutions true).1.1 ((hholds true).2 rfl)
    exact ⟨t, ht, fun t' => (solutions true).2 t t' ht⟩
  · exact Bool.false_ne_true ((hholds false).1 ((solutions false).1.2 h))

end Model

end ConstraintModel
