import ConstraintModel.Proofs.Sound

namespace ConstraintModel

namespace Expr

/-- The negations that flattening moves into the arguments are the opposite of
them. Of two truth values that are compared one is negated, but only if the other
can turn out to be a constant. -/
def NegatableHere (s : Assignment) : Expr → Prop
  | implies a _ | not a => a.Invertible s
  | cmp _ a b => a.isBool → b.isBool →
    if a.isSimple then a.isLiteral ∨ b.Invertible s else b.isLiteral ∨ a.Invertible s
  | _ => True

/-- The arguments have values, apart from a function that is compared. It has to
be the first side unless that one has the property. -/
def GivenHere (p : Expr → Prop) (s : Assignment) : Expr → Prop
  | cmp _ a b => ((∃ g, a = function g) ∨ a.Valued s) ∧ (p a ∧ (∃ g, b = function g) ∨ b.Valued s)
  | e => ∀ a ∈ e.args, a.Valued s

/-- What flattening relies on to give an expression the same value. A function is
compared with what is simple before it. -/
def PliableHere (s : Assignment) (e : Expr) : Prop := e.NegatableHere s ∧ e.GivenHere (·.isSimple) s

def Pliable (s : Assignment) (e : Expr) : Prop := e.Everywhere (PliableHere s)

/-- A property of everything in a constraint that has to hold. Of an implication
only the two sides are considered, since no negation is moved into them. -/
def AssertedHere (p : Expr → Prop) : Expr → Prop
  | implies a b => a.Everywhere p ∧ b.Everywhere p
  | e => e.Everywhere p

def Asserted (p : Expr → Prop) (e : Expr) : Prop := ∀ c ∈ e.conjuncts, c.AssertedHere p

variable {σ : Store} {e a b : Expr} {as : List Expr} {p q : Expr → Prop} {s t : Assignment}

theorem pliable_iff : e.Pliable s ↔ e.PliableHere s ∧ ∀ a ∈ e.args, a.Pliable s := everywhere_iff

theorem GivenHere.valued (h : e.GivenHere p s) (hc : ∀ r a b, e ≠ cmp r a b) : ∀ a ∈ e.args, a.Valued s := by
  cases e with
  | cmp r a b => exact absurd rfl (hc r a b)
  | _ => exact h

theorem GivenHere.boolean_valued (h : e.GivenHere p s) (hp : e.Proper σ.Owns) (hb : e.isBool) (hs : s.Within σ) :
    e.Valued s := by
  by_cases hc : ∃ r a b, e = cmp r a b
  · obtain ⟨r, a, b, rfl⟩ := hc
    exact valued_cmp hp hs
  · exact valued_of_args hp hs (h.valued fun r a b he => hc ⟨r, a, b, he⟩) fun as i he => by
      rw [he] at hb
      cases hb

theorem givenHere_of_args (h : ∀ a ∈ e.args, a.Valued s) : e.GivenHere p s := by
  cases e with
  | cmp r a b => exact ⟨.inr (h a (by simp [args])), .inr (h b (by simp [args]))⟩
  | _ => exact h

theorem TameHere.givenHere (h : e.TameHere s) : e.GivenHere p s := by
  cases e with
  | cmp r a b => exact ⟨h.1.2.imp_left And.left, .inr h.2.2⟩
  | _ => exact h.valued (by simp)

theorem Pliable.valued (h : e.Pliable s) (hp : e.Proper σ.Owns) (hb : e.isBool) (hs : s.Within σ) :
    e.Valued s := h.here.2.boolean_valued hp hb hs

theorem TameHere.pliableHere (h : e.TameHere s) : e.PliableHere s := by
  refine ⟨?_, h.givenHere⟩
  cases e with
  | implies a b | not a => exact h.1
  | cmp r a b =>
    intro ha hb
    split
    · exact .inr (h.2.1 hb)
    · exact .inr (h.1.1 ha)
  | _ => trivial

theorem Tame.pliable (h : e.Tame s) : e.Pliable s := h.imp fun _ => TameHere.pliableHere

theorem pliable_of_args (hn : e.NegatableHere s) (h : ∀ a ∈ e.args, a.Valued s ∧ a.Pliable s) : e.Pliable s :=
  pliable_iff.2 ⟨⟨hn, givenHere_of_args fun a ha => (h a ha).1⟩, fun a ha => (h a ha).2⟩

theorem pliable_of_isSimple (h : e.isSimple) : e.Pliable s := (tame_of_isSimple h).pliable

/-- Pushing a negation into a pliable expression leaves it pliable. -/
theorem Pliable.negated (h : e.Pliable s) (hp : e.Proper σ.Owns) (hb : e.isBool) (hs : s.Within σ) :
    e.negated.Pliable s := by
  induction e using induction_args with
  | h e ih =>
    have negated {a : Expr} (ha : a ∈ e.args) (hba : a.isBool) : a.negated.Valued s ∧ a.negated.Pliable s :=
      have hn := ih a ha (h.arg ha) (hp.arg ha) hba
      ⟨hn.valued (proper_negated hba (hp.arg ha)) (isBool_negated hba (hp.arg ha)) hs, hn⟩
    cases e with
    | bool b => rw [negated_bool]; exact pliable_of_isSimple rfl
    | var x => rw [negated_var hb]; exact pliable_of_isSimple rfl
    | negVar x => rw [negated_negVar]; exact pliable_of_isSimple rfl
    | and as =>
      rw [negated_and]
      exact pliable_of_args trivial (List.forall_mem_map.2 fun a ha =>
        negated ha ((proper_and.1 hp).1 a ha))
    | or as =>
      rw [negated_or]
      exact pliable_of_args trivial (List.forall_mem_map.2 fun a ha =>
        negated ha ((proper_or.1 hp).1 a ha))
    | implies a b =>
      have ha : a ∈ (implies a b).args := by simp [args]
      have hvalued : a.Valued s := h.here.2 a ha
      rw [negated_implies]
      refine pliable_of_args trivial ?_
      simp only [args, List.forall_mem_cons, List.not_mem_nil, false_imp_iff, implies_true, and_true]
      exact ⟨⟨hvalued, h.arg ha⟩, negated (by simp [args]) (proper_implies.1 hp).1.2⟩
    | not a => rw [negated_not]; exact h.arg (by simp [args])
    | cmp r a b =>
      rw [negated_cmp]
      exact pliable_iff.2 ⟨h.here, fun c hc => h.arg hc⟩
    | constraint c =>
      rw [negated_constraint]
      exact pliable_of_args invertible_constraint (by simpa [args] using ⟨h.valued hp rfl hs, h⟩)
    | call d => exact absurd hp proper_call
    | int _ | sum _ | wsum _ | sub _ _ | mul _ _ | neg _ | function _ => cases hb

theorem Valued.congr (h : e.Valued s) (hp : e.Proper fun x => s.value? x = t.value? x) : e.Valued t := by
  rwa [Valued, ← exact_congr e hp.scope]

theorem Invertible.congr (h : e.Invertible s) (hb : e.isBool) (hp : e.Proper fun x => s.value? x = t.value? x) :
    e.Invertible t := by
  rwa [Invertible, Holds, Fails, ← exact_congr e hp.scope, ← exact_congr _ (proper_negated hb hp).scope]

theorem NegatableHere.congr (h : e.NegatableHere s) (hp : e.Proper fun x => s.value? x = t.value? x) :
    e.NegatableHere t := by
  cases e with
  | implies a b => exact Invertible.congr h (proper_implies.1 hp).1.1 (proper_implies.1 hp).2.1
  | not a => exact Invertible.congr h (proper_not.1 hp).1 (proper_not.1 hp).2
  | cmp r a b =>
    obtain ⟨hpa, hpb⟩ := proper_cmp.1 hp
    intro ha hb
    have h := h ha hb
    by_cases hs : a.isSimple
    · rw [if_pos hs] at h ⊢
      exact h.imp_right fun h => h.congr hb hpb
    · rw [if_neg hs] at h ⊢
      exact h.imp_right fun h => h.congr ha hpa
  | _ => trivial

theorem GivenHere.congr (h : e.GivenHere p s) (hp : e.Proper fun x => s.value? x = t.value? x) : e.GivenHere p t := by
  cases e with
  | cmp r a b =>
    obtain ⟨hpa, hpb⟩ := proper_cmp.1 hp
    exact ⟨h.1.imp_right fun h => h.congr hpa, h.2.imp_right fun h => h.congr hpb⟩
  | _ => exact fun a ha => (h a ha).congr (hp.arg ha)

theorem Pliable.congr (h : e.Pliable s) (hp : e.Proper fun x => s.value? x = t.value? x) : e.Pliable t := by
  induction e using induction_args with
  | h e ih =>
    exact pliable_iff.2 ⟨⟨h.here.1.congr hp, h.here.2.congr hp⟩, fun a ha => ih a ha (h.arg ha) (hp.arg ha)⟩

theorem asserted_and : (and as).Asserted p ↔ ∀ a ∈ as, a.Asserted p := by
  rw [Asserted, conjuncts_and, List.forall_mem_flatMap]
  rfl

theorem asserted_iff (ht : e ≠ bool true) (ha : ∀ as, e ≠ and as) : e.Asserted p ↔ e.AssertedHere p := by
  rw [Asserted, conjuncts_eq ht ha, List.forall_mem_singleton]

theorem Everywhere.assertedHere (h : e.Everywhere p) : e.AssertedHere p := by
  cases e with
  | implies a b => exact ⟨h.arg (by simp [args]), h.arg (by simp [args])⟩
  | _ => exact h

theorem Everywhere.asserted (h : e.Everywhere p) : e.Asserted p := fun c hc =>
  (e.forall_conjuncts (fun _ h _ ha => h.arg ha) h c hc).assertedHere

/-- Only the top of an implication can lack what an asserted constraint has. -/
theorem Asserted.everywhere (h : e.Asserted p) (hi : ∀ a b, e ≠ implies a b) (ha : ∀ as, e ≠ and as)
    (htrue : p (bool true)) : e.Everywhere p := by
  by_cases ht : e = bool true
  · subst ht
    exact everywhere_iff.2 ⟨htrue, by simp [args]⟩
  · have h := (asserted_iff ht ha).1 h
    cases e with
    | implies a b => exact absurd rfl (hi a b)
    | _ => exact h

theorem AssertedHere.congr (h : e.AssertedHere (PliableHere s)) (hp : e.Proper fun x => s.value? x = t.value? x) :
    e.AssertedHere (PliableHere t) := by
  cases e with
  | implies a b =>
    obtain ⟨-, hpa, hpb⟩ := proper_implies.1 hp
    exact ⟨Pliable.congr h.1 hpa, Pliable.congr h.2 hpb⟩
  | _ => exact Pliable.congr h hp

theorem Asserted.congr (h : e.Asserted (PliableHere s)) (hp : e.Proper fun x => s.value? x = t.value? x) :
    e.Asserted (PliableHere t) := fun c hc =>
  (h c hc).congr (e.forall_conjuncts (fun _ h _ ha => h.arg ha) hp c hc)

end Expr

end ConstraintModel
