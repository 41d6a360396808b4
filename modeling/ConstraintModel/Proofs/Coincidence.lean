import ConstraintModel.Proofs.Agreement
import ConstraintModel.Proofs.Truth

namespace ConstraintModel

def Persists {α : Type} (v w : Option α) : Prop := ∀ a, v = some a → w = some a

section Persistence

variable {α β γ : Type}

theorem Persists.refl (v : Option α) : Persists v v := fun _ h => h

theorem Persists.of_none {w : Option α} : Persists none w := nofun

theorem Persists.bind {v w : Option α} {f g : α → Option β} (h : Persists v w)
    (hfg : ∀ a, Persists (f a) (g a)) : Persists (v.bind f) (w.bind g) := by
  intro b hb
  obtain ⟨a, ha, hb⟩ := Option.bind_eq_some_iff.1 hb
  rw [h a ha]
  exact hfg a b hb

theorem Persists.map {v w : Option α} (h : Persists v w) (f : α → β) : Persists (v.map f) (w.map f) := by
  rw [Option.map_eq_bind, Option.map_eq_bind]
  exact h.bind fun a => .refl _

variable {as : List γ} {f g : γ → Option α}

theorem Persists.mapM (h : ∀ a ∈ as, Persists (f a) (g a)) : Persists (as.mapM f) (as.mapM g) := by
  induction as with
  | nil => exact .refl _
  | cons a as ih =>
    rw [List.mapM_cons, List.mapM_cons]
    refine (h a (List.mem_cons_self ..)).bind fun x => ?_
    exact (ih fun b hb => h b (List.mem_cons_of_mem _ hb)).bind fun xs => .refl _

theorem Persists.values (h : ∀ a ∈ as, Persists (f a) (g a)) :
    Persists ((as.map f).mapM id) ((as.map g).mapM id) := by
  rw [List.mapM_map, List.mapM_map]
  exact .mapM h

theorem Persists.truth {v w : Option Int} (h : Persists v w) : Persists (Exact.truth v) (Exact.truth w) := h.map _

theorem Persists.ofTruth {v w : Option Bool} (h : Persists v w) :
    Persists (Exact.ofTruth v) (Exact.ofTruth w) := h.map _

/-- An argument that decides a connective decides it for good, and without one
all arguments have values. -/
theorem Persists.connective {f g : γ → Option Int} (h : ∀ a ∈ as, Persists (f a) (g a)) (b : Bool) :
    Persists (Exact.connective b (as.map f)) (Exact.connective b (as.map g)) := by
  intro c hc
  by_cases hcb : c = b
  · subst hcb
    rw [Exact.connective_eq_absorbing] at hc ⊢
    obtain ⟨v, hv, hc⟩ := hc
    obtain ⟨a, ha, rfl⟩ := List.mem_map.1 hv
    exact ⟨g a, List.mem_map_of_mem ha, (h a ha).truth _ hc⟩
  · obtain rfl : c = !b := by cases b <;> cases c <;> simp_all
    rw [Exact.connective_eq_neutral, List.forall_mem_map] at hc ⊢
    exact fun a ha => (h a ha).truth _ (hc a ha)

theorem Persists.implication {v v' w w' : Option Int} (hv : Persists v v') (hw : Persists w w') :
    Persists (Exact.implication v w) (Exact.implication v' w') := by
  refine hv.truth.bind fun holds => ?_
  split
  · exact hw.truth
  · exact .refl _

theorem Constraint.exact_persists {f g : γ → Option Int} {c : Constraint γ}
    (h : ∀ a ∈ c.args, Persists (f a) (g a)) : Persists (c.map f).exact (c.map g).exact := by
  cases c with
  | allDifferent as | allDifferentExceptZero as | allEqual as | monotone _ as | circuit as
  | subcircuit as | table as rows | xor as => exact (Persists.values h).bind fun vs => .refl _
  | subcircuitThrough as start =>
    refine Persists.bind (v := ((as.map f)[start]?).getD none) (w := ((as.map g)[start]?).getD none) ?_ fun first =>
      (Persists.values h).bind fun vs => .refl _
    rw [List.getElem?_map, List.getElem?_map]
    cases ha : as[start]? with
    | none => exact .of_none
    | some a => exact h a (List.mem_of_getElem? ha)
  | inverse fs bs =>
    exact (Persists.values fun a ha => h a (List.mem_append_left _ ha)).bind fun vs =>
      (Persists.values fun a ha => h a (List.mem_append_right _ ha)).bind fun ws => .refl _
  | cumulative ss ds es rs c =>
    simp only [args, List.mem_append, List.mem_singleton] at h
    exact (Persists.values fun a ha => h a (by simp [ha])).bind fun starts =>
      (Persists.values fun a ha => h a (by simp [ha])).bind fun durations =>
      (Persists.values fun a ha => h a (by simp [ha])).bind fun ends =>
      (Persists.values fun a ha => h a (by simp [ha])).bind fun demands =>
      (h c (by simp)).bind fun capacity => .refl _
  | cardinality xs vs ns =>
    simp only [args, List.mem_append] at h
    exact (Persists.values fun a ha => h a (by simp [ha])).bind fun xs =>
      (Persists.values fun a ha => h a (by simp [ha])).bind fun vs =>
      (Persists.values fun a ha => h a (by simp [ha])).bind fun ns => .refl _
  | memberOfSet a set => exact (h a (List.mem_singleton_self a)).bind fun n => .refl _
  | memberOfList a vs =>
    exact (h a (List.mem_cons_self ..)).bind fun n =>
      (Persists.values fun b hb => h b (List.mem_cons_of_mem _ hb)).bind fun ns => .refl _
  | ifThenElse c t e =>
    simp only [args, List.mem_cons, List.not_mem_nil, or_false, forall_eq_or_imp, forall_eq] at h
    refine h.1.truth.bind fun holds => ?_
    split
    · exact h.2.1.truth
    · exact h.2.2.truth

theorem Function.exact_persists {f g : γ → Option Int} {k : Function γ}
    (h : ∀ a ∈ k.args, Persists (f a) (g a)) : Persists (k.map f).exact (k.map g).exact := by
  cases k with
  | abs a => exact (h a (List.mem_singleton_self a)).bind fun n => .refl _
  | minimum as | maximum as | distinct as => exact (Persists.values h).bind fun vs => .refl _
  | count as v =>
    exact (h v (List.mem_append_right _ (List.mem_singleton_self v))).bind fun n =>
      (Persists.values fun a ha => h a (List.mem_append_left _ ha)).bind fun vs => .refl _
  | element as i =>
    refine (h i (List.mem_append_right _ (List.mem_singleton_self i))).bind fun n => ?_
    rw [entryAt?_map, entryAt?_map]
    cases ha : entryAt? as n with
    | none => exact .of_none
    | some a => exact h a (List.mem_append_left _ (mem_of_entryAt? ha))

end Persistence

namespace Expr

variable {s t : Assignment}

/-- A comparison of a side without a value is false only when all variables are
assigned, and then neither side changes. -/
theorem comparison_persists {r : Relation} {a b : Expr}
    (h : ∀ x ∈ (cmp r a b).occurrences, Persists (s.value? x) (t.value? x))
    (ha : Persists (a.exact s) (a.exact t)) (hb : Persists (b.exact s) (b.exact t)) :
    Persists ((cmp r a b).exact s) ((cmp r a b).exact t) := by
  by_cases hassigned : (cmp r a b).vars.all s.assigns
  · have heq : (cmp r a b).exact s = (cmp r a b).exact t := by
      refine exact_congr _ fun x hx => ?_
      have hsome := List.all_eq_true.1 hassigned x (List.mem_eraseDups.2 hx)
      obtain ⟨n, hn⟩ := Option.isSome_iff_exists.1 hsome
      rw [hn, h x hx n hn]
    exact heq ▸ .refl _
  · rw [exact_cmp, exact_cmp]
    apply Persists.ofTruth
    intro p hp
    cases hm : a.exact s with
    | none => simp [Exact.comparison, hassigned, hm] at hp
    | some m =>
      cases hn : b.exact s with
      | none => simp [Exact.comparison, hassigned, hm, hn] at hp
      | some n =>
        rw [ha m hm, hb n hn]
        rwa [hm, hn] at hp

/-- Assigning more variables changes no value that there is already. -/
theorem exact_persists (e : Expr) (h : ∀ x ∈ e.occurrences, Persists (s.value? x) (t.value? x)) :
    Persists (e.exact s) (e.exact t) := by
  induction e using induction_args with
  | h e ih =>
    replace ih : ∀ a ∈ e.args, Persists (a.exact s) (a.exact t) := fun a ha =>
      ih a ha fun x hx => h x (mem_occurrences_of_arg ha hx)
    cases e with
    | bool b => simpa using Persists.refl _
    | int n => simpa using Persists.refl _
    | var x => simpa using h x (by simp [occurrences_var])
    | negVar x => simpa using (h x (by simp [occurrences_negVar])).map (1 - ·)
    | and as => rw [exact_and, exact_and]; exact (Persists.connective ih false).ofTruth
    | or as => rw [exact_or, exact_or]; exact (Persists.connective ih true).ofTruth
    | implies a b =>
      rw [exact_implies, exact_implies]
      exact ((ih a (by simp [args])).implication (ih b (by simp [args]))).ofTruth
    | not a =>
      rw [exact_not, exact_not]
      exact ((ih a (List.mem_singleton_self a)).truth.map Bool.not).ofTruth
    | sum as => rw [exact_sum, exact_sum]; exact (Persists.values ih).map List.sum
    | wsum ts =>
      rw [exact_wsum, exact_wsum, Exact.weightedSum, Exact.weightedSum, List.mapM_map, List.mapM_map]
      refine (Persists.mapM fun t' ht => ?_).map List.sum
      exact (ih t'.2 (List.mem_map_of_mem ht)).map (t'.1 * ·)
    | sub a b =>
      rw [exact_sub, exact_sub]
      exact (ih a (by simp [args])).bind fun m => (ih b (by simp [args])).map (m - ·)
    | mul a b =>
      rw [exact_mul, exact_mul]
      exact (ih a (by simp [args])).bind fun m => (ih b (by simp [args])).map (m * ·)
    | neg a => rw [exact_neg, exact_neg]; exact (ih a (List.mem_singleton_self a)).map (- ·)
    | cmp r a b => exact comparison_persists h (ih a (by simp [args])) (ih b (by simp [args]))
    | constraint c =>
      rw [exact_constraint, exact_constraint]
      exact (Constraint.exact_persists ih).ofTruth
    | function g => rw [exact_function, exact_function]; exact Function.exact_persists ih
    | call d => simpa using Persists.refl _

end Expr

namespace Eval

variable {α β γ : Type} {s t : Assignment}

/-- The evaluation has the same outcome for both assignments, be it a value, no
value or an overflow. -/
def Coincides (s t : Assignment) (a : Eval α) : Prop := a.outcome s = a.outcome t

theorem Coincides.pure (a : α) : Coincides s t (Pure.pure a : Eval α) := rfl

theorem Coincides.failure : Coincides s t (Alternative.failure : Eval α) := rfl

theorem Coincides.checked (c : Checked α) : Coincides s t (liftM c : Eval α) := rfl

theorem Coincides.bind {a : Eval α} {f : α → Eval β} (ha : a.Coincides s t)
    (hf : ∀ x, (f x).Coincides s t) : (a >>= f).Coincides s t := by
  rw [Coincides, outcome_bind, outcome_bind, show a.outcome s = a.outcome t from ha]
  congr 1
  funext o
  cases o with
  | none => rfl
  | some x => exact hf x

theorem Coincides.map {a : Eval α} (ha : a.Coincides s t) (f : α → β) : (f <$> a).Coincides s t := by
  rw [← bind_pure_comp]
  exact ha.bind fun x => .pure (f x)

theorem Coincides.attempt {a : Eval α} (ha : a.Coincides s t) : a.attempt.Coincides s t := by
  rw [Coincides, outcome_attempt, outcome_attempt, show a.outcome s = a.outcome t from ha]

theorem Coincides.isTrue {a : Eval Int} (ha : a.Coincides s t) : a.isTrue.Coincides s t := ha.map (· != 0)

theorem Coincides.ofBool {a : Eval Bool} (ha : a.Coincides s t) : a.ofBool.Coincides s t := ha.map Bool.toInt

variable {as : List γ}

theorem Coincides.mapM {f : γ → Eval α} (h : ∀ a ∈ as, (f a).Coincides s t) : (as.mapM f).Coincides s t := by
  induction as with
  | nil => exact .pure []
  | cons a as ih =>
    rw [List.mapM_cons]
    refine (h a (List.mem_cons_self ..)).bind fun x => ?_
    exact (ih fun b hb => h b (List.mem_cons_of_mem _ hb)).bind fun xs => .pure (x :: xs)

theorem Coincides.foldlM {f : β → γ → Eval β} (h : ∀ a ∈ as, ∀ b, (f b a).Coincides s t) (b : β) :
    (as.foldlM f b).Coincides s t := by
  induction as generalizing b with
  | nil => exact .pure b
  | cons a as ih =>
    rw [List.foldlM_cons]
    exact (h a (List.mem_cons_self ..) b).bind fun b => ih (fun c hc => h c (List.mem_cons_of_mem _ hc)) b

theorem Coincides.outcomes {args : List (Eval Int)} (h : ∀ a ∈ args, a.Coincides s t) :
    (Eval.outcomes args).Coincides s t := .mapM fun a ha => (h a ha).isTrue.attempt

theorem Coincides.conjunction {args : List (Eval Int)} (h : ∀ a ∈ args, a.Coincides s t) :
    (Eval.conjunction args).Coincides s t := by
  refine (outcomes h).bind fun values => ?_
  split_ifs
  · exact .pure false
  · exact .failure
  · exact .pure true

theorem Coincides.disjunction {args : List (Eval Int)} (h : ∀ a ∈ args, a.Coincides s t) :
    (Eval.disjunction args).Coincides s t := by
  refine (outcomes h).bind fun values => ?_
  split_ifs
  · exact .pure true
  · exact .failure
  · exact .pure false

theorem Coincides.implication {a b : Eval Int} (ha : a.Coincides s t) (hb : b.Coincides s t) :
    (Eval.implication a b).Coincides s t := by
  refine ha.isTrue.bind fun holds => ?_
  split_ifs
  · exact hb.isTrue
  · exact .pure true

theorem Coincides.comparison {r : Relation} {assigned : Eval Bool} {a b : Eval Int}
    (hp : assigned.Coincides s t) (ha : a.Coincides s t) (hb : b.Coincides s t) :
    (Eval.comparison r assigned a b).Coincides s t := by
  refine ha.attempt.bind fun x => hb.attempt.bind fun y => ?_
  match x, y with
  | some m, some n => exact .pure (r.holds m n)
  | none, _ | some _, none =>
    refine hp.bind fun all => ?_
    split_ifs
    · exact .pure false
    · exact .failure

end Eval

open Eval

section Parts

variable {s t : Assignment}

theorem Constraint.holds_coincides {c : Constraint (Eval Int)} (h : ∀ a ∈ c.args, a.Coincides s t) :
    c.holds.Coincides s t := by
  cases c with
  | allDifferent as | allDifferentExceptZero as | allEqual as | monotone _ as | circuit as
  | subcircuit as | table as rows => exact (Coincides.mapM h).bind fun vs => .pure _
  | subcircuitThrough as start =>
    refine Coincides.bind (a := (as[start]?).getD failure) ?_ fun first =>
      (Coincides.mapM h).bind fun vs => .pure _
    cases ha : as[start]? with
    | none => exact .failure
    | some a => exact h a (List.mem_of_getElem? ha)
  | inverse fs bs =>
    exact (Coincides.mapM fun a ha => h a (List.mem_append_left _ ha)).bind fun vs =>
      (Coincides.mapM fun a ha => h a (List.mem_append_right _ ha)).bind fun ws => .pure _
  | cumulative ss ds es rs c =>
    simp only [args, List.mem_append, List.mem_singleton] at h
    exact (Coincides.mapM fun a ha => h a (by simp [ha])).bind fun starts =>
      (Coincides.mapM fun a ha => h a (by simp [ha])).bind fun durations =>
      (Coincides.mapM fun a ha => h a (by simp [ha])).bind fun ends =>
      (Coincides.mapM fun a ha => h a (by simp [ha])).bind fun demands =>
      (h c (by simp)).bind fun capacity => .checked _
  | cardinality xs vs ns =>
    simp only [args, List.mem_append] at h
    exact (Coincides.mapM fun a ha => h a (by simp [ha])).bind fun xs =>
      (Coincides.mapM fun a ha => h a (by simp [ha])).bind fun vs =>
      (Coincides.mapM fun a ha => h a (by simp [ha])).bind fun ns => .pure _
  | memberOfSet a set => exact (h a (List.mem_singleton_self a)).bind fun n => .pure _
  | memberOfList a vs =>
    exact (h a (List.mem_cons_self ..)).bind fun n =>
      (Coincides.mapM fun b hb => h b (List.mem_cons_of_mem _ hb)).bind fun ns => .pure _
  | xor as => exact (Coincides.mapM h).bind fun vs => .checked _
  | ifThenElse c t e =>
    simp only [args, List.mem_cons, List.not_mem_nil, or_false, forall_eq_or_imp, forall_eq] at h
    refine h.1.isTrue.bind fun holds => ?_
    split_ifs
    · exact h.2.1.isTrue
    · exact h.2.2.isTrue

theorem Function.value_coincides {k : Function (Eval Int)} (h : ∀ a ∈ k.args, a.Coincides s t) :
    k.value.Coincides s t := by
  cases k with
  | abs a => exact (h a (List.mem_singleton_self a)).bind fun n => .checked _
  | minimum as | maximum as => exact (Coincides.mapM h).bind fun vs => rfl
  | count as v =>
    exact (h v (List.mem_append_right _ (List.mem_singleton_self v))).bind fun n =>
      (Coincides.mapM fun a ha => h a (List.mem_append_left _ ha)).bind fun vs => .pure _
  | distinct as => exact (Coincides.mapM h).bind fun vs => .pure _
  | element as i =>
    refine (h i (List.mem_append_right _ (List.mem_singleton_self i))).bind fun n => ?_
    cases ha : entryAt? as n with
    | none => exact .failure
    | some a => exact h a (List.mem_append_left _ (mem_of_entryAt? ha))

end Parts

namespace Expr

variable {s t : Assignment}

theorem assigned_coincides {e : Expr} (h : ∀ x ∈ e.vars, s.value? x = t.value? x) : e.assigned.Coincides s t := by
  have hall : e.vars.all s.assigns = e.vars.all t.assigns := by
    rw [Bool.eq_iff_iff, List.all_eq_true, List.all_eq_true]
    refine forall₂_congr fun x hx => ?_
    rw [Assignment.assigns, Assignment.assigns, h x hx]
  exact congrArg (fun b => Except.ok (some b)) hall

/-- The outcome of an evaluation depends only on the values of the variables. -/
theorem value_coincides (e : Expr) (h : ∀ x ∈ e.occurrences, s.value? x = t.value? x) : e.value.Coincides s t := by
  induction e using induction_args with
  | h e ih =>
    replace ih : ∀ a ∈ e.args, a.value.Coincides s t := fun a ha =>
      ih a ha fun x hx => h x (mem_occurrences_of_arg ha hx)
    have hmap : ∀ a ∈ e.args.map value, a.Coincides s t := List.forall_mem_map.2 ih
    cases e with
    | bool b => rw [value]; exact .pure _
    | int n => rw [value]; exact .pure _
    | var x => rw [value]; exact congrArg Except.ok (h x (by simp [occurrences_var]))
    | negVar x =>
      rw [value]
      have hx : (lookup x).Coincides s t := congrArg Except.ok (h x (by simp [occurrences_negVar]))
      exact hx.bind fun n => .checked _
    | and as => rw [value]; exact (Coincides.conjunction hmap).ofBool
    | or as => rw [value]; exact (Coincides.disjunction hmap).ofBool
    | implies a b => rw [value]; exact ((ih a (by simp [args])).implication (ih b (by simp [args]))).ofBool
    | not a =>
      rw [value]
      exact ((ih a (List.mem_singleton_self a)).isTrue.bind fun b => .pure !b).ofBool
    | sum as =>
      rw [value]
      exact .foldlM (fun a ha total => (hmap a ha).bind fun n => .checked _) 0
    | wsum ts =>
      rw [value]
      refine .foldlM (fun u hu total => ?_) 0
      obtain ⟨u, hmem, rfl⟩ := List.mem_map.1 hu
      exact (ih u.2 (List.mem_map_of_mem hmem)).bind fun n => .bind (.checked _) fun m => .checked _
    | sub a b | mul a b =>
      rw [value]
      exact (ih a (by simp [args])).bind fun m => (ih b (by simp [args])).bind fun n => .checked _
    | neg a => rw [value]; exact (ih a (List.mem_singleton_self a)).bind fun n => .checked _
    | cmp r a b =>
      rw [value]
      refine (Coincides.comparison ?_ (ih a (by simp [args])) (ih b (by simp [args]))).ofBool
      exact assigned_coincides fun x hx => h x (List.mem_eraseDups.1 hx)
    | constraint c =>
      rw [value, c.map_attach]
      exact (Constraint.holds_coincides (by rwa [Constraint.args_map])).ofBool
    | function g =>
      rw [value, g.map_attach]
      exact Function.value_coincides (by rwa [Function.args_map])
    | call d => rw [value]; exact .failure

end Expr

/-- A value persists when more variables of the expression are assigned, and
the outcome is the same when the assignments agree on its variables. -/
theorem value_persists_coincides (e : Expr) (s t : Assignment) :
    ((∀ x ∈ e.vars, ∀ n, s.value? x = some n → t.value? x = some n) →
      ∀ n w, e.value.outcome s = .ok (some n) → e.value.outcome t = .ok w → w = some n) ∧
    ((∀ x ∈ e.vars, s.value? x = t.value? x) → e.value.outcome s = e.value.outcome t) := by
  constructor
  · intro h n w hs ht
    have hn := (e.computes_exact s _ hs).symm
    rw [e.computes_exact t w ht]
    exact e.exact_persists (fun x hx => h x (List.mem_eraseDups.2 hx)) n hn
  · intro h
    exact e.value_coincides fun x hx => h x (List.mem_eraseDups.2 hx)

/-- The disjunction is decided by the index, whatever the entries of the array
will be, and an element that does not exist has made the comparison false. -/
theorem or_missingElement_persists :
    let i : Variable := ⟨0, ⟨0, 9⟩, .int⟩
    let x : Variable := ⟨1, ⟨0, 9⟩, .int⟩
    let y : Variable := ⟨2, ⟨0, 9⟩, .int⟩
    let s := Assignment.empty.assign i 2
    let t := (s.assign x 7).assign y 3
    let e : Expr := .or [.cmp .ne (.function (.element [.var x] (.int 0))) (.var x),
      .implies (.cmp .eq (.function (.element [.int 5, .int 6] (.var i))) (.int 5)) (.var x)]
    (∀ z ∈ e.vars, ∀ n, s.value? z = some n → t.value? z = some n) ∧
      e.value.outcome s = .ok (some 1) ∧ (∀ w, e.value.outcome t = .ok w → w = some 1) ∧
      (∀ z ∈ e.vars, (s.assign x 7).value? z = t.value? z) ∧
      e.value.outcome (s.assign x 7) = e.value.outcome t := by
  intro i x y s t e
  have hassigned : ∀ z ∈ e.vars, ∀ n, s.value? z = some n → t.value? z = some n := by
    intro z _ n hz
    simp only [s, t, Assignment.value?_assign] at hz ⊢
    split_ifs at hz ⊢ <;> simp_all [i, x, y, Assignment.value?, Assignment.empty]
  have hs : e.value.outcome s = .ok (some 1) := by cbv
  have hvars : e.vars = [x, i] := by cbv
  have hagree : ∀ z ∈ e.vars, (s.assign x 7).value? z = t.value? z := by
    rw [hvars, List.forall_mem_cons, List.forall_mem_singleton]
    exact ⟨rfl, rfl⟩
  exact ⟨hassigned, hs, fun w hw => (value_persists_coincides e s t).1 hassigned 1 w hs hw, hagree,
    (value_persists_coincides e (s.assign x 7) t).2 hagree⟩

end ConstraintModel
