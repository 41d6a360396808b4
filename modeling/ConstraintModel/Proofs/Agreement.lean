import ConstraintModel.Proofs.WellFormed

namespace ConstraintModel

namespace Eval

variable {α β : Type} {lax : Prop} {s : Assignment}

def Computes (a : Eval α) (s : Assignment) (v : Option α) : Prop :=
  ∀ w, a.outcome s = .ok w → w = v

/-- The evaluation has the given outcome, or it overflows where that is
tolerated. -/
def Gives (lax : Prop) (a : Eval α) (s : Assignment) (v : Option α) : Prop :=
  a.outcome s = .ok v ∨ lax ∧ a.outcome s = .error .overflow

theorem Gives.computes {a : Eval α} {v : Option α} (h : a.Gives lax s v) : a.Computes s v := by
  intro w hw
  obtain h | ⟨-, h⟩ := h
  · exact (Except.ok.inj (h.symm.trans hw)).symm
  · rw [h] at hw
    cases hw

theorem gives_false_iff {a : Eval α} {v : Option α} : a.Gives False s v ↔ a.outcome s = .ok v := by
  simp [Gives]

theorem outcome_bind (a : Eval α) (f : α → Eval β) (s : Assignment) :
    (a >>= f).outcome s = a.outcome s >>= fun
      | some x => (f x).outcome s
      | none => .ok none := by
  simp only [outcome, bind, ReaderT.bind, OptionT.bind, OptionT.run, OptionT.mk]
  congr 1

theorem outcome_attempt (a : Eval α) (s : Assignment) :
    a.attempt.outcome s = some <$> a.outcome s := rfl

theorem Gives.pure (x : α) : Gives lax (Pure.pure x) s (some x) := .inl rfl

theorem Gives.failure : Gives lax (Alternative.failure : Eval α) s none := .inl rfl

theorem Gives.ofOption (v : Option α) : Gives lax (ofOption v) s v := .inl rfl

theorem Gives.lookup (x : Variable) : Gives lax (lookup x) s (s.value? x) := .inl rfl

/-- The second step matters only for the value of the first one. -/
theorem Gives.bind {a : Eval α} {f : α → Eval β} {v : Option α} {g : α → Option β}
    (ha : a.Gives lax s v) (hf : ∀ x, v = some x → (f x).Gives lax s (g x)) :
    (a >>= f).Gives lax s (v.bind g) := by
  rw [Gives, outcome_bind]
  obtain ha | ⟨hl, ha⟩ := ha
  · rw [ha]
    cases v with
    | none => exact .inl rfl
    | some x => exact hf x rfl
  · rw [ha]
    exact .inr ⟨hl, rfl⟩

theorem Gives.map {a : Eval α} {v : Option α} (ha : a.Gives lax s v) (f : α → β) :
    (f <$> a).Gives lax s (v.map f) := by
  rw [← bind_pure_comp, Option.map_eq_bind]
  exact ha.bind fun x _ => .pure (f x)

theorem Gives.attempt {a : Eval α} {v : Option α} (ha : a.Gives lax s v) :
    a.attempt.Gives lax s (some v) := by
  rw [Gives, outcome_attempt]
  obtain ha | ⟨hl, ha⟩ := ha
  · exact .inl (by rw [ha]; rfl)
  · exact .inr ⟨hl, by rw [ha]; rfl⟩

theorem Gives.checked {c : Checked α} {x : α} (h : ∀ y, c = .ok y → y = x)
    (hlax : ¬lax → ∃ y, c = .ok y) : Gives lax (liftM c : Eval α) s (some x) := by
  cases c with
  | error e =>
    refine .inr ⟨?_, rfl⟩
    by_contra hl
    obtain ⟨y, hy⟩ := hlax hl
    cases hy
  | ok y => exact .inl (by rw [← h y rfl]; rfl)

/-- The result of an operation is exact where it fits. -/
theorem Gives.fits {n : Int} (h : ¬lax → Checked.Fits n) :
    Gives lax (liftM (Checked.ofInt n) : Eval Int) s (some n) :=
  .checked (fun _ hm => (Checked.ofInt_eq_ok.1 hm).2.symm) fun hl => ⟨n, Checked.ofInt_eq_ok.2 ⟨h hl, rfl⟩⟩

theorem Gives.mapM {γ : Type} {as : List γ} {f : γ → Eval α} {g : γ → Option α}
    (h : ∀ a ∈ as, (f a).Gives lax s (g a)) : (as.mapM f).Gives lax s (as.mapM g) := by
  induction as with
  | nil => exact .pure []
  | cons a as ih =>
    rw [List.mapM_cons, List.mapM_cons]
    refine (h a (List.mem_cons_self ..)).bind fun x _ => ?_
    exact (ih fun b hb => h b (List.mem_cons_of_mem _ hb)).bind fun xs _ => .pure (x :: xs)

theorem Gives.isTrue {a : Eval Int} {v : Option Int} (ha : a.Gives lax s v) :
    a.isTrue.Gives lax s (Exact.truth v) := ha.map (· != 0)

theorem Gives.ofBool {a : Eval Bool} {v : Option Bool} (ha : a.Gives lax s v) :
    a.ofBool.Gives lax s (Exact.ofTruth v) := ha.map Bool.toInt

variable {γ : Type} {as : List γ} {f : γ → Eval Int} {g : γ → Option Int}

theorem Gives.outcomes (h : ∀ a ∈ as, (f a).Gives lax s (g a)) :
    (Eval.outcomes (as.map f)).Gives lax s (some ((as.map g).map Exact.truth)) := by
  have hm : (as.mapM fun a => (f a).isTrue.attempt).Gives lax s
      (as.mapM fun a => some (Exact.truth (g a))) := .mapM fun a ha => (h a ha).isTrue.attempt
  rw [Eval.outcomes, List.mapM_map]
  have hs : (as.mapM fun a => some (Exact.truth (g a))) =
      some ((as.map g).map Exact.truth) := by
    rw [List.map_map]
    exact List.mapM_pure
  rw [hs] at hm
  exact hm

theorem Gives.conjunction (h : ∀ a ∈ as, (f a).Gives lax s (g a)) :
    (Eval.conjunction (as.map f)).Gives lax s (Exact.conjunction (as.map g)) := by
  refine (outcomes h).bind (g := fun vs => if some false ∈ vs then some false
    else if none ∈ vs then none else some true) fun vs _ => ?_
  split
  · exact .pure false
  · split
    · exact .failure
    · exact .pure true

theorem Gives.disjunction (h : ∀ a ∈ as, (f a).Gives lax s (g a)) :
    (Eval.disjunction (as.map f)).Gives lax s (Exact.disjunction (as.map g)) := by
  refine (outcomes h).bind (g := fun vs => if some true ∈ vs then some true
    else if none ∈ vs then none else some false) fun vs _ => ?_
  split
  · exact .pure true
  · split
    · exact .failure
    · exact .pure false

theorem Gives.implication {a b : Eval Int} {v w : Option Int} (ha : a.Gives lax s v)
    (hb : b.Gives lax s w) : (Eval.implication a b).Gives lax s (Exact.implication v w) := by
  refine ha.isTrue.bind fun holds _ => ?_
  split
  · exact hb.isTrue
  · exact .pure true

theorem Gives.comparison {r : Relation} {assigned : Eval Bool} {a b : Eval Int} {p : Bool}
    {v w : Option Int} (hp : assigned.Gives lax s (some p)) (ha : a.Gives lax s v)
    (hb : b.Gives lax s w) :
    (Eval.comparison r assigned a b).Gives lax s (Exact.comparison r p v w) := by
  refine ha.attempt.bind (g := fun x => some w >>= fun y => Exact.comparison r p x y) fun x _ => ?_
  refine hb.attempt.bind fun y _ => ?_
  match x, y with
  | some m, some n => exact .pure (r.holds m n)
  | none, _ | some _, none =>
    refine hp.bind (g := fun assigned => if assigned then some false else none) fun assigned _ => ?_
    cases assigned
    · exact .failure
    · exact .pure false

def PartialSumsFit (total : Int) : List (Option Int) → Prop
  | [] | none :: _ => True
  | some n :: vs => Checked.Fits (total + n) ∧ PartialSumsFit (total + n) vs

theorem Gives.total {total : Int} (h : ∀ a ∈ as, (f a).Gives lax s (g a))
    (hfits : ¬lax → PartialSumsFit total (as.map g)) :
    (as.foldlM (fun total a => do Checked.add total (← f a)) total).Gives lax s
      ((as.mapM g).map fun ns : List Int => total + ns.sum) := by
  rw [← Exact.foldlM_eq_sum]
  induction as generalizing total with
  | nil => exact .pure total
  | cons a as ih =>
    rw [List.foldlM_cons, List.foldlM_cons]
    rw [List.map_cons] at hfits
    have hstep : (do Checked.add total (← f a) : Eval Int).Gives lax s ((g a).map (total + ·)) := by
      rw [Option.map_eq_bind]
      refine (h a (List.mem_cons_self ..)).bind fun n hn => .fits fun hl => ?_
      have := hfits hl
      rw [hn] at this
      exact this.1
    refine hstep.bind fun m hm => ih (fun b hb => h b (List.mem_cons_of_mem _ hb)) fun hl => ?_
    obtain ⟨n, hn, rfl⟩ := Option.map_eq_some_iff.1 hm
    have := hfits hl
    rw [hn] at this
    exact this.2

theorem Gives.values {as : List γ} {f : γ → Eval α} {g : γ → Option α}
    (h : ∀ a ∈ as, (f a).Gives lax s (g a)) : ((as.map f).mapM id).Gives lax s ((as.map g).mapM id) := by
  rw [List.mapM_map, List.mapM_map]
  exact .mapM h

end Eval

namespace Cumulative

theorem load_of_usage {start finish demand : List Int} {time n : Int}
    (h : usage start finish demand time = .ok n) : n = load start finish demand time :=
  Checked.ok_of_sum h

theorem of_allM {α : Type} {check : α → Checked Bool} {p : α → Bool}
    (h : ∀ a b, check a = .ok b → b = p a) {as : List α} {b : Bool}
    (hb : as.allM check = .ok b) : b = as.all p := by
  induction as with
  | nil => cases hb; rfl
  | cons a as ih =>
    obtain ⟨c, hc, hb⟩ := Checked.bind_eq_ok.1 hb
    rw [List.all_cons, ← h a c hc]
    cases c with
    | false => cases hb; rfl
    | true => exact ih hb

theorem of_consistent {start duration finish : List Int} {b : Bool}
    (h : consistent start duration finish = .ok b) :
    b = (start.zip (duration.zip finish)).all fun (s, d, e) => s + d == e := by
  refine of_allM (p := fun t => t.1 + t.2.1 == t.2.2) (fun t b hb => ?_) h
  obtain ⟨n, hn, hb⟩ := Checked.bind_eq_ok.1 hb
  cases hb
  rw [(Checked.add_eq_ok.1 hn).2]

theorem of_throughout {check : Int → Checked Bool} {p : Int → Bool}
    (h : ∀ t b, check t = .ok b → b = p t) {first : Int} {k : Nat} {b : Bool}
    (hb : throughout check first k = .ok b) :
    b = ((List.range k).map fun i : Nat => first + i).all p := by
  induction k generalizing first with
  | zero => cases hb; rfl
  | succ k ih =>
    obtain ⟨c, hc, hb⟩ := Checked.bind_eq_ok.1 hb
    rw [List.range_succ_eq_map, List.map_cons, List.all_cons, List.map_map]
    rw [show first + ((0 : Nat) : Int) = first by omega, ← h first c hc]
    cases c with
    | false => cases hb; rfl
    | true =>
      rw [ih hb, Bool.true_and]
      congr 2
      funext i
      simp only [Function.comp_apply]
      omega

theorem of_holds {start duration finish demand : List Int} {capacity : Int} {b : Bool}
    (h : holds start duration finish demand capacity = .ok b) :
    b = fits start duration finish demand capacity := by
  obtain ⟨c, hc, h⟩ := Checked.bind_eq_ok.1 h
  rw [fits, ← of_consistent hc]
  cases c with
  | false => cases h; rfl
  | true =>
    rw [Bool.true_and]
    rw [if_pos rfl] at h
    cases hs : start.min? with
    | none =>
      simp only [hs] at h
      cases h
      rfl
    | some first =>
      cases hf : finish.max? with
      | none =>
        simp only [hs, hf] at h
        cases h
        rfl
      | some last =>
        simp only [hs, hf] at h
        refine of_throughout (fun t b hb => ?_) h
        obtain ⟨n, hn, hb⟩ := Checked.bind_eq_ok.1 hb
        cases hb
        rw [load_of_usage hn]

end Cumulative

theorem Xor.of_holds {values : List Int} {b : Bool} (h : holds values = .ok b) :
    b = (values.sum.tmod 2 == 1) := by
  obtain ⟨n, hn, h⟩ := Checked.bind_eq_ok.1 h
  cases h
  rw [Checked.ok_of_sum hn]

def Constraint.Fits : Constraint (Option Int) → Prop
  | cumulative ss ds es rs capacity => ∀ starts durations ends demands n, ss.mapM id = some starts →
    ds.mapM id = some durations → es.mapM id = some ends → rs.mapM id = some demands → capacity = some n →
    ∃ b, Cumulative.holds starts durations ends demands n = .ok b
  | xor vs => ∀ ns, vs.mapM id = some ns → ∃ b, Xor.holds ns = .ok b
  | _ => True

def Function.Fits : Function (Option Int) → Prop
  | abs v => ∀ n, v = some n → Checked.Fits n.natAbs
  | _ => True

section Parts

open Eval

variable {γ : Type} {lax : Prop} {f : γ → Eval Int} {g : γ → Option Int} {s : Assignment}

theorem Constraint.gives_holds {c : Constraint γ} (h : ∀ a ∈ c.args, (f a).Gives lax s (g a))
    (hfits : ¬lax → (c.map g).Fits) : (c.map f).holds.Gives lax s (c.map g).exact := by
  cases c with
  | allDifferent as | allDifferentExceptZero as | allEqual as | monotone _ as | circuit as
  | subcircuit as | table as rows => exact (Gives.values h).bind fun vs _ => .pure _
  | subcircuitThrough as start =>
    refine Gives.bind (v := ((as.map g)[start]?).getD none) ?_ fun first _ =>
      (Gives.values h).bind fun vs _ => .pure _
    rw [List.getElem?_map, List.getElem?_map]
    cases ha : as[start]? with
    | none => exact .failure
    | some a => exact h a (List.mem_of_getElem? ha)
  | inverse fs bs =>
    exact (Gives.values fun a ha => h a (List.mem_append_left _ ha)).bind fun vs _ =>
      (Gives.values fun a ha => h a (List.mem_append_right _ ha)).bind fun ws _ => .pure _
  | cumulative ss ds es rs c =>
    simp only [args, List.mem_append, List.mem_singleton] at h
    refine (Gives.values fun a ha => h a (by simp [ha])).bind fun starts hs => ?_
    refine (Gives.values fun a ha => h a (by simp [ha])).bind fun durations hd => ?_
    refine (Gives.values fun a ha => h a (by simp [ha])).bind fun ends he => ?_
    refine (Gives.values fun a ha => h a (by simp [ha])).bind fun demands hr => ?_
    refine (h c (by simp)).bind fun capacity hc => ?_
    refine .checked (fun b hb => Cumulative.of_holds hb) fun hl => ?_
    exact hfits hl starts durations ends demands capacity hs hd he hr hc
  | cardinality xs vs ns =>
    simp only [args, List.mem_append] at h
    exact (Gives.values fun a ha => h a (by simp [ha])).bind fun xs _ =>
      (Gives.values fun a ha => h a (by simp [ha])).bind fun vs _ =>
      (Gives.values fun a ha => h a (by simp [ha])).bind fun ns _ => .pure _
  | memberOfSet a set => exact (h a (List.mem_singleton_self a)).bind fun n _ => .pure _
  | memberOfList a vs =>
    exact (h a (List.mem_cons_self ..)).bind fun n _ =>
      (Gives.values fun b hb => h b (List.mem_cons_of_mem _ hb)).bind fun ns _ => .pure _
  | xor as =>
    exact (Gives.values h).bind fun vs hvs => .checked (fun b hb => Xor.of_holds hb) fun hl => hfits hl vs hvs
  | ifThenElse c t e =>
    simp only [args, List.mem_cons, List.not_mem_nil, or_false, forall_eq_or_imp, forall_eq] at h
    refine h.1.isTrue.bind fun holds _ => ?_
    split
    · exact h.2.1.isTrue
    · exact h.2.2.isTrue

theorem Function.gives_value {k : Function γ} (h : ∀ a ∈ k.args, (f a).Gives lax s (g a))
    (hfits : ¬lax → (k.map g).Fits) : (k.map f).value.Gives lax s (k.map g).exact := by
  cases k with
  | abs a =>
    exact (h a (List.mem_singleton_self a)).bind fun n hn => .fits fun hl => hfits hl n hn
  | minimum as | maximum as => exact (Gives.values h).bind fun vs _ => .ofOption _
  | count as v =>
    exact (h v (List.mem_append_right _ (List.mem_singleton_self v))).bind fun n _ =>
      (Gives.values fun a ha => h a (List.mem_append_left _ ha)).bind fun vs _ => .pure _
  | distinct as => exact (Gives.values h).bind fun vs _ => .pure _
  | element as i =>
    refine (h i (List.mem_append_right _ (List.mem_singleton_self i))).bind fun n _ => ?_
    rw [entryAt?_map, entryAt?_map]
    cases ha : entryAt? as n with
    | none => exact .failure
    | some a => exact h a (List.mem_append_left _ (mem_of_entryAt? ha))

end Parts

namespace Expr

/-- The results of the outermost operation fit in 64 bits, those of its
intermediate steps included. -/
def FitsAt (s : Assignment) : Expr → Prop
  | negVar x => ∀ n, s.value? x = some n → Checked.Fits (-n) ∧ Checked.Fits (1 - n)
  | sum as => Eval.PartialSumsFit 0 (as.map (exact s))
  | wsum ts => (∀ t ∈ ts, ∀ n, t.2.exact s = some n → Checked.Fits (t.1 * n)) ∧
    Eval.PartialSumsFit 0 (ts.map fun t => (t.2.exact s).map (t.1 * ·))
  | sub a b => ∀ m n, a.exact s = some m → b.exact s = some n → Checked.Fits (m - n)
  | mul a b => ∀ m n, a.exact s = some m → b.exact s = some n → Checked.Fits (m * n)
  | neg a => ∀ n, a.exact s = some n → Checked.Fits (-n)
  | constraint c => (c.map (exact s)).Fits
  | function g => (g.map (exact s)).Fits
  | _ => True

open Eval in
/-- The checked evaluation gives the exact value where no result leaves 64
bits, and nothing else anywhere. -/
theorem gives_exact {lax : Prop} {s : Assignment} (e : Expr) (h : ¬lax → e.Everywhere (FitsAt s)) :
    e.value.Gives lax s (e.exact s) := by
  induction e using Expr.induction_args with
  | h e ih =>
    replace ih := fun a ha => ih a ha fun hl => (h hl).arg ha
    have here : ¬lax → e.FitsAt s := fun hl => (h hl).here
    cases e with
    | bool b => rw [value, exact_bool]; exact .pure b.toInt
    | int n => rw [value, exact_int]; exact .pure n
    | var x => rw [value, exact_var]; exact .lookup x
    | negVar x =>
      rw [value, exact_negVar, Option.map_eq_bind]
      refine (Gives.lookup x).bind fun n hn => .checked (fun _ hm => Checked.ok_of_complement hm) fun hl => ?_
      obtain ⟨hneg, hsub⟩ := here hl n hn
      exact ⟨1 - n, Checked.complement_eq_ok hneg hsub⟩
    | and as => rw [value, exact_and]; exact (Gives.conjunction ih).ofBool
    | or as => rw [value, exact_or]; exact (Gives.disjunction ih).ofBool
    | implies a b =>
      rw [value, exact_implies]
      exact ((ih a (by simp [args])).implication (ih b (by simp [args]))).ofBool
    | not a =>
      rw [value, exact_not, Option.map_eq_bind]
      exact ((ih a (List.mem_singleton_self a)).isTrue.bind fun b _ => .pure !b).ofBool
    | sum as =>
      rw [value, exact_sum, Eval.sum]
      rw [List.foldlM_map, Exact.sum, List.mapM_map]
      simpa [args] using Gives.total ih here
    | wsum ts =>
      rw [value, exact_wsum, Eval.weightedSum]
      have ht : ∀ t ∈ ts, ((fun t : Int × Expr => do
          let n ← t.2.value
          (liftM (Checked.mul t.1 n) : Eval Int)) t).Gives lax s ((t.2.exact s).map (t.1 * ·)) := by
        intro t ht
        rw [Option.map_eq_bind]
        exact (ih t.2 (List.mem_map_of_mem ht)).bind fun n hn => .fits fun hl => (here hl).1 t ht n hn
      simpa [Exact.weightedSum, List.foldlM_map, List.mapM_map, Function.comp_def] using
        Gives.total ht fun hl => (here hl).2
    | sub a b =>
      rw [value, exact_sub]
      refine (ih a (by simp [args])).bind fun m hm => ?_
      rw [Option.map_eq_bind]
      exact (ih b (by simp [args])).bind fun n hn => .fits fun hl => here hl m n hm hn
    | mul a b =>
      rw [value, exact_mul]
      refine (ih a (by simp [args])).bind fun m hm => ?_
      rw [Option.map_eq_bind]
      exact (ih b (by simp [args])).bind fun n hn => .fits fun hl => here hl m n hm hn
    | neg a =>
      rw [value, exact_neg, Option.map_eq_bind]
      exact (ih a (List.mem_singleton_self a)).bind fun n hn => .fits fun hl => here hl n hn
    | cmp r a b =>
      rw [value, exact_cmp]
      have hassigned : Gives lax (assigned (cmp r a b)) s (some ((cmp r a b).vars.all s.assigns)) :=
        .inl rfl
      exact (hassigned.comparison (ih a (by simp [args])) (ih b (by simp [args]))).ofBool
    | constraint c =>
      rw [value, exact_constraint, c.map_attach]
      exact (Constraint.gives_holds ih here).ofBool
    | function g =>
      rw [value, exact_function, g.map_attach]
      exact Function.gives_value ih here
    | call d => rw [value, exact_call]; exact .failure

/-- Where the checked evaluation does not overflow it gives the exact value. -/
theorem computes_exact (e : Expr) (s : Assignment) : e.value.Computes s (e.exact s) := by
  have h : e.value.Gives True s (e.exact s) := e.gives_exact fun hl => absurd trivial hl
  exact h.computes

/-- No evaluation overflows in which all results fit. -/
theorem outcome_eq_exact {s : Assignment} {e : Expr} (h : e.Everywhere (FitsAt s)) :
    e.value.outcome s = .ok (e.exact s) :=
  Eval.gives_false_iff.1 (e.gives_exact fun _ => h)

end Expr

end ConstraintModel
