import ConstraintModel.Form.Supported
import ConstraintModel.Proofs.Decompose
import ConstraintModel.Proofs.Mapped
import ConstraintModel.Proofs.Positions
import ConstraintModel.Proofs.Yields
import Mathlib

namespace ConstraintModel

namespace Expr

variable {e a b c : Expr} {as : List Expr}

theorem mem_conjuncts_self (ht : e ≠ bool true) (ha : ∀ as, e ≠ and as) : c ∈ e.conjuncts ↔ c = e := by
  rw [conjuncts_eq ht ha, List.mem_singleton]

/-- The parts of a conjunction are no conjunctions themselves. -/
theorem ne_of_mem_conjuncts (h : c ∈ e.conjuncts) : c ≠ bool true ∧ ∀ as, c ≠ and as := by
  induction e using induction_args with
  | h e ih =>
    by_cases ht : e = bool true
    · simp [ht] at h
    · by_cases ha : ∃ as, e = and as
      · obtain ⟨as, rfl⟩ := ha
        rw [conjuncts_and, List.mem_flatMap] at h
        obtain ⟨a, ha, h⟩ := h
        exact ih a ha h
      · have ha : ∀ as, e ≠ and as := fun as has => ha ⟨as, has⟩
        rw [(mem_conjuncts_self ht ha).1 h]
        exact ⟨ht, ha⟩

theorem conjuncts_of_mem (h : c ∈ e.conjuncts) : c.conjuncts = [c] :=
  conjuncts_eq (ne_of_mem_conjuncts h).1 (ne_of_mem_conjuncts h).2

theorem mem_conjuncts_all (h : c ∈ (all as).conjuncts) : ∃ a ∈ as, c ∈ a.conjuncts := by
  match as with
  | [] => simp [all] at h
  | [a] => exact ⟨a, List.mem_singleton_self a, h⟩
  | a :: b :: as => rwa [all, conjuncts_and, List.mem_flatMap] at h <;> simp

def isGlobal : Expr → Bool
  | constraint _ | call _ => true
  | _ => false

def IsLoose (e : Expr) : Prop := ∀ c ∈ e.conjuncts, c.isGlobal = false

theorem isLoose_of_ne (ha : ∀ as, e ≠ and as) (hg : e.isGlobal = false) : e.IsLoose := by
  intro c hc
  by_cases ht : e = bool true
  · simp [ht] at hc
  · rwa [(mem_conjuncts_self ht ha).1 hc]

theorem isLoose_and : (and as).IsLoose ↔ ∀ a ∈ as, a.IsLoose := by
  simp only [IsLoose, conjuncts_and, List.mem_flatMap, forall_exists_index, and_imp]
  exact ⟨fun h a ha c => h c a ha, fun h c a ha => h a ha c⟩

@[simp] theorem isLoose_bool {b : Bool} : (bool b).IsLoose := isLoose_of_ne (by simp) rfl

@[simp] theorem isLoose_cmp {r : Relation} : (cmp r a b).IsLoose := isLoose_of_ne (by simp) rfl

@[simp] theorem isLoose_implies : (implies a b).IsLoose := isLoose_of_ne (by simp) rfl

theorem isLoose_all (h : ∀ a ∈ as, a.IsLoose) : (all as).IsLoose := by
  intro c hc
  obtain ⟨a, ha, hc⟩ := mem_conjuncts_all hc
  exact h a ha c hc

theorem isLoose_any (h : ∀ a ∈ as, a.IsLoose) : (any as).IsLoose := by
  match as with
  | [] => exact isLoose_bool
  | [a] => exact h a (List.mem_singleton_self a)
  | a :: b :: as => exact isLoose_of_ne (by simp [any]) rfl

theorem guards_isCmp {x : Expr} {length : Nat} (h : e ∈ x.guards length) : ∃ r b, e = cmp r x b := by
  rcases List.mem_append.1 h with h | h
  all_goals
    split at h
    · exact ⟨_, _, List.mem_singleton.1 h⟩
    · cases h

end Expr

open ConstraintModel.Expr

def Expr.IsConstraining (e : Expr) : Prop := e.isBool ∧ ((∃ as, e = .and as) → e.IsLoose)

theorem Expr.isConstraining_cmp {r : Relation} {a b : Expr} : (cmp r a b).IsConstraining :=
  ⟨rfl, by simp⟩

theorem Expr.isConstraining_constraint {c : Constraint Expr} : (constraint c).IsConstraining :=
  ⟨rfl, by simp⟩

theorem Expr.isConstraining_implies {a b : Expr} : (implies a b).IsConstraining := ⟨rfl, by simp⟩

variable {σ τ : Store}

theorem Inverse.isLoose_link {backward : List Expr} {i : Int} {x : Expr} :
    (link backward i x).isBool ∧ (link backward i x).IsLoose := by
  unfold link
  split
  · split <;> exact ⟨rfl, by simp⟩
  · have hcmp : ∀ e ∈ x.guards backward.length ++
        [.cmp .eq (.function (.element backward x)) (.int i)], e.isBool ∧ e.IsLoose := by
      intro e he
      rcases List.mem_append.1 he with he | he
      · obtain ⟨r, b, rfl⟩ := guards_isCmp he
        exact ⟨rfl, isLoose_cmp⟩
      · rw [List.mem_singleton.1 he]
        exact ⟨rfl, isLoose_cmp⟩
    exact ⟨isBool_all fun e he => (hcmp e he).1, isLoose_all fun e he => (hcmp e he).2⟩

theorem Xor.isCmp_decompose (as : List Expr) :
    ∀ e ∈ (decompose as).constraining, ∃ r a b, e = .cmp r a b := by
  have fold : ∀ (bs : List Expr) (acc : Expr), (∃ r a b, acc = .cmp r a b) →
      ∃ r a b, bs.foldl (fun acc a => .cmp .eq (.sum [acc, a]) (.int 1)) acc = .cmp r a b := by
    intro bs
    induction bs with
    | nil => exact fun acc h => h
    | cons b bs ih => exact fun acc _ => ih _ ⟨_, _, _, rfl⟩
  intro e he
  rw [List.mem_singleton.1 he]
  exact fold _ _ ⟨_, _, _, rfl⟩

theorem Constraint.Decomposes.isConstraining {c : Constraint Expr} {d : Decomposition}
    (h : c.Decomposes σ d τ) : ∀ e ∈ d.constraining, e.IsConstraining := by
  have guards {length : Nat} {xs : List Expr} :
      ∀ e ∈ xs.flatMap fun x => x.guards length, e.IsConstraining := by
    intro e he
    obtain ⟨x, -, he⟩ := List.mem_flatMap.1 he
    obtain ⟨r, b, rfl⟩ := guards_isCmp he
    exact isConstraining_cmp
  have loose {e : Expr} (h : e.isBool ∧ e.IsLoose) : e.IsConstraining := ⟨h.1, fun _ => h.2⟩
  cases h with
  | allDifferent | allEqual | monotone | cardinality =>
    intro e he
    obtain ⟨p, -, rfl⟩ := List.mem_map.1 he
    exact isConstraining_cmp
  | allDifferentExceptZero =>
    intro e he
    obtain ⟨p, -, rfl⟩ := List.mem_map.1 he
    exact isConstraining_implies
  | memberOfSet =>
    intro e he
    obtain ⟨n, -, rfl⟩ := List.mem_map.1 he
    exact isConstraining_cmp
  | circuit succ =>
    simp only [Circuit.encoding, List.forall_mem_append, List.forall_mem_map, List.forall_mem_cons,
      List.not_mem_nil, false_imp_iff, implies_true, and_true]
    exact ⟨⟨guards, isConstraining_constraint, isConstraining_constraint⟩,
      fun _ _ => isConstraining_cmp⟩
  | subcircuit succ =>
    simp only [Subcircuit.encoding, List.forall_mem_append, List.forall_mem_map, List.forall_mem_cons,
      List.not_mem_nil, false_imp_iff, implies_true, and_true]
    exact ⟨⟨guards, isConstraining_constraint⟩, fun _ _ => isConstraining_implies⟩
  | subcircuitThrough succ start =>
    simp only [Subcircuit.decomposeThrough, Decomposition.direct, List.forall_mem_cons,
      List.forall_mem_map]
    exact ⟨isConstraining_constraint, fun _ _ => isConstraining_cmp⟩
  | inverse fs bs =>
    intro e he
    rw [List.mem_singleton.1 he]
    refine loose ⟨isBool_all ?_, isLoose_all ?_⟩ <;> rw [List.forall_mem_map]
    · exact fun p _ => Inverse.isLoose_link.1
    · exact fun p _ => Inverse.isLoose_link.2
  | cumulative ss ds es rs capacity =>
    simp only [Decomposition.direct, Cumulative.encoding, List.forall_mem_append, List.forall_mem_map]
    exact ⟨fun _ _ => isConstraining_cmp, fun _ _ => isConstraining_cmp⟩
  | table xs rows =>
    intro e he
    rw [List.mem_singleton.1 he]
    have rows : ∀ row : List Int, ∀ e ∈ (xs.zip row).map fun p => Expr.cmp .eq p.1 (.int p.2),
        e.isBool ∧ e.IsLoose := by
      intro row
      rw [List.forall_mem_map]
      exact fun p _ => ⟨rfl, isLoose_cmp⟩
    refine loose ⟨isBool_any ?_, isLoose_any ?_⟩ <;> rw [List.forall_mem_map]
    · exact fun row _ => isBool_all fun e he => (rows row e he).1
    · exact fun row _ => isLoose_all fun e he => (rows row e he).2
  | memberOfList a vs =>
    intro e he
    rw [List.mem_singleton.1 he]
    refine loose ⟨isBool_any ?_, isLoose_any ?_⟩ <;> rw [List.forall_mem_map]
    · exact fun v _ => rfl
    · exact fun v _ => isLoose_cmp
  | xor as =>
    intro e he
    obtain ⟨r, a, b, rfl⟩ := Xor.isCmp_decompose as e he
    exact isConstraining_cmp
  | ifThenElse c t e =>
    simp only [IfThenElse.decompose, Decomposition.direct, List.forall_mem_cons, List.not_mem_nil,
      false_imp_iff, implies_true, and_true]
    exact ⟨isConstraining_implies, isConstraining_implies⟩

theorem Function.Decomposes.isLoose {g : Function Expr} {r : Relation} {rhs : Expr}
    {d : Decomposition} (h : g.Decomposes σ r rhs d τ) :
    ∀ e ∈ d.constraining, e.isBool ∧ e.IsLoose := by
  cases h with
  | element as i =>
    intro e he
    change e ∈ Element.encoding as i r rhs at he
    unfold Element.encoding at he
    split at he
    · rw [List.mem_singleton.1 he]
      cases entryAt? as _ with
      | none => exact ⟨rfl, isLoose_bool⟩
      | some a => exact ⟨rfl, isLoose_cmp⟩
    · rcases List.mem_append.1 he with he | he
      · obtain ⟨s, b, rfl⟩ := guards_isCmp he
        exact ⟨rfl, isLoose_cmp⟩
      · obtain ⟨p, -, rfl⟩ := List.mem_map.1 he
        exact ⟨rfl, isLoose_implies⟩
  | absSame | absOpposite | abs | minimum | maximum | count | distinct =>
    intro e he
    rw [List.mem_singleton.1 he]
    exact ⟨rfl, isLoose_cmp⟩

namespace Supported

variable (caps : Capabilities)

/-- What a backend takes in the context. A function that can be undefined is
taken where it has to hold, and elsewhere only when it is supported there. -/
def AcceptedHere (context : Context) : Expr → Prop
  | .constraint c => caps.supports context c.name
  | .function g => caps.supports .top g.name ∧
    (context = .top ∨ ∃ total, g.isTotal = .ok total ∧ (total ∨ caps.supports .nested g.name))
  | .call d => context = .top ∨ caps.supports .nested d.name
  | _ => True

/-- A backend takes the expression and all its arguments in the contexts in
which they occur. The arguments of calls do not count. -/
inductive Accepted : Context → Expr → Prop
  | intro {context : Context} {e : Expr} (here : AcceptedHere caps context e)
    (args : (∀ d, e ≠ .call d) → ∀ a ∈ e.args, Accepted (argContext context a) a) :
    Accepted context e

/-- What examining an expression leaves in its place. In an expression that
has to hold, the parts of a conjunction have to hold on their own. -/
def Finished : Context → Expr → Prop
  | .top, e => ∀ c ∈ e.conjuncts, Accepted caps .top c
  | .nested, e => Accepted caps .nested e

structure Completed (context : Context) (e e' : Expr) : Prop where
  isBool : e'.isBool = e.isBool
  finished : Finished caps context e'
  loose : e.IsLoose → e'.IsLoose

variable {caps} {context : Context} {e e' a b : Expr} {as bs : List Expr}

theorem takes_eq_ok {g : Function Expr} :
    takes caps context g = .ok true ↔ AcceptedHere caps context (.function g) := by
  unfold takes AcceptedHere
  cases hs : caps.supports .top g.name with
  | false => simp [hs, pure, Except.pure]
  | true =>
    by_cases hc : context = .top
    · simp [hs, hc, pure, Except.pure]
    · cases ht : g.isTotal with
      | error e => simp [hs, hc, ht, bind, Except.bind]
      | ok total => simp [hs, hc, ht, bind, Except.bind, pure, Except.pure]

theorem Accepted.here (h : Accepted caps context e) : AcceptedHere caps context e := by
  cases h with
  | intro here _ => exact here

theorem Accepted.arg (h : Accepted caps context e) (hcall : ∀ d, e ≠ .call d) (ha : a ∈ e.args) :
    Accepted caps (argContext context a) a := by
  cases h with
  | intro _ args => exact args hcall a ha

theorem argContext_nested (a : Expr) : argContext .nested a = .nested := ite_self _

theorem accepted_of_isSimple (h : e.isSimple) : Accepted caps context e := by
  refine .intro ?_ fun _ => by simp [Expr.args_of_isSimple h]
  cases e with
  | constraint _ | function _ | call _ => cases h
  | _ => trivial

/-- Only a global constraint can be taken inside another expression and not
where it has to hold. -/
theorem Accepted.top (h : Accepted caps .nested e) (hg : e.isGlobal = false) :
    Accepted caps .top e := by
  induction e using Expr.induction_args with
  | h e ih =>
    refine .intro ?_ fun hcall a ha => ?_
    · cases e with
      | constraint c | call d => cases hg
      | function g => exact ⟨h.here.1, .inl rfl⟩
      | _ => trivial
    · have hnested := h.arg hcall ha
      rw [argContext_nested] at hnested
      unfold argContext
      split
      · exact hnested
      · refine ih a ha hnested ?_
        cases a <;> first | rfl | exact absurd rfl ‹_›

theorem Accepted.conjunct (h : Accepted caps .nested e) : ∀ c ∈ e.conjuncts, Accepted caps .nested c := by
  induction e using Expr.induction_args with
  | h e ih =>
    intro c hc
    by_cases ht : e = .bool true
    · simp [ht] at hc
    · by_cases ha : ∃ as, e = .and as
      · obtain ⟨as, rfl⟩ := ha
        rw [Expr.conjuncts_and, List.mem_flatMap] at hc
        obtain ⟨a, ha, hc⟩ := hc
        have ha' := h.arg (by simp) ha
        rw [argContext_nested] at ha'
        exact ih a ha ha' c hc
      · rwa [(Expr.mem_conjuncts_self ht fun as has => ha ⟨as, has⟩).1 hc]

theorem finished_top_of_nested (h : Accepted caps .nested e) (hl : e.IsLoose) :
    Finished caps .top e := fun c hc => (h.conjunct c hc).top (hl c hc)

theorem Finished.accepted (h : Finished caps context e) (hb : e.isBool = false) :
    Accepted caps context e := by
  cases context with
  | nested => exact h
  | top =>
    refine h e ((Expr.mem_conjuncts_self ?_ ?_).2 rfl)
    · rintro rfl
      cases hb
    · rintro as rfl
      cases hb

theorem finished_of_accepted (h : Accepted caps context e) (ha : ∀ as, e ≠ .and as) :
    Finished caps context e := by
  cases context with
  | nested => exact h
  | top =>
    intro c hc
    by_cases ht : e = .bool true
    · simp [ht] at hc
    · rwa [(Expr.mem_conjuncts_self ht ha).1 hc]

/-- An argument is taken where it occurs in the new expression. -/
theorem Completed.accepted (h : Completed caps (argContext context a) a b) :
    Accepted caps (argContext context b) b := by
  have hcontext : argContext context b = argContext context a := by
    unfold argContext
    rw [h.isBool]
  rw [hcontext]
  by_cases hb : a.isBool
  · have h := h.finished
    rwa [argContext, if_pos hb] at h ⊢
  · exact h.finished.accepted (by rw [h.isBool]; exact Bool.eq_false_of_not_eq_true hb)

theorem accepted_mapped (h : e.Mapped (fun a b => Completed caps (argContext context a) a b) e')
    (here : AcceptedHere caps context e') : Accepted caps context e' := by
  refine .intro here fun _ b hb => ?_
  obtain ⟨a, -, hab⟩ := h.args b hb
  exact hab.accepted

theorem completed_and
    (h : List.Forall₂ (fun a b => Completed caps (argContext context a) a b) as bs)
    (hl : context = .top → (Expr.and as).IsLoose) : Completed caps context (.and as) (.and bs) := by
  have related : ∀ b ∈ bs, ∃ a ∈ as, Completed caps (argContext context a) a b :=
    fun b hb => forall₂_mem_right h hb
  have loose (hl : (Expr.and as).IsLoose) : (Expr.and bs).IsLoose := by
    rw [Expr.isLoose_and] at hl ⊢
    intro b hb
    obtain ⟨a, ha, hab⟩ := related b hb
    exact hab.loose (hl a ha)
  refine ⟨rfl, ?_, loose⟩
  cases context with
  | nested => exact accepted_mapped (.and h) trivial
  | top =>
    intro c hc
    rw [Expr.conjuncts_and, List.mem_flatMap] at hc
    obtain ⟨b, hb, hc⟩ := hc
    obtain ⟨a, ha, hab⟩ := related b hb
    by_cases hba : a.isBool
    · have hnested := hab.finished
      rw [argContext, if_pos hba] at hnested
      exact finished_top_of_nested hnested (Expr.isLoose_and.1 (loose (hl rfl)) b hb) c hc
    · have htop := hab.finished
      rw [argContext, if_neg hba] at htop
      exact htop c hc

theorem completed_of_accepted (h : Accepted caps context e') (hb : e'.isBool = e.isBool)
    (ha : ∀ as, e' ≠ .and as) (hg : e'.isGlobal = e.isGlobal) (hne : ∀ as, e ≠ .and as)
    (ht : e ≠ .bool true) : Completed caps context e e' := by
  refine ⟨hb, finished_of_accepted h ha, fun hl => Expr.isLoose_of_ne ha ?_⟩
  rw [hg]
  exact hl e ((Expr.mem_conjuncts_self ht hne).2 rfl)

theorem completed_mapped (h : e.Mapped (fun a b => Completed caps (argContext context a) a b) e')
    (hg : e.isGlobal = false) (hf : ∀ g, e ≠ .function g)
    (hl : context = .top → (∃ as, e = .and as) → e.IsLoose) : Completed caps context e e' := by
  have hm := h
  cases h with
  | simple hs =>
    exact ⟨rfl, finished_of_accepted (accepted_of_isSimple hs) (by rintro as rfl; cases hs), id⟩
  | and h => exact completed_and h fun hc => hl hc ⟨_, rfl⟩
  | constraint h => cases hg
  | function h => exact absurd rfl (hf _)
  | or h | implies h _ | not h | sum h | wsum h | sub h _ | mul h _ | neg h | cmp _ h _ =>
    exact completed_of_accepted (accepted_mapped hm trivial) rfl (by simp) rfl (by simp) (by simp)

open Defining (Yields)

variable {depth : Nat} {r : Relation}

structure Completes (caps : Capabilities) (depth : Nat) : Prop where
  expr (context : Context) (e : Expr) : (context = .top → (∃ as, e = .and as) → e.IsLoose) →
    (expr caps depth context e).Yields False (fun _ => True) (Completed caps context e)
  comparison (context : Context) (r : Relation) (a b : Expr) :
    (comparison caps depth context r a b).Yields False (fun _ => True)
      (Completed caps context (.cmp r a b))
  parts (context : Context) (d : Decomposition) : (∀ e ∈ d.constraining, e.IsConstraining) →
    (parts caps depth context d).Yields False (fun _ => True) fun e' =>
      e'.isBool ∧ Finished caps context e' ∧ ((∀ e ∈ d.constraining, e.IsLoose) → e'.IsLoose)

theorem Completes.arg (ih : Completes caps depth) (context : Context) (a : Expr) :
    (Supported.expr caps depth (argContext context a) a).Yields False (fun _ => True)
      (Completed caps (argContext context a) a) := by
  refine ih.expr _ a fun hc ha => ?_
  obtain ⟨as, rfl⟩ := ha
  cases hc

theorem finished_all (h : ∀ e ∈ as, Finished caps context e) (hb : ∀ e ∈ as, e.isBool) :
    Finished caps context (.all as) := by
  cases context with
  | top =>
    intro c hc
    obtain ⟨e, he, hc⟩ := Expr.mem_conjuncts_all hc
    exact h e he c hc
  | nested =>
    match as with
    | [] => exact accepted_of_isSimple rfl
    | [e] => exact h e (List.mem_singleton_self e)
    | e :: f :: es =>
      refine .intro trivial fun _ a ha => ?_
      rw [argContext_nested]
      exact h a ha

section

variable (ih : Completes caps depth)

include ih

theorem parts_completes {d : Decomposition} (hd : ∀ e ∈ d.constraining, e.IsConstraining) :
    (parts caps (depth + 1) context d).Yields False (fun _ => True) fun e' =>
      e'.isBool ∧ Finished caps context e' ∧ ((∀ e ∈ d.constraining, e.IsLoose) → e'.IsLoose) := by
  rw [parts]
  refine (Yields.mapM (R := Completed caps context) fun e he =>
    ih.expr context e fun _ => (hd e he).2).bind fun es hes =>
      (Yields.defineAll fun _ _ => trivial).bind fun _ _ => .pure ?_
  have related : ∀ e' ∈ es, ∃ e ∈ d.constraining, Completed caps context e e' :=
    fun e' he' => forall₂_mem_right hes he'
  have hbool : ∀ e' ∈ es, e'.isBool := by
    intro e' he'
    obtain ⟨e, he, h⟩ := related e' he'
    rw [h.isBool]
    exact (hd e he).1
  refine ⟨Expr.isBool_all hbool, finished_all (fun e' he' => ?_) hbool, fun hl => ?_⟩
  · obtain ⟨e, -, h⟩ := related e' he'
    exact h.finished
  · refine Expr.isLoose_all fun e' he' => ?_
    obtain ⟨e, he, h⟩ := related e' he'
    exact h.loose (hl e he)

theorem comparison_completes : (comparison caps (depth + 1) context r a b).Yields False
    (fun _ => True) (Completed caps context (.cmp r a b)) := by
  rw [comparison]
  refine .bind (.checked fun _ _ => trivial) fun found? _ => ?_
  split
  · rename_i g s other
    refine (Yields.function (R := fun a => Completed caps (argContext context a) a)
      fun x _ => ih.arg context x).bind fun g' _ => (ih.arg context other).bind fun other' _ => ?_
    refine .bind (.lift fun σ => (g'.decompose_sat s other').imp fun d τ _ h => h.isLoose) fun d hd => ?_
    have hd' : ∀ e ∈ d.constraining, e.IsConstraining := fun e he => ⟨(hd e he).1, fun _ => (hd e he).2⟩
    refine (ih.parts context d hd').imp fun e' he' => ?_
    exact ⟨he'.1, he'.2.1, fun _ => he'.2.2 fun e he => (hd e he).2⟩
  · refine (ih.arg context a).bind fun a' ha => (ih.arg context b).bind fun b' hb => .pure ?_
    exact completed_mapped (.cmp r ha hb) rfl (by simp) (by simp)

theorem constraint_completes {c : Constraint Expr} : (expr caps (depth + 1) context (.constraint c)).Yields
    False (fun _ => True) (Completed caps context (.constraint c)) := by
  have hglobal {e' : Expr} : (Expr.constraint c).IsLoose → e'.IsLoose := by
    intro hl
    have := hl (.constraint c) ((Expr.mem_conjuncts_self (by simp) (by simp)).2 rfl)
    cases this
  rw [expr]
  refine (Yields.constraint (R := fun a => Completed caps (argContext context a) a)
    fun x _ => ih.arg context x).bind fun c' hc' => ?_
  split
  · rename_i hs
    exact .pure ⟨rfl, finished_of_accepted (accepted_mapped (.constraint hc') hs) (by simp), hglobal⟩
  · refine .bind (.lift fun σ => c'.decompose_sat.imp fun d τ _ h => h.isConstraining) fun d hd => ?_
    exact (ih.parts context d hd).imp fun e' he' => ⟨he'.1, he'.2.1, hglobal⟩

theorem function_completes {g : Function Expr} : (expr caps (depth + 1) context (.function g)).Yields
    False (fun _ => True) (Completed caps context (.function g)) := by
  rw [expr]
  refine (Yields.function (R := fun a => Completed caps (argContext context a) a)
    fun x _ => ih.arg context x).bind fun g' hg' => ?_
  refine .bind (.checked fun _ h => h) fun kept hkept => ?_
  split
  · rename_i hk
    rw [hk, takes_eq_ok] at hkept
    exact .pure (completed_of_accepted (accepted_mapped (.function hg') hkept) rfl (by simp) rfl
      (by simp) (by simp))
  · refine .bind (.checked fun _ _ => trivial) fun b _ => .bind (.lift (.freshInt b)) fun x hx => ?_
    obtain ⟨x, rfl, hx⟩ := hx
    refine .bind (.lift fun σ => (g'.decompose_sat .eq (.var x)).imp fun _ _ _ _ => trivial)
      fun d _ => .bind (.defineAll fun _ _ => trivial) fun _ _ => .pure ?_
    exact completed_of_accepted (accepted_of_isSimple rfl) (Bool.eq_false_of_not_eq_true hx) (by simp)
      rfl (by simp) (by simp)

theorem expr_completes (hl : context = .top → (∃ as, e = .and as) → e.IsLoose) :
    (expr caps (depth + 1) context e).Yields False (fun _ => True) (Completed caps context e) := by
  have args (hcall : ∀ d, e ≠ .call d) (hg : e.isGlobal = false) (hf : ∀ g, e ≠ .function g) :
      (e.mapArgsM fun a => expr caps depth (argContext context a) a).Yields False (fun _ => True)
        (Completed caps context e) :=
    ((Defining.yields False fun _ => True).mapArgsM (i := ())
      (R := fun _ a => Completed caps (argContext context a) a) (fun _ _ _ _ _ h => h) hcall
      fun a _ _ _ => ih.arg context a).imp fun e' h => completed_mapped h hg hf hl
  cases e with
  | bool _ | int _ | var _ | negVar _ =>
    rw [expr]
    exact .pure (completed_mapped (.simple rfl) rfl (by simp) (by simp))
  | cmp r a b => rw [expr]; exact ih.comparison context r a b
  | constraint c => exact constraint_completes ih
  | function g => exact function_completes ih
  | call d =>
    rw [expr]
    split
    · rename_i h
      refine .pure ⟨rfl, finished_of_accepted (.intro ?_ fun h => absurd rfl (h d)) (by simp), id⟩
      simpa [AcceptedHere] using h
    · exact .throw False.elim
  | _ => rw [expr] <;> first | exact args (by simp) rfl (by simp) | simp

end

theorem completes (caps : Capabilities) (depth : Nat) : Completes caps depth := by
  induction depth with
  | zero =>
    refine ⟨fun context e _ => ?_, fun context r a b => ?_, fun context d _ => ?_⟩
    · rw [expr]
      exact .throw False.elim
    · rw [comparison]
      exact .throw False.elim
    · rw [parts]
      exact .throw False.elim
  | succ depth ih =>
    exact ⟨fun _ _ h => expr_completes ih h, fun _ _ _ _ => comparison_completes ih,
      fun _ _ h => parts_completes ih h⟩

/-- What is left after all rounds is taken by the backend. -/
theorem examine_accepted {n : Nat} {cs : List Expr} : (examine caps n cs).Yields False fun es =>
    ∀ e ∈ es, Accepted caps .top e ∧ e.conjuncts = [e] := by
  induction n generalizing cs with
  | zero =>
    cases cs with
    | nil => exact .pure (by simp)
    | cons c cs => exact .throw False.elim
  | succ n ih =>
    cases cs with
    | nil => exact .pure (by simp)
    | cons c cs =>
      rw [examine] <;> try simp
      refine .bind (Yields.collect (P := fun _ => True) (Yields.forall_mapM (Q := fun es =>
        ∀ e ∈ es, Accepted caps .top e ∧ e.conjuncts = [e]) fun e he => ?_)) fun found hfound =>
          .bind ih fun rest hrest => .pure ?_
      · obtain ⟨c, -, he⟩ := List.mem_flatMap.1 he
        refine ((completes caps _).expr .top e fun _ has => ?_).bind fun e' he' => .pure fun c hc => ?_
        · obtain ⟨as, rfl⟩ := has
          exact absurd rfl ((Expr.ne_of_mem_conjuncts he).2 as)
        · exact ⟨he'.finished c hc, Expr.conjuncts_of_mem hc⟩
      · intro e he
        rcases List.mem_append.1 he with he | he
        · obtain ⟨es, hes, he⟩ := List.mem_flatten.1 he
          exact hfound.1 es hes e he
        · exact hrest e he

def still : Calculus Defining Unit where
  le _ _ := True
  sat x _ Q := ∃ a, x = pure a ∧ Q a ()
  refl _ := trivial
  trans _ _ := trivial
  pure h := ⟨_, rfl, h⟩
  bind := by
    rintro α β x f i Q R ⟨a, rfl, ha⟩ hf
    obtain ⟨b, hb, h⟩ := hf a () trivial ha
    exact ⟨b, by rw [pure_bind, hb], h⟩
  imp := by
    rintro α x i Q R ⟨a, rfl, ha⟩ h
    exact ⟨a, rfl, h a () trivial ha⟩

theorem still_checked {α : Type} (a : α) : (liftM (Except.ok a : Checked α) : Defining α) = pure a := rfl

section

variable {f : Expr → Defining Expr}

theorem constraint_still {c : Constraint Expr} (h : ∀ a ∈ c.args, f a = pure a) :
    c.mapM f = pure c := by
  obtain ⟨d, hd, hc⟩ := still.constraint_mapM (i := ()) (R := fun _ => Eq) (fun _ _ _ _ _ h => h)
    fun a ha _ _ => ⟨a, h a ha, rfl⟩
  rw [hd, Constraint.eq_of_map_eq hc.shape (List.forall₂_eq_eq_eq ▸ hc.args)]

theorem function_still {g : Function Expr} (h : ∀ a ∈ g.args, f a = pure a) : g.mapM f = pure g := by
  obtain ⟨k, hk, hg⟩ := still.function_mapM (i := ()) (R := fun _ => Eq) (fun _ _ _ _ _ h => h)
    fun a ha _ _ => ⟨a, h a ha, rfl⟩
  rw [hk, Function.eq_of_map_eq hg.shape (List.forall₂_eq_eq_eq ▸ hg.args)]

/-- An expression built from the same arguments is the same. -/
theorem eq_of_mapped (h : e.Mapped Eq e') : e' = e := by
  cases h with
  | simple => rfl
  | and h | or h | sum h => rw [List.forall₂_eq_eq_eq] at h; rw [h]
  | implies h₁ h₂ | sub h₁ h₂ | mul h₁ h₂ | cmp _ h₁ h₂ => rw [h₁, h₂]
  | not h | neg h => rw [h]
  | constraint h => rw [Constraint.eq_of_map_eq h.shape (List.forall₂_eq_eq_eq ▸ h.args)]
  | function h => rw [Function.eq_of_map_eq h.shape (List.forall₂_eq_eq_eq ▸ h.args)]
  | @wsum ts us h =>
    have : List.Forall₂ Eq ts us := h.imp fun t u h => Prod.ext h.1.symm h.2
    rw [List.forall₂_eq_eq_eq] at this
    rw [this]

theorem mapArgsM_still (hcall : ∀ d, e ≠ .call d) (h : ∀ a ∈ e.args, f a = pure a) :
    e.mapArgsM f = pure e := by
  obtain ⟨e', he', hm⟩ := still.mapArgsM (i := ()) (R := fun _ => Eq) (fun _ _ _ _ _ h => h) hcall
    fun a ha _ _ => ⟨a, h a ha, rfl⟩
  rw [he', eq_of_mapped hm]

end

theorem Accepted.untaken? (h : Accepted caps context a) : untaken? caps context a = .ok none := by
  cases a with
  | function g =>
    have h : takes caps context g = .ok true := takes_eq_ok.2 h.here
    simp [Supported.untaken?, h, bind, Except.bind, pure, Except.pure]
  | _ => rfl

/-- An argument is a function only where the expression around it occurs. -/
theorem Accepted.untaken?_arg (h : Accepted caps (argContext context a) a) :
    Supported.untaken? caps context a = .ok none := by
  cases a with
  | function g => exact Accepted.untaken? (a := .function g) h
  | _ => rfl

theorem untakenSide?_eq_none (ha : Accepted caps (argContext context a) a)
    (hb : Accepted caps (argContext context b) b) : untakenSide? caps context r a b = .ok none := by
  unfold untakenSide?
  rw [ha.untaken?_arg, hb.untaken?_arg]
  rfl

/-- Examining what the backend takes changes nothing. -/
theorem Accepted.expr_eq (h : Accepted caps context e) (hdepth : 2 * e.nesting 1 + 2 ≤ depth) :
    expr caps depth context e = pure e := by
  induction e using Expr.induction_args generalizing context depth with
  | h e ih =>
    obtain ⟨depth, rfl⟩ : ∃ n, depth = n + 1 := ⟨depth - 1, by omega⟩
    have arg (hcall : ∀ d, e ≠ .call d) {n : Nat} (hn : 2 * e.nesting 1 ≤ n) :
        ∀ a ∈ e.args, expr caps n (argContext context a) a = pure a := by
      intro a ha
      have := Expr.nesting_arg_add (k := 1) ha hcall
      exact ih a ha (h.arg hcall ha) (by omega)
    cases e with
    | bool _ | int _ | var _ | negVar _ => rw [expr]
    | cmp r a b =>
      obtain ⟨depth, rfl⟩ : ∃ n, depth = n + 1 := ⟨depth - 1, by omega⟩
      have hside := untakenSide?_eq_none (r := r) (h.arg (a := a) (by simp) (by simp [Expr.args]))
        (h.arg (a := b) (by simp) (by simp [Expr.args]))
      have arg := arg (by simp) (n := depth) (by omega)
      rw [expr, comparison, hside, still_checked, pure_bind]
      simp only [arg a (by simp [Expr.args]), arg b (by simp [Expr.args]), pure_bind]
    | constraint c =>
      rw [expr, constraint_still (arg (by simp) (by omega)), pure_bind]
      exact if_pos h.here
    | function g =>
      rw [expr, function_still (arg (by simp) (by omega)), pure_bind, takes_eq_ok.2 h.here,
        still_checked, pure_bind, if_pos rfl]
    | call d =>
      rw [expr, if_pos]
      simpa [AcceptedHere] using h.here
    | _ =>
      rw [expr] <;> first | exact mapArgsM_still (by simp) (arg (by simp) (by omega)) | simp

theorem examine_nil (n : Nat) : examine caps n [] = pure [] := by cases n <;> rw [examine]

/-- One round finds nothing to replace in what the backend takes. -/
theorem examine_eq {n : Nat} (hn : 0 < n) (h : ∀ e ∈ as, Accepted caps .top e ∧ e.conjuncts = [e]) :
    examine caps n as = pure as := by
  obtain ⟨n, rfl⟩ := Nat.exists_eq_add_of_lt hn
  have htop : topLevel as = as := by
    rw [topLevel, List.flatMap_congr fun e he => (h e he).2, List.flatMap_singleton']
  let f (e : Expr) : Defining (List Expr) := do return (← expr caps (depth e) .top e).conjuncts
  have hround : ∃ ess, as.mapM f = pure ess ∧ List.Forall₂ (fun e es => es = [e]) as ess :=
    still.mapM (i := ()) (R := fun _ e es => es = [e]) (fun _ _ _ _ _ h => h) fun e he _ _ => by
      refine ⟨[e], ?_, rfl⟩
      simp only [f]
      rw [(h e he).1.expr_eq (by unfold depth; omega), pure_bind, (h e he).2]
  obtain ⟨ess, hess, hparts⟩ := hround
  have hflatten : ess.flatten = as := by
    clear htop hess h
    induction hparts with
    | nil => rfl
    | cons h _ ih => rw [List.flatten_cons, h, ih]; rfl
  have hcollect : (pure ess : Defining (List (List Expr))).collect = pure (ess, []) := rfl
  cases as with
  | nil => exact examine_nil _
  | cons e es =>
    rw [examine, htop, hess, hcollect, pure_bind]
    · dsimp only
      rw [examine_nil, pure_bind, hflatten, List.append_nil]
    · simp

end Supported

/-- What is left of constraints is taken by the backend, so that replacing
again what it does not take changes nothing and creates no variable. -/
theorem decomposeTree_fixpoint {caps : Capabilities} {constraints out : List Expr} {σ τ : Store}
    (h : decomposeTree caps constraints σ = .ok out τ) :
    (∀ e ∈ out, Supported.Accepted caps .top e) ∧ ∀ υ, decomposeTree caps out υ = .ok out υ := by
  have hout := ((Supported.examine_accepted σ).ok h).2
  refine ⟨fun e he => (hout e he).1, fun υ => ?_⟩
  have hagain : decomposeTree caps out = pure out := Supported.examine_eq (Nat.succ_pos _) hout
  rw [hagain]
  rfl

def distinctMagnitudes : List Expr :=
  let x := Expr.var ⟨0, ⟨0, 1⟩, .int⟩
  let y := Expr.var ⟨1, ⟨0, 1⟩, .int⟩
  [.allDifferent [x, .abs y], .not (.allDifferent [x, y])]

theorem decomposeTree_distinctMagnitudes : ∃ out τ,
    decomposeTree ⟨["alldifferent"], [], []⟩ distinctMagnitudes .empty = .ok out τ ∧ out.length = 3 ∧
      (∀ e ∈ out, Supported.Accepted ⟨["alldifferent"], [], []⟩ .top e) ∧
        ∀ υ, decomposeTree ⟨["alldifferent"], [], []⟩ out υ = .ok out υ := by
  have hrun : ∃ out τ, (decomposeTree ⟨["alldifferent"], [], []⟩ distinctMagnitudes).run .empty =
      .ok out τ ∧ out.length = 3 := ⟨_, _, by cbv, rfl⟩
  obtain ⟨out, τ, hrun, hlength⟩ := hrun
  exact ⟨out, τ, hrun, hlength, decomposeTree_fixpoint hrun⟩

end ConstraintModel
