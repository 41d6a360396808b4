import ConstraintModel.Expr.Negation
import ConstraintModel.Proofs.Scope

namespace ConstraintModel

inductive Expr.Everywhere (p : Expr → Prop) : Expr → Prop
  | intro {e : Expr} (here : p e) (args : ∀ a ∈ e.args, Everywhere p a) : Everywhere p e

namespace Expr

variable {p q : Expr → Prop} {e a : Expr}

theorem Everywhere.here (h : e.Everywhere p) : p e := by
  cases h with
  | intro here _ => exact here

theorem Everywhere.arg (h : e.Everywhere p) (ha : a ∈ e.args) : a.Everywhere p := by
  cases h with
  | intro _ args => exact args a ha

theorem Everywhere.and (h : e.Everywhere p) (h' : e.Everywhere q) :
    e.Everywhere fun e => p e ∧ q e := by
  induction h with
  | intro here _ ih => exact .intro ⟨here, h'.here⟩ fun a ha => ih a ha (h'.arg ha)

theorem Everywhere.imp (h : e.Everywhere p) (hpq : ∀ e, p e → q e) : e.Everywhere q := by
  induction h with
  | intro here _ ih => exact .intro (hpq _ here) ih

theorem everywhere_iff : e.Everywhere p ↔ p e ∧ ∀ a ∈ e.args, a.Everywhere p :=
  ⟨fun h => ⟨h.here, fun _ ha => h.arg ha⟩, fun h => .intro h.1 h.2⟩

@[simp] theorem everywhere_int {n : Int} : (int n).Everywhere p ↔ p (int n) := by
  simp [everywhere_iff (e := int n), args]

@[simp] theorem everywhere_var {x : Variable} : (var x).Everywhere p ↔ p (var x) := by
  simp [everywhere_iff (e := var x), args]

@[simp] theorem everywhere_not : (not a).Everywhere p ↔ p (not a) ∧ a.Everywhere p := by
  simp [everywhere_iff (e := not a), args]

@[simp] theorem everywhere_or {as : List Expr} :
    (or as).Everywhere p ↔ p (or as) ∧ ∀ a ∈ as, a.Everywhere p :=
  everywhere_iff

@[simp] theorem everywhere_cmp {r : Relation} {b : Expr} :
    (cmp r a b).Everywhere p ↔ p (cmp r a b) ∧ a.Everywhere p ∧ b.Everywhere p := by
  simp [everywhere_iff (e := cmp r a b), args]

@[simp] theorem everywhere_constraint {c : Constraint Expr} :
    (constraint c).Everywhere p ↔ p (constraint c) ∧ ∀ a ∈ c.args, a.Everywhere p :=
  everywhere_iff

@[simp] theorem everywhere_function {g : Function Expr} :
    (function g).Everywhere p ↔ p (function g) ∧ ∀ a ∈ g.args, a.Everywhere p :=
  everywhere_iff

@[simp] theorem everywhere_sum {as : List Expr} :
    (sum as).Everywhere p ↔ p (sum as) ∧ ∀ a ∈ as, a.Everywhere p :=
  everywhere_iff

@[simp] theorem everywhere_mul {b : Expr} :
    (mul a b).Everywhere p ↔ p (mul a b) ∧ a.Everywhere p ∧ b.Everywhere p := by
  simp [everywhere_iff (e := mul a b), args]

end Expr

def Constraint.rebuild : Constraint Expr → Build Expr
  | allDifferent as => return .allDifferent as
  | allDifferentExceptZero as => return .allDifferentExceptZero as
  | allEqual as => return .allEqual as
  | monotone order as => return .monotone order as
  | circuit succ => Expr.circuit succ
  | subcircuit succ => Expr.subcircuit succ
  | subcircuitThrough succ start => Expr.subcircuitThrough succ start
  | inverse fs bs => Expr.inverse fs bs
  | cumulative ss ds es rs capacity => Expr.cumulative ss ds es rs capacity
  | cardinality xs vs ns => Expr.cardinality xs vs ns
  | table xs rows => Expr.table xs rows
  | memberOfSet a set => return .memberOfSet a set
  | memberOfList a vs => Expr.memberOf a vs
  | xor as => Expr.xor as
  | ifThenElse c t e => Expr.ifThenElse c t e

def Function.rebuild : Function Expr → Build Expr
  | abs a => return .abs a
  | minimum as => Expr.minimum as
  | maximum as => Expr.maximum as
  | count as v => return .count as v
  | distinct as => return .distinct as
  | element as i => return .element as i

def Constraint.Formed : Constraint Expr → Prop
  | circuit succ | subcircuit succ => 2 ≤ succ.length
  | subcircuitThrough succ start => 2 ≤ succ.length ∧ start < succ.length
  | cumulative ss ds es rs _ =>
    ss.length = ds.length ∧ ss.length = es.length ∧ ss.length = rs.length
  | table xs rows => ∀ row ∈ rows, row.length = xs.length
  | xor as => ∀ a ∈ as, a.isBool
  | ifThenElse c t e => c.isBool ∧ t.isBool ∧ e.isBool
  | _ => True

def Function.Formed : Function Expr → Prop
  | minimum as | maximum as => as ≠ []
  | _ => True

section Related

variable {R : Expr → Expr → Prop} (hR : ∀ a b, R a b → a.isBool → b.isBool)

theorem length_eq_of_unit {α β : Type} {as : List α} {bs : List β}
    (h : as.map (fun _ => ()) = bs.map fun _ => ()) : as.length = bs.length := by
  simpa using congrArg List.length h

include hR in
theorem Constraint.Related.formed {c d : Constraint Expr} (h : c.Related R d) (hc : c.Formed) :
    d.Formed := by
  obtain ⟨hshape, hargs⟩ := h
  cases c <;> cases d <;> simp only [map, reduceCtorEq, circuit.injEq, subcircuit.injEq,
    subcircuitThrough.injEq, cumulative.injEq, table.injEq, xor.injEq] at hshape <;> try trivial
  case circuit.circuit as bs | subcircuit.subcircuit as bs =>
    exact hc.trans_eq (length_eq_of_unit hshape)
  case subcircuitThrough.subcircuitThrough as s bs s' =>
    obtain ⟨hlength, rfl⟩ := hshape
    rw [Formed, ← length_eq_of_unit hlength]
    exact hc
  case cumulative.cumulative =>
    obtain ⟨hs, hd, he, hr, -⟩ := hshape
    rw [Formed, ← length_eq_of_unit hs, ← length_eq_of_unit hd, ← length_eq_of_unit he,
      ← length_eq_of_unit hr]
    exact hc
  case table.table as rows bs rows' =>
    obtain ⟨hlength, rfl⟩ := hshape
    rw [Formed, ← length_eq_of_unit hlength]
    exact hc
  case xor.xor as bs =>
    intro b hb
    obtain ⟨a, ha, hab⟩ := forall₂_mem_right hargs hb
    exact hR a b hab (hc a ha)
  case ifThenElse.ifThenElse =>
    simp only [Constraint.args, List.forall₂_cons] at hargs
    exact ⟨hR _ _ hargs.1 hc.1, hR _ _ hargs.2.1 hc.2.1, hR _ _ hargs.2.2.1 hc.2.2⟩

theorem Function.Related.formed {g h : Function Expr} (hgh : g.Related R h) (hg : g.Formed) :
    h.Formed := by
  obtain ⟨hshape, hargs⟩ := hgh
  cases g <;> cases h <;> simp only [map, reduceCtorEq] at hshape <;> try trivial
  all_goals
    rintro rfl
    rw [Function.args, Function.args, List.forall₂_nil_right_iff] at hargs
    exact hg hargs

end Related

theorem Build.bind_eq_ok {α β : Type} {a : Build α} {f : α → Build β} {b : β} :
    a >>= f = .ok b ↔ ∃ x, a = .ok x ∧ f x = .ok b := by
  cases a with
  | error e => simp [bind, Except.bind]
  | ok x => simp [bind, Except.bind]

theorem checkBoolean_eq_ok {name : String} {args : List Expr} {u : Unit} :
    checkBoolean name args = .ok u ↔ ∀ a ∈ args, a.isBool := by
  unfold checkBoolean
  cases h : args.find? fun a => !a.isBool with
  | none => simpa using h
  | some a =>
    have hm := List.mem_of_find?_eq_some h
    have ha := List.find?_some h
    simp only [reduceCtorEq, false_iff]
    intro hall
    rw [hall a hm] at ha
    cases ha

theorem checkCount_eq_ok {name : String} {least found : Nat} {u : Unit} :
    checkCount name least found = .ok u ↔ least ≤ found := by
  unfold checkCount
  split <;> simp_all

theorem checkLength_eq_ok {name : String} {expected found : Nat} {u : Unit} :
    checkLength name expected found = .ok u ↔ expected = found := by
  unfold checkLength
  split <;> simp_all

theorem checkSuccessors_eq_ok {name : String} {succ : List Expr} {u : Unit}
    (h : Expr.checkSuccessors name succ = .ok u) : 2 ≤ succ.length := by
  obtain ⟨_, -, h⟩ := Build.bind_eq_ok.1 h
  exact checkCount_eq_ok.1 h

theorem checkDuration_eq_ok {name : String} {d : Expr} {u : Unit}
    (h : checkDuration name d = .ok u) : ∃ b, d.bounds = .ok b ∧ 0 ≤ b.lower := by
  unfold checkDuration at h
  cases hb : d.bounds with
  | error e => rw [hb] at h; cases h
  | ok b =>
    refine ⟨b, rfl, ?_⟩
    by_contra hlt
    rw [hb] at h
    have : b.lower < 0 := by omega
    simp only [monadLift, MonadLift.monadLift, liftM, bind, Except.bind, if_pos this] at h
    cases h

theorem Build.of_forM {α : Type} {f : α → Build Unit} {as : List α} {u : Unit}
    (h : as.forM f = .ok u) : ∀ a ∈ as, f a = .ok () := by
  induction as with
  | nil => simp
  | cons a as ih =>
    obtain ⟨_, ha, h⟩ := Build.bind_eq_ok.1 h
    rw [List.forall_mem_cons]
    exact ⟨ha, ih h⟩

/-- A single demand stands for the demands of all tasks. -/
theorem Expr.cumulative_eq_ok {ss ds es rs : List Expr} {capacity e : Expr}
    (h : Expr.cumulative ss ds es rs capacity = .ok e) : ∃ rs',
      e = constraint (.cumulative ss ds es rs' capacity) ∧ Expr.cumulative ss ds es rs' capacity = .ok e ∧
      (ss.length = ds.length ∧ ss.length = es.length ∧ ss.length = rs'.length) ∧ ∀ d ∈ ds, 0 ≤ d.range.lower := by
  have hself := h
  obtain ⟨_, hd, h⟩ := Build.bind_eq_ok.1 h
  obtain ⟨_, he, h⟩ := Build.bind_eq_ok.1 h
  obtain ⟨_, hr, h⟩ := Build.bind_eq_ok.1 h
  obtain ⟨_, hdurations, h⟩ := Build.bind_eq_ok.1 h
  cases h
  refine ⟨_, rfl, ?_, ⟨checkLength_eq_ok.1 hd, checkLength_eq_ok.1 he, checkLength_eq_ok.1 hr⟩, fun d hd => ?_⟩
  · match rs, ss with
    | [], _ | _ :: _ :: _, _ | [_], [] | [_], [_] | [_], _ :: _ :: _ => exact hself
  · obtain ⟨b, hb, hle⟩ := checkDuration_eq_ok (Build.of_forM hdurations d hd)
    rwa [← d.range_of_bounds b hb]

theorem Constraint.formed_of_rebuild {c : Constraint Expr}
    (h : c.rebuild = .ok (.constraint c)) : c.Formed := by
  cases c with
  | circuit succ | subcircuit succ =>
    obtain ⟨_, h, -⟩ := Build.bind_eq_ok.1 h
    exact checkSuccessors_eq_ok h
  | subcircuitThrough succ start =>
    obtain ⟨_, hc, h⟩ := Build.bind_eq_ok.1 h
    refine ⟨checkSuccessors_eq_ok hc, ?_⟩
    by_contra hs
    rw [if_neg hs] at h
    cases h
  | cumulative ss ds es rs capacity =>
    obtain ⟨_, heq, -, hlengths, -⟩ := Expr.cumulative_eq_ok h
    cases heq
    exact hlengths
  | table xs rows =>
    change Expr.table xs rows = _ at h
    unfold Expr.table at h
    cases hf : rows.find? fun row => row.length != xs.length with
    | none => simpa [Formed] using hf
    | some row => rw [hf] at h; cases h
  | xor as =>
    obtain ⟨_, h, -⟩ := Build.bind_eq_ok.1 h
    exact checkBoolean_eq_ok.1 h
  | ifThenElse c t e =>
    obtain ⟨_, h, -⟩ := Build.bind_eq_ok.1 h
    simpa [Formed] using checkBoolean_eq_ok.1 h
  | allDifferent _ | allDifferentExceptZero _ | allEqual _ | monotone _ _ | inverse _ _
  | cardinality _ _ _ | memberOfSet _ _ | memberOfList _ _ => trivial

theorem Function.formed_of_rebuild {g : Function Expr}
    (h : g.rebuild = .ok (.function g)) : g.Formed := by
  cases g with
  | minimum as | maximum as =>
    obtain ⟨_, h, -⟩ := Build.bind_eq_ok.1 h
    obtain ⟨_, -, h⟩ := Build.bind_eq_ok.1 h
    exact List.ne_nil_of_length_pos (checkCount_eq_ok.1 h)
  | abs _ | count _ _ | distinct _ | element _ _ => trivial

theorem Constraint.durations_of_rebuild {ss ds es rs : List Expr} {capacity : Expr}
    (h : (cumulative ss ds es rs capacity).rebuild = .ok (.constraint (.cumulative ss ds es rs capacity))) :
    ∀ d ∈ ds, 0 ≤ d.range.lower := by
  obtain ⟨_, -, -, -, hdurations⟩ := Expr.cumulative_eq_ok h
  exact hdurations

/-- Making a constraint from the parts of one that has been made gives the same
constraint. -/
theorem Constraint.built_of_rebuild {c d : Constraint Expr} (h : c.rebuild = .ok (.constraint d)) :
    d.rebuild = .ok (.constraint d) := by
  have same (he : c.rebuild = .ok (.constraint c)) : d.rebuild = .ok (.constraint d) := by
    rw [he] at h
    cases h
    exact he
  cases c with
  | allDifferent _ | allDifferentExceptZero _ | allEqual _ | monotone _ _ | memberOfSet _ _ => exact same rfl
  | circuit succ | subcircuit succ | ifThenElse _ _ _ =>
    obtain ⟨_, -, hmade⟩ := Build.bind_eq_ok.1 h
    cases hmade
    exact h
  | subcircuitThrough succ start =>
    obtain ⟨_, -, hmade⟩ := Build.bind_eq_ok.1 h
    by_cases hs : start < succ.length
    · rw [if_pos hs] at hmade
      cases hmade
      exact h
    · rw [if_neg hs] at hmade
      cases hmade
  | inverse _ _ =>
    obtain ⟨_, -, hmade⟩ := Build.bind_eq_ok.1 h
    obtain ⟨_, -, hmade⟩ := Build.bind_eq_ok.1 hmade
    obtain ⟨_, -, hmade⟩ := Build.bind_eq_ok.1 hmade
    cases hmade
    exact h
  | cumulative ss ds es rs capacity =>
    obtain ⟨rs', heq, hself, -⟩ := Expr.cumulative_eq_ok h
    cases heq
    exact hself
  | cardinality _ _ _ =>
    obtain ⟨_, -, hmade⟩ := Build.bind_eq_ok.1 h
    obtain ⟨_, -, hmade⟩ := Build.bind_eq_ok.1 hmade
    obtain ⟨_, -, hmade⟩ := Build.bind_eq_ok.1 hmade
    obtain ⟨_, -, hmade⟩ := Build.bind_eq_ok.1 hmade
    cases hmade
    exact h
  | table xs rows =>
    have hmade := h
    change Expr.table xs rows = _ at hmade
    unfold Expr.table at hmade
    cases hf : rows.find? fun row => row.length != xs.length with
    | none =>
      rw [hf] at hmade
      cases hmade
      exact h
    | some row => rw [hf] at hmade; cases hmade
  | memberOfList a vs =>
    have hmade : (liftM (Expr.memberOf a vs) : Build Expr) = .ok (.constraint d) := h
    unfold Expr.memberOf at hmade
    cases hv : vs.mapM Expr.constant? with
    | none =>
      rw [hv] at hmade
      cases hmade
      exact h
    | some ns =>
      rw [hv] at hmade
      cases hset : IntervalSet.ofValues ns with
      | error e => simp only [hset] at hmade; cases hmade
      | ok set => simp only [hset] at hmade; cases hmade; rfl
  | xor as =>
    obtain ⟨_, hbool, hmade⟩ := Build.bind_eq_ok.1 h
    match as with
    | [] | [_] | _ :: _ :: _ :: _ => cases hmade; exact h
    | [a, b] =>
      dsimp only at hmade
      by_cases hswap : (b.isConstant && !a.isConstant) = true
      · rw [if_pos hswap] at hmade
        cases hmade
        have hkeep : ¬(a.isConstant && !b.isConstant) = true := by
          simp only [Bool.and_eq_true, Bool.not_eq_true'] at hswap
          simp [hswap.2]
        have hbool' : checkBoolean "xor" [b, a] = .ok () :=
          checkBoolean_eq_ok.2 (by simpa [and_comm] using checkBoolean_eq_ok.1 hbool)
        exact Build.bind_eq_ok.2 ⟨(), hbool', if_neg hkeep⟩
      · rw [if_neg hswap] at hmade
        cases hmade
        exact h

namespace Expr

/-- The parts of connectives are Boolean, and negated views are views of
Boolean variables. -/
def OperandsBoolean : Expr → Prop
  | negVar x => x.isBool
  | and as | or as => ∀ a ∈ as, a.isBool
  | implies a b => a.isBool ∧ b.isBool
  | not a => a.isBool
  | _ => True

/-- A global constraint or function is as its builder makes it. -/
def Built : Expr → Prop
  | constraint c => c.rebuild = .ok (constraint c)
  | function g => g.rebuild = .ok (function g)
  | _ => True

structure WellTyped (e : Expr) : Prop where
  isBool : e.isBool
  operands : e.Everywhere OperandsBoolean
  built : e.Everywhere Built

structure WellTypedIn (σ : Store) (e : Expr) : Prop extends e.WellTyped where
  scope : ∀ x ∈ e.vars, σ.Has x

def CallFree (e : Expr) : Prop := e.Everywhere fun a => ∀ d, a ≠ call d

structure FullyDefined (e : Expr) : Prop where
  callFree : e.CallFree
  functions : e.Everywhere fun a => ∀ g, a = function g → g.isTotal = .ok true

def TypedHere : Expr → Prop
  | constraint c => c.Formed
  | function g => g.Formed
  | call _ => False
  | e => e.OperandsBoolean

def Typed (e : Expr) : Prop := e.Everywhere TypedHere

theorem typedHere_of {e : Expr} (ho : e.OperandsBoolean) (hb : e.Built) (hc : ∀ d, e ≠ call d) :
    e.TypedHere := by
  cases e with
  | constraint c => exact Constraint.formed_of_rebuild hb
  | function g => exact Function.formed_of_rebuild hb
  | call d => exact hc d rfl
  | _ => exact ho

theorem WellTyped.typed {e : Expr} (h : e.WellTyped) (hc : e.CallFree) : e.Typed :=
  ((h.operands.and h.built).and hc).imp fun _ h => typedHere_of h.1.1 h.1.2 h.2

/-- An expression with parts of the right types, all of whose variables have
the property. -/
structure Proper (V : Variable → Prop) (e : Expr) : Prop where
  typed : e.Typed
  scope : ∀ x ∈ e.occurrences, V x

section Proper

variable {V W : Variable → Prop} {e a b : Expr} {as : List Expr} {x : Variable}

theorem args_of_isSimple (h : e.isSimple) : e.args = [] := by
  cases e <;> first | rfl | cases h

theorem ne_var_of_isSimple (h : e.isSimple = false) : ∀ x, e ≠ var x ∧ e ≠ negVar x := by
  intro x
  constructor <;> rintro rfl <;> cases h

theorem Proper.arg (h : e.Proper V) (ha : a ∈ e.args) : a.Proper V :=
  ⟨h.typed.arg ha, fun x hx => h.scope x (mem_occurrences_of_arg ha hx)⟩

theorem Proper.imp (h : e.Proper V) (hVW : ∀ x, V x → W x) : e.Proper W :=
  ⟨h.typed, fun x hx => hVW x (h.scope x hx)⟩

theorem Typed.proper (h : e.Typed) : e.Proper fun _ => True := ⟨h, fun _ _ => trivial⟩

theorem proper_iff (he : ∀ x, e ≠ var x ∧ e ≠ negVar x) :
    e.Proper V ↔ e.TypedHere ∧ ∀ a ∈ e.args, a.Proper V := by
  constructor
  · exact fun h => ⟨h.typed.here, fun a ha => h.arg ha⟩
  · rintro ⟨here, h⟩
    refine ⟨.intro here fun a ha => (h a ha).typed, fun x hx => ?_⟩
    rw [occurrences_eq he] at hx
    obtain ⟨a, ha, hx⟩ := List.mem_flatMap.1 hx
    exact (h a ha).scope x hx

theorem proper_iff_args (he : ∀ x, e ≠ var x ∧ e ≠ negVar x) (ht : e.TypedHere) :
    e.Proper V ↔ ∀ a ∈ e.args, a.Proper V := (proper_iff he).trans (and_iff_right ht)

@[simp] theorem proper_bool {b : Bool} : (bool b).Proper V :=
  (proper_iff_args (by simp) (by trivial)).2 nofun

@[simp] theorem proper_int {n : Int} : (int n).Proper V :=
  (proper_iff_args (by simp) (by trivial)).2 nofun

@[simp] theorem proper_var : (var x).Proper V ↔ V x := by
  constructor
  · exact fun h => h.scope x (by simp [occurrences_var])
  · intro h
    refine ⟨.intro trivial (by simp [args]), fun y hy => ?_⟩
    rw [occurrences_var, List.mem_singleton] at hy
    rwa [hy]

@[simp] theorem proper_negVar : (negVar x).Proper V ↔ x.isBool ∧ V x := by
  constructor
  · exact fun h => ⟨h.typed.here, h.scope x (by simp [occurrences_negVar])⟩
  · rintro ⟨hx, h⟩
    refine ⟨.intro hx (by simp [args]), fun y hy => ?_⟩
    rw [occurrences_negVar, List.mem_singleton] at hy
    rwa [hy]

@[simp] theorem proper_and : (and as).Proper V ↔ (∀ a ∈ as, a.isBool) ∧ ∀ a ∈ as, a.Proper V :=
  proper_iff (by simp)

@[simp] theorem proper_or : (or as).Proper V ↔ (∀ a ∈ as, a.isBool) ∧ ∀ a ∈ as, a.Proper V :=
  proper_iff (by simp)

@[simp] theorem proper_implies :
    (implies a b).Proper V ↔ (a.isBool ∧ b.isBool) ∧ a.Proper V ∧ b.Proper V :=
  (proper_iff (by simp)).trans (and_congr_right' (by simp [args]))

@[simp] theorem proper_not : (not a).Proper V ↔ a.isBool ∧ a.Proper V :=
  (proper_iff (by simp)).trans (and_congr_right' (by simp [args]))

@[simp] theorem proper_sum : (sum as).Proper V ↔ ∀ a ∈ as, a.Proper V :=
  proper_iff_args (by simp) (by trivial)

@[simp] theorem proper_wsum {ts : List (Int × Expr)} :
    (wsum ts).Proper V ↔ ∀ t ∈ ts, t.2.Proper V :=
  (proper_iff_args (by simp) (by trivial)).trans List.forall_mem_map

@[simp] theorem proper_sub : (sub a b).Proper V ↔ a.Proper V ∧ b.Proper V :=
  (proper_iff_args (by simp) (by trivial)).trans (by simp [args])

@[simp] theorem proper_mul : (mul a b).Proper V ↔ a.Proper V ∧ b.Proper V :=
  (proper_iff_args (by simp) (by trivial)).trans (by simp [args])

@[simp] theorem proper_neg : (neg a).Proper V ↔ a.Proper V :=
  (proper_iff_args (by simp) (by trivial)).trans (by simp [args])

@[simp] theorem proper_cmp {r : Relation} : (cmp r a b).Proper V ↔ a.Proper V ∧ b.Proper V :=
  (proper_iff_args (by simp) (by trivial)).trans (by simp [args])

@[simp] theorem proper_constraint {c : Constraint Expr} :
    (constraint c).Proper V ↔ c.Formed ∧ ∀ a ∈ c.args, a.Proper V := proper_iff (by simp)

@[simp] theorem proper_function {g : Function Expr} :
    (function g).Proper V ↔ g.Formed ∧ ∀ a ∈ g.args, a.Proper V := proper_iff (by simp)

@[simp] theorem proper_call {d : Call Expr} : ¬(call d).Proper V := fun h => h.typed.here

theorem proper_all (hb : ∀ a ∈ as, a.isBool) (h : ∀ a ∈ as, a.Proper V) : (all as).Proper V := by
  match as with
  | [] => simp [all]
  | [a] => simpa [all] using h
  | a :: b :: as => exact proper_and.2 ⟨hb, h⟩

theorem proper_any (hb : ∀ a ∈ as, a.isBool) (h : ∀ a ∈ as, a.Proper V) : (any as).Proper V := by
  match as with
  | [] => simp [any]
  | [a] => simpa [any] using h
  | a :: b :: as => exact proper_or.2 ⟨hb, h⟩

theorem isBool_all (h : ∀ a ∈ as, a.isBool) : (all as).isBool := by
  match as with
  | [] => rfl
  | [a] => simpa [all] using h
  | a :: b :: as => rfl

theorem isBool_any (h : ∀ a ∈ as, a.isBool) : (any as).isBool := by
  match as with
  | [] => rfl
  | [a] => simpa [any] using h
  | a :: b :: as => rfl

section Negated

variable (b : Bool) (x : Variable) (a c : Expr) (as : List Expr) (r : Relation)

/-- The negation of an expression from the negations of its arguments. -/
theorem negated_eq (e : Expr) : e.negated = match e with
    | bool b => bool !b
    | var x => if x.isBool then negVar x else not (var x)
    | negVar x => var x
    | cmp r a b => cmp r.negated a b
    | and as => or (as.map negated)
    | or as => and (as.map negated)
    | implies a b => and [a, b.negated]
    | not a => a
    | e => not e := by
  cases e <;> rw [negated] <;> simp

@[simp] theorem negated_bool : (bool b).negated = bool !b := negated_eq _

@[simp] theorem negated_negVar : (negVar x).negated = var x := negated_eq _

@[simp] theorem negated_cmp : (cmp r a c).negated = cmp r.negated a c := negated_eq _

@[simp] theorem negated_and : (and as).negated = or (as.map negated) := negated_eq _

@[simp] theorem negated_or : (or as).negated = and (as.map negated) := negated_eq _

@[simp] theorem negated_implies : (implies a c).negated = and [a, c.negated] := negated_eq _

@[simp] theorem negated_not : (not a).negated = a := negated_eq _

@[simp] theorem negated_constraint (c : Constraint Expr) :
    (constraint c).negated = not (constraint c) := negated_eq _

theorem negated_var {x : Variable} (h : x.isBool) : (var x).negated = negVar x := by
  rw [negated_eq]
  exact if_pos h

end Negated

theorem isBool_negated (h : e.isBool) (he : e.Proper V) : e.negated.isBool := by
  cases e with
  | var x => rw [negated_var h]; rfl
  | negVar x => rw [negated_negVar]; exact (proper_negVar.1 he).1
  | not a => rw [negated_not]; exact (proper_not.1 he).1
  | bool _ => rw [negated_bool]; rfl
  | and _ => rw [negated_and]; rfl
  | or _ => rw [negated_or]; rfl
  | implies _ _ => rw [negated_implies]; rfl
  | cmp _ _ _ => rw [negated_cmp]; rfl
  | constraint _ => rw [negated_constraint]; rfl
  | call _ => exact absurd he proper_call
  | int _ | sum _ | wsum _ | sub _ _ | mul _ _ | neg _ | function _ => cases h

theorem proper_negated (h : e.isBool) (he : e.Proper V) : e.negated.Proper V := by
  induction e using induction_args with
  | h e ih =>
    cases e with
    | var x =>
      rw [negated_var h, proper_negVar]
      exact ⟨h, proper_var.1 he⟩
    | negVar x => rw [negated_negVar, proper_var]; exact (proper_negVar.1 he).2
    | not a => rw [negated_not]; exact (proper_not.1 he).2
    | bool _ => rw [negated_bool]; exact proper_bool
    | and as =>
      obtain ⟨hb, hp⟩ := proper_and.1 he
      simp only [negated_and, proper_or, List.forall_mem_map]
      exact ⟨fun a ha => isBool_negated (hb a ha) (hp a ha), fun a ha => ih a ha (hb a ha) (hp a ha)⟩
    | or as =>
      obtain ⟨hb, hp⟩ := proper_or.1 he
      simp only [negated_or, proper_and, List.forall_mem_map]
      exact ⟨fun a ha => isBool_negated (hb a ha) (hp a ha), fun a ha => ih a ha (hb a ha) (hp a ha)⟩
    | implies a b =>
      obtain ⟨⟨ha, hb⟩, hpa, hpb⟩ := proper_implies.1 he
      have := ih b (by simp [args]) hb hpb
      simp [ha, hpa, isBool_negated hb hpb, this]
    | cmp _ _ _ => rw [negated_cmp, proper_cmp]; exact proper_cmp.1 he
    | constraint _ => rw [negated_constraint, proper_not]; exact ⟨rfl, he⟩
    | call _ => exact absurd he proper_call
    | int _ | sum _ | wsum _ | sub _ _ | mul _ _ | neg _ | function _ => cases h

end Proper

variable {σ : Store} {e : Expr}

theorem Proper.owned (h : e.Proper σ.Has) (hσ : σ.Valid) : e.Proper σ.Owns :=
  h.imp fun _ hx => ⟨hx, hx.boolean hσ⟩

theorem WellTypedIn.proper (h : e.WellTypedIn σ) (hc : e.CallFree) : e.Proper σ.Has :=
  ⟨h.typed hc, fun x hx => h.scope x (List.mem_eraseDups.2 hx)⟩

/-- The range of a Boolean expression is that of the truth values. -/
theorem range_subset_boolean (h : e.isBool) (hneg : ∀ x, e = negVar x → x.isBool)
    (hdomain : ∀ x ∈ e.occurrences, x.isBool → x.bounds = .boolean) : e.range ⊆ Bounds.boolean := by
  cases e with
  | bool b =>
    rw [range]
    cases b <;> decide
  | var x => rw [range, hdomain x (by simp [occurrences_var]) h]
  | negVar x =>
    rw [range, hdomain x (by simp [occurrences_negVar]) (hneg x rfl)]
    decide
  | and _ | or _ | implies _ _ | not _ | cmp _ _ _ | constraint _ | call _ =>
    rw [range]
  | int _ | sum _ | wsum _ | sub _ _ | mul _ _ | neg _ | function _ => cases h

theorem Proper.range_eq (h : e.Proper σ.Owns) (hb : e.isBool) : e.range ⊆ Bounds.boolean := by
  refine range_subset_boolean hb ?_ fun x hx => (h.scope x hx).2
  rintro x rfl
  exact (proper_negVar.1 h).1

end Expr

end ConstraintModel
