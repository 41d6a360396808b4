import ConstraintModel.Model
import ConstraintModel.Proofs.PositiveConfined

namespace ConstraintModel

open Lowering (Stays)

/-- What is run on constraints over the variables of a model. The last two
passes are run on the constraints that are posted. -/
inductive Pass where
  | decompose (c : Constraint Expr)
  | decomposeComparison (g : Function Expr) (r : Relation) (b : Expr)
  | flatten (constraints : List Expr)
  | decomposeTree (caps : Capabilities) (constraints : List Expr)
  | decomposeFlat (caps : Capabilities) (constraints : List Expr)
  | splitReifications (constraints : List Expr)
  | linearize (caps : Capabilities) (constraints : List Expr)
  | removeViews (constraints : List Expr)
  | toPrimitive (caps : Capabilities) (strategy : Strategy)
  | toLinear (caps : Capabilities)

namespace Pass

def given : Pass → List Expr
  | decompose c => [.constraint c]
  | decomposeComparison g r b => [.cmp r (.function g) b]
  | flatten constraints | decomposeTree _ constraints | decomposeFlat _ constraints
  | splitReifications constraints | linearize _ constraints | removeViews constraints => constraints
  | toPrimitive _ _ | toLinear _ => []

def input (m : Model) : Pass → List Expr
  | toPrimitive _ _ | toLinear _ => m.constraints
  | p => p.given

def run (m : Model) : Pass → Lowering (List Expr)
  | decompose c => return (← c.decompose).toList
  | decomposeComparison g r b => return (← g.decompose r b).toList
  | flatten constraints => ConstraintModel.flatten constraints
  | decomposeTree caps constraints => ConstraintModel.decomposeTree caps constraints
  | decomposeFlat caps constraints => ConstraintModel.decomposeFlat caps constraints
  | splitReifications constraints => ConstraintModel.splitReifications constraints
  | linearize caps constraints => ConstraintModel.linearize caps constraints
  | removeViews constraints => ConstraintModel.removeViews constraints
  | toPrimitive caps strategy => m.toPrimitive caps strategy
  | toLinear caps => m.toLinear caps

end Pass

inductive Operation where
  | addBool
  | addInt (domain : Bounds)
  | post (e : Expr)
  | run (p : Pass)

namespace Operation

def given : Operation → List Expr
  | addBool | addInt _ => []
  | post e => [e]
  | run p => p.given

def input (m : Model) : Operation → List Expr
  | run p => p.input m
  | o => o.given

def origin : Operation → Origin
  | run _ => .auxiliary
  | _ => .user

/-- The model after an operation, with the result, which is empty after an
error. The variables that a pass has created before an error stay. -/
def apply (m : Model) : Operation → Model × List Expr
  | addBool =>
    let (x, m) := m.addBool
    (m, [.var x])
  | addInt domain =>
    match m.addInt domain with
    | .ok (x, m) => (m, [.var x])
    | .error _ => (m, [])
  | post e => (m.post e, [e])
  | run p =>
    match p.run m m.store with
    | .ok es store => ({ m with store }, es)
    | .error _ store => ({ m with store }, [])

end Operation

structure Event where
  operation : Operation
  before : Model
  after : Model
  result : List Expr

namespace Model

def next (m : Model) (o : Operation) : Model := (o.apply m).1

def event (m : Model) (o : Operation) : Event := ⟨o, m, m.next o, (o.apply m).2⟩

def session (m : Model) : List Operation → List Event
  | [] => []
  | o :: os => m.event o :: (m.next o).session os

def Permits (m : Model) : List Operation → Prop
  | [] => True
  | o :: os => (∀ e ∈ o.given, e.Uses m.store.Has) ∧ (m.next o).Permits os

end Model

namespace Event

variable (E : Event)

def inputs : List Variable := (E.operation.input E.before).flatMap Expr.occurrences

def outputs : List Variable := E.result.flatMap Expr.occurrences

def Creates (x : Variable) : Prop := E.before.store.size ≤ x.index ∧ E.after.store.Has x

/-- The operation only appends variables, all of them of the same origin and
with domains that are not empty. What occurs in its result is recorded in the
store as it is there, and is new unless it occurs in the input. -/
structure Sound : Prop where
  grows : E.before.store.Grows E.after.store
  created : ∀ (i : Nat) d, E.before.store.size ≤ i → E.after.store.definitions[i]? = some d →
    d.origin = E.operation.origin ∧ d.bounds.lower ≤ d.bounds.upper
  owned : ∀ x ∈ E.inputs, E.before.store.Has x
  recorded : ∀ x ∈ E.outputs, E.after.store.Has x
  known : ∀ x ∈ E.outputs, x ∈ E.inputs ∨ E.Creates x

structure Precedes (E E' : Event) : Prop where
  grows : E.after.store.Grows E'.before.store
  fresh : ∀ x, E'.Creates x → ∀ y ∈ E.inputs ++ E.outputs, x.index ≠ y.index

end Event

namespace Model

structure Consistent (m : Model) : Prop where
  inhabited : ∀ (i : Nat) d, m.store.definitions[i]? = some d → d.bounds.lower ≤ d.bounds.upper
  posted : ∀ e ∈ m.constraints, e.Uses m.store.Has

theorem consistent_empty : empty.Consistent := ⟨fun _ _ h => by simp [empty, Store.empty] at h, nofun⟩

theorem Consistent.lower_le_upper {m : Model} (hm : m.Consistent) {x : Variable} (hx : m.store.Has x) :
    x.bounds.lower ≤ x.bounds.upper := by
  obtain ⟨_, hd⟩ := hx
  exact hm.inhabited _ _ hd

end Model

section Pass

variable {B : Start} {σ τ : Store} {m : Model} {p : Pass} {cs : List Expr}

theorem topLevel_keeps (h : B.Keeps cs σ) : B.Keeps (topLevel cs) σ := by
  rw [Start.Keeps, topLevel, List.forall_mem_flatMap]
  exact fun c hc => c.forall_conjuncts (fun _ h _ ha => h.arg ha) (h c hc)

theorem Model.toPrimitive_keeps {caps : Capabilities} {strategy : Strategy} (h : B.Keeps m.constraints σ) :
    (m.toPrimitive caps strategy).Stays B σ B.Keeps := by
  have htop := topLevel_keeps h
  cases strategy with
  | tree =>
    exact (decomposeTree_stays htop).bind fun es _ _ hes => (flatten_keeps hes).bind fun fs _ _ hfs =>
      decomposeFlat_stays hfs
  | flat => exact (flatten_keeps htop).bind fun fs _ _ hfs => decomposeFlat_stays hfs

theorem Model.toLinear_keeps {caps : Capabilities} (h : B.Keeps m.constraints σ) :
    (m.toLinear caps).Stays B σ B.Keeps := by
  refine (toPrimitive_keeps h).bind fun fs τ _ hfs => ?_
  refine (splitReifications_keeps hfs).bind fun gs υ _ hgs => ?_
  exact (linearize_keeps hgs).bind fun es _ _ hes => removeViews_keeps hes

theorem Pass.run_keeps (h : B.Keeps (p.input m) σ) : (p.run m).Stays B σ B.Keeps := by
  cases p with
  | decompose c =>
    refine (Supported.constraint_parts_stays (h _ (List.mem_singleton_self _))).bind fun d τ _ hd => .pure ?_
    obtain ⟨_, -, hd⟩ := hd
    exact fun e he => (hd e he).uses
  | decomposeComparison g r b =>
    obtain ⟨hg, hb⟩ := Expr.uses_cmp.1 (h _ (List.mem_singleton_self _))
    exact (function_keeps hg hb).bind fun d _ _ hd => .pure hd
  | flatten cs => exact flatten_keeps h
  | decomposeTree caps cs => exact decomposeTree_stays h
  | decomposeFlat caps cs => exact decomposeFlat_stays h
  | splitReifications cs => exact splitReifications_keeps h
  | linearize caps cs => exact linearize_keeps h
  | removeViews cs => exact removeViews_keeps h
  | toPrimitive caps strategy => exact Model.toPrimitive_keeps h
  | toLinear caps => exact Model.toLinear_keeps h

def Pass.start (m : Model) (p : Pass)
    (h : ∀ e ∈ p.input m, e.Uses fun x => x.bounds.lower ≤ x.bounds.upper) : Start where
  store := m.store
  inputs x := x ∈ (p.input m).flatMap Expr.occurrences
  live := True
  inhabited _ x hx := by
    obtain ⟨e, he, hx⟩ := List.mem_flatMap.1 hx
    exact h e he x hx

end Pass

theorem Store.definition_add {σ : Store} {c d : Definition} {i : Nat} (hi : σ.size ≤ i)
    (h : (σ.add d).2.definitions[i]? = some c) : c = d := by
  have hlt : i < (σ.add d).2.size := (Array.getElem?_eq_some_iff.1 h).1
  rw [Store.size_add] at hlt
  obtain rfl : i = σ.size := by omega
  simpa [Store.add, Store.size, eq_comm] using h

namespace Event

variable {E E' : Event}

/-- The new variables have other indices than the ones before them. -/
theorem Creates.index_ne {x y : Variable} (hx : E.Creates x) (hy : E.before.store.Has y) : x.index ≠ y.index := by
  have := hx.1
  have := hy.index_lt
  omega

theorem Sound.fresh (h : E.Sound) : ∀ x, E.Creates x → ∀ y ∈ E.inputs, x.index ≠ y.index :=
  fun _ hx y hy => hx.index_ne (h.owned y hy)

theorem Sound.precedes (h : E.Sound) (hg : E.after.store.Grows E'.before.store) : E.Precedes E' := by
  refine ⟨hg, fun x hx y hy => hx.index_ne ?_⟩
  rcases List.mem_append.1 hy with hy | hy
  · exact ((h.owned y hy).mono h.grows).mono hg
  · exact (h.recorded y hy).mono hg

theorem sound_of_known (hgrows : E.before.store.Grows E.after.store)
    (hcreated : ∀ (i : Nat) d, E.before.store.size ≤ i → E.after.store.definitions[i]? = some d →
      d.origin = E.operation.origin ∧ d.bounds.lower ≤ d.bounds.upper)
    (howned : ∀ x ∈ E.inputs, E.before.store.Has x) (hknown : ∀ x ∈ E.outputs, x ∈ E.inputs ∨ E.Creates x) :
    E.Sound := by
  refine ⟨hgrows, hcreated, howned, fun x hx => ?_, hknown⟩
  rcases hknown x hx with hx | hx
  · exact (howned x hx).mono hgrows
  · exact hx.2

/-- An operation that creates one variable, which is its result. -/
theorem sound_of_add {d : Definition} (hstore : E.after.store = (E.before.store.add d).2) (hinputs : E.inputs = [])
    (hresult : E.result = [.var (E.before.store.add d).1]) (horigin : d.origin = E.operation.origin)
    (hd : d.bounds.lower ≤ d.bounds.upper) : E.Sound := by
  refine sound_of_known (hstore ▸ E.before.store.grows_add d) (fun i c hi hc => ?_) (by simp [hinputs]) fun x hx => ?_
  · rw [hstore] at hc
    rw [Store.definition_add hi hc]
    exact ⟨horigin, hd⟩
  · rw [outputs, hresult, List.flatMap_singleton, Expr.occurrences_var, List.mem_singleton] at hx
    subst hx
    exact .inr ⟨(Store.index_add ..).ge, hstore ▸ E.before.store.has_add d⟩

/-- An operation that leaves the store as it is. -/
theorem sound_of_same (hstore : E.after.store = E.before.store) (howned : ∀ x ∈ E.inputs, E.before.store.Has x)
    (hknown : ∀ x ∈ E.outputs, x ∈ E.inputs) : E.Sound := by
  refine sound_of_known (hstore ▸ .refl _) (fun i d hi hd => ?_) howned fun x hx => .inl (hknown x hx)
  rw [hstore] at hd
  have hlt : i < E.before.store.size := (Array.getElem?_eq_some_iff.1 hd).1
  omega

end Event

namespace Model

variable {m : Model} {o : Operation} {os : List Operation}

theorem Consistent.given (hm : m.Consistent) (ho : ∀ e ∈ o.given, e.Uses m.store.Has) :
    ∀ e ∈ o.input m, e.Uses m.store.Has := by
  cases o with
  | run p => cases p <;> first | exact ho | exact hm.posted
  | _ => exact ho

theorem sound_run {p : Pass} (hp : ∀ e ∈ p.input m, e.Uses m.store.Has) (hm : m.Consistent) :
    (m.event (.run p)).Sound := by
  have howned : ∀ x ∈ (m.event (.run p)).inputs, m.store.Has x := by
    intro x hx
    obtain ⟨e, he, hx⟩ := List.mem_flatMap.1 hx
    exact hp e he x hx
  have hrun : (p.run m).Stays (p.start m fun e he => (hp e he).imp fun _ hx => hm.lower_le_upper hx) m.store
      (p.start m fun e he => (hp e he).imp fun _ hx => hm.lower_le_upper hx).Keeps :=
    Pass.run_keeps fun e he x hx _ => .inl (List.mem_flatMap.2 ⟨e, he, hx⟩)
  replace hrun := hrun (.refl _)
  have hcreated {τ : Store} (h : m.store.Extends True τ) (i : Nat) (d : Definition) (hi : m.store.size ≤ i)
      (hd : τ.definitions[i]? = some d) : d.origin = .auxiliary ∧ d.bounds.lower ≤ d.bounds.upper :=
    (h.new i d hi hd).imp_right fun h => h trivial
  unfold event next Operation.apply at howned ⊢
  cases hr : p.run m m.store with
  | error e τ =>
    rw [hr] at hrun
    simp only [hr] at howned ⊢
    exact Event.sound_of_known hrun.1.grows (hcreated hrun.1) howned (by simp [Event.outputs])
  | ok es τ =>
    rw [hr] at hrun
    simp only [hr] at howned ⊢
    refine Event.sound_of_known hrun.1.grows (hcreated hrun.1) howned fun x hx => ?_
    obtain ⟨e, he, hx⟩ := List.mem_flatMap.1 hx
    exact hrun.2 e he x hx trivial

/-- A variable with an empty domain is not created. -/
theorem addInt_eq (m : Model) (domain : Bounds) :
    m.addInt domain = .error (.emptyDomain domain) ∨ domain.lower ≤ domain.upper ∧
      m.addInt domain = .ok ((m.store.add ⟨domain, .int, .user⟩).1,
        { m with store := (m.store.add ⟨domain, .int, .user⟩).2 }) := by
  by_cases hd : domain.upper < domain.lower
  · exact .inl (if_pos hd)
  · exact .inr ⟨Int.not_lt.1 hd, if_neg hd⟩

theorem sound_event (hm : m.Consistent) (ho : ∀ e ∈ o.given, e.Uses m.store.Has) : (m.event o).Sound := by
  cases o with
  | addBool => exact Event.sound_of_add (d := ⟨.boolean, .bool, .user⟩) rfl rfl rfl rfl (by decide)
  | addInt domain =>
    rcases m.addInt_eq domain with h | ⟨hd, h⟩
    · refine Event.sound_of_same ?_ nofun ?_
      · simp [event, next, Operation.apply, h]
      · simp [event, Operation.apply, Event.outputs, h]
    · refine Event.sound_of_add (d := ⟨domain, .int, .user⟩) ?_ rfl ?_ rfl hd
      · simp [event, next, Operation.apply, h]
      · simp [event, Operation.apply, h]
  | post e =>
    refine Event.sound_of_same rfl (fun x hx => ?_) fun x hx => hx
    obtain ⟨e, he, hx⟩ := List.mem_flatMap.1 hx
    exact ho e he x hx
  | run p => exact sound_run (hm.given ho) hm

theorem constraints_next (m : Model) (o : Operation) : (m.next o).constraints = m.constraints ∨
    (m.next o).constraints = m.constraints ++ o.given := by
  cases o with
  | addBool => exact .inl rfl
  | addInt domain => rcases m.addInt_eq domain with h | ⟨-, h⟩ <;> simp [next, Operation.apply, h]
  | post e => exact .inr rfl
  | run p => cases h : p.run m m.store <;> simp [next, Operation.apply, h]

/-- What a step of a session preserves. -/
theorem Consistent.next (hm : m.Consistent) (ho : ∀ e ∈ o.given, e.Uses m.store.Has) : (m.next o).Consistent := by
  have hs := sound_event hm ho
  have hgrows : m.store.Grows (m.next o).store := hs.grows
  refine ⟨fun i d hd => ?_, fun e he => ?_⟩
  · by_cases hi : i < m.store.size
    · have hold := Array.getElem?_eq_getElem hi
      have hnew := hgrows i _ hold
      rw [hd] at hnew
      cases hnew
      exact hm.inhabited i _ hold
    · exact (hs.created i d (Nat.le_of_not_lt hi) hd).2
  · have hposted : ∀ e ∈ m.constraints ++ o.given, e.Uses m.store.Has := List.forall_mem_append.2 ⟨hm.posted, ho⟩
    have he : e ∈ m.constraints ++ o.given := by
      rcases constraints_next m o with h | h <;> rw [h] at he
      · exact List.mem_append_left _ he
      · exact he
    exact (hposted e he).imp fun _ hx => hx.mono hgrows

theorem session_grows (hm : m.Consistent) (h : m.Permits os) : ∀ E ∈ m.session os, m.store.Grows E.before.store := by
  induction os generalizing m with
  | nil => exact nofun
  | cons o os ih =>
    refine List.forall_mem_cons.2 ⟨.refl _, fun E hE => ?_⟩
    exact (sound_event hm h.1).grows.trans (ih (hm.next h.1) h.2 E hE)

theorem Consistent.session (hm : m.Consistent) (h : m.Permits os) :
    (∀ E ∈ m.session os, E.Sound) ∧ (m.session os).Pairwise Event.Precedes := by
  induction os generalizing m with
  | nil => exact ⟨nofun, .nil⟩
  | cons o os ih =>
    have hs := sound_event hm h.1
    obtain ⟨hsound, hpairs⟩ := ih (hm.next h.1) h.2
    refine ⟨List.forall_mem_cons.2 ⟨hs, hsound⟩, .cons (fun E hE => hs.precedes ?_) hpairs⟩
    exact session_grows (hm.next h.1) h.2 E hE

/-- During a session the store only grows, and the variables that passes append
to it are auxiliary and have a domain that is not empty, also when the pass
fails. What occurs in the result of a pass occurs in its input or has been
created by it, so the new variables are none of the input and of what has been
used before. -/
theorem session_keeps_variables (h : empty.Permits os) :
    (∀ E ∈ empty.session os, E.Sound ∧ ∀ x, E.Creates x → ∀ y ∈ E.inputs, x.index ≠ y.index) ∧
      (empty.session os).Pairwise Event.Precedes := by
  obtain ⟨hsound, hpairs⟩ := consistent_empty.session h
  exact ⟨fun E hE => ⟨hsound E hE, (hsound E hE).fresh⟩, hpairs⟩

def magnitudes : List Operation :=
  [.addInt ⟨-2, 3⟩, .post (.cmp .le (.function (.abs (.var ⟨0, ⟨-2, 3⟩, .int⟩))) (.int 2)),
    .run (.toPrimitive .none .tree), .addInt ⟨1, 0⟩, .run (.toLinear .none)]

theorem session_magnitudes : empty.Permits magnitudes ∧
    (∀ E ∈ empty.session magnitudes, E.Sound ∧ ∀ x, E.Creates x → ∀ y ∈ E.inputs, x.index ≠ y.index) ∧
      (empty.session magnitudes).Pairwise Event.Precedes := by
  have h : empty.Permits magnitudes := by
    refine ⟨nofun, ?_, nofun, nofun, nofun, trivial⟩
    refine List.forall_mem_singleton.2 (Expr.uses_cmp.2 ⟨Expr.uses_function.2 ?_, Expr.uses_int⟩)
    exact List.forall_mem_singleton.2 (Expr.uses_var.2 ⟨.user, rfl⟩)
  exact ⟨h, session_keeps_variables h⟩

end Model

end ConstraintModel
