import ConstraintModel.Proofs.Accepted
import ConstraintModel.Proofs.SupportedTree

namespace ConstraintModel

namespace Expr

/-- A product has a constant factor, and the demands on a resource are
constant because its usage is a sum of their products. -/
def LinearizableHere : Expr → Prop
  | mul a b => a.isConstant ∨ b.isConstant
  | constraint (.cumulative _ _ _ rs _) => ∀ r ∈ rs, r.isConstant
  | call _ => False
  | _ => True

def Linearizable (e : Expr) : Prop := e.Everywhere LinearizableHere

variable {e a b : Expr} {as : List Expr}

theorem linearizable_iff :
    e.Linearizable ↔ e.LinearizableHere ∧ ∀ a ∈ e.args, a.Linearizable := everywhere_iff

theorem Linearizable.callFree (h : e.Linearizable) : e.CallFree :=
  h.imp fun a ha d hd => by rwa [hd] at ha

theorem linearizable_iff_args (h : e.LinearizableHere) :
    e.Linearizable ↔ ∀ a ∈ e.args, a.Linearizable := linearizable_iff.trans (and_iff_right h)

theorem linearizable_of_isSimple (h : e.isSimple) : e.Linearizable := by
  refine linearizable_iff.2 ⟨?_, by simp [args_of_isSimple h]⟩
  cases e with
  | mul _ _ | constraint _ | call _ => cases h
  | _ => trivial

@[simp] theorem linearizable_int {n : Int} : (int n).Linearizable :=
  linearizable_of_isSimple rfl

@[simp] theorem linearizable_bool {b : Bool} : (bool b).Linearizable :=
  linearizable_of_isSimple rfl

@[simp] theorem linearizable_var {x : Variable} : (var x).Linearizable :=
  linearizable_of_isSimple rfl

@[simp] theorem linearizable_cmp {r : Relation} :
    (cmp r a b).Linearizable ↔ a.Linearizable ∧ b.Linearizable :=
  (linearizable_iff_args (by trivial)).trans (by simp [args])

@[simp] theorem linearizable_implies :
    (implies a b).Linearizable ↔ a.Linearizable ∧ b.Linearizable :=
  (linearizable_iff_args (by trivial)).trans (by simp [args])

@[simp] theorem linearizable_and : (and as).Linearizable ↔ ∀ a ∈ as, a.Linearizable :=
  linearizable_iff_args (by trivial)

@[simp] theorem linearizable_or : (or as).Linearizable ↔ ∀ a ∈ as, a.Linearizable :=
  linearizable_iff_args (by trivial)

@[simp] theorem linearizable_not : (not a).Linearizable ↔ a.Linearizable :=
  (linearizable_iff_args (by trivial)).trans (by simp [args])

@[simp] theorem linearizable_sum : (sum as).Linearizable ↔ ∀ a ∈ as, a.Linearizable :=
  linearizable_iff_args (by trivial)

@[simp] theorem linearizable_sub :
    (sub a b).Linearizable ↔ a.Linearizable ∧ b.Linearizable :=
  (linearizable_iff_args (by trivial)).trans (by simp [args])

@[simp] theorem linearizable_neg : (neg a).Linearizable ↔ a.Linearizable :=
  (linearizable_iff_args (by trivial)).trans (by simp [args])

@[simp] theorem linearizable_mul : (mul a b).Linearizable ↔
    (a.isConstant ∨ b.isConstant) ∧ a.Linearizable ∧ b.Linearizable :=
  linearizable_iff.trans (and_congr_right' (by simp [args]))

@[simp] theorem linearizable_function {g : Function Expr} :
    (function g).Linearizable ↔ ∀ a ∈ g.args, a.Linearizable := linearizable_iff_args (by trivial)

theorem linearizable_all (h : ∀ a ∈ as, a.Linearizable) : (all as).Linearizable := by
  match as with
  | [] => exact linearizable_bool
  | [a] => exact h a (List.mem_singleton_self a)
  | a :: b :: as => exact linearizable_and.2 h

theorem linearizable_any (h : ∀ a ∈ as, a.Linearizable) : (any as).Linearizable := by
  match as with
  | [] => exact linearizable_bool
  | [a] => exact h a (List.mem_singleton_self a)
  | a :: b :: as => exact linearizable_or.2 h

theorem linearizable_plus (ha : a.Linearizable) (hb : b.Linearizable) :
    (a.plus b).Linearizable := by
  unfold plus
  split
  · exact linearizable_sum.2 (List.forall_mem_append.2 ⟨linearizable_sum.1 ha, by simpa using hb⟩)
  · exact linearizable_sum.2 (by simpa using ⟨ha, hb⟩)

theorem linearizable_minus (h : a.minus = .ok b) (ha : a.Linearizable) : b.Linearizable := by
  rcases minus_cases h with ⟨n, rfl, rfl⟩ | rfl
  · exact linearizable_int
  · exact linearizable_neg.2 ha

theorem linearizable_negated (h : e.Linearizable) : e.negated.Linearizable := by
  induction e using induction_args with
  | h e ih =>
    replace ih := fun a ha => ih a ha (h.arg ha)
    cases e with
    | and as =>
      rw [negated_and, linearizable_or]
      exact List.forall_mem_map.2 ih
    | or as =>
      rw [negated_or, linearizable_and]
      exact List.forall_mem_map.2 ih
    | implies a b =>
      rw [negated_implies, linearizable_and]
      simpa using ⟨h.arg (by simp [args]), ih b (by simp [args])⟩
    | bool _ => rw [negated_bool]; exact linearizable_bool
    | negVar _ => rw [negated_negVar]; exact linearizable_var
    | not _ => rw [negated_not]; exact linearizable_not.1 h
    | cmp r a b => rw [negated_cmp]; exact linearizable_cmp.2 (linearizable_cmp.1 h)
    | var x =>
      rw [negated]
      split
      · exact linearizable_of_isSimple rfl
      · exact linearizable_not.2 h
    | call d => exact absurd h.here id
    | int _ | sum _ | wsum _ | sub _ _ | mul _ _ | neg _ | constraint _ | function _ =>
      rw [negated] <;> first | exact linearizable_not.2 h | simp

theorem linearizable_guards {x : Expr} {length : Nat} (hx : x.Linearizable) :
    ∀ e ∈ x.guards length, e.Linearizable := by
  intro e he
  rcases List.mem_append.1 he with he | he
  all_goals
    split at he
    · rw [List.mem_singleton.1 he]
      exact linearizable_cmp.2 ⟨hx, linearizable_int⟩
    · cases he

end Expr

open ConstraintModel.Expr

variable {σ τ : Store}

section

variable {succ as : List Expr} {hull : Bounds} {a : Expr}

theorem linearizable_successor (hs : ∀ s ∈ succ, s.Linearizable) (ha : a.Linearizable) :
    (successor succ hull a).Linearizable := by
  refine linearizable_function.2 (List.forall_mem_append.2 ⟨List.forall_mem_map.2 fun p _ => ?_, ?_⟩)
  · cases hp : entryAt? succ p with
    | none => exact linearizable_int
    | some s => exact hs s (mem_of_entryAt? hp)
  · rw [List.forall_mem_singleton]
    split
    · exact ha
    · exact linearizable_sub.2 ⟨ha, linearizable_int⟩

theorem linearizable_chain (hs : ∀ s ∈ succ, s.Linearizable) (ha : ∀ a ∈ as, a.Linearizable) :
    ∀ e ∈ chain succ hull as, e.Linearizable := by
  refine List.forall_mem_map.2 fun p hp => ?_
  obtain ⟨h₁, h₂⟩ := mem_of_neighbours hp
  exact linearizable_cmp.2 ⟨ha _ h₂, linearizable_successor hs (ha _ h₁)⟩

theorem linearizable_successorGuards (hs : ∀ s ∈ succ, s.Linearizable) {length : Nat} :
    ∀ e ∈ succ.flatMap fun s => s.guards length, e.Linearizable := by
  intro e he
  obtain ⟨s, hs', he⟩ := List.mem_flatMap.1 he
  exact linearizable_guards (hs s hs') e he

theorem linearizable_allDifferent (hs : ∀ a ∈ as, a.Linearizable) :
    (constraint (.allDifferent as)).Linearizable := linearizable_iff.2 ⟨trivial, hs⟩

theorem Circuit.linearizable_encoding {order : List Expr} (hs : ∀ s ∈ succ, s.Linearizable)
    (ho : ∀ o ∈ order, o.Linearizable) :
    ∀ e ∈ (encoding succ hull order).toList, e.Linearizable := by
  simp only [Decomposition.toList, encoding, List.forall_mem_append, List.forall_mem_map,
    List.forall_mem_cons, List.not_mem_nil, false_imp_iff, implies_true, and_true]
  refine ⟨⟨⟨linearizable_successorGuards hs, linearizable_allDifferent hs,
    linearizable_allDifferent ho⟩, fun o ho' => ?_⟩, fun p hp => ?_, linearizable_chain hs ho⟩
  · rw [Option.mem_toList] at ho'
    exact linearizable_cmp.2 ⟨ho o (List.mem_of_getLast? ho'), linearizable_int⟩
  · rw [Option.mem_toList] at hp
    obtain ⟨h₁, h₂⟩ := List.of_mem_zip (List.mem_of_head? hp)
    exact linearizable_cmp.2 ⟨ho _ h₁, hs _ h₂⟩

theorem Subcircuit.linearizable_candidates (hs : ∀ s ∈ succ, s.Linearizable) :
    ∀ e ∈ candidates succ, e.Linearizable := by
  refine List.forall_mem_map.2 fun p hp => linearizable_plus ?_ linearizable_int
  rw [linearizable_mul]
  simpa using ⟨.inl rfl, hs _ (mem_of_indexed hp)⟩

theorem Subcircuit.linearizable_encoding {start : Expr} {visits : List Expr}
    (hs : ∀ s ∈ succ, s.Linearizable) (hstart : start.Linearizable)
    (hv : ∀ v ∈ visits, v.Linearizable) :
    ∀ e ∈ (encoding succ hull start visits).toList, e.Linearizable := by
  simp only [Decomposition.toList, encoding, List.forall_mem_append, List.forall_mem_map,
    List.forall_mem_cons, List.not_mem_nil, false_imp_iff, implies_true, and_true]
  refine ⟨⟨⟨linearizable_successorGuards hs, linearizable_allDifferent hs⟩, fun p hp => ?_⟩,
    ⟨?_, fun v hv' => ?_⟩, linearizable_chain hs hv⟩
  · refine linearizable_implies.2 ⟨linearizable_cmp.2 ⟨hs _ (mem_of_indexed hp), linearizable_int⟩, ?_⟩
    refine linearizable_any (List.forall_mem_map.2 fun v hv' => ?_)
    exact linearizable_cmp.2 ⟨hv v hv', linearizable_int⟩
  · exact linearizable_cmp.2 ⟨hstart, linearizable_function.2 (linearizable_candidates hs)⟩
  · rw [Option.mem_toList] at hv'
    exact linearizable_cmp.2 ⟨hv v (List.mem_of_head? hv'), hstart⟩

end

theorem Inverse.linearizable_link {backward : List Expr} {i : Int} {x : Expr}
    (hb : ∀ b ∈ backward, b.Linearizable) (hx : x.Linearizable) :
    (link backward i x).Linearizable := by
  unfold link
  split
  · cases hy : entryAt? backward _ with
    | none => exact linearizable_bool
    | some y => exact linearizable_cmp.2 ⟨hb y (mem_of_entryAt? hy), linearizable_int⟩
  · refine linearizable_all (List.forall_mem_append.2 ⟨linearizable_guards hx, ?_⟩)
    rw [List.forall_mem_singleton, linearizable_cmp, linearizable_function]
    exact ⟨List.forall_mem_append.2 ⟨hb, by simpa using hx⟩, linearizable_int⟩

theorem Cumulative.linearizable_encoding {start duration finish demand : List Expr} {capacity : Expr}
    (hs : ∀ a ∈ start, a.Linearizable) (hd : ∀ a ∈ duration, a.Linearizable)
    (he : ∀ a ∈ finish, a.Linearizable) (hr : ∀ a ∈ demand, a.Linearizable)
    (hconst : ∀ a ∈ demand, a.isConstant) (hc : capacity.Linearizable) :
    ∀ e ∈ encoding start duration finish demand capacity, e.Linearizable := by
  simp only [encoding, List.forall_mem_append, List.forall_mem_map]
  constructor
  · rintro ⟨s, d, e⟩ hp
    obtain ⟨hps, hp⟩ := List.of_mem_zip hp
    obtain ⟨hpd, hpe⟩ := List.of_mem_zip hp
    exact linearizable_cmp.2 ⟨linearizable_plus (hs s hps) (hd d hpd), he e hpe⟩
  · intro time _
    refine linearizable_cmp.2 ⟨linearizable_sum.2 (List.forall_mem_map.2 ?_), hc⟩
    rintro ⟨s, e, r⟩ hp
    obtain ⟨hps, hp⟩ := List.of_mem_zip hp
    obtain ⟨hpe, hpr⟩ := List.of_mem_zip hp
    refine linearizable_mul.2 ⟨.inl (hconst r hpr), hr r hpr, ?_⟩
    simpa [runsAt] using ⟨hs s hps, he e hpe⟩

theorem Xor.linearizable_decompose {as : List Expr} (has : ∀ a ∈ as, a.Linearizable) :
    ∀ e ∈ (decompose as).toList, e.Linearizable := by
  have fold : ∀ (bs : List Expr) (acc : Expr), (∀ b ∈ bs, b.Linearizable) → acc.Linearizable →
      (bs.foldl (fun acc a => .cmp .eq (.sum [acc, a]) (.int 1)) acc).Linearizable := by
    intro bs
    induction bs with
    | nil => exact fun acc _ h => h
    | cons b bs ih =>
      intro acc hbs h
      obtain ⟨hb, hbs⟩ := List.forall_mem_cons.1 hbs
      exact ih _ hbs (by simpa using ⟨h, hb⟩)
  intro e he
  rw [List.mem_singleton.1 he]
  refine fold _ _ (fun a ha => has a (List.mem_of_mem_drop ha)) ?_
  simpa using fun a ha => has a (List.mem_of_mem_take ha)

theorem Member.linearizable_target {a x : Expr} {defining : List Expr}
    (h : Target σ a x defining τ) (ha : a.Linearizable) :
    x.Linearizable ∧ ∀ e ∈ defining, e.Linearizable := by
  cases h with
  | simple => exact ⟨ha, by simp⟩
  | fresh => exact ⟨linearizable_var, by simpa using ha⟩

/-- Decomposing introduces no products of two variables. -/
theorem Constraint.Decomposes.linearizable {c : Constraint Expr} {d : Decomposition}
    (h : c.Decomposes σ d τ) (hc : (constraint c).Linearizable) :
    ∀ e ∈ d.toList, e.Linearizable := by
  obtain ⟨here, ha⟩ := linearizable_iff.1 hc
  change ∀ a ∈ c.args, a.Linearizable at ha
  cases h with
  | allDifferent as =>
    intro e he
    obtain ⟨p, hp, rfl⟩ := List.mem_map.1 (Decomposition.mem_direct.1 he)
    exact linearizable_cmp.2 ⟨ha _ (mem_of_pairs hp).1, ha _ (mem_of_pairs hp).2⟩
  | allDifferentExceptZero as =>
    intro e he
    obtain ⟨p, hp, rfl⟩ := List.mem_map.1 (Decomposition.mem_direct.1 he)
    obtain ⟨h₁, h₂⟩ := mem_of_pairs hp
    simpa using ⟨⟨ha _ h₁, ha _ h₂⟩, ha _ h₁⟩
  | allEqual as | monotone order as =>
    intro e he
    obtain ⟨p, hp, rfl⟩ := List.mem_map.1 (Decomposition.mem_direct.1 he)
    exact linearizable_cmp.2 ⟨ha _ (mem_of_neighbours hp).1, ha _ (mem_of_neighbours hp).2⟩
  | circuit succ =>
    exact Circuit.linearizable_encoding ha (List.forall_mem_map.2 fun x _ => linearizable_var)
  | subcircuit succ =>
    exact Subcircuit.linearizable_encoding ha linearizable_var
      (List.forall_mem_map.2 fun x _ => linearizable_var)
  | subcircuitThrough succ start =>
    simp only [Decomposition.toList, Subcircuit.decomposeThrough, Decomposition.direct,
      List.append_nil, List.forall_mem_cons, List.forall_mem_map]
    refine ⟨linearizable_iff.2 ⟨trivial, ha⟩, fun s hs => ?_⟩
    rw [Option.mem_toList] at hs
    exact linearizable_cmp.2 ⟨ha s (List.mem_of_getElem? hs), linearizable_int⟩
  | inverse fs bs =>
    intro e he
    rw [List.mem_singleton.1 he]
    refine linearizable_all (List.forall_mem_map.2 fun p hp => ?_)
    exact Inverse.linearizable_link (fun b hb => ha b (List.mem_append_right _ hb))
      (ha _ (List.mem_append_left _ (mem_of_indexed hp)))
  | cumulative ss ds es rs capacity =>
    intro e he
    exact Cumulative.linearizable_encoding (fun a h => ha a (by simp [Constraint.args, h]))
      (fun a h => ha a (by simp [Constraint.args, h])) (fun a h => ha a (by simp [Constraint.args, h]))
      (fun a h => ha a (by simp [Constraint.args, h])) here (ha capacity (by simp [Constraint.args])) e
      (Decomposition.mem_direct.1 he)
  | cardinality xs vs ns =>
    intro e he
    obtain ⟨⟨v, m⟩, hp, rfl⟩ := List.mem_map.1 (Decomposition.mem_direct.1 he)
    obtain ⟨hv, hm⟩ := List.of_mem_zip hp
    refine linearizable_cmp.2 ⟨linearizable_function.2 (List.forall_mem_append.2 ⟨?_, ?_⟩), ?_⟩
    · exact fun a h => ha a (by simp [Constraint.args, h])
    · simpa using ha v (by simp [Constraint.args, hv])
    · exact ha m (by simp [Constraint.args, hm])
  | table xs rows =>
    intro e he
    rw [List.mem_singleton.1 he]
    refine linearizable_any (List.forall_mem_map.2 fun row _ => ?_)
    refine linearizable_all (List.forall_mem_map.2 fun p hp => ?_)
    exact linearizable_cmp.2 ⟨ha _ (List.of_mem_zip hp).1, linearizable_int⟩
  | memberOfSet a set htarget =>
    obtain ⟨hx, hdef⟩ := Member.linearizable_target htarget (ha a (by simp [Constraint.args]))
    simp only [Decomposition.toList, List.forall_mem_append, List.forall_mem_map]
    exact ⟨fun v _ => linearizable_cmp.2 ⟨hx, linearizable_int⟩, hdef⟩
  | memberOfList a vs htarget =>
    obtain ⟨hx, hdef⟩ := Member.linearizable_target htarget (ha a (by simp [Constraint.args]))
    simp only [Decomposition.toList, List.forall_mem_append, List.forall_mem_cons, List.not_mem_nil,
      false_imp_iff, implies_true, and_true]
    refine ⟨linearizable_any (List.forall_mem_map.2 fun v hv => ?_), hdef⟩
    exact linearizable_cmp.2 ⟨hx, ha v (List.mem_cons_of_mem _ hv)⟩
  | xor as => exact Xor.linearizable_decompose ha
  | ifThenElse c x y =>
    have hcs := ha c (by simp [Constraint.args])
    simp only [Decomposition.toList, IfThenElse.decompose, Decomposition.direct, List.append_nil,
      List.forall_mem_cons, List.not_mem_nil, false_imp_iff, implies_true, and_true]
    exact ⟨linearizable_implies.2 ⟨hcs, ha x (by simp [Constraint.args])⟩,
      linearizable_implies.2 ⟨linearizable_negated hcs, ha y (by simp [Constraint.args])⟩⟩

theorem Extremum.linearizable {as : List Expr} {z : Variable} {side : Relation}
    (has : ∀ a ∈ as, a.Linearizable) : ∀ e ∈ [Expr.all (as.map fun a => .cmp side (.var z) a),
      Expr.any (as.map fun a => .cmp .eq (.var z) a)], e.Linearizable := by
  have hcmp (r : Relation) : ∀ e ∈ as.map fun a => Expr.cmp r (.var z) a, e.Linearizable :=
    List.forall_mem_map.2 fun a ha => linearizable_cmp.2 ⟨linearizable_var, has a ha⟩
  simpa using ⟨linearizable_all (hcmp side), linearizable_any (hcmp .eq)⟩

theorem Function.Decomposes.linearizable {g : Function Expr} {r : Relation} {rhs : Expr}
    {d : Decomposition} (h : g.Decomposes σ r rhs d τ) (ha : ∀ a ∈ g.args, a.Linearizable)
    (hr : rhs.Linearizable) : ∀ e ∈ d.toList, e.Linearizable := by
  cases h with
  | absSame h =>
    intro e he
    rw [List.mem_singleton.1 he]
    exact linearizable_cmp.2 ⟨ha _ (List.mem_singleton_self _), hr⟩
  | absOpposite h hy =>
    intro e he
    rw [List.mem_singleton.1 he]
    exact linearizable_cmp.2 ⟨linearizable_minus hy (ha _ (List.mem_singleton_self _)), hr⟩
  | abs hz hzb hbounds hy =>
    have hx := ha _ (List.mem_singleton_self _)
    have hy := linearizable_minus hy hx
    simpa [Decomposition.toList] using ⟨hr, hx, hy⟩
  | minimum as | maximum as =>
    simp only [Decomposition.toList, List.forall_mem_append, List.forall_mem_singleton]
    exact ⟨linearizable_cmp.2 ⟨linearizable_var, hr⟩, Extremum.linearizable ha⟩
  | count as v =>
    intro e he
    rw [List.mem_singleton.1 he]
    refine linearizable_cmp.2 ⟨linearizable_sum.2 (List.forall_mem_map.2 fun a h => ?_), hr⟩
    exact linearizable_cmp.2 ⟨ha a (List.mem_append_left _ h), ha v (by simp [Function.args])⟩
  | distinct as =>
    intro e he
    rw [List.mem_singleton.1 he]
    refine linearizable_cmp.2 ⟨linearizable_sum.2 (List.forall_mem_map.2 fun v _ => ?_), hr⟩
    refine linearizable_any (List.forall_mem_map.2 fun a h => ?_)
    exact linearizable_cmp.2 ⟨ha a h, linearizable_int⟩
  | element as i =>
    have hi := ha i (by simp [Function.args])
    intro e he
    rw [Decomposition.mem_direct] at he
    unfold Element.encoding at he
    split at he
    · rw [List.mem_singleton.1 he]
      cases ha' : entryAt? as _ with
      | none => exact linearizable_bool
      | some a => exact linearizable_cmp.2 ⟨ha a (List.mem_append_left _ (mem_of_entryAt? ha')), hr⟩
    · rcases List.mem_append.1 he with he | he
      · exact linearizable_guards hi e he
      · obtain ⟨p, hp, rfl⟩ := List.mem_map.1 he
        have hp := mem_of_indexed (List.mem_of_mem_filter hp)
        simpa using ⟨hi, ha _ (List.mem_append_left _ hp), hr⟩

theorem forall₂_append_iff {α β : Type} {R : α → β → Prop} {as cs : List α} {bs ds : List β}
    (hlength : as.length = bs.length) :
    List.Forall₂ R (as ++ cs) (bs ++ ds) ↔ List.Forall₂ R as bs ∧ List.Forall₂ R cs ds := by
  induction as generalizing bs with
  | nil =>
    cases bs with
    | nil => simp
    | cons b bs => cases hlength
  | cons a as ih =>
    cases bs with
    | nil => cases hlength
    | cons b bs => simp [ih (Nat.succ.inj hlength), and_assoc]

namespace Supported

structure StaysLinearizable (e e' : Expr) : Prop where
  linearizable : e'.Linearizable
  constant : e.isConstant → e'.isConstant

theorem StaysLinearizable.of_not_isConstant {e e' : Expr} (h : e'.Linearizable) (hc : e.isConstant = false) :
    StaysLinearizable e e' := ⟨h, by simp [hc]⟩

variable {caps : Capabilities} {context : Context} {e e' a b : Expr} {r : Relation} {depth : Nat}

theorem linearizableHere_related {c d : Constraint Expr} (h : c.Related StaysLinearizable d)
    (hc : (Expr.constraint c).LinearizableHere) : (Expr.constraint d).LinearizableHere := by
  obtain ⟨hshape, hargs⟩ := h
  cases d with
  | cumulative ss' ds' es' rs' capacity' =>
    cases c with
    | cumulative ss ds es rs capacity =>
      simp only [Constraint.map, Constraint.cumulative.injEq] at hshape
      obtain ⟨hs, hd, he, hr, -⟩ := hshape
      simp only [Constraint.args, List.append_assoc] at hargs
      rw [forall₂_append_iff (length_eq_of_unit hs), forall₂_append_iff (length_eq_of_unit hd),
        forall₂_append_iff (length_eq_of_unit he), forall₂_append_iff (length_eq_of_unit hr)] at hargs
      intro r' hr'
      obtain ⟨r, hr, h⟩ := forall₂_mem_right hargs.2.2.2.1 hr'
      exact h.constant (hc r hr)
    | _ => cases hshape
  | _ => trivial

theorem staysLinearizable_mapped (h : e.Mapped StaysLinearizable e') (he : e.Linearizable) :
    StaysLinearizable e e' := by
  have hargs : ∀ b ∈ e'.args, b.Linearizable := by
    intro b hb
    obtain ⟨a, -, hab⟩ := h.args b hb
    exact hab.linearizable
  cases h with
  | simple => exact ⟨he, id⟩
  | mul h₁ h₂ =>
    exact .of_not_isConstant (linearizable_iff.2 ⟨he.here.imp h₁.constant h₂.constant, hargs⟩) rfl
  | constraint h =>
    exact .of_not_isConstant (linearizable_iff.2 ⟨linearizableHere_related h he.here, hargs⟩) rfl
  | _ => exact .of_not_isConstant (linearizable_iff.2 ⟨trivial, hargs⟩) rfl

open Defining (Yields)

structure KeepsLinearizable (caps : Capabilities) (depth : Nat) : Prop where
  expr (context : Context) (e : Expr) : e.Linearizable →
    (expr caps depth context e).Yields False Linearizable (StaysLinearizable e)
  comparison (context : Context) (r : Relation) (a b : Expr) : a.Linearizable → b.Linearizable →
    (comparison caps depth context r a b).Yields False Linearizable Linearizable
  parts (context : Context) (d : Decomposition) : (∀ e ∈ d.toList, e.Linearizable) →
    (parts caps depth context d).Yields False Linearizable Linearizable

section

variable (ih : KeepsLinearizable caps depth)

include ih

theorem parts_linearizable {d : Decomposition} (hd : ∀ e ∈ d.toList, e.Linearizable) :
    (parts caps (depth + 1) context d).Yields False Linearizable Linearizable := by
  rw [parts]
  refine (Yields.forall_mapM (Q := Linearizable) fun e he => (ih.expr context e
    (hd e (List.mem_append_left _ he))).imp fun e' h => h.linearizable).bind fun es hes =>
      (Yields.defineAll fun e he => hd e (List.mem_append_right _ he)).bind fun _ _ => .pure ?_
  exact linearizable_all hes

theorem comparison_linearizable (ha : a.Linearizable) (hb : b.Linearizable) :
    (comparison caps (depth + 1) context r a b).Yields False Linearizable Linearizable := by
  rw [comparison]
  refine .bind (.checked fun _ h => h) fun found? hfound => ?_
  split
  · rename_i g s other
    have hg : (∀ x ∈ g.args, x.Linearizable) ∧ other.Linearizable := by
      rcases untakenSide?_eq_ok hfound with ⟨rfl, -, rfl⟩ | ⟨rfl, -, rfl⟩
      · exact ⟨linearizable_function.1 ha, hb⟩
      · exact ⟨linearizable_function.1 hb, ha⟩
    refine (Yields.function (R := StaysLinearizable) fun x hx => ih.expr _ x (hg.1 x hx)).bind fun g' hg' =>
      (ih.expr _ other hg.2).bind fun other' ho => ?_
    refine .bind (.lift fun σ => (g'.decompose_sat s other').imp fun d τ _ h => h.linearizable ?_
      ho.linearizable) fun d hd => ih.parts context d hd
    intro x' hx'
    obtain ⟨x, -, h⟩ := forall₂_mem_right hg'.args hx'
    exact h.linearizable
  · exact (ih.expr _ a ha).bind fun a' ha' => (ih.expr _ b hb).bind fun b' hb' =>
      .pure (linearizable_cmp.2 ⟨ha'.linearizable, hb'.linearizable⟩)

theorem constraint_linearizable {c : Constraint Expr} (hc : (Expr.constraint c).Linearizable) :
    (expr caps (depth + 1) context (.constraint c)).Yields False Linearizable
      (StaysLinearizable (.constraint c)) := by
  rw [expr]
  refine (Yields.constraint (R := StaysLinearizable) fun x hx => ih.expr _ x (hc.arg hx)).bind fun c' hc' => ?_
  have hkept := staysLinearizable_mapped (.constraint hc') hc
  split
  · exact .pure hkept
  · refine .bind (.lift fun σ => c'.decompose_sat.imp fun d τ _ h => h.linearizable hkept.linearizable)
      fun d hd => (ih.parts context d hd).imp fun e' he' => .of_not_isConstant he' rfl

theorem function_linearizable {g : Function Expr} (hg : (Expr.function g).Linearizable) :
    (expr caps (depth + 1) context (.function g)).Yields False Linearizable
      (StaysLinearizable (.function g)) := by
  rw [expr]
  refine (Yields.function (R := StaysLinearizable) fun x hx => ih.expr _ x (hg.arg hx)).bind fun g' hg' => ?_
  have hkept := staysLinearizable_mapped (.function hg') hg
  refine .bind (.checked fun _ _ => trivial) fun kept _ => ?_
  split
  · exact .pure hkept
  · refine .bind (.checked fun _ _ => trivial) fun b _ => .bind (.lift (.freshInt b)) fun x hx => ?_
    obtain ⟨x, rfl, -⟩ := hx
    refine .bind (.lift fun σ => (g'.decompose_sat .eq (.var x)).imp fun d τ _ h =>
      h.linearizable (linearizable_function.1 hkept.linearizable) linearizable_var) fun d hd =>
        .bind (.defineAll hd) fun _ _ => .pure (.of_not_isConstant linearizable_var rfl)

theorem expr_linearizable (he : e.Linearizable) :
    (expr caps (depth + 1) context e).Yields False Linearizable (StaysLinearizable e) := by
  have args (hcall : ∀ d, e ≠ .call d) :
      (e.mapArgsM fun a => expr caps depth (argContext context a) a).Yields False Linearizable
        (StaysLinearizable e) :=
    ((Defining.yields False Linearizable).mapArgsM (i := ()) (R := fun _ => StaysLinearizable)
      (fun _ _ _ _ _ h => h) hcall fun a ha _ _ => ih.expr _ a (he.arg ha)).imp fun e' h =>
        staysLinearizable_mapped h he
  cases e with
  | bool _ | int _ | var _ | negVar _ => rw [expr]; exact .pure ⟨he, id⟩
  | cmp r a b =>
    rw [expr]
    exact (ih.comparison context r a b (he.arg (by simp [Expr.args])) (he.arg (by simp [Expr.args]))).imp
      fun e' h => .of_not_isConstant h rfl
  | constraint c => exact constraint_linearizable ih he
  | function g => exact function_linearizable ih he
  | call d => exact absurd he.here id
  | _ => rw [expr] <;> first | exact args (by simp) | simp

end

theorem keepsLinearizable (caps : Capabilities) (depth : Nat) : KeepsLinearizable caps depth := by
  induction depth with
  | zero =>
    refine ⟨fun context e _ => ?_, fun context r a b _ _ => ?_, fun context d _ => ?_⟩
    · rw [expr]
      exact .throw False.elim
    · rw [comparison]
      exact .throw False.elim
    · rw [parts]
      exact .throw False.elim
  | succ depth ih =>
    exact ⟨fun _ _ => expr_linearizable ih, fun _ _ _ _ => comparison_linearizable ih, fun _ _ => parts_linearizable ih⟩

theorem linearizable_conjuncts (h : e.Linearizable) : ∀ c ∈ e.conjuncts, c.Linearizable := by
  induction e using Expr.induction_args with
  | h e ih =>
    intro c hc
    by_cases ht : e = .bool true
    · simp [ht] at hc
    · by_cases ha : ∃ as, e = .and as
      · obtain ⟨as, rfl⟩ := ha
        rw [Expr.conjuncts_and, List.mem_flatMap] at hc
        obtain ⟨a, ha, hc⟩ := hc
        exact ih a ha (h.arg ha) c hc
      · rwa [(Expr.mem_conjuncts_self ht fun as has => ha ⟨as, has⟩).1 hc]

theorem examine_linearizable {n : Nat} {cs : List Expr} (h : ∀ c ∈ cs, c.Linearizable) :
    (examine caps n cs).Yields False fun es => ∀ e ∈ es, e.Linearizable := by
  induction n generalizing cs with
  | zero =>
    cases cs with
    | nil => exact .pure (by simp)
    | cons c cs => exact .throw False.elim
  | succ n ih =>
    cases cs with
    | nil => exact .pure (by simp)
    | cons c cs =>
      rw [examine] <;> try simp
      refine .bind (Yields.collect (P := Linearizable) (Yields.forall_mapM (Q := fun es =>
        ∀ e ∈ es, e.Linearizable) fun e he => ?_)) fun found hfound =>
          .bind (ih hfound.2) fun rest hrest => .pure ?_
      · obtain ⟨c, hc, he⟩ := List.mem_flatMap.1 he
        refine ((keepsLinearizable caps _).expr .top e (linearizable_conjuncts (h c hc) e he)).bind
          fun e' he' => .pure (linearizable_conjuncts he'.linearizable)
      · exact List.forall_mem_append.2 ⟨List.forall_mem_flatten.2 hfound.1, hrest⟩

end Supported

end ConstraintModel
