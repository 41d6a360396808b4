import ConstraintModel.Proofs.Decompose
import ConstraintModel.Proofs.Positions
import ConstraintModel.Proofs.Small

namespace ConstraintModel

open ConstraintModel.Expr (Measured Small)

variable {V : Variable → Prop} {typed t : Prop} {k m n l : Nat} {σ τ : Store} {a b : Expr} {as : List Expr}

namespace Store

theorem CreatesAll.le_index {x : Variable} {xs : List Variable} (h : σ.CreatesAll xs τ) (hx : x ∈ xs) :
    σ.size ≤ x.index := by
  induction h with
  | nil => cases hx
  | cons hy _ ih =>
    rcases List.mem_cons.1 hx with rfl | hx
    · exact hy.index_eq.ge
    · exact hy.grows.size_le.trans (ih hx)

def Adds (V : Variable → Prop) (σ τ : Store) : Prop := ∀ x, σ.size ≤ x.index → τ.Owns x → V x

theorem Adds.creates {x : Variable} (h : Adds V σ τ) (hx : σ.Creates x τ) : V x := h x hx.index_eq.ge hx.owns

theorem Adds.createsAll {x : Variable} {xs : List Variable} (h : Adds V σ τ) (hxs : σ.CreatesAll xs τ) (hx : x ∈ xs) :
    V x := h x (hxs.le_index hx) (hxs.owns hx)

end Store

namespace Expr

structure Piece (V : Variable → Prop) (typed t : Prop) (k n : Nat) (e : Expr) : Prop where
  isBool : typed → e.isBool
  isNot : e.isNot = false
  measured : e.Measured V typed t k n

theorem isNot_all (h : ∀ a ∈ as, a.isNot = false) : (all as).isNot = false := by
  match as with
  | [] => rfl
  | [a] => exact h a (List.mem_singleton_self a)
  | a :: b :: as => rfl

theorem isNot_any (h : ∀ a ∈ as, a.isNot = false) : (any as).isNot = false := by
  match as with
  | [] => rfl
  | [a] => exact h a (List.mem_singleton_self a)
  | a :: b :: as => rfl

namespace Piece

theorem mono {e : Expr} (h : e.Piece V typed t k m) (hmn : m ≤ n) : e.Piece V typed t k n :=
  ⟨h.isBool, h.isNot, h.measured.mono hmn⟩

theorem cmp {r : Relation} (ha : a.Measured V typed t k m) (hb : b.Measured V typed t k n) (hl : k + m + n ≤ l) :
    (cmp r a b).Piece V typed t k l := ⟨fun _ => rfl, rfl, .cmp ha hb hl⟩

theorem all (h : ∀ a ∈ as, a.Piece V typed t k n) (hl : k + n ≤ l) : (all as).Piece V typed t k l :=
  ⟨fun ht => isBool_all fun a ha => (h a ha).isBool ht, isNot_all fun a ha => (h a ha).isNot,
    .all (fun ht a ha => (h a ha).isBool ht) (fun a ha => (h a ha).measured) hl⟩

theorem any (h : ∀ a ∈ as, a.Piece V typed t k n) (hl : k + n ≤ l) : (any as).Piece V typed t k l :=
  ⟨fun ht => isBool_any fun a ha => (h a ha).isBool ht, isNot_any fun a ha => (h a ha).isNot,
    .any (fun ht a ha => (h a ha).isBool ht) (fun a ha => (h a ha).measured) hl⟩

theorem implies (hbool : typed → a.isBool ∧ b.isBool) (ha : a.Measured V typed t k m) (hb : b.Measured V typed t k n)
    (hl : k + m + n ≤ l) : (implies a b).Piece V typed t k l := ⟨fun _ => rfl, rfl, .implies hbool ha hb hl⟩

theorem constraint {c : Constraint Expr} (hc : typed → c.Formed) (h : ∀ a ∈ c.args, a.Measured V typed t k n)
    (hl : c.weight + 8 * n ≤ l) : (constraint c).Piece V typed t k l := ⟨fun _ => rfl, rfl, .constraint hc h hl⟩

theorem bool {b : Bool} : (bool b).Piece V typed t k n := ⟨fun _ => rfl, rfl, .bool⟩

theorem guards {x : Expr} {length : Nat} (hx : x.Measured V typed t k n) (hl : k + n ≤ l) :
    ∀ e ∈ x.guards length, e.Piece V typed t k l := by
  intro e he
  rcases List.mem_append.1 he with he | he
  all_goals
    split at he
    · rw [List.mem_singleton.1 he]
      exact .cmp hx (.int (n := 0)) (by omega)
    · cases he

end Piece

end Expr

open ConstraintModel.Expr (Piece)

section

variable {succ : List Expr} {hull : Bounds}

theorem measured_successor (hk : k ≤ 1) (hs : ∀ s ∈ succ, s.Measured V typed t k n) (ha : a.Measured V typed t k 0) :
    (successor succ hull a).Measured V typed t k (12 + 4 * n) := by
  refine .function (n := n + 1) (fun _ => trivial) (fun e he => ?_) (by omega)
  rcases List.mem_append.1 he with he | he
  · obtain ⟨p, -, rfl⟩ := List.mem_map.1 he
    cases hp : entryAt? succ p with
    | none => exact .int
    | some s => exact (hs s (mem_of_entryAt? hp)).mono (Nat.le_succ n)
  · rw [List.mem_singleton.1 he]
    split
    · exact ha.mono (Nat.zero_le _)
    · exact (Measured.sub ha .int).mono (by omega)

theorem pieces_chain (hk : k ≤ 1) (hs : ∀ s ∈ succ, s.Measured V typed t k n)
    (ha : ∀ a ∈ as, a.Measured V typed t k 0) (hl : 13 + 4 * n ≤ l) :
    ∀ e ∈ chain succ hull as, e.Piece V typed t k l := by
  intro e he
  obtain ⟨p, hp, rfl⟩ := List.mem_map.1 he
  obtain ⟨h₁, h₂⟩ := mem_of_neighbours hp
  exact .cmp (ha _ h₂) (measured_successor hk hs (ha _ h₁)) (by omega)

theorem pieces_successorGuards (hs : ∀ s ∈ succ, s.Measured V typed t k n) (hl : k + n ≤ l) {length : Nat} :
    ∀ e ∈ succ.flatMap fun s => s.guards length, e.Piece V typed t k l := by
  rw [List.forall_mem_flatMap]
  exact fun s hs' => .guards (hs s hs') hl

theorem Circuit.pieces_encoding {order : List Expr} (hk : k ≤ 1) (hs : ∀ s ∈ succ, s.Measured V typed t k n)
    (ho : ∀ o ∈ order, o.Measured V typed t k 0) :
    ∀ e ∈ (encoding succ hull order).toList, e.Piece V typed t k (59 + 8 * n) := by
  simp only [Decomposition.toList, encoding, List.forall_mem_append, List.forall_mem_map,
    List.forall_mem_cons, List.not_mem_nil, false_imp_iff, implies_true, and_true]
  refine ⟨⟨⟨pieces_successorGuards hs (by omega), ?_, ?_⟩, fun o ho' => ?_⟩, fun p hp => ?_, ?_⟩
  · exact .constraint (fun _ => trivial) hs (by simp only [Constraint.weight]; omega)
  · exact .constraint (fun _ => trivial) ho (by simp only [Constraint.weight]; omega)
  · exact .cmp (ho o (List.mem_of_getLast? (Option.mem_toList.1 ho'))) (.int (n := 0)) (by omega)
  · obtain ⟨h₁, h₂⟩ := List.of_mem_zip (List.mem_of_head? (Option.mem_toList.1 hp))
    exact .cmp (ho _ h₁) (hs _ h₂) (by omega)
  · exact pieces_chain hk hs ho (by omega)

theorem Subcircuit.measured_candidates (hs : ∀ s ∈ succ, s.Measured V typed t k n) :
    ∀ e ∈ candidates succ, e.Measured V typed t k (3 * k + n) := by
  refine List.forall_mem_map.2 fun p hp => ?_
  have hcmp : (Expr.cmp .eq p.2 (.int p.1)).Measured V typed t k (k + n) :=
    .cmp (hs _ (mem_of_indexed hp)) (.int (n := 0)) le_rfl
  exact (Measured.plus (Measured.mul .int hcmp) .int).mono (by omega)

theorem Subcircuit.pieces_encoding {start : Expr} {visits : List Expr} (hk : k ≤ 1) (hsucc : typed → succ ≠ [])
    (hs : ∀ s ∈ succ, s.Measured V typed t k n) (hstart : start.Measured V typed t k 0)
    (hv : ∀ v ∈ visits, v.Measured V typed t k 0) :
    ∀ e ∈ (encoding succ hull start visits).toList, e.Piece V typed t k (59 + 8 * n) := by
  simp only [Decomposition.toList, encoding, List.forall_mem_append, List.forall_mem_map,
    List.forall_mem_cons, List.not_mem_nil, false_imp_iff, implies_true, and_true]
  refine ⟨⟨⟨pieces_successorGuards hs (by omega), ?_⟩, fun p hp => ?_⟩, ⟨?_, fun v hv' => ?_⟩, ?_⟩
  · exact .constraint (fun _ => trivial) hs (by simp only [Constraint.weight]; omega)
  · have hvisit : ∀ e ∈ visits.map fun v => Expr.cmp .eq v (.int p.1), e.Piece V typed t k k :=
      List.forall_mem_map.2 fun v hv' => .cmp (hv v hv') (.int (n := 0)) (by omega)
    have hany := Piece.any hvisit le_rfl
    exact .implies (fun ht => ⟨rfl, hany.isBool ht⟩) (.cmp (hs _ (mem_of_indexed hp)) (.int (n := 0)) le_rfl)
      hany.measured (by omega)
  · refine .cmp hstart (.function (g := .minimum _) (fun ht h => ?_) (measured_candidates hs) le_rfl) (by omega)
    simp [candidates, indexed] at h
    exact hsucc ht h
  · exact .cmp (hv v (List.mem_of_head? (Option.mem_toList.1 hv'))) hstart (by omega)
  · exact pieces_chain hk hs hv (by omega)

end

theorem Decomposition.mem_direct {e : Expr} {es : List Expr} :
    e ∈ (Decomposition.direct es).toList ↔ e ∈ es := by
  rw [toList, direct, List.append_nil]

theorem Inverse.piece_link {backward : List Expr} {i : Int} {x : Expr}
    (hb : ∀ b ∈ backward, b.Measured V typed t k n) (hx : x.Measured V typed t k n) :
    (link backward i x).Piece V typed t k (8 + 2 * k + 4 * n) := by
  unfold link
  split
  · cases hy : entryAt? backward _ with
    | none => exact .bool
    | some y => exact .cmp (hb y (mem_of_entryAt? hy)) (.int (n := 0)) (by omega)
  · refine .all (n := k + (8 + 4 * n)) (fun e he => ?_) (by omega)
    rcases List.mem_append.1 he with he | he
    · exact Piece.guards hx (by omega) e he
    · rw [List.mem_singleton.1 he]
      refine .cmp (.function (n := n) (g := .element backward x) (fun _ => trivial) (fun a ha => ?_) le_rfl)
        (.int (n := 0)) (by omega)
      rcases List.mem_append.1 ha with ha | ha
      · exact hb a ha
      · rwa [List.mem_singleton.1 ha]

theorem Cumulative.pieces_encoding {start duration finish demand : List Expr} {capacity : Expr} (hk : k ≤ 1)
    (hs : ∀ a ∈ start, a.Measured V typed t k n) (hd : ∀ a ∈ duration, a.Measured V typed t k n)
    (he : ∀ a ∈ finish, a.Measured V typed t k n) (hr : ∀ a ∈ demand, a.Measured V typed t k n)
    (hc : capacity.Measured V typed t k n) :
    ∀ e ∈ encoding start duration finish demand capacity, e.Piece V typed t k (39 + 8 * n) := by
  simp only [encoding, List.forall_mem_append, List.forall_mem_map]
  constructor
  · rintro ⟨s, d, e⟩ hp
    obtain ⟨hps, hp⟩ := List.of_mem_zip hp
    obtain ⟨hpd, hpe⟩ := List.of_mem_zip hp
    exact .cmp (Measured.plus (hs s hps) (hd d hpd)) (he e hpe) (by omega)
  · intro time _
    have hterms : ∀ a ∈ (start.zip (finish.zip demand)).map fun p => Expr.mul p.2.2 (runsAt p.1 p.2.1 time),
        a.Measured V typed t k (3 * k + n) := by
      rw [List.forall_mem_map]
      rintro ⟨s, e, r⟩ hp
      obtain ⟨hps, hp⟩ := List.of_mem_zip hp
      obtain ⟨hpe, hpr⟩ := List.of_mem_zip hp
      have hrun : (runsAt s e time).Measured V typed t k (k + (k + n)) := by
        refine .and (fun _ => by simp [Expr.isBool]) ?_
        simp only [List.forall_mem_cons, List.not_mem_nil, false_imp_iff, implies_true, and_true]
        exact ⟨.cmp (hs s hps) (.int (n := 0)) le_rfl, .cmp (he e hpe) (.int (n := 0)) le_rfl⟩
      exact (Measured.mul ((hr r hpr).mono (by omega)) hrun).mono (by omega)
    exact .cmp (.sum hterms) hc (by omega)

theorem Xor.pieces_decompose (hk : k ≤ 1) (has : ∀ a ∈ as, a.Measured V typed t k n) :
    ∀ e ∈ (decompose as).toList, e.Piece V typed t k (15 + 2 * as.length + 8 * n) := by
  have fold : ∀ (bs : List Expr) (acc : Expr) (m : Nat), (∀ b ∈ bs, b.Measured V typed t k n) →
      acc.Piece V typed t k (n + m) →
      (bs.foldl (fun acc a => .cmp .eq (.sum [acc, a]) (.int 1)) acc).Piece V typed t k
        (n + m + 2 * bs.length) := by
    intro bs
    induction bs with
    | nil => exact fun acc m _ h => h
    | cons b bs ih =>
      intro acc m hbs h
      obtain ⟨hb, hbs⟩ := List.forall_mem_cons.1 hbs
      have hsum : (Expr.sum [acc, b]).Measured V typed t k (k + (n + m)) := by
        refine .sum ?_
        simp only [List.forall_mem_cons, List.not_mem_nil, false_imp_iff, implies_true, and_true]
        exact ⟨h.measured, hb.mono (by omega)⟩
      refine (ih _ (m + 2) hbs (.cmp hsum (.int (n := 0)) (by omega))).mono ?_
      rw [List.length_cons]
      omega
  intro e he
  rw [List.mem_singleton.1 he]
  refine (fold (as.drop 2) _ 2 (fun a ha => has a (List.mem_of_mem_drop ha)) ?_).mono ?_
  · exact .cmp (.sum fun a ha => has a (List.mem_of_mem_take ha)) (.int (n := 0)) (by omega)
  · rw [List.length_drop]
    omega

theorem Member.pieces_target {x : Expr} {defining : List Expr} (h : Target σ a x defining τ)
    (hnew : σ.Adds V τ) (ha : a.Measured V typed t k n) :
    x.Measured V typed t k n ∧ ∀ e ∈ defining, e.Piece V typed t k (k + n) := by
  cases h with
  | simple => exact ⟨ha, nofun⟩
  | fresh _ hx =>
    have hv := hnew.creates hx
    exact ⟨.var hv, List.forall_mem_singleton.2 (.cmp (.var (n := 0) hv) ha (by omega))⟩

/-- Every part of a decomposition is nested less deeply than the constraint. -/
theorem Constraint.Decomposes.pieces {c : Constraint Expr} {d : Decomposition} (h : c.Decomposes σ d τ)
    (hk : k ≤ 1) (hc : typed → c.Formed) (hnew : σ.Adds V τ) (ha : ∀ a ∈ c.args, a.Measured V typed t k n) :
    ∀ e ∈ d.toList, e.Piece V typed t k (c.weight + 8 * n - 1) := by
  have direct {es : List Expr} {l : Nat} (h : ∀ e ∈ es, e.Piece V typed t k l) :
      ∀ e ∈ (Decomposition.direct es).toList, e.Piece V typed t k l :=
    fun e he => h e (Decomposition.mem_direct.1 he)
  cases h with
  | allDifferent as =>
    refine direct (List.forall_mem_map.2 fun p hp => ?_)
    obtain ⟨h₁, h₂⟩ := mem_of_pairs hp
    exact .cmp (ha _ h₁) (ha _ h₂) (by simp only [weight]; omega)
  | allDifferentExceptZero as =>
    refine direct (List.forall_mem_map.2 fun p hp => ?_)
    obtain ⟨h₁, h₂⟩ := mem_of_pairs hp
    refine .implies (fun _ => ⟨rfl, rfl⟩) (.cmp (ha _ h₁) (ha _ h₂) le_rfl) (.cmp (ha _ h₁) (.int (n := 0)) le_rfl) ?_
    simp only [weight]
    omega
  | allEqual as | monotone order as =>
    refine direct (List.forall_mem_map.2 fun p hp => ?_)
    obtain ⟨h₁, h₂⟩ := mem_of_neighbours hp
    exact .cmp (ha _ h₁) (ha _ h₂) (by simp only [weight]; omega)
  | circuit succ hcreates hlength hbounds =>
    refine fun e he => (Circuit.pieces_encoding hk ha ?_ e he).mono (by simp only [weight]; omega)
    exact List.forall_mem_map.2 fun x hx => .var (hnew.createsAll hcreates hx)
  | subcircuit succ hstart hb hsb hcreates hlength hbounds =>
    have hvisits : ∀ v ∈ _, V v := fun v hv =>
      hnew v (hstart.grows.size_le.trans (hcreates.le_index hv)) (hcreates.owns hv)
    have hstart := hnew _ hstart.index_eq.ge (hstart.owns.mono hcreates.grows)
    refine fun e he => (Subcircuit.pieces_encoding hk (fun ht => ?_) ha (.var hstart) ?_ e he).mono
      (by simp only [weight]; omega)
    · rintro rfl
      exact absurd (hc ht) (by simp [Formed])
    · exact List.forall_mem_map.2 fun x hx => .var (hvisits x hx)
  | subcircuitThrough succ start =>
    refine direct (List.forall_mem_cons.2 ⟨?_, List.forall_mem_map.2 fun s hs => ?_⟩)
    · exact .constraint (fun ht => (hc ht).1) ha (by simp only [weight]; omega)
    · exact .cmp (ha s (List.mem_of_getElem? (Option.mem_toList.1 hs))) (.int (n := 0)) (by simp only [weight]; omega)
  | inverse fs bs =>
    refine direct (List.forall_mem_singleton.2
      (.all (n := 8 + 2 * k + 4 * n) (List.forall_mem_map.2 fun p hp => ?_) ?_))
    · exact Inverse.piece_link (fun b hb => ha b (List.mem_append_right _ hb))
        (ha _ (List.mem_append_left _ (mem_of_indexed hp)))
    · simp only [weight]
      omega
  | cumulative ss ds es rs capacity =>
    refine direct fun e he => (Cumulative.pieces_encoding hk (fun a h => ha a (by simp [args, h]))
      (fun a h => ha a (by simp [args, h])) (fun a h => ha a (by simp [args, h]))
      (fun a h => ha a (by simp [args, h])) (ha capacity (by simp [args])) e he).mono ?_
    simp only [weight]
    omega
  | cardinality xs vs ns =>
    refine direct (List.forall_mem_map.2 ?_)
    rintro ⟨v, i⟩ hp
    obtain ⟨hv, hi⟩ := List.of_mem_zip hp
    refine .cmp (.function (g := .count xs v) (fun _ => trivial) (fun a h => ha a ?_) le_rfl)
      (ha i (by simp [args, hi])) (by simp only [weight]; omega)
    rcases List.mem_append.1 h with h | h
    · simp [args, h]
    · rw [List.mem_singleton.1 h]
      simp [args, hv]
  | table xs rows =>
    refine direct (List.forall_mem_singleton.2 (.any (n := k + (k + n)) (List.forall_mem_map.2 fun row _ => ?_) ?_))
    · refine .all (n := k + n) (List.forall_mem_map.2 fun p hp => ?_) le_rfl
      exact .cmp (ha _ (List.of_mem_zip hp).1) (.int (n := 0)) le_rfl
    · simp only [weight]
      omega
  | memberOfSet a set htarget =>
    obtain ⟨hx, hdef⟩ := Member.pieces_target htarget hnew (ha a (by simp [args]))
    refine List.forall_mem_append.2 ⟨List.forall_mem_map.2 fun v _ => ?_, fun e he => (hdef e he).mono ?_⟩
    · exact .cmp hx (.int (n := 0)) (by simp only [weight]; omega)
    · simp only [weight]
      omega
  | memberOfList a vs htarget =>
    obtain ⟨hx, hdef⟩ := Member.pieces_target htarget hnew (ha a (by simp [args]))
    refine List.forall_mem_append.2 ⟨List.forall_mem_singleton.2 (.any (n := k + n + n)
      (List.forall_mem_map.2 fun v hv => ?_) ?_), fun e he => (hdef e he).mono ?_⟩
    · exact .cmp hx (ha v (List.mem_cons_of_mem _ hv)) le_rfl
    all_goals
      simp only [weight]
      omega
  | xor as => exact fun e he => (Xor.pieces_decompose hk ha e he).mono (by simp only [weight, args]; omega)
  | ifThenElse c x y =>
    have hcs := ha c (by simp [args])
    have hnegated := hcs.negated fun ht => (hc ht).1
    refine direct ?_
    simp only [List.forall_mem_cons, List.not_mem_nil, false_imp_iff, implies_true, and_true]
    refine ⟨.implies (fun ht => ⟨(hc ht).1, (hc ht).2.1⟩) hcs (ha x (by simp [args])) ?_,
      .implies (fun ht => ⟨Expr.isBool_negated (hc ht).1 (hcs.proper ht), (hc ht).2.2⟩) hnegated
        (ha y (by simp [args])) ?_⟩
    all_goals
      simp only [weight]
      omega

theorem Extremum.pieces {z : Variable} {side : Relation} (hz : V z) (has : ∀ a ∈ as, a.Measured V typed t k n)
    (hl : k + k + n ≤ l) : ∀ e ∈ [Expr.all (as.map fun a => .cmp side (.var z) a),
      Expr.any (as.map fun a => .cmp .eq (.var z) a)], e.Piece V typed t k l := by
  have hcmp (r : Relation) : ∀ e ∈ as.map fun a => Expr.cmp r (.var z) a, e.Piece V typed t k (k + n) :=
    List.forall_mem_map.2 fun a ha => .cmp (.var (n := 0) hz) (has a ha) (by omega)
  simp only [List.forall_mem_cons, List.not_mem_nil, false_imp_iff, implies_true, and_true]
  exact ⟨.all (hcmp side) (by omega), .any (hcmp .eq) (by omega)⟩

/-- Every part of a decomposition is nested less deeply than the comparison,
and the definitions less deeply than the function. -/
theorem Function.Decomposes.pieces {g : Function Expr} {r : Relation} {rhs : Expr} {d : Decomposition}
    (h : g.Decomposes σ r rhs d τ) (hk : k ≤ 1) (hnew : σ.Adds V τ) (ha : ∀ a ∈ g.args, a.Measured V typed t k n)
    (hr : rhs.Measured V typed t k m) :
    (∀ e ∈ d.constraining, e.Piece V typed t k (4 + 2 * n + m)) ∧
      ∀ e ∈ d.defining, e.Piece V typed t k (4 + 2 * n) := by
  cases h with
  | absSame h =>
    exact ⟨List.forall_mem_singleton.2 (.cmp (ha _ (List.mem_singleton_self _)) hr (by omega)), nofun⟩
  | absOpposite h hy =>
    exact ⟨List.forall_mem_singleton.2 (.cmp (.minus hy (ha _ (List.mem_singleton_self _))) hr (by omega)), nofun⟩
  | abs hz hzb hbounds hy =>
    have hx := ha _ (List.mem_singleton_self _)
    have hz : (Expr.var _).Measured V typed t k 0 := .var (hnew.creates hz)
    simp only [List.forall_mem_cons, List.not_mem_nil, false_imp_iff, implies_true, and_true]
    refine ⟨.cmp hz hr (by omega), ?_, ?_⟩
    · exact .implies (fun _ => ⟨rfl, rfl⟩) (.cmp hx (.int (n := 0)) le_rfl) (.cmp hx hz le_rfl) (by omega)
    · exact .implies (fun _ => ⟨rfl, rfl⟩) (.cmp hx (.int (n := 0)) le_rfl) (.cmp (.minus hy hx) hz le_rfl) (by omega)
  | minimum as hz hzb hbounds | maximum as hz hzb hbounds =>
    have hz := hnew.creates hz
    exact ⟨List.forall_mem_singleton.2 (.cmp (.var (n := 0) hz) hr (by omega)), Extremum.pieces hz ha (by omega)⟩
  | count as v =>
    refine ⟨List.forall_mem_singleton.2 (.cmp (.sum (n := k + n + n) (List.forall_mem_map.2 fun a h => ?_)) hr
      (by omega)), nofun⟩
    exact .cmp (ha a (List.mem_append_left _ h)) (ha v (List.mem_append_right _ (List.mem_singleton_self v))) le_rfl
  | distinct as =>
    refine ⟨List.forall_mem_singleton.2 (.cmp (.sum (n := k + (k + n)) (List.forall_mem_map.2 fun i _ => ?_)) hr
      (by omega)), nofun⟩
    exact .any (fun _ => by simp [Expr.isBool])
      (List.forall_mem_map.2 fun a h => .cmp (ha a h) (.int (n := 0)) le_rfl) le_rfl
  | element as i =>
    have hi := ha i (List.mem_append_right _ (List.mem_singleton_self i))
    have entry {a : Expr} (h : a ∈ as) : (Expr.cmp r a rhs).Piece V typed t k (k + n + m) :=
      .cmp (ha a (List.mem_append_left _ h)) hr le_rfl
    refine ⟨fun e he => ?_, nofun⟩
    change e ∈ Element.encoding as i r rhs at he
    unfold Element.encoding at he
    split at he
    · rw [List.mem_singleton.1 he]
      cases ha : entryAt? as _ with
      | none => exact .bool
      | some a => exact (entry (mem_of_entryAt? ha)).mono (by omega)
    · rcases List.mem_append.1 he with he | he
      · exact Piece.guards hi (by omega) e he
      · obtain ⟨p, hp, rfl⟩ := List.mem_map.1 he
        exact .implies (fun _ => ⟨rfl, rfl⟩) (.cmp hi (.int (n := 0)) le_rfl)
          (entry (mem_of_indexed (List.mem_of_mem_filter hp))).measured (by omega)

structure Expr.IsPart (V : Variable → Prop) (t : Prop) (k n : Nat) (e : Expr) : Prop where
  isBool : e.isBool
  isNot : e.isNot = false
  small : e.Small V t k n

theorem Expr.Piece.isPart {e : Expr} (h : e.Piece V True t k n) : e.IsPart V t k n :=
  ⟨h.isBool trivial, h.isNot, h.measured.small⟩

theorem Expr.IsPart.piece {e : Expr} (h : e.IsPart V t k n) : e.Piece V True t k n :=
  ⟨fun _ => h.isBool, h.isNot, h.small.measured⟩

theorem Expr.IsPart.mono {e : Expr} (h : e.IsPart V t k m) (hmn : m ≤ n) : e.IsPart V t k n := (h.piece.mono hmn).isPart

theorem Expr.isPart_cmp {r : Relation} (ha : a.Small V t k m) (hb : b.Small V t k n) (hl : k + m + n ≤ l) :
    (cmp r a b).IsPart V t k l := (Piece.cmp ha.measured hb.measured hl).isPart

theorem Expr.isPart_all (h : ∀ a ∈ as, a.IsPart V t k n) (hl : k + n ≤ l) : (all as).IsPart V t k l :=
  (Piece.all (fun a ha => (h a ha).piece) hl).isPart

theorem Constraint.Decomposes.parts {c : Constraint Expr} {d : Decomposition} (h : c.Decomposes σ d τ) (hk : k ≤ 1)
    (hc : c.Formed) (ha : ∀ a ∈ c.args, a.Small V t k n) :
    ∀ e ∈ d.toList, e.IsPart (fun x => V x ∨ τ.Owns x) t k (c.weight + 8 * n - 1) := fun e he =>
  (h.pieces hk (fun _ => hc) (fun _ _ => .inr) (fun a h => ((ha a h).imp fun _ => .inl).measured) e he).isPart

theorem Function.Decomposes.parts {g : Function Expr} {r : Relation} {rhs : Expr} {d : Decomposition}
    (h : g.Decomposes σ r rhs d τ) (hk : k ≤ 1) (ha : ∀ a ∈ g.args, a.Small V t k n) (hr : rhs.Small V t k m) :
    (∀ e ∈ d.constraining, e.IsPart (fun x => V x ∨ τ.Owns x) t k (k + 7 + 4 * n + m)) ∧
      ∀ e ∈ d.defining, e.IsPart (fun x => V x ∨ τ.Owns x) t k (7 + 4 * n) := by
  obtain ⟨hc, hd⟩ := h.pieces hk (V := fun x => V x ∨ τ.Owns x) (fun _ _ => .inr)
    (fun a h => ((ha a h).imp fun _ => .inl).measured) (hr.imp fun _ => .inl).measured
  exact ⟨fun e he => ((hc e he).mono (by omega)).isPart, fun e he => ((hd e he).mono (by omega)).isPart⟩

end ConstraintModel
