import ConstraintModel.Proofs.Chains
import ConstraintModel.Proofs.Agreement
import Mathlib

namespace ConstraintModel

open ConstraintModel.Expr (num)

namespace Circuit

variable {q : Prop} {w : World} {τ : Store} {succ : List Expr} {order : List Variable} {s : Assignment}

theorem getLast?_iterate {α : Type} (f : α → α) (a : α) {n : Nat} (hn : 0 < n) :
    (List.iterate f (f a) n).getLast? = some (f^[n] a) := by
  obtain ⟨n, rfl⟩ := Nat.exists_eq_succ_of_ne_zero hn.ne'
  rw [List.getLast?_eq_getElem?, List.length_iterate, List.getElem?_iterate _ _ _ _ (by omega),
    Nat.succ_sub_one, Function.iterate_succ_apply]

/-- The nodes after one and more steps from position 0 are the values of the
auxiliary variables. -/
theorem refines_tour (hw : w.Inhabited) (hsucc : ∀ e ∈ succ, e.Sound q w) (hne : succ ≠ [])
    (hcreates : w.store.CreatesAll order τ) (hlength : order.length = succ.length)
    (horder : ∀ x ∈ order, ¬x.isBool ∧ x.bounds = hullAround succ (.point 0)) :
    ∃ w' : World, w'.store = τ ∧ w'.constraints = w.constraints ++
        (encoding succ (hullAround succ (.point 0)) (order.map .var)).defining ∧ w.Refines True w' ∧
      ∀ t, w'.Admits t → order.map (fun x => (Expr.var x).num t) =
        List.iterate (follow (succ.map (num t))) (follow (succ.map (num t)) 0) succ.length := by
  obtain ⟨e, es, rfl⟩ := List.exists_cons_of_ne_nil hne
  obtain ⟨x, xs, rfl⟩ := List.exists_cons_of_length_eq_add_one hlength
  have he := hsucc e (List.mem_cons_self ..)
  have hzero := subset_hullAround (e :: es) (.point 0)
  obtain ⟨w', hτ, hw', hr, hwalk⟩ := refines_walk hw (fun a ha => ⟨hsucc a ha, range_subset_hullAround ha _⟩)
    (hzero.1.trans hzero.2) he (range_subset_hullAround (List.mem_cons_self ..) _) hcreates horder
  refine ⟨w', hτ, hw', hr, fun t ht => ?_⟩
  rw [hwalk t ht, ← hlength]
  simp [follow, entryAt?]

theorem sound_encoding (hsucc : ∀ e ∈ succ, e.Sound q w) (horder : ∀ x ∈ order, w.store.Owns x ∧
      x.bounds = hullAround succ (.point 0)) :
    ∀ a ∈ (encoding succ (hullAround succ (.point 0)) (order.map .var)).toList, a.isBool ∧ a.Sound q w := by
  have hvars : ∀ x ∈ order, (Expr.var x).Sound q w := fun x hx => Expr.sound_var (horder x hx).1
  have hzero := subset_hullAround succ (.point 0)
  refine List.forall_mem_append.2 ⟨?_, List.forall_mem_append.2
    ⟨?_, sound_chain hsucc (hzero.1.trans hzero.2) horder⟩⟩
  · simp only [encoding, List.mem_append, List.mem_flatMap, List.mem_cons, List.not_mem_nil, or_false,
      List.mem_map, Option.mem_toList, List.getLast?_map, Option.map_eq_some_iff]
    rintro a ((⟨e, he, ha⟩ | rfl | rfl) | ⟨_, ⟨x, hx, rfl⟩, rfl⟩)
    · exact Expr.sound_guards (hsucc e he) a ha
    · exact ⟨rfl, Expr.sound_constraint trivial trivial hsucc⟩
    · exact ⟨rfl, Expr.sound_constraint trivial trivial (List.forall_mem_map.2 hvars)⟩
    · exact ⟨rfl, Expr.sound_cmp (hvars x (List.mem_of_getLast? hx)) Expr.sound_int⟩
  · simp only [List.mem_map, Option.mem_toList, Prod.exists, forall_exists_index, and_imp]
    rintro _ o e hoe rfl
    obtain ⟨ho, he⟩ := List.of_mem_zip (List.mem_of_mem_head? hoe)
    obtain ⟨x, hx, rfl⟩ := List.mem_map.1 ho
    exact ⟨rfl, Expr.sound_cmp (hvars x hx) (hsucc e he)⟩

/-- The decomposition of a circuit constraint follows the successors from
position 0. -/
theorem replaces (hw : w.Inhabited) (hsucc : ∀ e ∈ succ, e.Sound q w) (hne : succ ≠ [])
    (hcreates : w.store.CreatesAll order τ) (hlength : order.length = succ.length)
    (horder : ∀ x ∈ order, ¬x.isBool ∧ x.bounds = hullAround succ (.point 0)) :
    (encoding succ (hullAround succ (.point 0)) (order.map .var)).Replaces q w τ (.constraint (.circuit succ)) := by
  have hle := World.le_widen hcreates.grows
  have hsounds := sound_encoding (fun e he => (hsucc e he).mono hle)
    fun x hx => ⟨hcreates.owns hx, (horder x hx).2⟩
  obtain ⟨w', rfl, hw', hr, htour⟩ := refines_tour hw hsucc hne hcreates hlength horder
  refine ⟨hcreates.grows, fun a ha => (hsounds a ha).1, fun a ha => (hsounds a ha).2,
    w', rfl, hw', hr, fun t ht => ?_⟩
  have hvars : ∀ x ∈ order, (Expr.var x).Sound q w' := fun x hx => Expr.sound_var (hcreates.owns hx)
  have hvalued : ∀ e ∈ succ, e.Valued t := fun e he => (hsucc e he).valued (hr.sound t ht)
  have hguards : (∀ e ∈ succ, ∀ g ∈ e.guards succ.length, g.Holds t) ↔
      ∀ v ∈ succ.map (num t), 0 ≤ v ∧ v < (succ.map (num t)).length := by
    rw [List.forall_mem_map, List.length_map]
    exact forall₂_congr fun e he =>
      Expr.holds_guards (hvalued e he) ((hsucc e he).num_mem_range (hr.sound t ht))
  have horder : (order.map Expr.var).map (num t) =
      List.iterate (follow (succ.map (num t))) (follow (succ.map (num t)) 0) succ.length := by
    rw [List.map_map]
    exact htour t ht
  have hlast : (∀ o ∈ (order.map Expr.var).getLast?, (Expr.cmp .eq o (.int 0)).Holds t) ↔
      (follow (succ.map (num t)))^[succ.length] 0 = 0 := by
    have hend := getLast?_iterate (follow (succ.map (num t))) 0 (List.length_pos_iff.2 hne)
    rw [← horder, List.getLast?_map] at hend
    obtain ⟨o, ho, hnum⟩ := Option.map_eq_some_iff.1 hend
    obtain ⟨x, hx, rfl⟩ := List.mem_map.1 (List.mem_of_getLast? ho)
    have hint : (Expr.int 0).Valued t := Expr.valued_of_eq (Expr.exact_int ..)
    rw [ho, ← hnum]
    simp [Expr.holds_cmp_num ((hvars x hx).valued ht) hint, Relation.holds]
  have hcircuit : (Expr.constraint (.circuit succ)).Holds t ↔ holds (succ.map (num t)) := by
    rw [Expr.Holds, Expr.exact_circuit hvalued]
    cases holds (succ.map (num t)) <;> decide
  rw [hcircuit, holds_iff_tour (by simpa using hne), ← hguards, List.length_map, ← hlast, ← horder,
    ← Expr.holds_allDifferent hvalued,
    ← Expr.holds_allDifferent (List.forall_mem_map.2 fun x hx => (hvars x hx).valued ht)]
  simp only [encoding, List.forall_mem_append, List.forall_mem_flatMap, List.forall_mem_map,
    List.forall_mem_cons, Option.mem_toList, List.not_mem_nil, false_imp_iff, implies_true, and_true,
    and_assoc, Option.mem_def]

end Circuit

/-- A circuit constraint holds exactly for the Hamiltonian cycles, and what it
is decomposed into has the same value and can be negated. -/
theorem circuit_isHamiltonian_reifies {σ : Store} {succ : List Expr} (hσ : σ.Valid) (hlength : 2 ≤ succ.length)
    (hsucc : ∀ e ∈ succ, e.TermIn σ) :
    (∀ s, s.Within σ → ∃ values : List Int, succ.map (Expr.exact s) = values.map some ∧
      (Expr.constraint (.circuit succ)).value.Computes s ((Expr.constraint (.circuit succ)).exact s) ∧
      ((Expr.constraint (.circuit succ)).exact s = some 1 ↔ Circuit.IsHamiltonian values) ∧
      ((Expr.constraint (.circuit succ)).exact s = some 0 ↔ ¬Circuit.IsHamiltonian values)) ∧
    (Constraint.circuit succ).decompose.Sat True σ fun d τ =>
      τ.size = σ.size + succ.length ∧ d.Reifies σ τ (.constraint (.circuit succ)) := by
  have hsound : ∀ e ∈ succ, e.Sound True (World.bare σ) :=
    fun e he => (hsucc e he).total.sound ((hsucc e he).proper hσ)
  have hne : succ ≠ [] := List.ne_nil_of_length_pos (by omega)
  constructor
  · intro s hs
    have hvalued : ∀ e ∈ succ, e.Valued s := fun e he => (hsound e he).valued (World.admits_bare.2 hs)
    refine ⟨succ.map (num s), ?_, Expr.computes_exact _ s, ?_⟩
    · rw [List.map_map]
      exact List.map_congr_left fun e he => (hvalued e he).exact_eq
    · rw [Expr.exact_circuit hvalued, ← Circuit.holds_iff_isHamiltonian (by simpa using hne)]
      cases Circuit.holds (succ.map (num s)) <;> decide
  · refine (Constraint.decompose_sat (.circuit succ)).imp fun d τ _ hd => ?_
    cases hd with
    | circuit _ hcreates horder hbounds =>
    refine ⟨by rw [hcreates.size_eq, horder], ?_⟩
    exact Decomposition.Replaces.reifies
      (fun hs => Circuit.replaces (World.inhabited_bare hs) hsound hne hcreates horder hbounds)
      (Expr.sound_constraint hlength trivial hsound) rfl

def looseStore : Store := ⟨#[⟨⟨-1, 2⟩, .int, .user⟩, ⟨⟨-1, 2⟩, .int, .user⟩]⟩

theorem looseStore_has {i : Nat} (hi : i < 2) : looseStore.Has ⟨i, ⟨-1, 2⟩, .int⟩ := by
  match i, hi with
  | 0, _ | 1, _ => exact ⟨.user, rfl⟩

def looseSuccessors : List Expr := [.var ⟨0, ⟨-1, 2⟩, .int⟩, .var ⟨1, ⟨-1, 2⟩, .int⟩]

def swapped : Assignment := ⟨fun i => some (1 - i)⟩

theorem circuit_swapped : looseStore.Valid ∧ 2 ≤ looseSuccessors.length ∧
    (∀ e ∈ looseSuccessors, e.TermIn looseStore) ∧ swapped.Within looseStore ∧
    Circuit.IsHamiltonian [1, 0] ∧
    ∃ d τ, (Constraint.circuit looseSuccessors).decompose looseStore = .ok d τ ∧ τ.size = 4 ∧
      d.Reifies looseStore τ (.constraint (.circuit looseSuccessors)) := by
  have hvalid : looseStore.Valid := by
    rintro (_ | _ | i) d h hk <;> simp [looseStore] at h <;> subst h <;> cases hk
  have hterms : ∀ e ∈ looseSuccessors, e.TermIn looseStore := by
    simp only [looseSuccessors, List.forall_mem_cons, List.not_mem_nil, false_imp_iff, implies_true, and_true]
    constructor <;> refine ⟨⟨?_, ?_⟩, ?_, ?_, ?_⟩ <;>
      simp [Expr.CallFree, Expr.OperandsBoolean, Expr.Built, Expr.vars, Expr.occurrences_var, looseStore_has]
  have hwithin : swapped.Within looseStore := by
    rintro (_ | _ | i) d h <;> simp [looseStore] at h <;> subst h <;> simp [swapped, Bounds.mem_iff]
  obtain ⟨hvalue, hdecompose⟩ := circuit_isHamiltonian_reifies hvalid (by decide) hterms
  refine ⟨hvalid, by decide, hterms, hwithin, ?_, ?_⟩
  · obtain ⟨values, hvalues, -, hholds, -⟩ := hvalue swapped hwithin
    have hexact : looseSuccessors.map (Expr.exact swapped) = [1, 0].map some := by
      simp [looseSuccessors, swapped, Assignment.value?]
    obtain rfl : values = [1, 0] := List.map_injective_iff.2 (Option.some_injective _) (hvalues.symm.trans hexact)
    refine hholds.1 ?_
    rw [Expr.exact_constraint, Constraint.map, hexact]
    decide
  · obtain ⟨d, τ, hrun⟩ : ∃ d τ, (Constraint.circuit looseSuccessors).decompose looseStore = .ok d τ :=
      ⟨_, _, by cbv⟩
    obtain ⟨-, hsize, hreifies⟩ := hdecompose.ok hrun
    exact ⟨d, τ, hrun, hsize, hreifies⟩

end ConstraintModel
