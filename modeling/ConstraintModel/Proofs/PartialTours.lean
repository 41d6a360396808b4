import ConstraintModel.Proofs.Subcircuits
import Mathlib.GroupTheory.Perm.Cycle.Type

namespace ConstraintModel

open ConstraintModel.Expr (num)

namespace Subcircuit

open Circuit (follow_getElem)

variable {succ : List Int} {start : Int}

def Permutes (succ : List Int) (f : Equiv.Perm (Fin succ.length)) : Prop := ∀ i, succ[i] = (f i : Int)

/-- The values are a permutation of the positions with at most one cycle of a
length greater than one. -/
def IsPartialTour (succ : List Int) : Prop := ∃ f, Permutes succ f ∧ f.cycleType.card ≤ 1

theorem exists_permutes_iff : (∃ f, Permutes succ f) ↔ (∀ v ∈ succ, InRange succ v) ∧ succ.Nodup := by
  constructor
  · rintro ⟨f, hf⟩
    constructor
    · intro v hv
      obtain ⟨i, hi, rfl⟩ := List.getElem_of_mem hv
      have hvalue : succ[i] = (f ⟨i, hi⟩ : Int) := hf ⟨i, hi⟩
      rw [hvalue]
      exact ⟨Int.natCast_nonneg _, Int.ofNat_lt.2 (f ⟨i, hi⟩).2⟩
    · refine List.nodup_iff_injective_get.2 fun i j hij => f.injective (Fin.ext ?_)
      have hvalues : (f i : Int) = f j := by
        rw [← hf i, ← hf j]
        exact hij
      exact_mod_cast hvalues
  · rintro ⟨hpos, hnodup⟩
    have hvalue (i : Fin succ.length) : InRange succ succ[i] := hpos _ (List.getElem_mem _)
    let g (i : Fin succ.length) : Fin succ.length := ⟨succ[i].toNat, by have := hvalue i; unfold InRange at this; omega⟩
    have hg (i : Fin succ.length) : ((g i : Nat) : Int) = succ[i] := Int.toNat_of_nonneg (hvalue i).1
    have hinj : Function.Injective g := by
      intro i j hij
      have hvalues : succ[i] = succ[j] := by rw [← hg i, ← hg j, hij]
      exact Fin.ext ((hnodup.getElem_inj_iff).1 hvalues)
    exact ⟨Equiv.ofBijective g (Finite.injective_iff_bijective.1 hinj), fun i => (hg i).symm⟩

theorem Permutes.follow_eq {f : Equiv.Perm (Fin succ.length)} (hf : Permutes succ f) (i : Fin succ.length) :
    follow succ i = (f i : Int) := (follow_getElem i.2).trans (hf i)

theorem Permutes.iterate {f : Equiv.Perm (Fin succ.length)} (hf : Permutes succ f) (i : Fin succ.length) (k : Nat) :
    (follow succ)^[k] i = ((f ^ k) i : Int) := by
  induction k with
  | zero => rfl
  | succ k ih =>
    rw [Function.iterate_succ_apply', ih, pow_succ', Equiv.Perm.mul_apply, hf.follow_eq]

/-- There is at most one cycle of a length greater than one if the elements that
move are all on the same cycle. -/
theorem card_cycleType_le_one_iff {α : Type} [Fintype α] [DecidableEq α] {f : Equiv.Perm α} :
    f.cycleType.card ≤ 1 ↔ ∀ x y, f x ≠ x → f y ≠ y → f.SameCycle x y := by
  constructor
  · intro h x y hx hy
    have hcycle : f.IsCycle := by
      rw [← Equiv.Perm.card_cycleType_eq_one]
      have hpos : 0 < f.cycleType.card := Equiv.Perm.card_cycleType_pos.2 fun h1 => hx (by rw [h1]; rfl)
      omega
    exact hcycle.sameCycle hx hy
  · intro h
    by_cases h1 : f = 1
    · rw [Equiv.Perm.card_cycleType_eq_zero.2 h1]
      exact Nat.zero_le 1
    · obtain ⟨x, hx⟩ : ∃ x, f x ≠ x := by
        by_contra hall
        exact h1 (Equiv.ext fun x => by_contra fun hx => hall ⟨x, hx⟩)
      have hcycle : f.IsCycle := ⟨x, hx, fun y hy => h x y hx hy⟩
      exact (Equiv.Perm.card_cycleType_eq_one.2 hcycle).le

section

variable {f : Equiv.Perm (Fin succ.length)} (hf : Permutes succ f) (hstart : (starts succ).min? = some start)

include hf hstart

/-- If a position is not its own successor, the walk starts at such a position. -/
theorem exists_start {i : Fin succ.length} (hi : f i ≠ i) : ∃ p : Fin succ.length, start = (p : Int) ∧ f p ≠ p := by
  have moves (p : Fin succ.length) : follow succ p ≠ p ↔ f p ≠ p := by
    rw [hf.follow_eq, ne_eq, ne_eq, Int.natCast_inj, Fin.val_inj]
  have hle : start ≤ i := le_of_min?_starts hstart ⟨Int.natCast_nonneg _, Int.ofNat_lt.2 i.2⟩ ((moves i).2 hi)
  rcases start_of_min?_starts hstart with hlast | ⟨⟨hpos, hlt⟩, hne⟩
  · have := i.2
    omega
  · obtain ⟨p, rfl⟩ := Int.eq_ofNat_of_zero_le hpos
    exact ⟨⟨p, Int.ofNat_lt.1 hlt⟩, rfl, (moves ⟨p, Int.ofNat_lt.1 hlt⟩).1 hne⟩

/-- The walk visits all positions that are not their own successors if they are
on one cycle. -/
theorem visits_iff_cycleType : (∀ q ∈ indexed succ, q.2 ≠ q.1 → q.1 ∈ List.iterate (follow succ) start succ.length) ↔
    f.cycleType.card ≤ 1 := by
  have hvalue (i : Fin succ.length) : ((i : Int), (f i : Int)) ∈ indexed succ :=
    mem_indexed_iff.2 ⟨⟨Int.natCast_nonneg _, Int.ofNat_lt.2 i.2⟩, (hf.follow_eq i).symm⟩
  rw [card_cycleType_le_one_iff]
  constructor
  · intro h
    have hcycle {p i : Fin succ.length} (hp : start = (p : Int)) (hi : f i ≠ i) : f.SameCycle p i := by
      have hne : (f i : Int) ≠ i := by rwa [ne_eq, Int.natCast_inj, Fin.val_inj]
      obtain ⟨k, -, hk⟩ := List.mem_iterate.1 (h _ (hvalue i) hne)
      rw [hp, hf.iterate, Int.natCast_inj, Fin.val_inj] at hk
      exact ⟨k, hk.symm⟩
    intro x y hx hy
    obtain ⟨p, hp, -⟩ := exists_start hf hstart hx
    exact (hcycle hp hx).symm.trans (hcycle hp hy)
  · intro h q hq hne
    obtain ⟨⟨hpos, hlt⟩, hsucc⟩ := mem_indexed_iff.1 hq
    obtain ⟨i, hi⟩ : ∃ i : Fin succ.length, q.1 = (i : Int) := ⟨⟨q.1.toNat, by omega⟩, (Int.toNat_of_nonneg hpos).symm⟩
    have hmoves : f i ≠ i := by
      intro hfixed
      rw [hi, hf.follow_eq, hfixed] at hsucc
      exact hne (hsucc.trans hi.symm)
    obtain ⟨p, rfl, hp⟩ := exists_start hf hstart hmoves
    obtain ⟨k, hk, hpow⟩ := (h p i hp hmoves).exists_pow_eq_of_mem_support (Equiv.Perm.mem_support.2 hp)
    refine List.mem_iterate.2 ⟨k, hk.trans_le ?_, ?_⟩
    · exact (Finset.card_le_univ _).trans_eq (Fintype.card_fin _)
    · rw [hf.iterate, hpow, hi]

end

/-- The evaluation recognises exactly the permutations with at most one cycle
of a length greater than one. -/
theorem holds_iff_isPartialTour (hne : succ ≠ []) : holds succ ↔ IsPartialTour succ := by
  obtain ⟨start, hstart⟩ : ∃ start, (starts succ).min? = some start :=
    Option.isSome_iff_exists.1 (by simpa [starts, indexed, List.isSome_min?_iff] using hne)
  rw [holds_iff_visits hstart, ← and_assoc, ← exists_permutes_iff, ← exists_and_right, IsPartialTour]
  exact exists_congr fun f => and_congr_right fun hf => visits_iff_cycleType hf hstart

end Subcircuit

/-- A subcircuit constraint holds exactly for the permutations with at most one
cycle of a length greater than one, and with a start also only if that is on
the cycle. What it is decomposed into has the same value and can be negated. -/
theorem subcircuit_isPartialTour_reifies {σ : Store} {succ : List Expr} {start : Nat} (hσ : σ.Valid)
    (hlength : 2 ≤ succ.length) (hstart : start < succ.length) (hsucc : ∀ e ∈ succ, e.TermIn σ) :
    (∀ s, s.Within σ → ∃ values : List Int, succ.map (Expr.exact s) = values.map some ∧
      (Expr.constraint (.subcircuit succ)).Decides s (Subcircuit.IsPartialTour values) ∧
      (Expr.constraint (.subcircuitThrough succ start)).Decides s
        (Subcircuit.IsPartialTour values ∧ values[start]? ≠ some (start : Int))) ∧
    (Constraint.subcircuit succ).decompose.Sat True σ fun d τ =>
      τ.size = σ.size + (succ.length + 1) ∧ d.Reifies σ τ (.constraint (.subcircuit succ)) := by
  have hsound : ∀ e ∈ succ, e.Sound True (World.bare σ) := fun e he => (hsucc e he).sound hσ
  have hne : succ ≠ [] := List.ne_nil_of_length_pos (by omega)
  have hsubcircuit : (Expr.constraint (.subcircuit succ)).Sound True (World.bare σ) :=
    Expr.sound_constraint hlength trivial hsound
  constructor
  · intro s hs
    have hadmits := World.admits_bare.2 hs
    have hvalued : ∀ e ∈ succ, e.Valued s := fun e he => (hsound e he).valued hadmits
    have hthrough : (Expr.constraint (.subcircuitThrough succ start)).Sound True (World.bare σ) :=
      Expr.sound_constraint ⟨hlength, hstart⟩ trivial hsound
    have hget : succ[start]? = some succ[start] := List.getElem?_eq_getElem hstart
    have hholds : Subcircuit.holds (succ.map (num s)) ↔ Subcircuit.IsPartialTour (succ.map (num s)) :=
      Subcircuit.holds_iff_isPartialTour (by simpa using hne)
    refine ⟨succ.map (num s), ?_, ?_, ?_⟩
    · rw [List.map_map]
      exact List.map_congr_left fun e he => (hvalued e he).exact_eq
    · refine hsubcircuit.proper.decides rfl hs (hsubcircuit.valued hadmits) ?_
      rw [Expr.holds_subcircuit hvalued, hholds]
    · refine hthrough.proper.decides rfl hs (hthrough.valued hadmits) ?_
      rw [Expr.holds_subcircuitThrough hvalued hget, hholds, List.getElem?_map, hget, Option.map_some, ne_eq, ne_eq,
        Option.some_inj]
  · refine (Constraint.decompose_sat (.subcircuit succ)).imp fun d τ _ hd => ?_
    cases hd with
    | subcircuit _ hfirst _ hbounds hcreates hvisits hvisited =>
    refine ⟨by rw [hcreates.size_eq, hfirst.size_eq, hvisits]; omega, ?_⟩
    exact Decomposition.Replaces.reifies
      (fun hs => Subcircuit.replaces (World.inhabited_bare hs) hsound hne hfirst hbounds hcreates hvisits hvisited)
      hsubcircuit rfl

def nodeStore : Store := ⟨#[⟨⟨0, 3⟩, .int, .user⟩, ⟨⟨0, 3⟩, .int, .user⟩, ⟨⟨0, 3⟩, .int, .user⟩]⟩

def node (i : Nat) : Variable := ⟨i, ⟨0, 3⟩, .int⟩

def nodeSuccessors : List Expr := [.var (node 0), .var (node 1), .var (node 2)]

def skipping : Assignment := ⟨fun i => some (2 - i)⟩

theorem subcircuit_skipping : nodeStore.Valid ∧ 2 ≤ nodeSuccessors.length ∧ 1 < nodeSuccessors.length ∧
    (∀ e ∈ nodeSuccessors, e.TermIn nodeStore) ∧ skipping.Within nodeStore ∧ Subcircuit.IsPartialTour [2, 1, 0] ∧
    (Expr.constraint (.subcircuitThrough nodeSuccessors 1)).exact skipping = some 0 ∧
    ∃ d τ, (Constraint.subcircuit nodeSuccessors).decompose nodeStore = .ok d τ ∧ τ.size = 7 ∧
      d.Reifies nodeStore τ (.constraint (.subcircuit nodeSuccessors)) := by
  have hvalid : nodeStore.Valid := by
    rintro (_ | _ | _ | i) d h hk <;> simp [nodeStore] at h <;> subst h <;> cases hk
  have hterms : ∀ e ∈ nodeSuccessors, e.TermIn nodeStore := by
    simp only [nodeSuccessors, List.forall_mem_cons, List.not_mem_nil, false_imp_iff, implies_true, and_true]
    exact ⟨Expr.termIn_var ⟨.user, rfl⟩, Expr.termIn_var ⟨.user, rfl⟩, Expr.termIn_var ⟨.user, rfl⟩⟩
  have hwithin : skipping.Within nodeStore := by
    rintro (_ | _ | _ | i) d h <;> simp [nodeStore] at h <;> subst h <;> simp [skipping, Bounds.mem_iff]
  obtain ⟨hvalue, hdecompose⟩ :=
    @subcircuit_isPartialTour_reifies nodeStore nodeSuccessors 1 hvalid (by decide) (by decide) hterms
  obtain ⟨values, hvalues, hholds, hthrough⟩ := hvalue skipping hwithin
  have hexact : nodeSuccessors.map (Expr.exact skipping) = [2, 1, 0].map some := by
    simp [nodeSuccessors, skipping, node, Assignment.value?]
  obtain rfl : values = [2, 1, 0] := List.map_injective_iff.2 (Option.some_injective _) (hvalues.symm.trans hexact)
  refine ⟨hvalid, by decide, by decide, hterms, hwithin, hholds.holds.1 ?_, hthrough.fails.2 (by simp), ?_⟩
  · rw [Expr.exact_constraint, Constraint.map, hexact]
    decide
  · obtain ⟨d, τ, hrun⟩ : ∃ d τ, (Constraint.subcircuit nodeSuccessors).decompose nodeStore = .ok d τ :=
      ⟨_, _, by cbv⟩
    obtain ⟨-, hsize, hreifies⟩ := hdecompose.ok hrun
    exact ⟨d, τ, hrun, hsize, hreifies⟩

end ConstraintModel
