import ConstraintModel.Proofs.Choices
import ConstraintModel.Proofs.Cumulatives
import ConstraintModel.Proofs.Inverses
import ConstraintModel.Proofs.Pairwise
import ConstraintModel.Proofs.Subcircuits

namespace ConstraintModel

namespace Constraint

/-- What a global constraint is replaced by, whether it holds or not. -/
theorem Decomposes.replaces {c : Constraint Expr} {d : Decomposition} {w : World} {τ : Store}
    (h : c.Decomposes w.store d τ) (hw : w.Inhabited) (hc : c.Formed) (hl : c.Lasting)
    (hargs : ∀ a ∈ c.args, a.Sound False w) : d.Replaces False w τ (.constraint c) := by
  cases h with
  | allDifferent as => exact AllDifferent.replaces hargs
  | allDifferentExceptZero as => exact AllDifferentExceptZero.replaces hargs
  | allEqual as => exact AllEqual.replaces hargs
  | monotone order as => exact Monotonicity.replaces hargs order
  | circuit succ hcreates hlength horder =>
    have hne := List.ne_nil_of_length_pos (Nat.lt_of_lt_of_le Nat.two_pos hc)
    exact Circuit.replaces hw hargs hne hcreates hlength horder
  | subcircuit succ hstart _ hbounds hcreates hlength hvisits =>
    exact Subcircuit.replaces hw hargs (List.ne_nil_of_length_pos (Nat.lt_of_lt_of_le Nat.two_pos hc)) hstart hbounds
      hcreates hlength hvisits
  | subcircuitThrough succ start => exact Subcircuit.replaces_through hargs hc.1 hc.2
  | inverse fs bs =>
    obtain ⟨hfs, hbs⟩ := List.forall_mem_append.1 hargs
    exact Inverse.replaces hfs hbs
  | cumulative ss ds es rs capacity =>
    simp only [args, List.forall_mem_append, List.forall_mem_singleton] at hargs
    obtain ⟨⟨⟨⟨hss, hds⟩, hes⟩, hrs⟩, hcapacity⟩ := hargs
    exact Cumulative.replaces hss hds hes hrs hcapacity hc.1 hc.2.1 hl
  | cardinality xs vs ns =>
    simp only [args, List.forall_mem_append] at hargs
    exact Cardinality.replaces hargs.1.1 hargs.1.2 hargs.2
  | table xs rows => exact Table.replaces hargs hc
  | memberOfSet a set htarget => exact Member.replaces_set htarget hw (hargs a (List.mem_singleton_self a))
  | memberOfList a vs htarget =>
    obtain ⟨ha, hvs⟩ := List.forall_mem_cons.1 hargs
    exact Member.replaces_list htarget hw ha hvs
  | xor as => exact Xor.replaces fun a ha => ⟨hc a ha, hargs a ha⟩
  | ifThenElse a b c =>
    simp only [args, List.forall_mem_cons, List.not_mem_nil, false_imp_iff, implies_true, and_true] at hargs
    exact IfThenElse.replaces hc hargs.1 hargs.2.1 hargs.2.2

end Constraint

/-- A global constraint always has a truth value. Each assignment determines
the auxiliary variables of its decomposition, which has the same value and can
be negated. -/
theorem constraint_decompose_reifies {σ : Store} {c made : Constraint Expr} (hσ : σ.Valid)
    (hmade : c.rebuild = .ok (.constraint made)) (hargs : ∀ a ∈ made.args, a.TermIn σ) :
    (∀ s, s.Within σ → ∃ b : Bool, (Expr.constraint made).exact s = some b.toInt ∧
      (Expr.constraint made).value.Computes s (some b.toInt)) ∧
    made.decompose.Sat True σ fun d τ => d.Reifies σ τ (.constraint made) := by
  have hbuilt := Constraint.built_of_rebuild hmade
  have hformed := Constraint.formed_of_rebuild hbuilt
  have hlasting : (Expr.constraint made).TotalHere := Expr.totalHere_of hbuilt (by simp)
  have hsound {q : Prop} : ∀ a ∈ made.args, a.Sound q (World.bare σ) := fun a ha => (hargs a ha).sound hσ
  have hconstraint : (Expr.constraint made).Sound False (World.bare σ) :=
    Expr.sound_constraint hformed hlasting hsound
  constructor
  · intro s hs
    have hvalued := hconstraint.valued (World.admits_bare.2 hs)
    obtain ⟨b, hb⟩ : ∃ b : Bool, (Expr.constraint made).num s = b.toInt := by
      rcases hconstraint.num_boolean rfl (World.admits_bare.2 hs) with h | h
      · exact ⟨false, h⟩
      · exact ⟨true, h⟩
    have hexact := hvalued.exact_eq
    rw [hb] at hexact
    exact ⟨b, hexact, hexact ▸ Expr.computes_exact _ s⟩
  · refine (Constraint.decompose_sat made).imp fun d τ _ hd => ?_
    exact Decomposition.Replaces.reifies
      (fun hs => hd.replaces (World.inhabited_bare hs) hformed hlasting hsound) hconstraint rfl

def summandStore : Store := ⟨#[⟨⟨0, 2⟩, .int, .user⟩, ⟨⟨0, 2⟩, .int, .user⟩]⟩

def summand (i : Nat) : Expr := .var ⟨i, ⟨0, 2⟩, .int⟩

def neutralOrThree : Constraint Expr := .memberOfList (.sum [summand 0, summand 1]) [summand 0, .int 3]

theorem decompose_neutralOrThree : summandStore.Valid ∧ neutralOrThree.rebuild = .ok (.constraint neutralOrThree) ∧
    (∀ a ∈ neutralOrThree.args, a.TermIn summandStore) ∧ Assignment.Within summandStore ⟨fun _ => some 1⟩ ∧
    (Expr.constraint neutralOrThree).value.Computes ⟨fun _ => some 1⟩ (some 0) ∧
    ∃ d τ, neutralOrThree.decompose summandStore = .ok d τ ∧ τ.size = 3 ∧
      d.Reifies summandStore τ (.constraint neutralOrThree) := by
  have hvalid : summandStore.Valid := by
    rintro (_ | _ | i) d h hk <;> simp [summandStore] at h <;> subst h <;> cases hk
  have hsummands : ∀ a ∈ [summand 0, summand 1], a.TermIn summandStore := by
    simp only [List.forall_mem_cons, List.not_mem_nil, false_imp_iff, implies_true, and_true]
    exact ⟨Expr.termIn_var ⟨.user, rfl⟩, Expr.termIn_var ⟨.user, rfl⟩⟩
  have hterms : ∀ a ∈ neutralOrThree.args, a.TermIn summandStore := by
    simp only [neutralOrThree, Constraint.args, List.forall_mem_cons, List.not_mem_nil, false_imp_iff, implies_true,
      and_true]
    exact ⟨Expr.termIn_sum hsummands, hsummands _ (List.mem_cons_self ..), Expr.termIn_int 3⟩
  have hbuilt : neutralOrThree.rebuild = .ok (.constraint neutralOrThree) := by cbv
  have hwithin : Assignment.Within summandStore ⟨fun _ => some 1⟩ := by
    rintro (_ | _ | i) d h <;> simp [summandStore] at h <;> subst h <;> simp [Bounds.mem_iff]
  obtain ⟨hvalue, hdecompose⟩ := constraint_decompose_reifies hvalid hbuilt hterms
  obtain ⟨b, hexact, hcomputes⟩ := hvalue _ hwithin
  have hzero : (Expr.constraint neutralOrThree).exact ⟨fun _ => some 1⟩ = some 0 := by
    simp only [neutralOrThree, summand, Expr.exact_constraint, Constraint.map, Expr.exact_sum, List.map_cons,
      List.map_nil, Expr.exact_var, Expr.exact_int]
    decide
  obtain ⟨d, τ, hrun, hsize⟩ : ∃ d τ, neutralOrThree.decompose summandStore = .ok d τ ∧ τ.size = 3 :=
    ⟨_, _, by cbv, rfl⟩
  rw [← hexact, hzero] at hcomputes
  exact ⟨hvalid, hbuilt, hterms, hwithin, hcomputes, d, τ, hrun, hsize, (hdecompose.ok hrun).2⟩

end ConstraintModel
