import ConstraintModel.Proofs.Agreement
import ConstraintModel.Proofs.Globals
import Mathlib

namespace ConstraintModel

namespace Inverse

def Leads (as : List Int) (i j : Nat) : Prop := as[i]? = some (j : Int)

structure AreMutual (forward backward : List Int) : Prop where
  perm : forward.Perm ((List.range forward.length).map Int.ofNat)
  inverse : ∀ i j : Nat, i < forward.length → j < forward.length →
    (Leads backward j i ↔ Leads forward i j)

variable {as forward backward : List Int} {i j k : Nat}

theorem Leads.unique (hj : Leads as i j) (hk : Leads as i k) : j = k :=
  Int.ofNat_inj.1 (Option.some_inj.1 (hj.symm.trans hk))

theorem Leads.lt (h : Leads as i j) : i < as.length := (List.getElem?_eq_some_iff.1 h).1

/-- What the evaluation tests is that each entry leads to a position which leads
back. -/
theorem holds_iff_returns : holds forward backward ↔
    ∀ i < forward.length, ∃ j, Leads forward i j ∧ Leads backward j i := by
  simp only [holds, List.all_eq_true, beq_iff_eq, Prod.forall, mem_indexed_iff, entryAt?_eq_some]
  constructor
  · intro h i hi
    obtain ⟨h0, hback⟩ := h i forward[i] ⟨Int.natCast_nonneg i, List.getElem?_eq_getElem hi⟩
    refine ⟨forward[i].toNat, ?_, hback⟩
    rw [Leads, Int.toNat_of_nonneg h0, List.getElem?_eq_getElem hi]
  · rintro h i x ⟨h0, hx⟩
    obtain ⟨j, hj, hback⟩ := h i.toNat (List.getElem?_eq_some_iff.1 hx).1
    obtain rfl : x = j := Option.some_inj.1 (hx.symm.trans hj)
    rw [Leads, Int.toNat_of_nonneg h0] at hback
    exact ⟨Int.natCast_nonneg j, by rwa [Int.toNat_natCast]⟩

/-- A permutation of the positions leads to every position. -/
theorem exists_leads (h : as.Perm ((List.range as.length).map Int.ofNat)) (hj : j < as.length) :
    ∃ i < as.length, Leads as i j := by
  have hmem : (j : Int) ∈ as := h.mem_iff.2 (List.mem_map.2 ⟨j, List.mem_range.2 hj, rfl⟩)
  obtain ⟨i, hi, hij⟩ := List.getElem_of_mem hmem
  exact ⟨i, hi, List.getElem?_eq_some_iff.2 ⟨hi, hij⟩⟩

theorem AreMutual.returns (h : AreMutual forward backward) : holds forward backward := by
  rw [holds_iff_returns]
  intro i hi
  obtain ⟨j, hj, hij⟩ := List.mem_map.1 (h.perm.mem_iff.1 (List.getElem_mem hi))
  have hleads : Leads forward i j := List.getElem?_eq_some_iff.2 ⟨hi, hij.symm⟩
  exact ⟨j, hleads, (h.inverse i j hi (List.mem_range.1 hj)).2 hleads⟩

variable (hlength : forward.length = backward.length)

include hlength

/-- The second list leads back as well, since the first one misses no position. -/
theorem AreMutual.returns_back (h : AreMutual forward backward) : holds backward forward := by
  rw [holds_iff_returns, ← hlength]
  intro j hj
  obtain ⟨i, hi, hij⟩ := exists_leads h.perm hj
  exact ⟨i, (h.inverse i j hi hj).2 hij, hij⟩

/-- Two entries that lead to one position would both be led back to. So no
position is repeated, and then none is missing. -/
theorem perm_of_holds (h : holds forward backward) :
    forward.Perm ((List.range forward.length).map Int.ofNat) := by
  rw [holds_iff_returns] at h
  have hnodup : forward.Nodup := by
    rw [List.nodup_iff_getElem?_ne_getElem?]
    intro i k hik hk heq
    obtain ⟨j, hj, hi⟩ := h i (hik.trans hk)
    obtain ⟨m, hm, hback⟩ := h k hk
    obtain rfl : j = m := hj.unique (heq.trans hm)
    exact hik.ne (hi.unique hback)
  have hsubset : forward ⊆ (List.range forward.length).map Int.ofNat := by
    intro v hv
    obtain ⟨i, hi, rfl⟩ := List.getElem_of_mem hv
    obtain ⟨j, hj, hback⟩ := h i hi
    refine List.mem_map.2 ⟨j, List.mem_range.2 (hlength ▸ hback.lt), ?_⟩
    exact (List.getElem?_eq_some_iff.1 hj).2.symm
  exact (List.subperm_of_subset hnodup hsubset).perm_of_length_le (by simp)

theorem holds_iff_areMutual : holds forward backward ↔ AreMutual forward backward := by
  constructor
  · intro h
    refine ⟨perm_of_holds hlength h, fun i j hi hj => ⟨fun hback => ?_, fun hij => ?_⟩⟩
    · obtain ⟨k, hk, hkj⟩ := exists_leads (perm_of_holds hlength h) hj
      obtain ⟨m, hm, hback'⟩ := holds_iff_returns.1 h k hk
      obtain rfl : j = m := hkj.unique hm
      obtain rfl : i = k := hback.unique hback'
      exact hkj
    · obtain ⟨m, hm, hback⟩ := holds_iff_returns.1 h i hi
      obtain rfl : j = m := hij.unique hm
      exact hback
  · exact AreMutual.returns

theorem holds_comm : holds forward backward = holds backward forward := by
  rw [Bool.eq_iff_iff]
  constructor
  · exact fun h => ((holds_iff_areMutual hlength).1 h).returns_back hlength
  · exact fun h => ((holds_iff_areMutual hlength.symm).1 h).returns_back hlength.symm

end Inverse

def Expr.Evaluates (s : Assignment) (e : Expr) (n : Int) : Prop := e.value.outcome s = .ok (some n)

namespace Expr

variable {s : Assignment} {fs bs : List Expr} {ns ms : List Int}

theorem Evaluates.exact_eq {e : Expr} {n : Int} (h : e.Evaluates s n) : e.exact s = some n :=
  (e.computes_exact s _ h).symm

theorem values_of_evaluates (h : List.Forall₂ (Evaluates s) fs ns) : (fs.map (exact s)).mapM id = some ns := by
  rw [Exact.values_eq_some]
  exact h.imp fun _ _ => Evaluates.exact_eq

theorem exact_inverse_comm (hlength : fs.length = bs.length) :
    (constraint (.inverse fs bs)).exact s = (constraint (.inverse bs fs)).exact s := by
  rw [exact_constraint, exact_constraint]
  congr 1
  simp only [Constraint.map, Constraint.exact]
  cases hns : (fs.map (exact s)).mapM id with
  | none => cases (bs.map (exact s)).mapM id <;> rfl
  | some ns =>
    cases hms : (bs.map (exact s)).mapM id with
    | none => rfl
    | some ms =>
      have hn := (Exact.values_eq_some.1 hns).length_eq
      have hm := (Exact.values_eq_some.1 hms).length_eq
      exact congrArg some (Inverse.holds_comm (hn.symm.trans (hlength.trans hm)))

open Eval in
theorem holds_inverse_of_evaluates (hns : List.Forall₂ (Evaluates s) fs ns)
    (hms : List.Forall₂ (Evaluates s) bs ms) :
    ((Constraint.inverse fs bs).map value).holds.outcome s = .ok (some (Inverse.holds ns ms)) := by
  have hargs : ∀ a ∈ (Constraint.inverse fs bs).args, a.value.Gives False s (a.exact s) := by
    intro a ha
    obtain ⟨n, hn⟩ : ∃ n, a.Evaluates s n := by
      rcases List.mem_append.1 ha with ha | ha
      · exact (forall₂_mem_left hns ha).imp fun _ => And.right
      · exact (forall₂_mem_left hms ha).imp fun _ => And.right
    rw [hn.exact_eq]
    exact .inl hn
  have h := gives_false_iff.1 (Constraint.gives_holds hargs fun _ => trivial)
  rw [h]
  simp only [Constraint.map, Constraint.exact, values_of_evaluates hns, values_of_evaluates hms]
  rfl

end Expr

/-- Where all entries have values, the inverse constraint is true exactly when
the values are mutually inverse permutations. So it never matters which of the
two lists comes first, whether or not the entries have values. -/
theorem inverse_areMutual {fs bs : List Expr} (hlength : fs.length = bs.length) (s : Assignment) :
    (∀ ns ms, List.Forall₂ (Expr.Evaluates s) fs ns → List.Forall₂ (Expr.Evaluates s) bs ms →
      ∃ b, ((Constraint.inverse fs bs).map Expr.value).holds.outcome s = .ok (some b) ∧
        (b = true ↔ Inverse.AreMutual ns ms)) ∧
    ∀ v w, (Expr.constraint (.inverse fs bs)).value.outcome s = .ok v →
      (Expr.constraint (.inverse bs fs)).value.outcome s = .ok w → v = w := by
  constructor
  · intro ns ms hns hms
    refine ⟨_, Expr.holds_inverse_of_evaluates hns hms, Inverse.holds_iff_areMutual ?_⟩
    rw [← hns.length_eq, ← hms.length_eq, hlength]
  · intro v w hv hw
    rw [Expr.computes_exact _ s v hv, Expr.computes_exact _ s w hw, Expr.exact_inverse_comm hlength]

/-- The values of the entries make a cycle of length three. -/
theorem inverse_threeCycle :
    let x : Variable := ⟨0, ⟨-4, 4⟩, .int⟩
    let s := Assignment.empty.assign x 2
    let fs : List Expr := [.var x, .mul (.int 0) (.var x), .wsum [(-1, .var x), (3, .int 1)]]
    let bs : List Expr := [.int 1, .var x, .sub (.var x) (.int 2)]
    fs.length = bs.length ∧ List.Forall₂ (Expr.Evaluates s) fs [2, 0, 1] ∧
      List.Forall₂ (Expr.Evaluates s) bs [1, 2, 0] ∧
      ((Constraint.inverse fs bs).map Expr.value).holds.outcome s = .ok (some true) ∧
      Inverse.AreMutual [2, 0, 1] [1, 2, 0] ∧
      ∀ w, (Expr.constraint (.inverse bs fs)).value.outcome s = .ok w → some 1 = w := by
  intro x s fs bs
  have hfs : List.Forall₂ (Expr.Evaluates s) fs [2, 0, 1] := by
    simp only [fs, List.forall₂_cons, List.Forall₂.nil, Expr.Evaluates, Expr.value, List.map_cons, List.map_nil]
    decide
  have hbs : List.Forall₂ (Expr.Evaluates s) bs [1, 2, 0] := by
    simp only [bs, List.forall₂_cons, List.Forall₂.nil, Expr.Evaluates, Expr.value]
    decide
  have hholds : ((Constraint.inverse fs bs).map Expr.value).holds.outcome s = .ok (some true) := by cbv
  have hlength : fs.length = bs.length := rfl
  obtain ⟨b, hb, hiff⟩ := (inverse_areMutual hlength s).1 _ _ hfs hbs
  obtain rfl : true = b := by
    rw [hholds] at hb
    exact Option.some_inj.1 (Except.ok.inj hb)
  have hvalue : (Expr.constraint (.inverse fs bs)).value.outcome s = .ok (some 1) := by cbv
  exact ⟨hlength, hfs, hbs, hholds, hiff.1 rfl, fun w hw => (inverse_areMutual hlength s).2 _ w hvalue hw⟩

end ConstraintModel
