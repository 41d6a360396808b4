import ConstraintModel.Proofs.Globals
import Mathlib.Data.Int.Interval
import Mathlib.Data.List.Iterate
import Mathlib.Dynamics.PeriodicPts.Defs

namespace ConstraintModel

def follow (succ : List Int) (p : Int) : Int := (entryAt? succ p).getD p

namespace Circuit

structure IsHamiltonian (succ : List Int) : Prop where
  positions : ∀ v ∈ succ, 0 ≤ v ∧ v < succ.length
  visits : ∀ i : Nat, i < succ.length → ∃ k < succ.length, (follow succ)^[k] 0 = i
  returns : (follow succ)^[succ.length] 0 = 0

variable {succ : List Int} {p : Int} {k n : Nat}

theorem follow_mem (h0 : 0 ≤ p) (hp : p < succ.length) : follow succ p ∈ succ := by
  cases ha : entryAt? succ p with
  | none => exact absurd ⟨h0, hp⟩ (entryAt?_eq_none.1 ha)
  | some v =>
    rw [follow, ha]
    exact mem_of_entryAt? ha

theorem follow_getElem {i : Nat} (hi : i < succ.length) : follow succ i = succ[i] := by
  have hentry : entryAt? succ (i : Int) = some succ[i] := entryAt?_eq_some.2 (by simp [hi])
  rw [follow, hentry, Option.getD_some]

theorem iterate_position (hpos : ∀ v ∈ succ, 0 ≤ v ∧ v < succ.length) (hne : succ ≠ []) (k : Nat) :
    0 ≤ (follow succ)^[k] 0 ∧ (follow succ)^[k] 0 < succ.length := by
  induction k with
  | zero => simpa using List.length_pos_iff.2 hne
  | succ k ih =>
    rw [Function.iterate_succ_apply']
    exact hpos _ (follow_mem ih.1 ih.2)

/-- Following the successors closes after a number of steps if all nodes on the
way are positions and only the last step leads to position 0. -/
theorem closesAfter_iff : closesAfter succ k p ↔ 0 < k ∧
    (∀ j < k, 0 ≤ (follow succ)^[j] p ∧ (follow succ)^[j] p < succ.length) ∧
    (follow succ)^[k] p = 0 ∧ ∀ j, 0 < j → j < k → (follow succ)^[j] p ≠ 0 := by
  induction k generalizing p with
  | zero => simp [closesAfter]
  | succ k ih =>
    rw [closesAfter]
    cases ha : entryAt? succ p with
    | none =>
      simp only [Bool.false_eq_true, false_iff, not_and]
      intro _ hpos
      exact absurd (hpos 0 (Nat.succ_pos k)) (entryAt?_eq_none.1 ha)
    | some next =>
      have hfollow : follow succ p = next := by rw [follow, ha]; rfl
      have hp : 0 ≤ p ∧ p < succ.length := by
        by_contra hp
        rw [entryAt?_eq_none.2 hp] at ha
        cases ha
      -- What comes after the first step is a run of its own from the next node.
      have steps (q : Int → Prop) : (∀ j, 0 < j → j < k + 1 → q ((follow succ)^[j] p)) ↔
          ∀ j < k, q ((follow succ)^[j] next) := by
        constructor
        · intro h j hj
          have := h (j + 1) (Nat.succ_pos j) (by omega)
          rwa [Function.iterate_succ_apply, hfollow] at this
        · intro h j h0 hj
          obtain ⟨j, rfl⟩ := Nat.exists_eq_succ_of_ne_zero h0.ne'
          rw [Function.iterate_succ_apply, hfollow]
          exact h j (by omega)
      have positions : (∀ j < k + 1, 0 ≤ (follow succ)^[j] p ∧ (follow succ)^[j] p < succ.length) ↔
          ∀ j < k, 0 ≤ (follow succ)^[j] next ∧ (follow succ)^[j] next < succ.length := by
        rw [← steps fun v => 0 ≤ v ∧ v < succ.length]
        constructor
        · exact fun h j _ hj => h j hj
        · intro h j hj
          rcases Nat.eq_zero_or_pos j with rfl | h0
          · exact hp
          · exact h j h0 hj
      rw [positions, steps (· ≠ 0), Function.iterate_succ_apply, hfollow]
      by_cases hnext : next = 0
      · simp only [hnext, if_true, decide_eq_true_eq]
        constructor
        · rintro rfl
          simp
        · rintro ⟨-, -, -, hreturn⟩
          by_contra hk
          exact hreturn 0 (Nat.pos_of_ne_zero hk) rfl
      · simp only [hnext, if_false, ih, Nat.succ_pos, true_and]
        constructor
        · rintro ⟨-, hpos, hclose, hreturn⟩
          refine ⟨hpos, hclose, fun j hj => ?_⟩
          rcases Nat.eq_zero_or_pos j with rfl | h0
          · exact hnext
          · exact hreturn j h0 hj
        · rintro ⟨hpos, hclose, hreturn⟩
          refine ⟨?_, hpos, hclose, fun j _ hj => hreturn j hj⟩
          by_contra hk
          obtain rfl : k = 0 := by omega
          exact hnext hclose

/-- A tour that does not return early visits no node twice. -/
theorem injOn_of_returns (hclose : (follow succ)^[n] 0 = 0)
    (hreturn : ∀ j, 0 < j → j < n → (follow succ)^[j] 0 ≠ 0) :
    Set.InjOn (fun k => (follow succ)^[k] 0) (Set.Iio n) := by
  rcases Nat.eq_zero_or_pos n with rfl | hn
  · simp
  · have hperiod : Function.minimalPeriod (follow succ) 0 = n := by
      have hle : Function.minimalPeriod (follow succ) 0 ≤ n := Function.IsPeriodicPt.minimalPeriod_le hn hclose
      have hpos : 0 < Function.minimalPeriod (follow succ) 0 :=
        Function.IsPeriodicPt.minimalPeriod_pos hn hclose
      by_contra hlt
      exact hreturn _ hpos (by omega) Function.iterate_minimalPeriod
    have := Function.iterate_injOn_Iio_minimalPeriod (f := follow succ) (x := 0)
    rwa [hperiod] at this

/-- As many different positions as there are in all are all of them. -/
theorem exists_of_injOn {f : Nat → Int} (hf : Set.InjOn f (Set.Iio n)) (hpos : ∀ k < n, 0 ≤ f k ∧ f k < n)
    (h0 : 0 ≤ p) (hp : p < n) : ∃ k < n, f k = p := by
  have hsubset : (Finset.range n).image f ⊆ Finset.Ico 0 (n : Int) := by
    intro v hv
    obtain ⟨k, hk, rfl⟩ := Finset.mem_image.1 hv
    exact Finset.mem_Ico.2 (hpos k (Finset.mem_range.1 hk))
  have hcard : ((Finset.range n).image f).card = n := by
    rw [Finset.card_image_of_injOn (by simpa using hf), Finset.card_range]
  have heq := Finset.eq_of_subset_of_card_le hsubset (by rw [hcard]; simp)
  have hmem : p ∈ (Finset.range n).image f := heq ▸ Finset.mem_Ico.2 ⟨h0, hp⟩
  simpa using hmem

/-- A tour through all positions visits no position twice. -/
theorem injOn_of_exists {f : Nat → Int} (h : ∀ i : Nat, i < n → ∃ k < n, f k = i) :
    Set.InjOn f (Set.Iio n) := by
  have hsubset : Finset.Ico 0 (n : Int) ⊆ (Finset.range n).image f := by
    intro v hv
    obtain ⟨h0, hv⟩ := Finset.mem_Ico.1 hv
    obtain ⟨k, hk, hkv⟩ := h v.toNat (by omega)
    exact Finset.mem_image.2 ⟨k, Finset.mem_range.2 hk, by omega⟩
  have hcard := Finset.card_le_card hsubset
  have := Finset.injOn_of_card_image_eq (s := Finset.range n) (f := f)
    (le_antisymm Finset.card_image_le (by simpa using hcard))
  simpa using this

/-- The evaluation recognises exactly the successor lists of Hamiltonian
cycles. -/
theorem holds_iff_isHamiltonian (hne : succ ≠ []) : holds succ ↔ IsHamiltonian succ := by
  rw [holds, closesAfter_iff]
  constructor
  · rintro ⟨-, hpos, hclose, hreturn⟩
    have hvisits := fun v h0 hv => exists_of_injOn (p := v) (injOn_of_returns hclose hreturn) hpos h0 hv
    refine ⟨fun v hv => ?_, fun i hi => hvisits i (by omega) (by omega), hclose⟩
    obtain ⟨i, hi, rfl⟩ := List.getElem_of_mem hv
    obtain ⟨k, hk, hki⟩ := hvisits i (by omega) (by omega)
    rw [← follow_getElem hi, ← hki, ← Function.iterate_succ_apply' (follow succ)]
    rcases Nat.lt_or_ge (k + 1) succ.length with hlt | hge
    · exact hpos _ hlt
    · have hlast : k + 1 = succ.length := by omega
      rw [Nat.succ_eq_add_one, hlast, hclose]
      omega
  · rintro ⟨hpos, hvisits, hclose⟩
    have hn := List.length_pos_iff.2 hne
    refine ⟨hn, fun j _ => iterate_position hpos hne j, hclose, fun j h0 hj hzero => ?_⟩
    exact h0.ne' (injOn_of_exists hvisits hj hn hzero)

theorem nodup_iterate_iff : (List.iterate (follow succ) (follow succ 0) n).Nodup ↔
    Set.InjOn (fun k => (follow succ)^[k + 1] 0) (Set.Iio n) := by
  rw [← List.range_map_iterate, List.nodup_map_iff_inj_on List.nodup_range]
  simp only [List.mem_range, ← Function.iterate_succ_apply]
  exact ⟨fun h i hi j hj => h i hi j hj, fun h i hi j hj => h hi hj⟩

/-- A closed tour may as well be described by the nodes after its steps. -/
theorem holds_iff_tour (hne : succ ≠ []) : holds succ ↔ (∀ v ∈ succ, 0 ≤ v ∧ v < succ.length) ∧
    succ.Nodup ∧ (List.iterate (follow succ) (follow succ 0) succ.length).Nodup ∧
    (follow succ)^[succ.length] 0 = 0 := by
  have hn := List.length_pos_iff.2 hne
  rw [nodup_iterate_iff]
  constructor
  · intro h
    obtain ⟨hpos, hvisits, hclose⟩ := (holds_iff_isHamiltonian hne).1 h
    have hreturn := injOn_of_exists hvisits
    have hinj : Set.InjOn (fun k => (follow succ)^[k + 1] 0) (Set.Iio succ.length) := by
      refine injOn_of_exists fun i hi => ?_
      obtain ⟨k, hk, hki⟩ := hvisits i hi
      cases k with
      | zero => exact ⟨succ.length - 1, by omega, by rw [Nat.sub_add_cancel hn, hclose]; exact hki⟩
      | succ k => exact ⟨k, by omega, hki⟩
    have hvalues : (List.range succ.length).map Int.ofNat ⊆ succ := by
      intro v hv
      obtain ⟨i, hi, rfl⟩ := List.mem_map.1 hv
      obtain ⟨k, hk, hki⟩ := exists_of_injOn hinj (fun k _ => iterate_position hpos hne (k + 1))
        (Int.natCast_nonneg i) (by exact_mod_cast List.mem_range.1 hi)
      have hmem := follow_mem (iterate_position hpos hne k).1 (iterate_position hpos hne k).2
      rw [← Function.iterate_succ_apply' (follow succ)] at hmem
      rw [Int.ofNat_eq_natCast, ← hki]
      exact hmem
    have hnodup : ((List.range succ.length).map Int.ofNat).Nodup :=
      List.nodup_range.map fun _ _ => Int.ofNat.inj
    have hperm := (List.subperm_of_subset hnodup hvalues).perm_of_length_le (by simp)
    exact ⟨hpos, hperm.nodup_iff.1 hnodup, hinj, hclose⟩
  · rintro ⟨hpos, -, hinj, hclose⟩
    refine closesAfter_iff.2 ⟨hn, fun j _ => iterate_position hpos hne j, hclose, fun j h0 hj hzero => ?_⟩
    have hlast : (follow succ)^[succ.length - 1 + 1] 0 = 0 := by rw [Nat.sub_add_cancel hn, hclose]
    have hearly : (follow succ)^[j - 1 + 1] 0 = 0 := by rw [Nat.sub_add_cancel h0, hzero]
    have := hinj (show j - 1 < succ.length by omega) (show succ.length - 1 < succ.length by omega)
      (hearly.trans hlast.symm)
    omega

end Circuit

end ConstraintModel
