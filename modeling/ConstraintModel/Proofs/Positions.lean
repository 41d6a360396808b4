import ConstraintModel.Position
import ConstraintModel.Proofs.Related
import Mathlib.Data.List.Basic
import Mathlib.Data.List.Nodup

namespace ConstraintModel

variable {α β : Type} {as : List α} {a b : α}

theorem mem_of_pairs {p : α × α} (h : p ∈ pairs as) : p.1 ∈ as ∧ p.2 ∈ as := by
  induction as with
  | nil => cases h
  | cons a as ih =>
    rcases List.mem_append.1 h with h | h
    · obtain ⟨b, hb, rfl⟩ := List.mem_map.1 h
      exact ⟨List.mem_cons_self .., List.mem_cons_of_mem _ hb⟩
    · exact ⟨List.mem_cons_of_mem _ (ih h).1, List.mem_cons_of_mem _ (ih h).2⟩

theorem pairs_map (f : α → β) (as : List α) :
    pairs (as.map f) = (pairs as).map fun p => (f p.1, f p.2) := by
  induction as with
  | nil => rfl
  | cons a as ih => simp [pairs, ih, Function.comp_def]

/-- A list has no repeated element when the elements of all pairs differ. -/
theorem nodup_iff_pairs : as.Nodup ↔ ∀ p ∈ pairs as, p.1 ≠ p.2 := by
  induction as with
  | nil => simp [pairs]
  | cons a as ih =>
    rw [List.nodup_cons, ih, pairs, List.forall_mem_append, List.forall_mem_map]
    exact and_congr_left fun _ => ⟨fun h b hb hab => h ((show a = b from hab) ▸ hb), fun h ha => h a ha rfl⟩

theorem mem_of_neighbours {p : α × α} (h : p ∈ neighbours as) : p.1 ∈ as ∧ p.2 ∈ as := by
  obtain ⟨h₁, h₂⟩ := List.of_mem_zip (a := p.1) (b := p.2) h
  exact ⟨h₁, List.mem_of_mem_tail h₂⟩

theorem neighbours_map (f : α → β) (as : List α) :
    neighbours (as.map f) = (neighbours as).map fun p => (f p.1, f p.2) := by
  rw [neighbours, neighbours, ← List.map_tail, List.zip_map]
  rfl

theorem mem_indexed {p : Int × α} :
    p ∈ indexed as ↔ ∃ i : Nat, p.1 = i ∧ as[i]? = some p.2 := by
  rw [indexed, List.mem_map]
  constructor
  · rintro ⟨⟨a, i⟩, h, rfl⟩
    exact ⟨i, rfl, List.mk_mem_zipIdx_iff_getElem?.1 h⟩
  · obtain ⟨i, a⟩ := p
    rintro ⟨k, rfl, h⟩
    exact ⟨(a, k), List.mk_mem_zipIdx_iff_getElem?.2 h, rfl⟩

theorem mem_of_indexed {p : Int × α} (h : p ∈ indexed as) : p.2 ∈ as := by
  obtain ⟨i, -, h⟩ := mem_indexed.1 h
  exact List.mem_of_getElem? h

theorem indexed_map (f : α → β) (as : List α) :
    indexed (as.map f) = (indexed as).map fun p => (p.1, f p.2) := by
  simp [indexed, List.zipIdx_map, Function.comp_def]

end ConstraintModel
