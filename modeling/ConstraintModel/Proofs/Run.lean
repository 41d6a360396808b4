import ConstraintModel.Proofs.Calculus

namespace ConstraintModel

variable {α β : Type} {strict : Prop} {σ τ : Store}

namespace Lowering

/-- The run of a step from a store. A strict step fails only by an overflow. -/
def Sat (strict : Prop) (x : Lowering α) (σ : Store) (Q : α → Store → Prop) : Prop :=
  match x σ with
  | .ok a τ => σ.Grows τ ∧ Q a τ
  | .error e _ => strict → e = .overflow

variable {x : Lowering α} {f : α → Lowering β} {Q Q' : α → Store → Prop} {R : β → Store → Prop}

theorem Sat.ok {a : α} (h : Sat strict x σ Q) (hx : x σ = .ok a τ) : σ.Grows τ ∧ Q a τ := by
  rwa [Sat, hx] at h

theorem Sat.error {e : LoweringError} (h : Sat True x σ Q) (hx : x σ = .error e τ) :
    e = .overflow := by
  rw [Sat, hx] at h
  exact h trivial

theorem Sat.pure {a : α} (h : Q a σ) : Sat strict (pure a) σ Q := ⟨.refl σ, h⟩

theorem Sat.bind (hx : Sat strict x σ Q) (hf : ∀ a τ, σ.Grows τ → Q a τ → Sat strict (f a) τ R) :
    Sat strict (x >>= f) σ R := by
  unfold Sat at *
  change match EStateM.bind x f σ with | .ok b τ => σ.Grows τ ∧ R b τ | .error e _ => strict → e = .overflow
  unfold EStateM.bind
  cases h : x σ with
  | error e τ => rwa [h] at hx
  | ok a τ =>
    rw [h] at hx
    have hf := hf a τ hx.1 hx.2
    dsimp only
    cases h' : f a τ with
    | error e υ => rwa [h'] at hf
    | ok b υ =>
      rw [h'] at hf
      exact ⟨hx.1.trans hf.1, hf.2⟩

theorem Sat.imp (hx : Sat strict x σ Q) (h : ∀ a τ, σ.Grows τ → Q a τ → Q' a τ) :
    Sat strict x σ Q' := by
  unfold Sat at *
  cases hr : x σ with
  | error e τ => rwa [hr] at hx
  | ok a τ =>
    rw [hr] at hx
    exact ⟨hx.1, h a τ hx.1 hx.2⟩

theorem Sat.relax (hx : Sat True x σ Q) : Sat strict x σ Q := by
  unfold Sat at *
  cases hr : x σ with
  | error e τ =>
    rw [hr] at hx
    exact fun _ => hx trivial
  | ok a τ => rwa [hr] at hx

theorem Sat.and (hx : Sat strict x σ Q) (hx' : Sat False x σ Q') :
    Sat strict x σ fun a τ => Q a τ ∧ Q' a τ := by
  unfold Sat at *
  cases hr : x σ with
  | error e τ => rwa [hr] at hx
  | ok a τ =>
    rw [hr] at hx hx'
    exact ⟨hx.1, hx.2, hx'.2⟩

theorem Sat.forall {ι : Type} [Nonempty ι] {P : ι → α → Store → Prop} (h : ∀ i, Sat strict x σ (P i)) :
    Sat strict x σ fun a τ => ∀ i, P i a τ := by
  unfold Sat at *
  cases hr : x σ with
  | error e τ =>
    rw [hr] at h
    exact h (Classical.arbitrary ι)
  | ok a τ =>
    rw [hr] at h
    exact ⟨(h (Classical.arbitrary ι)).1, fun i => (h i).2⟩

theorem Sat.throw {e : LoweringError} (h : strict → e = .overflow) :
    Sat strict (throw e : Lowering α) σ Q := h

theorem Sat.checked {c : Checked α} (h : ∀ a, c = .ok a → Q a σ) :
    Sat strict (liftM c : Lowering α) σ Q := by
  cases c with
  | error e => exact fun _ => rfl
  | ok a => exact ⟨.refl σ, h a rfl⟩

theorem Sat.checked_bind {c : Checked α} (h : ∀ a, c = .ok a → (f a).Sat strict σ R) :
    Sat strict (liftM c >>= f) σ R := by
  refine (Sat.checked (Q := fun a τ => c = .ok a ∧ τ = σ) fun a ha => ⟨ha, rfl⟩).bind ?_
  rintro a τ - ⟨ha, rfl⟩
  exact h a ha

theorem Sat.fresh (b : Bounds) (k : Kind) : Sat strict (fresh b k) σ fun x τ =>
    x = (σ.add ⟨b, k, .auxiliary⟩).1 ∧ τ = (σ.add ⟨b, k, .auxiliary⟩).2 :=
  ⟨σ.grows_add _, rfl, rfl⟩

end Lowering

namespace Defining

def Sat (strict : Prop) (x : Defining α) (σ : Store) (Q : α → List Expr → Store → Prop) : Prop :=
  ∀ D : Array Expr, match x D σ with
    | .ok (a, D') τ => σ.Grows τ ∧ ∃ N, D'.toList = D.toList ++ N ∧ Q a N τ
    | .error e _ => strict → e = .overflow

variable {x : Defining α} {f : α → Defining β} {Q Q' : α → List Expr → Store → Prop}
  {R : β → List Expr → Store → Prop}

theorem Sat.pure {a : α} (h : Q a [] σ) : Sat strict (pure a) σ Q :=
  fun _ => ⟨.refl σ, [], by simp, h⟩

theorem Sat.bind (hx : Sat strict x σ Q) (hf : ∀ a N τ, σ.Grows τ → Q a N τ →
    Sat strict (f a) τ fun b M υ => R b (N ++ M) υ) : Sat strict (x >>= f) σ R := by
  intro D
  have hx := hx D
  change match EStateM.bind (x D) (fun p => f p.1 p.2) σ with
    | .ok (b, D') τ => σ.Grows τ ∧ ∃ N, D'.toList = D.toList ++ N ∧ R b N τ
    | .error e _ => strict → e = .overflow
  unfold EStateM.bind
  cases h : x D σ with
  | error e τ => rwa [h] at hx
  | ok p τ =>
    obtain ⟨a, D'⟩ := p
    rw [h] at hx
    obtain ⟨hg, N, hD, hq⟩ := hx
    have hf := hf a N τ hg hq D'
    dsimp only
    cases h' : f a D' τ with
    | error e υ => rwa [h'] at hf
    | ok p υ =>
      rw [h'] at hf
      obtain ⟨hg', M, hD', hr⟩ := hf
      exact ⟨hg.trans hg', N ++ M, by rw [hD', hD, List.append_assoc], hr⟩

theorem Sat.imp (hx : Sat strict x σ Q) (h : ∀ a N τ, σ.Grows τ → Q a N τ → Q' a N τ) :
    Sat strict x σ Q' := by
  intro D
  have hx := hx D
  cases hr : x D σ with
  | error e τ => rwa [hr] at hx
  | ok p τ =>
    rw [hr] at hx
    obtain ⟨hg, N, hD, hq⟩ := hx
    exact ⟨hg, N, hD, h _ _ _ hg hq⟩

theorem Sat.forall {ι : Type} [Nonempty ι] {P : ι → α → List Expr → Store → Prop} (h : ∀ i, Sat strict x σ (P i)) :
    Sat strict x σ fun a N τ => ∀ i, P i a N τ := by
  intro D
  replace h := fun i => h i D
  cases hr : x D σ with
  | error e τ =>
    rw [hr] at h
    exact h (Classical.arbitrary ι)
  | ok p τ =>
    rw [hr] at h
    obtain ⟨hg, N, hN, -⟩ := h (Classical.arbitrary ι)
    refine ⟨hg, N, hN, fun i => ?_⟩
    obtain ⟨-, M, hM, hP⟩ := h i
    rwa [List.append_cancel_left (hN.symm.trans hM)]

theorem Sat.throw {e : LoweringError} (h : strict → e = .overflow) :
    Sat strict (throw e : Defining α) σ Q := fun _ => h

theorem Sat.lift {y : Lowering α} {P : α → Store → Prop} (hy : y.Sat strict σ P) :
    Sat strict (liftM y : Defining α) σ fun a N τ => N = [] ∧ P a τ := by
  intro D
  change match EStateM.bind y (fun a => EStateM.pure (a, D)) σ with
    | .ok (a, D') τ => σ.Grows τ ∧ ∃ N, D'.toList = D.toList ++ N ∧ N = [] ∧ P a τ
    | .error e _ => strict → e = .overflow
  unfold EStateM.bind
  unfold Lowering.Sat at hy
  cases h : y σ with
  | error e τ => rwa [h] at hy
  | ok a τ =>
    rw [h] at hy
    exact ⟨hy.1, [], by simp, rfl, hy.2⟩

theorem Sat.checked {c : Checked α} (h : ∀ a, c = .ok a → Q a [] σ) :
    Sat strict (liftM c : Defining α) σ Q := by
  cases c with
  | error e => exact fun _ _ => rfl
  | ok a => exact fun D => ⟨.refl σ, [], by simp, h a rfl⟩

theorem Sat.checked_bind {c : Checked α} (h : ∀ a, c = .ok a → (f a).Sat strict σ R) :
    Sat strict (liftM c >>= f) σ R := by
  refine (Sat.checked (Q := fun a N τ => c = .ok a ∧ N = [] ∧ τ = σ)
    fun a ha => ⟨ha, rfl, rfl⟩).bind ?_
  rintro a N τ - ⟨ha, rfl, rfl⟩
  simpa using h a ha

theorem Sat.define {e : Expr} : Sat strict (define e) σ fun _ N τ => N = [e] ∧ τ = σ :=
  fun D => ⟨.refl σ, [e], by simp, rfl, rfl⟩

theorem Sat.defineAll {es : List Expr} :
    Sat strict (defineAll es) σ fun _ N τ => N = es ∧ τ = σ :=
  fun D => ⟨.refl σ, es, by simp, rfl, rfl⟩

theorem Sat.collect (h : Sat strict x σ Q) :
    Lowering.Sat strict x.collect σ fun p τ => Q p.1 p.2 τ := by
  have hr : Lowering.Sat strict (x.run #[]) σ fun p τ => Q p.1 p.2.toList τ := by
    have h := h #[]
    unfold Lowering.Sat StateT.run
    cases hr : x #[] σ with
    | error e τ => rwa [hr] at h
    | ok p τ =>
      rw [hr] at h
      obtain ⟨hg, N, hD, hq⟩ := h
      rw [List.nil_append] at hD
      rw [← hD] at hq
      exact ⟨hg, hq⟩
  exact hr.bind fun p τ _ hp => .pure hp

end Defining

end ConstraintModel
