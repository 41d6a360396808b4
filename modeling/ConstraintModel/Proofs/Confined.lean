import ConstraintModel.Proofs.Calculus
import ConstraintModel.Proofs.Globals
import ConstraintModel.Proofs.Parts
import ConstraintModel.Proofs.Stands

namespace ConstraintModel

namespace Calculus

variable {m : Type → Type} [Monad m] [LawfulMonad m] {I : Type} (C : Calculus m I) {i : I} {α β : Type}
  {P : I → β → Prop} (hP : ∀ i j b, C.le i j → P i b → P j b) {as : List α}

include hP

/-- A property of the results that is not lost when the state grows. -/
theorem forall_mapM {f : α → m β} (h : ∀ a ∈ as, ∀ j, C.le i j → C.sat (f a) j fun b k => P k b) :
    C.sat (as.mapM f) i fun bs j => ∀ b ∈ bs, P j b := by
  have hstable : C.Stable fun j (_ : α) b => P j b := fun i j _ b hij h => hP i j b hij h
  refine C.imp (C.mapM hstable h) fun bs j _ hbs b hb => ?_
  obtain ⟨_, -, h⟩ := forall₂_mem_right hbs hb
  exact h

theorem forall_flatten {f : α → m (List β)} (h : ∀ a ∈ as, ∀ j, C.le i j → C.sat (f a) j fun bs k => ∀ b ∈ bs, P k b) :
    C.sat (as.mapM f) i fun bss j => ∀ b ∈ bss.flatten, P j b :=
  C.imp (C.forall_mapM (P := fun j bs => ∀ b ∈ bs, P j b) (fun i j _ hij h b hb => hP i j b hij (h b hb)) h)
    fun _ _ _ => List.forall_mem_flatten.2

end Calculus

namespace Store

structure Extends (live : Prop) (σ τ : Store) : Prop where
  grows : σ.Grows τ
  new : ∀ (i : Nat) d, σ.size ≤ i → τ.definitions[i]? = some d →
    d.origin = .auxiliary ∧ (live → d.bounds.lower ≤ d.bounds.upper)
  valid : σ.Valid → τ.Valid

variable {live : Prop} {σ τ υ : Store}

theorem Extends.refl (σ : Store) : σ.Extends live σ := by
  refine ⟨.refl σ, fun i d hi hd => ?_, id⟩
  have : i < σ.size := (Array.getElem?_eq_some_iff.1 hd).1
  omega

theorem Extends.trans (h : σ.Extends live τ) (h' : τ.Extends live υ) : σ.Extends live υ := by
  refine ⟨h.grows.trans h'.grows, fun i d hi hd => ?_, fun hσ => h'.valid (h.valid hσ)⟩
  by_cases hlt : i < τ.size
  · have hτ := Array.getElem?_eq_getElem hlt
    have hυ := h'.grows i _ hτ
    rw [hd] at hυ
    cases hυ
    exact h.new i _ hi hτ
  · exact h'.new i d (by omega) hd

theorem extends_add {d : Definition} (ho : d.origin = .auxiliary) (hb : d.kind = .bool → d.bounds = .boolean)
    (hd : live → d.bounds.lower ≤ d.bounds.upper) : σ.Extends live (σ.add d).2 := by
  refine ⟨σ.grows_add d, fun i c hi hc => ?_, fun hσ => hσ.add hb⟩
  have hlt : i < (σ.add d).2.size := (Array.getElem?_eq_some_iff.1 hc).1
  rw [size_add] at hlt
  obtain rfl : i = σ.size := by omega
  have hc : some d = some c := by simpa [add, size] using hc
  cases hc
  exact ⟨ho, hd⟩

end Store

/-- Where a pass starts: the store, and the variables of what it is applied
to. If `live` holds, none of their domains is empty. -/
structure Start where
  store : Store
  inputs : Variable → Prop
  live : Prop
  inhabited : live → ∀ x, inputs x → x.bounds.lower ≤ x.bounds.upper

namespace Start

variable {B : Start} {σ τ : Store} {x : Variable} {e : Expr} {k n : Nat} {S : Type}

abbrev Reaches (B : Start) (σ : Store) : Prop := B.store.Extends B.live σ

def Allows (B : Start) (σ : Store) (x : Variable) : Prop :=
  B.live → B.inputs x ∨ B.store.size ≤ x.index ∧ σ.Has x

theorem Allows.mono (h : B.Allows σ x) (hg : σ.Extends B.live τ) : B.Allows τ x :=
  fun hlive => (h hlive).imp_right fun h => ⟨h.1, h.2.mono hg.grows⟩

theorem Reaches.adds (h : B.Reaches σ) : σ.Adds (B.Allows τ) τ :=
  fun _ hx hτ _ => .inr ⟨h.grows.size_le.trans hx, hτ.1⟩

theorem Reaches.lower_le_upper (h : B.Reaches σ) (hlive : B.live) (hx : B.Allows σ x) :
    x.bounds.lower ≤ x.bounds.upper := by
  rcases hx hlive with hx | ⟨hi, origin, hd⟩
  · exact B.inhabited hlive x hx
  · exact (h.new _ _ hi hd).2 hlive

theorem Reaches.range (h : B.Reaches σ) (he : e.Uses (B.Allows σ)) (hlive : B.live) :
    e.range.lower ≤ e.range.upper := e.lower_le_upper fun x hx => h.lower_le_upper hlive (he x hx)

theorem Reaches.bounds {b : Bounds} (h : B.Reaches σ) (he : e.Uses (B.Allows σ)) (hb : e.bounds = .ok b)
    (hlive : B.live) : b.lower ≤ b.upper := e.range_of_bounds b hb ▸ h.range he hlive

structure Invariant (B : Start) (S : Type) where
  holds : Store → S → Prop
  mono {σ τ : Store} {s : S} : σ.Extends B.live τ → holds σ s → holds τ s

def each (B : Start) (P : Store → Expr → Prop) (hP : ∀ σ τ e, σ.Extends B.live τ → P σ e → P τ e) :
    B.Invariant (Array Expr) where
  holds σ D := ∀ d ∈ D.toList, P σ d
  mono hg h d hd := hP _ _ d hg (h d hd)

end Start

theorem Expr.Uses.grow {B : Start} {σ τ : Store} {e : Expr} (h : e.Uses (B.Allows σ)) (hg : σ.Extends B.live τ) :
    e.Uses (B.Allows τ) := h.imp fun _ hx => hx.mono hg

def Start.Keeps (B : Start) (es : List Expr) (σ : Store) : Prop := ∀ e ∈ es, e.Uses (B.Allows σ)

theorem Start.Keeps.grow {B : Start} {σ τ : Store} {es : List Expr} (h : B.Keeps es σ) (hg : σ.Extends B.live τ) :
    B.Keeps es τ := fun e he => (h e he).grow hg

theorem Start.Keeps.append {B : Start} {σ : Store} {es fs : List Expr} (h : B.Keeps es σ) (h' : B.Keeps fs σ) :
    B.Keeps (es ++ fs) σ := List.forall_mem_append.2 ⟨h, h'⟩

theorem Start.Keeps.single {B : Start} {σ : Store} {e : Expr} (h : e.Uses (B.Allows σ)) : B.Keeps [e] σ :=
  List.forall_mem_singleton.2 h

theorem Expr.Measured.grow {B : Start} {σ τ : Store} {e : Expr} {typed t : Prop} {k n : Nat}
    (h : e.Measured (B.Allows σ) typed t k n) (hg : σ.Extends B.live τ) : e.Measured (B.Allows τ) typed t k n :=
  h.imp fun _ hx => hx.mono hg

def Start.sized (B : Start) (k n : Nat) : B.Invariant (Array Expr) :=
  B.each (fun σ e => e.Sized (B.Allows σ) k n) fun _ _ _ hg h => h.grow hg

def Start.uses (B : Start) : B.Invariant (Array Expr) :=
  B.each (fun σ e => e.Uses (B.Allows σ)) fun _ _ _ hg h => h.grow hg

variable {α β S : Type} {B : Start} {I : B.Invariant S} {σ τ : Store} {e : Expr}

namespace Lowering

variable {x : Lowering α} {f : α → Lowering β} {Q Q' : α → Store → Prop} {R : β → Store → Prop}

/-- However the run ends, it has only added variables to the store, and it
does not end because the recursion is too deep. -/
def Stays (B : Start) (x : Lowering α) (σ : Store) (Q : α → Store → Prop) : Prop :=
  B.Reaches σ → match x σ with
    | .ok a τ => σ.Extends B.live τ ∧ Q a τ
    | .error e τ => σ.Extends B.live τ ∧ e ≠ .tooDeep

theorem Stays.pure {a : α} (h : Q a σ) : Stays B (pure a) σ Q := fun _ => ⟨.refl σ, h⟩

theorem Stays.bind (hx : Stays B x σ Q) (hf : ∀ a τ, σ.Extends B.live τ → Q a τ → Stays B (f a) τ R) :
    Stays B (x >>= f) σ R := by
  intro hσ
  have hx := hx hσ
  change match EStateM.bind x f σ with
    | .ok b τ => σ.Extends B.live τ ∧ R b τ
    | .error e τ => σ.Extends B.live τ ∧ e ≠ .tooDeep
  unfold EStateM.bind
  cases h : x σ with
  | error e τ => rwa [h] at hx
  | ok a τ =>
    rw [h] at hx
    have hf := hf a τ hx.1 hx.2 (hσ.trans hx.1)
    dsimp only
    cases h' : f a τ with
    | error e υ =>
      rw [h'] at hf
      exact ⟨hx.1.trans hf.1, hf.2⟩
    | ok b υ =>
      rw [h'] at hf
      exact ⟨hx.1.trans hf.1, hf.2⟩

theorem Stays.imp (hx : Stays B x σ Q) (h : ∀ a τ, σ.Extends B.live τ → Q a τ → Q' a τ) : Stays B x σ Q' := by
  intro hσ
  have hx := hx hσ
  cases hr : x σ with
  | error e τ => rwa [hr] at hx
  | ok a τ =>
    rw [hr] at hx
    exact ⟨hx.1, h a τ hx.1 hx.2⟩

/-- Only stores that can be reached need to be considered. -/
theorem Stays.assume (h : B.Reaches σ → Stays B x σ Q) : Stays B x σ Q := fun hσ => h hσ hσ

/-- What is known about the runs with a result. -/
theorem Stays.and_sat (hx : Stays B x σ Q) (h : x.Sat False σ Q') : Stays B x σ fun a τ => Q a τ ∧ Q' a τ := by
  intro hσ
  have hx := hx hσ
  unfold Sat at h
  cases hr : x σ with
  | error e τ => rwa [hr] at hx
  | ok a τ =>
    rw [hr] at hx h
    exact ⟨hx.1, hx.2, h.2⟩

theorem Stays.throw {e : LoweringError} (h : e ≠ .tooDeep) : Stays B (throw e : Lowering α) σ Q :=
  fun _ => ⟨.refl σ, h⟩

theorem Stays.checked {c : Checked α} (h : ∀ a, c = .ok a → Q a σ) : Stays B (liftM c : Lowering α) σ Q := by
  cases c with
  | error e => exact fun _ => ⟨.refl σ, nofun⟩
  | ok a => exact fun _ => ⟨.refl σ, h a rfl⟩

theorem Stays.checked_bind {c : Checked α} (h : ∀ a, c = .ok a → (f a).Stays B σ R) :
    Stays B (liftM c >>= f) σ R := by
  cases c with
  | error e => exact fun _ => ⟨.refl σ, nofun⟩
  | ok a => exact h a rfl

def staying (B : Start) : Calculus Lowering Store where
  le := Store.Extends B.live
  sat x σ Q := Stays B x σ Q
  refl := .refl
  trans := .trans
  pure := .pure
  bind := .bind
  imp := .imp

theorem Stays.forall_mapM {P : Store → β → Prop} {as : List α} (hP : ∀ σ τ b, σ.Extends B.live τ → P σ b → P τ b)
    (h : ∀ a ∈ as, ∀ τ, σ.Extends B.live τ → Stays B (f a) τ fun b υ => P υ b) :
    Stays B (as.mapM f) σ fun bs τ => ∀ b ∈ bs, P τ b := (staying B).forall_mapM hP h

theorem Stays.forall_flatten {P : Store → β → Prop} {as : List α} {f : α → Lowering (List β)}
    (hP : ∀ σ τ b, σ.Extends B.live τ → P σ b → P τ b)
    (h : ∀ a ∈ as, ∀ τ, σ.Extends B.live τ → Stays B (f a) τ fun bs υ => ∀ b ∈ bs, P υ b) :
    Stays B (as.mapM f) σ fun bss τ => ∀ b ∈ bss.flatten, P τ b := (staying B).forall_flatten hP h

theorem Stays.keeps_mapM {as : List α} {f : α → Lowering (List Expr)}
    (h : ∀ a ∈ as, ∀ τ, σ.Extends B.live τ → Stays B (f a) τ B.Keeps) :
    Stays B (as.mapM f) σ fun ess τ => B.Keeps ess.flatten τ := .forall_flatten (fun _ _ _ hg h => h.grow hg) h

theorem Stays.fresh {b : Bounds} {k : Kind} (hk : k = .bool → b = .boolean) (hb : B.live → b.lower ≤ b.upper) :
    (fresh b k).Stays B σ fun x τ => B.Allows τ x := by
  intro hσ
  have hext : σ.Extends B.live (σ.add ⟨b, k, .auxiliary⟩).2 := Store.extends_add rfl hk hb
  exact ⟨hext, fun _ => .inr ⟨hσ.grows.size_le.trans (Store.index_add ..).ge, σ.has_add _⟩⟩

theorem Stays.freshBool : freshBool.Stays B σ fun e τ => ∃ x, e = .var x ∧ B.Allows τ x :=
  (Stays.fresh (fun _ => rfl) fun _ => by decide).bind fun x _ _ hx => .pure ⟨x, rfl, hx⟩

theorem Stays.freshInt {b : Bounds} (hb : B.live → b.lower ≤ b.upper) :
    (freshInt b).Stays B σ fun e τ => ∃ x, e = .var x ∧ B.Allows τ x :=
  (Stays.fresh (by simp) hb).bind fun x _ _ hx => .pure ⟨x, rfl, hx⟩

theorem Stays.replicateM {x : Lowering Expr} (h : ∀ σ, x.Stays B σ fun e τ => ∃ y, e = .var y ∧ B.Allows τ y)
    (n : Nat) : ((List.replicate n x).mapM id).Stays B σ fun es τ => B.Keeps es τ := by
  refine .forall_mapM (fun _ _ _ hg h => h.grow hg) fun y hy τ _ => ?_
  rw [List.eq_of_mem_replicate hy]
  refine (h τ).imp ?_
  rintro e υ - ⟨y, rfl, hy⟩
  exact Expr.uses_var.2 hy

theorem Stays.freshBools (n : Nat) : (freshBools n).Stays B σ fun es τ => B.Keeps es τ :=
  .replicateM (fun _ => .freshBool) n

theorem Stays.freshInts {b : Bounds} (hb : B.live → b.lower ≤ b.upper) (n : Nat) :
    (freshInts b n).Stays B σ fun es τ => B.Keeps es τ :=
  .replicateM (fun _ => .freshInt hb) n

theorem Stays.freshFor (h : e.Uses (B.Allows σ)) : (freshFor e).Stays B σ fun f τ => f.Uses (B.Allows τ) := by
  refine .assume fun hσ => ?_
  unfold ConstraintModel.freshFor
  have hvar {x : Lowering Expr} (hx : x.Stays B σ fun f τ => ∃ x, f = .var x ∧ B.Allows τ x) :
      x.Stays B σ fun f τ => f.Uses (B.Allows τ) := by
    refine hx.imp ?_
    rintro f τ - ⟨x, rfl, hx⟩
    exact Expr.uses_var.2 hx
  split
  · exact hvar .freshBool
  · exact .checked_bind fun b hb => hvar (.freshInt (hσ.bounds h hb))

end Lowering

open Lowering (Stays)

def Carries (B : Start) (I : B.Invariant S) (x : StateT S Lowering α) (σ : Store) (Q : α → Store → Prop) : Prop :=
  ∀ s, I.holds σ s → (x.run s).Stays B σ fun p τ => I.holds τ p.2 ∧ Q p.1 τ

namespace Carries

variable {x : StateT S Lowering α} {f : α → StateT S Lowering β} {Q Q' : α → Store → Prop} {R : β → Store → Prop}

theorem pure {a : α} (h : Q a σ) : Carries B I (pure a) σ Q := fun _ hs => .pure ⟨hs, h⟩

theorem bind (hx : Carries B I x σ Q) (hf : ∀ a τ, σ.Extends B.live τ → Q a τ → Carries B I (f a) τ R) :
    Carries B I (x >>= f) σ R := fun s hs => (hx s hs).bind fun p τ hg hp => hf p.1 τ hg hp.2 p.2 hp.1

theorem imp (hx : Carries B I x σ Q) (h : ∀ a τ, σ.Extends B.live τ → Q a τ → Q' a τ) : Carries B I x σ Q' :=
  fun s hs => (hx s hs).imp fun p τ hg hp => ⟨hp.1, h p.1 τ hg hp.2⟩

theorem assume (h : B.Reaches σ → Carries B I x σ Q) : Carries B I x σ Q :=
  fun s hs => .assume fun hσ => h hσ s hs

theorem lift {y : Lowering α} (h : y.Stays B σ Q) : Carries B I (liftM y) σ Q :=
  fun _ hs => h.bind fun _ _ hg ha => .pure ⟨I.mono hg hs, ha⟩

theorem throw {e : LoweringError} (h : e ≠ .tooDeep) : Carries B I (throw e) σ Q := fun _ _ => Stays.throw h

theorem checked {c : Checked α} (h : ∀ a, c = .ok a → Q a σ) : Carries B I (liftM c) σ Q := by
  intro s hs
  cases c with
  | error e => exact fun _ => ⟨.refl σ, nofun⟩
  | ok a => exact fun _ => ⟨.refl σ, hs, h a rfl⟩

theorem checked_bind {c : Checked α} (h : ∀ a, c = .ok a → Carries B I (f a) σ R) :
    Carries B I (liftM c >>= f) σ R := by
  intro s hs
  cases c with
  | error e => exact fun _ => ⟨.refl σ, nofun⟩
  | ok a => exact h a rfl s hs

def calculus (B : Start) (I : B.Invariant S) : Calculus (StateT S Lowering) Store where
  le := Store.Extends B.live
  sat x σ Q := Carries B I x σ Q
  refl := .refl
  trans := .trans
  pure := .pure
  bind := .bind
  imp := .imp

theorem forall_mapM {P : Store → β → Prop} {as : List α} (hP : ∀ σ τ b, σ.Extends B.live τ → P σ b → P τ b)
    (h : ∀ a ∈ as, ∀ τ, σ.Extends B.live τ → Carries B I (f a) τ fun b υ => P υ b) :
    Carries B I (as.mapM f) σ fun bs τ => ∀ b ∈ bs, P τ b := (calculus B I).forall_mapM hP h

theorem forall_flatten {P : Store → β → Prop} {as : List α} {f : α → StateT S Lowering (List β)}
    (hP : ∀ σ τ b, σ.Extends B.live τ → P σ b → P τ b)
    (h : ∀ a ∈ as, ∀ τ, σ.Extends B.live τ → Carries B I (f a) τ fun bs υ => ∀ b ∈ bs, P υ b) :
    Carries B I (as.mapM f) σ fun bss τ => ∀ b ∈ bss.flatten, P τ b := (calculus B I).forall_flatten hP h

theorem keeps_mapM {as : List α} {f : α → StateT S Lowering (List Expr)}
    (h : ∀ a ∈ as, ∀ τ, σ.Extends B.live τ → Carries B I (f a) τ B.Keeps) :
    Carries B I (as.mapM f) σ fun ess τ => B.Keeps ess.flatten τ := .forall_flatten (fun _ _ _ hg h => h.grow hg) h

theorem constraint_mapM {P : Store → Expr → Prop} {c : Constraint Expr} {f : Expr → StateT S Lowering Expr}
    (hP : ∀ σ τ b, σ.Extends B.live τ → P σ b → P τ b)
    (h : ∀ a ∈ c.args, ∀ τ, σ.Extends B.live τ → Carries B I (f a) τ fun b υ => P υ b) :
    Carries B I (c.mapM f) σ fun d τ => d.weight = c.weight ∧ ∀ b ∈ d.args, P τ b := by
  have hstable : (calculus B I).Stable fun τ (_ : Expr) b => P τ b := fun _ _ _ _ => hP _ _ _
  have hrun : Carries B I (c.mapM f) σ fun d τ => Constraint.Related (fun _ b => P τ b) c d :=
    (calculus B I).constraint_mapM hstable h
  refine hrun.imp fun d τ _ hd => ⟨(Constraint.weight_eq hd.shape).symm, fun b hb => ?_⟩
  obtain ⟨_, -, h⟩ := forall₂_mem_right hd.args hb
  exact h

theorem function_mapM {P : Store → Expr → Prop} {g : Function Expr} {f : Expr → StateT S Lowering Expr}
    (hP : ∀ σ τ b, σ.Extends B.live τ → P σ b → P τ b)
    (h : ∀ a ∈ g.args, ∀ τ, σ.Extends B.live τ → Carries B I (f a) τ fun b υ => P υ b) :
    Carries B I (g.mapM f) σ fun k τ => ∀ b ∈ k.args, P τ b := by
  have hstable : (calculus B I).Stable fun τ (_ : Expr) b => P τ b := fun _ _ _ _ => hP _ _ _
  have hrun : Carries B I (g.mapM f) σ fun k τ => Function.Related (fun _ b => P τ b) g k :=
    (calculus B I).function_mapM hstable h
  refine hrun.imp fun k τ _ hk b hb => ?_
  obtain ⟨_, -, h⟩ := forall₂_mem_right hk.args hb
  exact h

end Carries

section Collect

variable {x : Defining α} {Q : α → Store → Prop} {P : Store → Expr → Prop}
  {hP : ∀ σ τ e, σ.Extends B.live τ → P σ e → P τ e}

theorem Carries.define (h : P σ e) : Carries B (B.each P hP) (define e) σ fun _ _ => True := by
  refine fun D hD => .pure ⟨?_, trivial⟩
  simp only [Start.each, Array.toList_push, List.forall_mem_append, List.forall_mem_singleton]
  exact ⟨hD, h⟩

theorem Carries.defineAll {es : List Expr} (h : ∀ e ∈ es, P σ e) :
    Carries B (B.each P hP) (defineAll es) σ fun _ _ => True := by
  refine fun D hD => .pure ⟨?_, trivial⟩
  simp only [Start.each, Array.append_eq_append, Array.toList_append, List.forall_mem_append]
  exact ⟨hD, h⟩

theorem Carries.collect (hx : Carries B (B.each P hP) x σ Q) :
    x.collect.Stays B σ fun p τ => Q p.1 τ ∧ ∀ d ∈ p.2, P τ d :=
  (hx #[] nofun).bind fun _ _ _ hp => .pure hp.symm

end Collect

section Decompose

variable {c : Constraint Expr} {g : Function Expr} {r : Relation} {a rhs : Expr} {k m n : Nat}

theorem lower_le_upper_of_hullWith {as : List Expr} {b hull : Bounds} (h : hullWith as b = .ok hull)
    (hb : b.lower ≤ b.upper) : hull.lower ≤ hull.upper := by
  obtain ⟨hlower, hupper⟩ := subset_hullAround as b
  rw [← hullAround_of_hullWith h] at hlower hupper
  exact hlower.trans (hb.trans hupper)

theorem Member.target_stays (h : a.Uses (B.Allows σ)) : (target a).Stays B σ fun _ _ => True := by
  unfold target
  split
  · exact .pure trivial
  · exact (Stays.freshFor h).bind fun _ _ _ _ => .pure trivial

theorem Constraint.decompose_stays (h : ∀ a ∈ c.args, a.Uses (B.Allows σ)) :
    c.decompose.Stays B σ fun _ _ => True := by
  cases c with
  | circuit succ =>
    refine Stays.checked_bind fun hull hhull => ?_
    refine (Stays.freshInts (fun _ => lower_le_upper_of_hullWith hhull (le_refl 0)) _).bind fun _ _ _ _ => ?_
    exact Stays.checked_bind fun _ _ => .pure trivial
  | subcircuit succ =>
    have hpositions : (0 : Int) ≤ succ.length := Int.natCast_nonneg _
    refine Stays.checked_bind fun hull hhull => ?_
    refine (Stays.freshInt fun _ => hpositions).bind fun _ _ _ _ => ?_
    refine (Stays.freshInts (fun _ => lower_le_upper_of_hullWith hhull hpositions) _).bind fun _ _ _ _ => ?_
    exact Stays.checked_bind fun _ _ => .pure trivial
  | memberOfSet a set =>
    refine (Member.target_stays (h a (by simp [args]))).bind fun _ _ _ _ => ?_
    exact Stays.checked_bind fun _ _ => .pure trivial
  | memberOfList a vs => exact (Member.target_stays (h a (by simp [args]))).bind fun _ _ _ _ => .pure trivial
  | inverse _ _ | cumulative _ _ _ _ _ => exact Stays.checked fun _ _ => trivial
  | allDifferent _ | allDifferentExceptZero _ | allEqual _ | monotone _ _ | subcircuitThrough _ _
  | cardinality _ _ _ | table _ _ | xor _ | ifThenElse _ _ _ => exact .pure trivial

theorem Function.decompose_stays (h : ∀ a ∈ g.args, a.Uses (B.Allows σ)) :
    (g.decompose r rhs).Stays B σ fun _ _ => True := by
  refine .assume fun hσ => ?_
  cases g with
  | abs x =>
    refine Stays.checked_bind fun b hb => ?_
    split
    · exact .pure trivial
    · split
      · exact Stays.checked_bind fun _ _ => .pure trivial
      · refine Stays.checked_bind fun c hc => (Stays.freshInt fun hlive => ?_).bind fun _ _ _ _ =>
          Stays.checked_bind fun _ _ => .pure trivial
        have hx : b.lower ≤ b.upper := hσ.bounds (h x (by simp [args])) hb hlive
        rw [Bounds.of_abs hc]
        exact lower_le_upper (g := .abs b) (List.forall_mem_singleton.2 hx)
  | minimum as | maximum as =>
    exact Stays.checked_bind fun b hb => (Stays.freshInt (hσ.bounds (Expr.uses_function.2 h) hb)).bind
      fun _ _ _ _ => .pure trivial
  | count _ _ => exact .pure trivial
  | distinct _ | element _ _ => exact Stays.checked fun _ _ => trivial

theorem Constraint.decompose_sized (hk : k ≤ 1) (h : ∀ a ∈ c.args, a.Sized (B.Allows σ) k n) :
    c.decompose.Stays B σ fun d τ => ∀ e ∈ d.toList, e.Sized (B.Allows τ) k (c.weight + 8 * n - 1) := by
  refine .assume fun hσ => ?_
  refine ((decompose_stays fun a ha => (h a ha).uses).and_sat c.decompose_sat).imp fun d τ hg hd e he => ?_
  exact (hd.2.pieces hk False.elim hσ.adds (fun a ha => (h a ha).grow hg) e he).measured

theorem Function.decompose_sized (hk : k ≤ 1) (h : ∀ a ∈ g.args, a.Sized (B.Allows σ) k n)
    (hr : rhs.Sized (B.Allows σ) k m) : (g.decompose r rhs).Stays B σ fun d τ =>
      (∀ e ∈ d.constraining, e.Sized (B.Allows τ) k (4 + 2 * n + m)) ∧
        ∀ e ∈ d.defining, e.Sized (B.Allows τ) k (4 + 2 * n) := by
  refine .assume fun hσ => ?_
  refine ((decompose_stays fun a ha => (h a ha).uses).and_sat (g.decompose_sat r rhs)).imp fun d τ hg hd => ?_
  obtain ⟨hc, hdef⟩ := hd.2.pieces hk hσ.adds (fun a ha => (h a ha).grow hg) (hr.grow hg)
  exact ⟨fun e he => (hc e he).measured, fun e he => (hdef e he).measured⟩

end Decompose

end ConstraintModel
