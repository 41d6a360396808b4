import ConstraintModel.Proofs.Run

namespace ConstraintModel

variable {α β : Type} {strict : Prop}

namespace Lowering

def Yields (strict : Prop) (x : Lowering α) (Q : α → Prop) : Prop :=
  ∀ σ, x.Sat strict σ fun a _ => Q a

variable {x : Lowering α} {f : α → Lowering β} {Q Q' : α → Prop} {R : β → Prop}

theorem Yields.pure {a : α} (h : Q a) : Yields strict (pure a) Q := fun _ => .pure h

theorem Yields.bind (hx : x.Yields strict Q) (hf : ∀ a, Q a → (f a).Yields strict R) :
    (x >>= f).Yields strict R := fun σ => (hx σ).bind fun a τ _ ha => hf a ha τ

theorem Yields.imp (hx : x.Yields strict Q) (h : ∀ a, Q a → Q' a) : x.Yields strict Q' :=
  fun σ => (hx σ).imp fun a _ _ => h a

theorem Yields.relax (hx : x.Yields True Q) : x.Yields strict Q := fun σ => (hx σ).relax

theorem Yields.and (hx : x.Yields strict Q) (hx' : x.Yields False Q') :
    x.Yields strict fun a => Q a ∧ Q' a := fun σ => (hx σ).and (hx' σ)

theorem Yields.throw {e : LoweringError} (h : strict → e = .overflow) :
    Yields strict (throw e : Lowering α) Q := fun _ => .throw h

def yields (strict : Prop) : Calculus Lowering Unit where
  le _ _ := True
  sat x _ Q := x.Yields strict fun a => Q a ()
  refl _ := trivial
  trans _ _ := trivial
  pure h := Yields.pure h
  bind hx hf := Yields.bind hx fun a ha => hf a () trivial ha
  imp hx h := hx.imp fun a ha => h a () trivial ha

theorem Yields.mapM {as : List α} {f : α → Lowering β} {R : α → β → Prop}
    (h : ∀ a ∈ as, (f a).Yields strict (R a)) :
    (as.mapM f).Yields strict (List.Forall₂ R as) :=
  (yields strict).mapM (i := ()) (R := fun _ => R) (fun _ _ _ _ _ h => h) fun a ha _ _ => h a ha

theorem Yields.forall_mapM {as : List α} {f : α → Lowering β} {Q : β → Prop}
    (h : ∀ a ∈ as, (f a).Yields strict Q) : (as.mapM f).Yields strict fun bs => ∀ b ∈ bs, Q b := by
  refine (Yields.mapM (R := fun _ => Q) h).imp fun bs hbs b hb => ?_
  obtain ⟨_, -, hb⟩ := forall₂_mem_right hbs hb
  exact hb

theorem Yields.fresh (b : Bounds) (k : Kind) : (fresh b k).Yields strict fun x => x.kind = k :=
  fun _ => (Sat.fresh b k).imp fun x τ _ h => by rw [h.1]; rfl

theorem Yields.freshBool :
    freshBool.Yields strict fun e => ∃ x : Variable, e = .var x ∧ x.isBool :=
  (Yields.fresh _ _).bind fun x hx => .pure ⟨x, rfl, by simp [Variable.isBool, hx]⟩

theorem Yields.freshInt (b : Bounds) :
    (freshInt b).Yields strict fun e => ∃ x : Variable, e = .var x ∧ ¬x.isBool :=
  (Yields.fresh _ _).bind fun x hx => .pure ⟨x, rfl, by simp [Variable.isBool, hx]⟩

theorem Yields.replicateM {x : Lowering α} (h : x.Yields strict Q) (n : Nat) :
    ((List.replicate n x).mapM id).Yields strict fun as => as.length = n ∧ ∀ a ∈ as, Q a := by
  refine (Yields.mapM (R := fun _ => Q) fun y hy => ?_).imp fun as has => ⟨?_, fun a ha => ?_⟩
  · rw [List.eq_of_mem_replicate hy]
    exact h
  · rw [← has.length_eq, List.length_replicate]
  · obtain ⟨_, -, ha⟩ := forall₂_mem_right has ha
    exact ha

theorem Yields.freshBools (n : Nat) : (freshBools n).Yields strict fun es =>
    es.length = n ∧ ∀ e ∈ es, ∃ x : Variable, e = .var x ∧ x.isBool :=
  Yields.freshBool.replicateM n

end Lowering

namespace Defining

def Yields (strict : Prop) (P : Expr → Prop) (x : Defining α) (Q : α → Prop) : Prop :=
  ∀ σ, x.Sat strict σ fun a N _ => Q a ∧ ∀ d ∈ N, P d

variable {P P' : Expr → Prop} {x : Defining α} {f : α → Defining β} {Q Q' : α → Prop} {R : β → Prop}

theorem Yields.pure {a : α} (h : Q a) : Yields strict P (pure a) Q := fun _ => .pure ⟨h, by simp⟩

theorem Yields.bind (hx : x.Yields strict P Q) (hf : ∀ a, Q a → (f a).Yields strict P R) :
    (x >>= f).Yields strict P R := by
  refine fun σ => (hx σ).bind fun a N τ _ ha => (hf a ha.1 τ).imp fun b M υ _ hb => ⟨hb.1, ?_⟩
  simp only [List.mem_append]
  rintro d (hd | hd)
  · exact ha.2 d hd
  · exact hb.2 d hd

theorem Yields.imp (hx : x.Yields strict P Q) (h : ∀ a, Q a → Q' a) : x.Yields strict P Q' :=
  fun σ => (hx σ).imp fun a _ _ _ ha => ⟨h a ha.1, ha.2⟩

theorem Yields.weaken (hx : x.Yields strict P Q) (h : ∀ d, P d → P' d) : x.Yields strict P' Q :=
  fun σ => (hx σ).imp fun _ _ _ _ ha => ⟨ha.1, fun d hd => h d (ha.2 d hd)⟩

theorem Yields.throw {e : LoweringError} (h : strict → e = .overflow) :
    Yields strict P (throw e : Defining α) Q := fun _ => .throw h

theorem Yields.checked {c : Checked α} (h : ∀ a, c = .ok a → Q a) :
    Yields strict P (liftM c : Defining α) Q := fun _ => .checked fun a ha => ⟨h a ha, by simp⟩

theorem Yields.lift {y : Lowering α} (hy : y.Yields strict Q) :
    Yields strict P (liftM y : Defining α) Q :=
  fun σ => (Sat.lift (hy σ)).imp fun a N τ _ h => ⟨h.2, by simp [h.1]⟩

theorem Yields.define {e : Expr} (h : P e) : Yields strict P (define e) fun _ => True :=
  fun _ => Sat.define.imp fun _ N _ _ hN => ⟨trivial, by simpa [hN.1] using h⟩

theorem Yields.defineAll {es : List Expr} (h : ∀ e ∈ es, P e) :
    Yields strict P (defineAll es) fun _ => True :=
  fun _ => Sat.defineAll.imp fun _ N _ _ hN => ⟨trivial, by simpa [hN.1] using h⟩

theorem Yields.collect (h : x.Yields strict P Q) :
    x.collect.Yields strict fun p => Q p.1 ∧ ∀ d ∈ p.2, P d := fun σ => (h σ).collect

def yields (strict : Prop) (P : Expr → Prop) : Calculus Defining Unit where
  le _ _ := True
  sat x _ Q := x.Yields strict P fun a => Q a ()
  refl _ := trivial
  trans _ _ := trivial
  pure h := Yields.pure h
  bind hx hf := Yields.bind hx fun a ha => hf a () trivial ha
  imp hx h := hx.imp fun a ha => h a () trivial ha

section

variable {f : α → Defining β} {R : α → β → Prop}

theorem Yields.mapM {as : List α} (h : ∀ a ∈ as, (f a).Yields strict P (R a)) :
    (as.mapM f).Yields strict P (List.Forall₂ R as) :=
  (yields strict P).mapM (i := ()) (R := fun _ => R) (fun _ _ _ _ _ h => h) fun a ha _ _ => h a ha

theorem Yields.forall_mapM {as : List α} {Q : β → Prop} (h : ∀ a ∈ as, (f a).Yields strict P Q) :
    (as.mapM f).Yields strict P fun bs => ∀ b ∈ bs, Q b := by
  refine (Yields.mapM (R := fun _ => Q) h).imp fun bs hbs b hb => ?_
  obtain ⟨_, -, hb⟩ := forall₂_mem_right hbs hb
  exact hb

theorem Yields.constraint {c : Constraint α} (h : ∀ a ∈ c.args, (f a).Yields strict P (R a)) :
    (c.mapM f).Yields strict P (c.Related R) :=
  (yields strict P).constraint_mapM (i := ()) (R := fun _ => R) (fun _ _ _ _ _ h => h) fun a ha _ _ => h a ha

theorem Yields.function {g : Function α} (h : ∀ a ∈ g.args, (f a).Yields strict P (R a)) :
    (g.mapM f).Yields strict P (g.Related R) :=
  (yields strict P).function_mapM (i := ()) (R := fun _ => R) (fun _ _ _ _ _ h => h) fun a ha _ _ => h a ha

/-- A property of an accumulator that every step of a loop keeps. -/
theorem Yields.foldlM {g : β → α → Defining β} {Q : β → Prop} {as : List α} {b : β}
    (h : ∀ a ∈ as, ∀ b, Q b → (g b a).Yields strict P Q) (hb : Q b) :
    (as.foldlM g b).Yields strict P Q :=
  (yields strict P).foldlM (i := ()) (Q := fun _ b _ => Q b) (l := [])
    (fun _ a ha b _ _ hb => h a ha b hb) hb

end

end Defining

end ConstraintModel
