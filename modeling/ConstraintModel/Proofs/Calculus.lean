import ConstraintModel.Proofs.Related
import ConstraintModel.Proofs.Scope
import ConstraintModel.Lowering
import Mathlib.Control.Basic

namespace ConstraintModel

variable {α β γ : Type}

/-- Reasoning about the steps of a monad. What a step can rely on is a state
that only grows, and `sat x i Q` says that the run of `x` from the state `i`
ends in a state above it with a result as required. -/
structure Calculus (m : Type → Type) [Monad m] (I : Type) where
  le : I → I → Prop
  sat : {α : Type} → m α → I → (α → I → Prop) → Prop
  refl (i : I) : le i i
  trans {i j k : I} : le i j → le j k → le i k
  pure {α : Type} {a : α} {i : I} {Q : α → I → Prop} : Q a i → sat (pure a) i Q
  bind {α β : Type} {x : m α} {f : α → m β} {i : I} {Q : α → I → Prop} {R : β → I → Prop} :
    sat x i Q → (∀ a j, le i j → Q a j → sat (f a) j R) → sat (x >>= f) i R
  imp {α : Type} {x : m α} {i : I} {Q R : α → I → Prop} :
    sat x i Q → (∀ a j, le i j → Q a j → R a j) → sat x i R

namespace Calculus

variable {m : Type → Type} [Monad m] [LawfulMonad m] {I : Type} (C : Calculus m I) {i j : I}
  {R : I → α → β → Prop} {f : α → m β} {a : α} {b : β}

def Stable (R : I → α → β → Prop) : Prop := ∀ i j a b, C.le i j → R i a b → R j a b

variable {C}

omit [LawfulMonad m] in
theorem Stable.keep (hR : C.Stable R) (hij : C.le i j) (h : R i a b) : R j a b := hR i j a b hij h

variable (C)

theorem mapM (hR : C.Stable R) {as : List α}
    (h : ∀ a ∈ as, ∀ j, C.le i j → C.sat (f a) j fun b k => R k a b) :
    C.sat (as.mapM f) i fun bs j => List.Forall₂ (R j) as bs := by
  induction as generalizing i with
  | nil => exact C.pure .nil
  | cons a as ih =>
    rw [List.mapM_cons]
    refine C.bind (h a (List.mem_cons_self ..) i (C.refl i)) fun b j hij hb => ?_
    refine C.bind (ih fun a ha k hk => h a (List.mem_cons_of_mem _ ha) k (C.trans hij hk))
      fun bs k hjk hbs => ?_
    exact C.pure (.cons (hR.keep hjk hb) hbs)

omit [LawfulMonad m] in
/-- The property of what has been computed so far is kept by every step. -/
theorem foldlM {g : β → α → m β} {Q : List α → β → I → Prop} {as l : List α} {b : β}
    (h : ∀ l a, a ∈ as → ∀ b j, C.le i j → Q l b j → C.sat (g b a) j (Q (l ++ [a])))
    (hb : Q l b i) : C.sat (as.foldlM g b) i (Q (l ++ as)) := by
  induction as generalizing i l b with
  | nil => simpa using C.pure hb
  | cons a as ih =>
    rw [List.foldlM_cons]
    refine C.bind (h l a (List.mem_cons_self ..) b i (C.refl i) hb) fun b j hij hb => ?_
    have hrest := fun l a ha b k hk => h l a (List.mem_cons_of_mem _ ha) b k (C.trans hij hk)
    rw [List.append_cons]
    exact ih hrest hb

end Calculus

namespace Calculus

variable {m : Type → Type} [Monad m] [LawfulMonad m] {I : Type} (C : Calculus m I) {i : I}
  {R : I → α → β → Prop} {f : α → m β} (hR : C.Stable R)

include hR

theorem constraint_mapM {c : Constraint α}
    (h : ∀ a ∈ c.args, ∀ j, C.le i j → C.sat (f a) j fun b k => R k a b) :
    C.sat (c.mapM f) i fun d j => c.Related (R j) d := by
  have list {as : List α} (hs : ∀ a ∈ as, a ∈ c.args) {j} (hj : C.le i j) :
      C.sat (as.mapM f) j fun bs k => List.Forall₂ (R k) as bs :=
    C.mapM hR fun a ha k hk => h a (hs a ha) k (C.trans hj hk)
  have forall₂ {j k} (hjk : C.le j k) {as : List α} {bs : List β} (hbs : List.Forall₂ (R j) as bs) :
      List.Forall₂ (R k) as bs := hbs.imp fun _ _ => hR.keep hjk
  cases c with
  | allDifferent as | allDifferentExceptZero as | allEqual as | monotone _ as | circuit as
  | subcircuit as | subcircuitThrough as _ | table as _ | xor as =>
    refine C.bind (list (fun a ha => ha) (C.refl i)) fun bs j _ hbs => C.pure ⟨?_, hbs⟩
    have hlength : as.length = bs.length := hbs.length_eq
    simp [Constraint.map, hlength]
  | inverse fs bs =>
    refine C.bind (list (by simp +contextual [Constraint.args]) (C.refl i)) fun fs' j hj hf => ?_
    refine C.bind (list (by simp +contextual [Constraint.args]) hj) fun bs' k hk hb => C.pure ⟨?_, ?_⟩
    · simp [Constraint.map, hf.length_eq, hb.length_eq]
    · exact List.rel_append (forall₂ hk hf) hb
  | cumulative ss ds es rs cap =>
    refine C.bind (list (by simp +contextual [Constraint.args]) (C.refl i)) fun ss' j₁ h₁ hs => ?_
    refine C.bind (list (by simp +contextual [Constraint.args]) h₁) fun ds' j₂ h₂ hd => ?_
    refine C.bind (list (by simp +contextual [Constraint.args]) (C.trans h₁ h₂)) fun es' j₃ h₃ he => ?_
    have h₁₃ := C.trans h₁ (C.trans h₂ h₃)
    refine C.bind (list (by simp +contextual [Constraint.args]) h₁₃) fun rs' j₄ h₄ hr => ?_
    have h₂₄ := C.trans h₃ h₄
    refine C.bind (h cap (by simp [Constraint.args]) j₄ (C.trans h₁₃ h₄)) fun cap' j₅ h₅ hc => ?_
    refine C.pure ⟨?_, ?_⟩
    · simp [Constraint.map, hs.length_eq, hd.length_eq, he.length_eq, hr.length_eq]
    · exact List.rel_append (List.rel_append (List.rel_append (List.rel_append
        (forall₂ (C.trans h₂ (C.trans h₂₄ h₅)) hs) (forall₂ (C.trans h₂₄ h₅) hd))
        (forall₂ (C.trans h₄ h₅) he)) (forall₂ h₅ hr)) (.cons hc .nil)
  | cardinality xs vs ns =>
    refine C.bind (list (by simp +contextual [Constraint.args]) (C.refl i)) fun xs' j₁ h₁ hx => ?_
    refine C.bind (list (by simp +contextual [Constraint.args]) h₁) fun vs' j₂ h₂ hv => ?_
    refine C.bind (list (by simp +contextual [Constraint.args]) (C.trans h₁ h₂)) fun ns' j₃ h₃ hn => ?_
    refine C.pure ⟨?_, ?_⟩
    · simp [Constraint.map, hx.length_eq, hv.length_eq, hn.length_eq]
    · exact List.rel_append (List.rel_append (forall₂ (C.trans h₂ h₃) hx) (forall₂ h₃ hv)) hn
  | memberOfSet a s =>
    exact C.bind (h a (by simp [Constraint.args]) i (C.refl i)) fun b j _ hb =>
      C.pure ⟨rfl, .cons hb .nil⟩
  | memberOfList a vs =>
    refine C.bind (list (by simp +contextual [Constraint.args]) (C.refl i)) fun vs' j hj hv => ?_
    refine C.bind (h a (by simp [Constraint.args]) j hj) fun b k hk hb => C.pure ⟨?_, ?_⟩
    · simp [Constraint.map, hv.length_eq]
    · exact .cons hb (forall₂ hk hv)
  | ifThenElse c t e =>
    refine C.bind (h c (by simp [Constraint.args]) i (C.refl i)) fun c' j hj hc => ?_
    refine C.bind (h t (by simp [Constraint.args]) j hj) fun t' k hk ht => ?_
    refine C.bind (h e (by simp [Constraint.args]) k (C.trans hj hk)) fun e' l hl he => ?_
    exact C.pure ⟨rfl, .cons (hR.keep (C.trans hk hl) hc) (.cons (hR.keep hl ht) (.cons he .nil))⟩

theorem function_mapM {g : Function α}
    (h : ∀ a ∈ g.args, ∀ j, C.le i j → C.sat (f a) j fun b k => R k a b) :
    C.sat (g.mapM f) i fun k j => g.Related (R j) k := by
  have list {as : List α} (hs : ∀ a ∈ as, a ∈ g.args) :
      C.sat (as.mapM f) i fun bs k => List.Forall₂ (R k) as bs :=
    C.mapM hR fun a ha k hk => h a (hs a ha) k hk
  cases g with
  | abs a =>
    exact C.bind (h a (by simp [Function.args]) i (C.refl i)) fun b j _ hb =>
      C.pure ⟨rfl, .cons hb .nil⟩
  | minimum as | maximum as | distinct as =>
    refine C.bind (list fun a ha => ha) fun bs j _ hbs => C.pure ⟨?_, hbs⟩
    have hlength : as.length = bs.length := hbs.length_eq
    simp [Function.map, hlength]
  | count as v | element as v =>
    refine C.bind (list (by simp +contextual [Function.args])) fun bs j hj hbs => ?_
    refine C.bind (h v (by simp [Function.args]) j hj) fun w k hk hw => C.pure ⟨?_, ?_⟩
    · simp [Function.map, hbs.length_eq]
    · exact List.rel_append (hbs.imp fun _ _ => hR.keep hk) (.cons hw .nil)

/-- The weights of a sum are kept. -/
theorem terms_mapM {ts : List (Int × α)}
    (h : ∀ t ∈ ts, ∀ j, C.le i j → C.sat (f t.2) j fun b k => R k t.2 b) :
    C.sat (ts.mapM fun (w, a) => return (w, ← f a)) i fun us j =>
      List.Forall₂ (fun (t : Int × α) (u : Int × β) => u.1 = t.1 ∧ R j t.2 u.2) ts us := by
  have hS : C.Stable fun j (t : Int × α) (u : Int × β) => u.1 = t.1 ∧ R j t.2 u.2 :=
    fun i j t u hij h => ⟨h.1, hR.keep hij h.2⟩
  refine C.mapM hS fun t ht j hj => ?_
  exact C.bind (h t ht j hj) fun b k _ hb => C.pure ⟨rfl, hb⟩

end Calculus

end ConstraintModel
