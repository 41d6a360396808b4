import ConstraintModel.Proofs.Sized

namespace ConstraintModel.Expr

structure Small (V : Variable → Prop) (t : Prop) (k n : Nat) (e : Expr) : Prop where
  proper : e.Proper V
  tripleFree : t ∨ e.TripleFree
  nesting : e.nesting k ≤ n

variable {V W : Variable → Prop} {t : Prop} {k m n : Nat} {e a b : Expr} {as : List Expr}

theorem Small.measured (h : e.Small V t k n) : e.Measured V True t k n :=
  ⟨h.proper.scope, h.nesting, fun _ => h.proper, h.tripleFree⟩

theorem Measured.small (h : e.Measured V True t k n) : e.Small V t k n := ⟨h.proper trivial, h.tripleFree, h.nesting⟩

namespace Small

theorem mono (h : e.Small V t k m) (hmn : m ≤ n) : e.Small V t k n := (h.measured.mono hmn).small

theorem imp (h : e.Small V t k n) (hVW : ∀ x, V x → W x) : e.Small W t k n := (h.measured.imp hVW).small

theorem arg (h : e.Small V t k n) (ha : a ∈ e.args) : a.Small V t k n := by
  refine (h.measured.arg ?_ ha).small
  rintro d rfl
  exact proper_call h.proper

theorem of_isSimple (hs : e.isSimple) (he : e.Proper V) : e.Small V t k 0 :=
  (Measured.simple hs he.scope fun _ => he).small

theorem var {x : Variable} (h : V x) : (var x).Small V t k 0 := of_isSimple rfl (proper_var.2 h)

theorem implies (hba : a.isBool) (hbb : b.isBool) (ha : a.Small V t k m) (hb : b.Small V t k n) :
    (implies a b).Small V t k (k + m + n) :=
  (Measured.implies (fun _ => ⟨hba, hbb⟩) ha.measured hb.measured le_rfl).small

theorem all (hb : ∀ a ∈ as, a.isBool) (h : ∀ a ∈ as, a.Small V t k n) : (all as).Small V t k (k + n) :=
  (Measured.all (fun _ => hb) (fun a ha => (h a ha).measured) le_rfl).small

end Small

end ConstraintModel.Expr
