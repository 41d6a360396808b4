import ConstraintModel.Expr.Basic

namespace ConstraintModel

variable {α β : Type} {f : α → β}

theorem length_eq_of_map_eq {as bs : List α} (h : as.map f = bs.map f) : as.length = bs.length := by
  simpa using congrArg List.length h

/-- A constraint is determined by its arguments together with what is left
when they are erased. -/
theorem Constraint.eq_of_map_eq {c d : Constraint α} (hshape : c.map f = d.map f) (hargs : c.args = d.args) :
    c = d := by
  cases c <;> cases d <;> simp [map] at hshape <;> simp only [args] at hargs
  all_goals grind [List.append_inj', length_eq_of_map_eq]

theorem Function.eq_of_map_eq {g h : Function α} (hshape : g.map f = h.map f) (hargs : g.args = h.args) :
    g = h := by
  cases g <;> cases h <;> simp [map] at hshape <;> simp only [args] at hargs
  all_goals grind [List.append_inj', length_eq_of_map_eq]

theorem Call.eq_of_map_eq {d e : Call α} (hshape : d.map f = e.map f) (hargs : d.args = e.args) : d = e := by
  obtain ⟨name, as, verbatim⟩ := d
  obtain ⟨name', bs, verbatim'⟩ := e
  simp only [map, Call.mk.injEq] at hshape
  obtain ⟨rfl, hshape, rfl⟩ := hshape
  simp only [args] at hargs
  suffices h : as = bs by rw [h]
  induction as generalizing bs with
  | nil => cases bs <;> simp_all
  | cons a as ih =>
    cases bs with
    | nil => simp at hshape
    | cons b bs =>
      simp only [List.map_cons, List.cons.injEq, List.flatMap_cons] at hshape hargs
      cases a <;> cases b <;>
        simp only [Argument.map, reduceCtorEq, Argument.array.injEq, false_and] at hshape
      · simp only [Argument.toList, List.cons_append, List.nil_append, List.cons.injEq] at hargs
        rw [hargs.1, ih bs hshape.2 hargs.2]
      · obtain ⟨h, h'⟩ := List.append_inj hargs (length_eq_of_map_eq hshape.1)
        simp only [Argument.toList] at h
        rw [h, ih bs hshape.2 h']
namespace Expr

/-- Whether two expressions are built by the same operation, with the same
data apart from their direct subexpressions. -/
def sameHead : Expr → Expr → Bool
  | bool a, bool b => a == b
  | int m, int n => m == n
  | var x, var y | negVar x, negVar y => x == y
  | and _, and _ | or _, or _ | sum _, sum _ | implies _ _, implies _ _ | not _, not _
  | sub _ _, sub _ _ | mul _ _, mul _ _ | neg _, neg _ => true
  | wsum ts, wsum us => ts.map Prod.fst == us.map Prod.fst
  | cmp r _ _, cmp q _ _ => r == q
  | constraint c, constraint d => c.map (fun _ => ()) == d.map (fun _ => ())
  | function g, function h => g.map (fun _ => ()) == h.map (fun _ => ())
  | call d, call e => d.map (fun _ => ()) == e.map (fun _ => ())
  | _, _ => false

def same (a b : Expr) : Bool :=
  sameHead a b && a.args.length == b.args.length &&
    (a.args.attach.zip b.args).all fun (⟨x, _⟩, y) => same x y
termination_by sizeOf a
decreasing_by exact sizeOf_lt_of_mem_args ‹_›

theorem terms_ext {ts us : List (Int × Expr)} (hfst : ts.map Prod.fst = us.map Prod.fst)
    (hsnd : ts.map Prod.snd = us.map Prod.snd) : ts = us := by
  induction ts generalizing us with
  | nil => cases us <;> simp_all
  | cons t ts ih =>
    cases us with
    | nil => simp at hfst
    | cons u us =>
      simp only [List.map_cons, List.cons.injEq] at hfst hsnd
      rw [Prod.ext hfst.1 hsnd.1, ih hfst.2 hsnd.2]

theorem eq_of_sameHead {a b : Expr} (h : sameHead a b) (hargs : a.args = b.args) : a = b := by
  cases a <;> cases b <;> simp [sameHead, args] at h hargs ⊢
  case wsum => exact terms_ext h hargs
  case constraint => exact Constraint.eq_of_map_eq h hargs
  case function => exact Function.eq_of_map_eq h hargs
  case call => exact Call.eq_of_map_eq h hargs
  all_goals simp_all

theorem sameHead_self (a : Expr) : sameHead a a := by
  cases a <;> simp [sameHead]

theorem same_iff {a b : Expr} : same a b ↔ a = b := by
  induction a using induction_args generalizing b with
  | h a ih =>
    rw [same, Bool.and_eq_true, Bool.and_eq_true, beq_iff_eq, List.all_eq_true]
    constructor
    · rintro ⟨⟨hhead, hlength⟩, hargs⟩
      refine eq_of_sameHead hhead (List.ext_getElem hlength fun i hi hi' => ?_)
      have hmem : (⟨a.args[i], List.getElem_mem hi⟩, b.args[i]) ∈ a.args.attach.zip b.args :=
        List.mem_iff_getElem.2 ⟨i, by simp; omega, by simp⟩
      exact (ih _ (List.getElem_mem _)).1 (by simpa using hargs _ hmem)
    · rintro rfl
      refine ⟨⟨sameHead_self a, rfl⟩, ?_⟩
      rintro ⟨⟨x, hx⟩, y⟩ hmem
      obtain ⟨i, hi, h⟩ := List.getElem_of_mem hmem
      simp only [List.getElem_zip, List.getElem_attach, Prod.mk.injEq, Subtype.mk.injEq] at h
      exact (ih x hx).2 (h.1.symm.trans h.2)

instance : DecidableEq Expr := fun _ _ => decidable_of_iff _ same_iff

end Expr

end ConstraintModel
