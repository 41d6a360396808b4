import ConstraintModel.Proofs.PositiveMeaning
import ConstraintModel.Proofs.PrimitiveSolutions

namespace ConstraintModel

namespace Lowering

variable {α β : Type} {heavy : Prop} {σ : Store} {x : Lowering α} {f : α → Lowering β}
  {Q Q' : α → Store → Prop} {R : β → Store → Prop}

/-- The run ends with a result as required, unless it overflows. That only
happens where the numbers are large. -/
def Ends (heavy : Prop) (x : Lowering α) (σ : Store) (Q : α → Store → Prop) : Prop :=
  match x σ with
  | .ok a τ => Q a τ
  | .error e _ => e = .overflow ∧ heavy

theorem Ends.pure {a : α} (h : Q a σ) : Ends heavy (pure a) σ Q := h

theorem Ends.bind (hx : x.Ends heavy σ Q) (hf : ∀ a τ, Q a τ → (f a).Ends heavy τ R) :
    (x >>= f).Ends heavy σ R := by
  unfold Ends at hx
  change match EStateM.bind x f σ with | .ok b τ => R b τ | .error e _ => e = .overflow ∧ heavy
  unfold EStateM.bind
  cases h : x σ with
  | error e τ => rwa [h] at hx
  | ok a τ =>
    rw [h] at hx
    exact hf a τ hx

/-- What is known about the run can be used for its result. -/
theorem Ends.imp (hx : x.Ends heavy σ Q) (h : ∀ a τ, x σ = .ok a τ → Q a τ → Q' a τ) : x.Ends heavy σ Q' := by
  unfold Ends at hx ⊢
  cases hr : x σ with
  | error e τ => rwa [hr] at hx
  | ok a τ =>
    rw [hr] at hx
    exact h a τ hr hx

theorem Ends.freshBool : freshBool.Ends heavy σ fun e τ => ∃ y, e = .var y ∧ σ.Creates y τ :=
  ⟨_, rfl, rfl, fun _ => rfl⟩

end Lowering

namespace Expr

variable {e a : Expr} {x : Variable}

def negations (e : Expr) : List Variable :=
  match e with
  | negVar x => [x]
  | e => e.args.attach.flatMap fun ⟨a, _⟩ => a.negations
termination_by sizeOf e
decreasing_by exact sizeOf_lt_of_mem_args ‹_›

theorem negations_negVar (x : Variable) : (negVar x).negations = [x] := by rw [negations]

theorem negations_eq (h : ∀ x, e ≠ negVar x) : e.negations = e.args.flatMap negations := by
  rw [negations.eq_def]
  cases e with
  | negVar x => exact absurd rfl (h x)
  | _ => simp [List.flatMap_subtype, List.unattach_attach]

theorem mem_negations_of_arg (ha : a ∈ e.args) (hx : x ∈ a.negations) : x ∈ e.negations := by
  rw [negations_eq (by rintro y rfl; cases ha)]
  exact List.mem_flatMap.2 ⟨a, ha, hx⟩

theorem negations_eq_nil (h : ∀ x, e ≠ negVar x) (hargs : ∀ a ∈ e.args, a.negations = []) : e.negations = [] := by
  rw [negations_eq h, List.flatMap_eq_nil_iff]
  exact hargs

/-- A side of a comparison that is at most one operation on simple arguments. -/
def IsShallowSide (e : Expr) : Prop :=
  (∀ a ∈ e.args, a.isSimple) ∧
    match e with
    | var _ | negVar _ | sum _ | wsum _ | sub _ _ | mul _ _ | neg _ | function _ => True
    | _ => False

/-- A Boolean constant, a comparison of a shallow side with a simple expression,
or a constraint over simple expressions, guarded by literals or not. -/
def IsShallow : Expr → Prop
  | bool _ => True
  | cmp _ a b => a.IsShallowSide ∧ b.isSimple
  | constraint c => ∀ a ∈ c.args, a.isSimple
  | implies l a => l.isLiteral ∧ a.IsShallow
  | _ => False

end Expr

namespace Positive

open ConstraintModel.Expr (negations negations_negVar negations_eq_nil mem_negations_of_arg IsShallowSide IsShallow)

variable {α β : Type}

structure Tracked (xs : List Variable) (σ : Store) (v : Views) (τ : Store) : Prop where
  nodup : (v.map Prod.fst).Nodup
  negated : ∀ p ∈ v, p.1 ∈ xs
  created : ∃ ys : List Variable, v.map Prod.snd = ys.map .var ∧ σ.CreatesAll ys τ

variable {xs : List Variable} {σ τ υ : Store} {v : Views} {x y : Variable}

theorem Tracked.exists_var (h : Tracked xs σ v τ) {p : Variable × Expr} (hp : p ∈ v) : ∃ y, p.2 = .var y := by
  obtain ⟨ys, hys, -⟩ := h.created
  have hmem : p.2 ∈ ys.map .var := hys ▸ List.mem_map_of_mem hp
  obtain ⟨y, -, hy⟩ := List.mem_map.1 hmem
  exact ⟨y, hy.symm⟩

theorem Tracked.create (h : Tracked xs σ v τ) (hx : x ∈ xs) (hnew : v.lookup x = none) (hy : τ.Creates y υ) :
    Tracked xs σ (v ++ [(x, .var y)]) υ := by
  obtain ⟨ys, hys, hcreates⟩ := h.created
  have hkeys : x ∉ v.map Prod.fst := by
    intro hmem
    obtain ⟨p, hp, rfl⟩ := List.mem_map.1 hmem
    simpa using List.lookup_eq_none_iff.1 hnew p hp
  constructor
  · rw [List.map_append, List.nodup_append_comm]
    simpa using ⟨fun e he => hkeys (List.mem_map_of_mem he), h.nodup⟩
  · exact List.forall_mem_append.2 ⟨h.negated, List.forall_mem_singleton.2 hx⟩
  · refine ⟨ys ++ [y], ?_, hcreates.append (.cons hy .nil)⟩
    rw [List.map_append, hys, List.map_append]
    rfl

def Tracks (xs : List Variable) (σ : Store) (heavy : Prop) (x : Replacing α) (Q : α → Prop) : Prop :=
  ∀ v τ, Tracked xs σ v τ → (x.run v).Ends heavy τ fun p υ => Tracked xs σ p.2 υ ∧ Q p.1

section

variable {heavy : Prop} {m : Replacing α} {f : α → Replacing β} {Q Q' : α → Prop} {R : β → Prop}

theorem Tracks.pure {a : α} (h : Q a) : Tracks xs σ heavy (pure a) Q := fun _ _ hv => .pure ⟨hv, h⟩

theorem Tracks.bind (hm : Tracks xs σ heavy m Q) (hf : ∀ a, Q a → Tracks xs σ heavy (f a) R) :
    Tracks xs σ heavy (m >>= f) R := by
  intro v τ hv
  rw [StateT.run_bind]
  exact (hm v τ hv).bind fun p υ hp => hf p.1 hp.2 p.2 υ hp.1

theorem Tracks.imp (hm : Tracks xs σ heavy m Q) (h : ∀ a, Q a → Q' a) : Tracks xs σ heavy m Q' :=
  fun v τ hv => (hm v τ hv).imp fun _ _ _ hp => ⟨hp.1, h _ hp.2⟩

theorem Tracks.checked_bind {c : Checked α} (h : ∀ a, c = .ok a → Tracks xs σ heavy (f a) R)
    (hheavy : ¬heavy → ∃ a, c = .ok a) : Tracks xs σ heavy (liftM c >>= f) R := by
  cases c with
  | error e =>
    refine fun _ _ _ => ⟨rfl, ?_⟩
    by_contra hl
    obtain ⟨a, ha⟩ := hheavy hl
    cases ha
  | ok a => exact h a rfl

def tracks (xs : List Variable) (σ : Store) (heavy : Prop) : Calculus Replacing Unit where
  le _ _ := True
  sat x _ Q := Tracks xs σ heavy x fun a => Q a ()
  refl _ := trivial
  trans _ _ := trivial
  pure h := Tracks.pure h
  bind hx hf := Tracks.bind hx fun a ha => hf a () trivial ha
  imp hx h := hx.imp fun a ha => h a () trivial ha

end

variable {heavy : Prop} {e a b l : Expr} {ts : List (Int × Expr)} {r : Relation}

theorem positive_tracks (hs : e.isSimple) (hx : ∀ x ∈ e.negations, x ∈ xs) :
    Tracks xs σ heavy (positive e) fun e' => e'.negations = [] := by
  have simple (h : ∀ x, e ≠ .negVar x) : Tracks xs σ heavy (Pure.pure e) fun e' => e'.negations = [] :=
    .pure (negations_eq_nil h (by simp [Expr.args_of_isSimple hs]))
  cases e with
  | negVar x =>
    intro v τ hv
    rw [positive, StateT.run_bind, StateT.run_get, pure_bind]
    cases hlookup : v.lookup x with
    | some y =>
      obtain ⟨l₁, l₂, rfl, -⟩ := List.lookup_eq_some_iff.1 hlookup
      obtain ⟨z, rfl⟩ : ∃ z, y = .var z := hv.exists_var (p := (x, y)) (by simp)
      exact .pure ⟨hv, negations_eq_nil (by simp) (by simp [Expr.args])⟩
    | none =>
      simp only [StateT.run_bind, StateT.run_modify, StateT.run_pure, pure_bind, StateT.run_monadLift, bind_assoc]
      refine Lowering.Ends.freshBool.bind ?_
      rintro _ υ ⟨y, rfl, hy⟩
      refine .pure ⟨hv.create (hx x (by simp [negations_negVar])) hlookup hy, ?_⟩
      exact negations_eq_nil (by simp) (by simp [Expr.args])
  | bool _ | int _ | var _ => exact simple (by simp)
  | _ => cases hs

theorem negations_of_mapped (h : a.Mapped (fun _ c => c.negations = []) b) (ha : ∀ x, a ≠ .negVar x) :
    b.negations = [] := by
  refine negations_eq_nil ?_ fun c hc => ?_
  · rintro x rfl
    rcases h.eq_or_isSimple with ⟨heq, -⟩ | h
    · exact ha x heq.symm
    · cases h
  · obtain ⟨_, -, hnil⟩ := h.args c hc
    exact hnil

theorem args_tracks (hcall : ∀ d, a ≠ .call d) (ha : ∀ x, a ≠ .negVar x) (hs : ∀ c ∈ a.args, c.isSimple)
    (hx : ∀ x ∈ a.negations, x ∈ xs) : Tracks xs σ heavy (a.mapArgsM positive) fun a' => a'.negations = [] := by
  have hmapped : Tracks xs σ heavy (a.mapArgsM positive) fun a' => a.Mapped (fun _ c => c.negations = []) a' :=
    (tracks xs σ heavy).mapArgsM (i := ()) (R := fun _ _ c => c.negations = []) (fun _ _ _ _ _ h => h)
      hcall fun c hc _ _ => positive_tracks (hs c hc) fun x h => hx x (mem_negations_of_arg hc h)
  exact hmapped.imp fun a' h => negations_of_mapped h ha

def weight (ts : List (Int × Expr)) : Nat := (((ts.filter fun t => isView t.2).map Prod.fst).map Int.natAbs).sum

theorem natAbs_le_weight {t : Int × Expr} (ht : t ∈ ts) (hv : isView t.2) : t.1.natAbs ≤ weight ts :=
  List.le_sum_of_mem (List.mem_map_of_mem (List.mem_map_of_mem (List.mem_filter.2 ⟨ht, hv⟩)))

theorem natAbs_offset_le (ts : List (Int × Expr)) : (offset ts).natAbs ≤ weight ts :=
  List.le_sum_of_subadditive Int.natAbs (le_refl 0) Int.natAbs_add_le _

/-- Nothing larger comes up when the views in a sum are replaced. -/
theorem straighten_eq (h : weight ts < Checked.limit) : straighten ts = .ok (ts.map straight, offset ts) := by
  have hterms : ∀ t ∈ ts, ∃ u, (match t.2 with
      | .negVar x => return (← Checked.neg t.1, .var x)
      | a => return (t.1, a) : Checked (Int × Expr)) = .ok u := by
    rintro ⟨w, a⟩ ht
    cases a with
    | negVar x =>
      have hle := natAbs_le_weight ht rfl
      have hfits : Checked.Fits (-w) := Checked.fits_of_natAbs_lt (by omega)
      exact ⟨_, Checked.bind_eq_ok.2 ⟨-w, Checked.neg_eq_ok.2 ⟨hfits, rfl⟩, rfl⟩⟩
    | _ => exact ⟨_, rfl⟩
  obtain ⟨us, hus⟩ := Checked.exists_mapM hterms
  have hsum : Checked.sum ((ts.filter fun t => isView t.2).map Prod.fst) = .ok _ :=
    Checked.foldlM_add_eq_ok (by simpa [weight] using h)
  have hrun : straighten ts = .ok (us, _) := Checked.bind_eq_ok.2 ⟨us, hus, Checked.bind_eq_ok.2 ⟨_, hsum, rfl⟩⟩
  obtain ⟨rfl, hoffset⟩ := straighten_eq_ok hrun
  rw [hrun, hoffset]
  rfl

theorem negations_straight {t : Int × Expr} (ht : t.2.isSimple) : (straight t).2.negations = [] := by
  obtain ⟨w, a⟩ := t
  cases a with
  | negVar _ | bool _ | int _ | var _ => exact negations_eq_nil (by simp [straight]) (by simp [straight, Expr.args])
  | _ => cases ht

theorem negations_cmp_wsum {us : List (Int × Expr)} {n : Int} (hus : ∀ u ∈ us, u.2.negations = []) :
    (Expr.cmp r (.wsum us) (.int n)).negations = [] := by
  refine negations_eq_nil (by simp) ?_
  simp only [Expr.args, List.forall_mem_cons, List.not_mem_nil, false_imp_iff, implies_true, and_true]
  exact ⟨negations_eq_nil (by simp) (List.forall_mem_map.2 hus), negations_eq_nil (by simp) (by simp [Expr.args])⟩

theorem sum_tracks (hts : ∀ t ∈ ts, t.2.isSimple) (hb : b.isSimple) (hx : ∀ x ∈ b.negations, x ∈ xs)
    (hheavy : ¬heavy → weight ts + (b.constant?.getD 0).natAbs < Checked.limit) :
    Tracks xs σ heavy (sum r ts b) fun e => e.negations = [] := by
  have hterms : ∀ u ∈ ts.map straight, u.2.negations = [] :=
    List.forall_mem_map.2 fun t ht => negations_straight (hts t ht)
  unfold sum
  refine .checked_bind (fun ⟨us, n⟩ hus => ?_) fun hl => ⟨_, straighten_eq (by have := hheavy hl; omega)⟩
  obtain ⟨rfl, hn⟩ := straighten_eq_ok hus
  have hle : n.natAbs ≤ weight ts := hn ▸ natAbs_offset_le ts
  dsimp only
  cases hk : b.constant? with
  | some k =>
    refine .checked_bind (fun n _ => .pure (negations_cmp_wsum hterms)) fun hl => ?_
    have hlt := hheavy hl
    rw [hk, Option.getD_some] at hlt
    exact ⟨_, Checked.sub_eq_ok.2 ⟨Checked.fits_of_natAbs_lt (by omega), rfl⟩⟩
  | none =>
    refine .bind (positive_tracks hb hx) fun b' hb' => ?_
    refine .checked_bind (fun n _ => .pure (negations_cmp_wsum ?_)) fun hl => ?_
    · exact List.forall_mem_append.2 ⟨hterms, by simpa using hb'⟩
    · have hlt := hheavy hl
      exact ⟨_, Checked.neg_eq_ok.2 ⟨Checked.fits_of_natAbs_lt (by omega), rfl⟩⟩

def terms : Expr → List (Int × Expr)
  | .negVar x => [(1, .negVar x)]
  | .sum as => as.map (1, ·)
  | .wsum ts => ts
  | _ => []

/-- A bound for the numbers that come up when the views of a constraint are
removed. -/
def load : Expr → Nat
  | .cmp _ a b => weight (terms a) + (b.constant?.getD 0).natAbs
  | .implies _ a => load a
  | _ => 0

theorem comparison_tracks (ha : a.IsShallowSide) (hb : b.isSimple) (hxa : ∀ x ∈ a.negations, x ∈ xs)
    (hxb : ∀ x ∈ b.negations, x ∈ xs) (hheavy : ¬heavy → load (.cmp r a b) < Checked.limit) :
    Tracks xs σ heavy (comparison r a b) fun e => e.negations = [] := by
  obtain ⟨hargs, hside⟩ := ha
  have replaced (hcall : ∀ d, a ≠ .call d) (hview : ∀ x, a ≠ .negVar x) :
      Tracks xs σ heavy (do let a ← a.mapArgsM positive; return Expr.cmp r a (← positive b)) fun e =>
        e.negations = [] := by
    refine .bind (args_tracks hcall hview hargs hxa) fun a' ha' => ?_
    refine .bind (positive_tracks hb hxb) fun b' hb' => .pure (negations_eq_nil (by simp) ?_)
    simpa [Expr.args] using ⟨ha', hb'⟩
  unfold comparison
  cases a with
  | negVar x => exact sum_tracks (by simp [Expr.isSimple]) hb hxb hheavy
  | sum as =>
    dsimp only
    split
    · exact sum_tracks (by simpa [Expr.args] using hargs) hb hxb hheavy
    · exact replaced (by simp) (by simp)
  | wsum ts => exact sum_tracks (List.forall_mem_map.1 hargs) hb hxb hheavy
  | var _ | sub _ _ | mul _ _ | neg _ | function _ => exact replaced (by simp) (by simp)
  | _ => cases hside

theorem constraint_tracks (he : e.IsShallow) (hx : ∀ x ∈ e.negations, x ∈ xs)
    (hheavy : ¬heavy → load e < Checked.limit) : Tracks xs σ heavy (constraint e) fun e' => e'.negations = [] := by
  induction e using Expr.induction_args with
  | h e ih =>
    have hxarg : ∀ c ∈ e.args, ∀ x ∈ c.negations, x ∈ xs := fun c hc x h => hx x (mem_negations_of_arg hc h)
    cases e with
    | bool b => exact .pure (negations_eq_nil (by simp) (by simp [Expr.args]))
    | cmp r a b =>
      exact comparison_tracks he.1 he.2 (hxarg a (by simp [Expr.args])) (hxarg b (by simp [Expr.args])) hheavy
    | implies l a =>
      refine .bind (positive_tracks (Expr.isSimple_of_isLiteral he.1) (hxarg l (by simp [Expr.args]))) fun l' hl' => ?_
      refine .bind (ih a (by simp [Expr.args]) he.2 (hxarg a (by simp [Expr.args])) hheavy) fun a' ha' => .pure ?_
      exact negations_eq_nil (by simp) (by simpa [Expr.args] using ⟨hl', ha'⟩)
    | constraint c =>
      have hmapped : Tracks xs σ heavy (c.mapM positive) fun d => c.Related (fun _ a => a.negations = []) d :=
        (tracks xs σ heavy).constraint_mapM (i := ()) (R := fun _ _ (a : Expr) => a.negations = [])
          (fun _ _ _ _ _ h => h) fun a ha _ _ => positive_tracks (he a ha) (hxarg a ha)
      refine .bind hmapped fun d hd => .pure (negations_eq_nil (by simp) fun a ha => ?_)
      obtain ⟨_, -, hnil⟩ := forall₂_mem_right hd.args ha
      exact hnil
    | _ => cases he

end Positive

open ConstraintModel.Positive in
/-- No view is left, and each new variable replaces the views of another one. -/
theorem removeViews_ends {cs : List Expr} {σ : Store} (h : ∀ c ∈ cs, c.IsShallow) :
    (removeViews cs).Ends (∃ c ∈ cs, Checked.limit ≤ Positive.load c) σ fun out τ =>
      (∀ e ∈ out, e.negations = []) ∧ ∃ xs ys : List Variable, xs.Nodup ∧ xs.length = ys.length ∧
        (∀ x ∈ xs, ∃ c ∈ cs, x ∈ c.negations) ∧ σ.CreatesAll ys τ := by
  have hstart : Tracked (cs.flatMap Expr.negations) σ [] σ := ⟨List.nodup_nil, nofun, [], rfl, .nil⟩
  have hpositive : Tracks (cs.flatMap Expr.negations) σ (∃ c ∈ cs, Checked.limit ≤ Positive.load c)
      (cs.mapM Positive.constraint) fun es => List.Forall₂ (fun _ e => e.negations = []) cs es := by
    refine (tracks _ _ _).mapM (i := ()) (R := fun _ _ (e : Expr) => e.negations = []) (fun _ _ _ _ _ h => h) ?_
    intro c hc _ _
    refine constraint_tracks (h c hc) (fun x hx => List.mem_flatMap.2 ⟨c, hc, hx⟩) fun hl => ?_
    by_contra hle
    exact hl ⟨c, hc, by omega⟩
  refine (hpositive [] σ hstart).bind ?_
  rintro ⟨es, v⟩ τ ⟨hv, hes⟩
  refine .pure ⟨List.forall_mem_append.2 ⟨fun e he => ?_, List.forall_mem_map.2 fun p hp => ?_⟩, ?_⟩
  · obtain ⟨_, -, hnil⟩ := forall₂_mem_right hes he
    exact hnil
  · obtain ⟨y, hy⟩ := hv.exists_var hp
    simp [Positive.definition, hy, Expr.negations_eq, Expr.args]
  · obtain ⟨ys, hys, hcreates⟩ := hv.created
    refine ⟨v.map Prod.fst, ys, hv.nodup, ?_, ?_, hcreates⟩
    · simpa using congrArg List.length hys
    · rw [List.forall_mem_map]
      exact fun p hp => List.mem_flatMap.1 (hv.negated p hp)

/-- Removing the views ends unless it overflows. It creates at most one variable
for each negated one, leaves no view, and if all constraints hold under an
assignment, exactly one extension to the new variables satisfies the result.
Otherwise none does. -/
theorem removeViews_solutions {m : Model} (hm : m.store.Valid)
    (h : ∀ c ∈ m.constraints, c.Proper m.store.Has ∧ c.IsShallow) :
    (removeViews m.constraints).Ends (∃ c ∈ m.constraints, Checked.limit ≤ Positive.load c) m.store fun out τ =>
      (∀ e ∈ out, e.negations = []) ∧
      (∃ xs ys : List Variable, xs.Nodup ∧ xs.length = ys.length ∧
        (∀ x ∈ xs, ∃ c ∈ m.constraints, x ∈ c.negations) ∧ m.store.CreatesAll ys τ) ∧
      ∀ s, s.Within m.store →
        ((∀ c ∈ m.constraints, c.Holds s) → ∃ t, m.Extends out τ s t ∧
          ∀ t', m.Extends out τ s t' → t.Agrees τ.size t') ∧
        ((¬∀ c ∈ m.constraints, c.Holds s) → ¬∃ t, m.Extends out τ s t) := by
  refine (removeViews_ends fun c hc => (h c hc).2).imp ?_
  rintro out τ hrun ⟨hviews, hcreated⟩
  refine ⟨hviews, hcreated, fun s hs => ?_⟩
  let w : World := ⟨m.store, m.constraints, fun c hc => (h c hc).1.owned hm⟩
  have hrewrites : (removeViews w.constraints).Rewrites True (fun _ _ => True) w := removeViews_rewrites
  obtain ⟨-, w', rfl, rfl, hr, -⟩ := (hrewrites ⟨s, hs⟩).ok hrun
  have hextends : (∀ c ∈ m.constraints, c.Holds s) ↔ ∃ t, m.Extends w'.constraints w'.store s t :=
    (hr.holds_iff_extends hs).trans (exists_congr fun t => Model.extends_iff.symm)
  constructor
  · intro hholds
    obtain ⟨t, ht⟩ := hextends.1 hholds
    refine ⟨t, ht, fun t' ht' => ?_⟩
    exact hr.unique trivial t t' (Model.extends_iff.1 ht).1 (Model.extends_iff.1 ht').1
      (ht.agrees.symm.trans ht'.agrees)
  · exact fun hnot h => hnot (hextends.2 h)

namespace Model

def bit (i : Nat) : Variable := ⟨i, .boolean, .bool⟩

def recurringView : Model where
  store := ⟨#[⟨.boolean, .bool, .user⟩, ⟨.boolean, .bool, .user⟩, ⟨.boolean, .bool, .user⟩]⟩
  constraints := [
    .cmp .le (.wsum [(2, .negVar (bit 0)), (-3, .negVar (bit 1))]) (.negVar (bit 2)),
    .implies (.negVar (bit 2)) (.constraint (.circuit [.negVar (bit 2), .var (bit 1)]))]

open ConstraintModel.Expr in
theorem removeViews_recurringView :
    recurringView.store.Valid ∧
    (∀ c ∈ recurringView.constraints, c.Proper recurringView.store.Has ∧ c.IsShallow) ∧
    ∃ out τ, removeViews recurringView.constraints recurringView.store = .ok out τ ∧ τ.size = 4 ∧
      (∀ e ∈ out, e.negations = []) ∧
      (∃ t, recurringView.Extends out τ ⟨fun i => some (if i = 0 then 1 else 0)⟩ t ∧
        ∀ t', recurringView.Extends out τ ⟨fun i => some (if i = 0 then 1 else 0)⟩ t' → t.Agrees τ.size t') ∧
      ¬∃ t, recurringView.Extends out τ ⟨fun i => some (if i = 1 then 1 else 0)⟩ t := by
  have hvalid : recurringView.store.Valid := by
    rintro (_ | _ | _ | i) d h hk <;> simp [recurringView] at h <;> subst h <;> rfl
  have hproper : ∀ c ∈ recurringView.constraints, c.Proper recurringView.store.Has ∧ c.IsShallow := by
    have h₁ : recurringView.store.Has (bit 1) := ⟨.user, rfl⟩
    have hview {i : Nat} (h : recurringView.store.Has (bit i)) :
        (negVar (bit i)).Proper recurringView.store.Has := proper_negVar.2 ⟨rfl, h⟩
    have hfirst := hview (i := 0) ⟨.user, rfl⟩
    have hlast := hview (i := 2) ⟨.user, rfl⟩
    have hcircuit : (Expr.constraint (.circuit [.negVar (bit 2), .var (bit 1)])).Proper recurringView.store.Has :=
      proper_constraint.2 ⟨le_refl 2, List.forall_mem_cons.2 ⟨hlast, List.forall_mem_singleton.2 (proper_var.2 h₁)⟩⟩
    have hsum : (wsum [(2, negVar (bit 0)), (-3, negVar (bit 1))]).Proper recurringView.store.Has :=
      proper_wsum.2 (List.forall_mem_cons.2 ⟨hfirst, List.forall_mem_singleton.2 (hview h₁)⟩)
    rw [recurringView, List.forall_mem_cons, List.forall_mem_singleton]
    refine ⟨⟨proper_cmp.2 ⟨hsum, hlast⟩, ?_⟩, proper_implies.2 ⟨⟨rfl, rfl⟩, hlast, hcircuit⟩, ?_⟩
    · simp [IsShallow, IsShallowSide, args, isSimple]
    · simp [IsShallow, isSimple, isLiteral, Constraint.args, bit]
  have hwithin (k : Nat) : Assignment.Within recurringView.store ⟨fun i => some (if i = k then 1 else 0)⟩ := by
    have hbit (i : Nat) : (if i = k then 1 else 0 : Int) ∈ Bounds.boolean := by
      split <;> decide
    rintro (_ | _ | _ | i) d h <;> simp [recurringView] at h <;> subst h <;> exact ⟨_, hbit _, rfl⟩
  have hholds : ∀ c ∈ recurringView.constraints, c.Holds ⟨fun i => some (if i = 0 then 1 else 0)⟩ := by
    rw [recurringView, List.forall_mem_cons, List.forall_mem_singleton]
    constructor <;> cbv
  have hfails : ¬∀ c ∈ recurringView.constraints, c.Holds ⟨fun i => some (if i = 1 then 1 else 0)⟩ := by
    rw [recurringView, List.forall_mem_cons, not_and_or]
    refine .inl fun h => ?_
    have hexact : (cmp .le (wsum [(2, negVar (bit 0)), (-3, negVar (bit 1))]) (negVar (bit 2))).exact
        ⟨fun i => some (if i = 1 then 1 else 0)⟩ = some 0 := by cbv
    rw [Holds, hexact] at h
    cases h
  obtain ⟨out, τ, hrun, hsize⟩ : ∃ out τ, removeViews recurringView.constraints recurringView.store = .ok out τ ∧
      τ.size = 4 := ⟨_, _, by cbv, rfl⟩
  have hends := removeViews_solutions hvalid hproper
  rw [Lowering.Ends, hrun] at hends
  obtain ⟨hviews, -, hsolutions⟩ := hends
  exact ⟨hvalid, hproper, out, τ, hrun, hsize, hviews, (hsolutions _ (hwithin 0)).1 hholds,
    (hsolutions _ (hwithin 1)).2 hfails⟩

end Model

end ConstraintModel
