import ConstraintModel.Proofs.Agreement
import ConstraintModel.Proofs.Sound
import ConstraintModel.Proofs.Stands
import Mathlib

namespace ConstraintModel

theorem Checked.fits_of_ofInt {n m : Int} (h : ofInt n = .ok m) : Fits m := by
  obtain ⟨hfits, rfl⟩ := ofInt_eq_ok.1 h
  exact hfits

namespace Bounds

def Fits (b : Bounds) : Prop := Checked.Fits b.lower ∧ Checked.Fits b.upper

instance (b : Bounds) : Decidable b.Fits := inferInstanceAs (Decidable (_ ∧ _))

variable {a b c : Bounds} {m n w : Int} {ns : List Int} {bs : List Bounds}

theorem fits_of_between (hm : Checked.Fits m) (hn : Checked.Fits n) {k : Int} (hmk : m ≤ k) (hkn : k ≤ n) :
    Checked.Fits k := ⟨hm.1.trans hmk, hkn.trans_lt hn.2⟩

theorem Fits.of_mem (h : b.Fits) (hn : n ∈ b) : Checked.Fits n := fits_of_between h.1 h.2 hn.1 hn.2

theorem fits_boolean : boolean.Fits := by decide

theorem fits_min?_getD (h : ∀ n ∈ ns, Checked.Fits n) : Checked.Fits (ns.min?.getD 0) := by
  cases hn : ns.min? with
  | none => decide
  | some n => exact h n (List.min?_eq_some_iff.1 hn).1

theorem fits_max?_getD (h : ∀ n ∈ ns, Checked.Fits n) : Checked.Fits (ns.max?.getD 0) := by
  cases hn : ns.max? with
  | none => decide
  | some n => exact h n (List.max?_eq_some_iff.1 hn).1

theorem fits_hull (h : ∀ b ∈ bs, b.Fits) : (hull bs).Fits :=
  ⟨fits_min?_getD (List.forall_mem_map.2 fun b hb => (h b hb).1),
    fits_max?_getD (List.forall_mem_map.2 fun b hb => (h b hb).2)⟩

theorem fits_minimum (h : ∀ b ∈ bs, b.Fits) : (minimum bs).Fits :=
  ⟨fits_min?_getD (List.forall_mem_map.2 fun b hb => (h b hb).1),
    fits_min?_getD (List.forall_mem_map.2 fun b hb => (h b hb).2)⟩

theorem fits_maximum (h : ∀ b ∈ bs, b.Fits) : (maximum bs).Fits :=
  ⟨fits_max?_getD (List.forall_mem_map.2 fun b hb => (h b hb).1),
    fits_max?_getD (List.forall_mem_map.2 fun b hb => (h b hb).2)⟩

/-! The results of the checked operations fit. -/

theorem fits_of_ends {l u : Checked Int} (hl : ∀ n, l = .ok n → Checked.Fits n)
    (hu : ∀ n, u = .ok n → Checked.Fits n) (h : (do return ⟨← l, ← u⟩ : Checked Bounds) = .ok c) : c.Fits := by
  obtain ⟨m, hm, h⟩ := Checked.bind_eq_ok.1 h
  obtain ⟨n, hn, h⟩ := Checked.bind_eq_ok.1 h
  cases h
  exact ⟨hl m hm, hu n hn⟩

theorem fits_of_add (h : a.add b = .ok c) : c.Fits :=
  fits_of_ends (fun _ => Checked.fits_of_ofInt) (fun _ => Checked.fits_of_ofInt) h

theorem fits_of_sub (h : a.sub b = .ok c) : c.Fits :=
  fits_of_ends (fun _ => Checked.fits_of_ofInt) (fun _ => Checked.fits_of_ofInt) h

theorem fits_of_neg (h : b.neg = .ok c) : c.Fits :=
  fits_of_ends (fun _ => Checked.fits_of_ofInt) (fun _ => Checked.fits_of_ofInt) h

theorem fits_of_scale (h : b.scale w = .ok c) : c.Fits := by
  by_cases hw : 0 ≤ w
  · rw [scale, if_pos hw] at h
    exact fits_of_ends (fun _ => Checked.fits_of_ofInt) (fun _ => Checked.fits_of_ofInt) h
  · rw [scale, if_neg hw] at h
    exact fits_of_ends (fun _ => Checked.fits_of_ofInt) (fun _ => Checked.fits_of_ofInt) h

theorem fits_of_complement (h : b.complement = .ok c) : c.Fits := by
  have hend : ∀ k n, Checked.complement k = .ok n → Checked.Fits n := by
    intro k n hn
    obtain ⟨_, -, hn⟩ := Checked.bind_eq_ok.1 hn
    exact Checked.fits_of_ofInt hn
  exact fits_of_ends (hend b.upper) (hend b.lower) h

theorem fits_min (hm : Checked.Fits m) (hn : Checked.Fits n) : Checked.Fits (min m n) := by
  rcases min_choice m n with h | h
  · rwa [h]
  · rwa [h]

theorem fits_max (hm : Checked.Fits m) (hn : Checked.Fits n) : Checked.Fits (max m n) := by
  rcases max_choice m n with h | h
  · rwa [h]
  · rwa [h]

theorem fits_of_mul (h : a.mul b = .ok c) : c.Fits := by
  obtain ⟨p, hp, h⟩ := Checked.bind_eq_ok.1 h
  obtain ⟨q, hq, h⟩ := Checked.bind_eq_ok.1 h
  obtain ⟨r, hr, h⟩ := Checked.bind_eq_ok.1 h
  obtain ⟨s, hs, h⟩ := Checked.bind_eq_ok.1 h
  cases h
  have hp := Checked.fits_of_ofInt hp
  have hq := Checked.fits_of_ofInt hq
  have hr := Checked.fits_of_ofInt hr
  have hs := Checked.fits_of_ofInt hs
  exact ⟨fits_min (fits_min hp hq) (fits_min hr hs), fits_max (fits_max hp hq) (fits_max hr hs)⟩

theorem fits_of_abs (hb : b.Fits) (h : b.abs = .ok c) : c.Fits := by
  by_cases hl : 0 ≤ b.lower
  · rw [abs, if_pos hl] at h
    cases h
    exact hb
  · rw [abs, if_neg hl] at h
    by_cases hu : b.upper ≤ 0
    · rw [if_pos hu] at h
      exact fits_of_neg h
    · rw [if_neg hu] at h
      obtain ⟨l, hl, h⟩ := Checked.bind_eq_ok.1 h
      cases h
      exact ⟨Bounds.fits_boolean.1, fits_max hb.2 (Checked.fits_of_ofInt hl)⟩

theorem fits_of_foldlM_add (ha : a.Fits) (h : bs.foldlM add a = .ok c) : c.Fits := by
  induction bs generalizing a with
  | nil =>
    cases h
    exact ha
  | cons b bs ih =>
    obtain ⟨d, hd, h⟩ := Checked.bind_eq_ok.1 h
    exact ih (fits_of_add hd) h

/-- Where the bounds of a sum can be computed, the partial sums of values within
the bounds of the summands fit as well. -/
theorem partialSumsFit_of_sum {γ : Type} {as : List γ} {f : γ → Checked Bounds} {g : γ → Option Int}
    (h : ∀ a ∈ as, ∀ b, f a = .ok b → ∀ n, g a = some n → n ∈ b) (hbs : as.mapM f = .ok bs) (hm : m ∈ a)
    (hsum : bs.foldlM add a = .ok c) : Eval.PartialSumsFit m (as.map g) := by
  replace hbs := Checked.mapM_eq_ok.1 hbs
  induction hbs generalizing a m with
  | nil => trivial
  | @cons e b _ _ hb _ ih =>
    obtain ⟨d, hd, hsum⟩ := Checked.bind_eq_ok.1 hsum
    rw [List.map_cons]
    cases hn : g e with
    | none => trivial
    | some n =>
      have hmem : m + n ∈ d := by
        rw [of_add hd]
        exact add_mem hm (h e (List.mem_cons_self ..) b hb n hn)
      exact ⟨(fits_of_add hd).of_mem hmem, ih (fun a ha => h a (List.mem_cons_of_mem _ ha)) hmem hsum⟩

/-- The negation that comes first in the computation of a complement fits too. -/
theorem fits_neg_of_complement (h : b.complement = .ok c) (hn : n ∈ b) : Checked.Fits (-n) := by
  obtain ⟨l, hl, h⟩ := Checked.bind_eq_ok.1 h
  obtain ⟨u, hu, h⟩ := Checked.bind_eq_ok.1 h
  obtain ⟨p, hp, -⟩ := Checked.bind_eq_ok.1 hl
  obtain ⟨q, hq, -⟩ := Checked.bind_eq_ok.1 hu
  have hlower := (Checked.mul_eq_ok.1 hp).1
  have hupper := (Checked.mul_eq_ok.1 hq).1
  rw [Int.mul_neg_one] at hlower hupper
  exact fits_of_between hlower hupper (Int.neg_le_neg hn.2) (Int.neg_le_neg hn.1)

end Bounds

theorem sum_natAbs_le_length {ns : List Int} (h : ∀ n ∈ ns, n ∈ Bounds.boolean) :
    (ns.map Int.natAbs).sum ≤ ns.length := by
  induction ns with
  | nil => exact le_refl 0
  | cons n ns ih =>
    obtain ⟨hn, hns⟩ := List.forall_mem_cons.1 h
    have hle := ih hns
    simp only [Bounds.mem_iff, Bounds.boolean] at hn
    rw [List.map_cons, List.sum_cons, List.length_cons]
    omega

theorem Function.bounds_fits {γ : Type} {g : Function γ} {f : γ → Checked Bounds}
    (h : ∀ a ∈ g.args, ∀ b, f a = .ok b → b.Fits) (hlength : Checked.Fits g.args.length) {b : Bounds}
    (hb : (g.map f).bounds = .ok b) : b.Fits := by
  have values {as : List γ} {bs : List Bounds} (has : ∀ a ∈ as, a ∈ g.args)
      (hbs : (as.map f).mapM id = .ok bs) : ∀ c ∈ bs, c.Fits := by
    intro c hc
    rw [List.mapM_map] at hbs
    obtain ⟨a, ha, hac⟩ := forall₂_mem_right (Checked.mapM_eq_ok.1 hbs) hc
    exact h a (has a ha) c hac
  cases g with
  | abs a =>
    obtain ⟨c, hc, hb⟩ := Checked.bind_eq_ok.1 hb
    exact Bounds.fits_of_abs (h a (List.mem_singleton_self a) c hc) hb
  | minimum as =>
    obtain ⟨bs, hbs, hb⟩ := Checked.bind_eq_ok.1 hb
    cases hb
    exact Bounds.fits_minimum (values (fun _ => id) hbs)
  | maximum as =>
    obtain ⟨bs, hbs, hb⟩ := Checked.bind_eq_ok.1 hb
    cases hb
    exact Bounds.fits_maximum (values (fun _ => id) hbs)
  | count as v | distinct as =>
    cases hb
    simp only [args, List.length_append, List.length_map, Bounds.Fits, Checked.Fits, Checked.limit] at hlength ⊢
    omega
  | element as i =>
    obtain ⟨bs, hbs, hb⟩ := Checked.bind_eq_ok.1 hb
    cases hb
    exact Bounds.fits_hull (values (fun a => List.mem_append_left _) hbs)

namespace Expr

/-- Integers are words of 64 bits, and so are the lengths of lists. -/
def Representable : Expr → Prop
  | int n => Checked.Fits n
  | var x | negVar x => x.bounds.Fits
  | e => Checked.Fits e.args.length

instance : DecidablePred Representable
  | int n => inferInstanceAs (Decidable (Checked.Fits n))
  | var x | negVar x => inferInstanceAs (Decidable x.bounds.Fits)
  | bool _ | and _ | or _ | implies _ _ | not _ | sum _ | wsum _ | sub _ _ | mul _ _ | neg _ | cmp _ _ _
  | constraint _ | function _ | call _ => inferInstanceAs (Decidable (Checked.Fits _))

structure MadeIn (σ : Store) (e : Expr) : Prop where
  operands : e.Everywhere OperandsBoolean
  built : e.Everywhere Built
  scope : ∀ x ∈ e.vars, σ.Has x

def Bounded (e : Expr) : Prop := e.Everywhere fun a => ∃ b, a.bounds = .ok b

def CumulativeFree (e : Expr) : Prop :=
  e.Everywhere fun a => ∀ ss ds es rs c, a ≠ constraint (.cumulative ss ds es rs c)

variable {σ : Store} {s : Assignment} {e a : Expr} {b : Bounds}

theorem MadeIn.arg (h : e.MadeIn σ) (ha : a ∈ e.args) : a.MadeIn σ :=
  ⟨h.operands.arg ha, h.built.arg ha,
    fun x hx => h.scope x (List.mem_eraseDups.2 (mem_occurrences_of_arg ha (List.mem_eraseDups.1 hx)))⟩

theorem MadeIn.has (h : e.MadeIn σ) {x : Variable} (hx : x ∈ e.occurrences) : σ.Has x :=
  h.scope x (List.mem_eraseDups.2 hx)

theorem MadeIn.inBounds (h : e.MadeIn σ) (hs : s.Within σ) : e.InBounds s := by
  intro x hx n hn
  obtain ⟨m, hm, hv⟩ := hs.value (h.has hx)
  rw [hv, Option.some.injEq] at hn
  rwa [← hn]

theorem MadeIn.isBool_mem_boolean (h : e.MadeIn σ) (hσ : σ.Valid) (hb : e.isBool) (hs : s.Within σ) {n : Int}
    (hn : e.exact s = some n) : n ∈ Bounds.boolean := by
  refine Bounds.mem_of_subset (range_subset_boolean hb ?_ fun x hx => (h.has hx).boolean hσ)
    (e.exact_mem_range (h.inBounds hs) n hn)
  rintro x rfl
  exact h.operands.here

/-- What the computation of bounds returns fits in 64 bits, although not every
step of it is checked. -/
theorem bounds_fits (e : Expr) (h : e.Everywhere Representable) : ∀ b, e.bounds = .ok b → b.Fits := by
  induction e using induction_args with
  | h e ih =>
    intro b hb
    replace ih := fun a ha => ih a ha (h.arg ha)
    have here := h.here
    cases e with
    | bool b =>
      rw [bounds] at hb
      cases hb
      cases b <;> decide
    | int n =>
      rw [bounds] at hb
      cases hb
      exact ⟨here, here⟩
    | var x =>
      rw [bounds] at hb
      cases hb
      exact here
    | negVar x =>
      rw [bounds] at hb
      exact Bounds.fits_of_complement hb
    | and _ | or _ | implies _ _ | not _ | cmp _ _ _ | constraint _ | call _ =>
      rw [bounds] at hb
      cases hb
      exact Bounds.fits_boolean
    | sum as | wsum ts =>
      rw [bounds] at hb
      obtain ⟨bs, -, hb⟩ := Checked.bind_eq_ok.1 hb
      exact Bounds.fits_of_foldlM_add (by decide) hb
    | sub a c =>
      rw [bounds] at hb
      obtain ⟨p, -, hb⟩ := Checked.bind_eq_ok.1 hb
      obtain ⟨q, -, hb⟩ := Checked.bind_eq_ok.1 hb
      exact Bounds.fits_of_sub hb
    | mul a c =>
      rw [bounds] at hb
      obtain ⟨p, -, hb⟩ := Checked.bind_eq_ok.1 hb
      obtain ⟨q, -, hb⟩ := Checked.bind_eq_ok.1 hb
      exact Bounds.fits_of_mul hb
    | neg a =>
      rw [bounds] at hb
      obtain ⟨p, -, hb⟩ := Checked.bind_eq_ok.1 hb
      exact Bounds.fits_of_neg hb
    | function g =>
      rw [bounds, g.map_attach] at hb
      exact Function.bounds_fits ih here hb

theorem exact_fits (h : e.Everywhere Representable) (hb : ∃ b, e.bounds = .ok b) (hin : e.InBounds s) {n : Int}
    (hn : e.exact s = some n) : Checked.Fits n := by
  obtain ⟨b, hb⟩ := hb
  refine (e.bounds_fits h b hb).of_mem ?_
  rw [e.range_of_bounds b hb]
  exact e.exact_mem_range hin n hn

/-- All arguments of an exclusive disjunction are truth values, and no other
constraint does any arithmetic. -/
theorem fitsAt_constraint {c : Constraint Expr} (h : (constraint c).MadeIn σ) (hσ : σ.Valid)
    (hlength : Checked.Fits c.args.length) (hc : (constraint c).CumulativeFree) (hs : s.Within σ) :
    (constraint c).FitsAt s := by
  cases c with
  | cumulative ss ds es rs capacity => exact absurd rfl (hc.here ss ds es rs capacity)
  | xor as =>
    intro ns hns
    have hvalues := Exact.values_eq_some.1 hns
    have hbool : ∀ n ∈ ns, n ∈ Bounds.boolean := by
      intro n hn
      obtain ⟨a, ha, hn⟩ := forall₂_mem_right hvalues hn
      exact (h.arg (a := a) ha).isBool_mem_boolean hσ (Constraint.formed_of_rebuild h.built.here a ha) hs hn
    have hle := sum_natAbs_le_length hbool
    have hlt : (ns.map Int.natAbs).sum < Checked.limit := by
      rw [Constraint.args, hvalues.length_eq] at hlength
      exact (Int.ofNat_le.2 hle).trans_lt hlength.2
    have hsum : Checked.sum ns = .ok (0 + ns.sum) := Checked.foldlM_add_eq_ok (by simpa using hlt)
    exact ⟨_, Checked.bind_eq_ok.2 ⟨_, hsum, rfl⟩⟩
  | _ => trivial

theorem fitsAt_wsum {ts : List (Int × Expr)}
    (h : ∀ t ∈ ts, ∀ c, t.2.bounds = .ok c → ∀ n, t.2.exact s = some n → n ∈ c) (hb : (wsum ts).bounds = .ok b) :
    (wsum ts).FitsAt s := by
  rw [bounds] at hb
  obtain ⟨bs, hbs, hsum⟩ := Checked.bind_eq_ok.1 hb
  have hterm : ∀ t ∈ ts, ∀ c, (do (← t.2.bounds).scale t.1 : Checked Bounds) = .ok c →
      ∀ n, t.2.exact s = some n → t.1 * n ∈ c ∧ c.Fits := by
    intro t ht c hc n hn
    obtain ⟨d, hd, hscale⟩ := Checked.bind_eq_ok.1 hc
    rw [Bounds.of_scale hscale]
    exact ⟨Bounds.smul_mem t.1 (h t ht d hd n hn), Bounds.of_scale hscale ▸ Bounds.fits_of_scale hscale⟩
  constructor
  · intro t ht n hn
    obtain ⟨c, -, hc⟩ := forall₂_mem_left (Checked.mapM_eq_ok.1 hbs) ht
    obtain ⟨hmem, hfits⟩ := hterm t ht c hc n hn
    exact hfits.of_mem hmem
  · refine Bounds.partialSumsFit_of_sum (fun t ht c hc m hm => ?_) hbs ⟨le_refl 0, le_refl 0⟩ hsum
    obtain ⟨n, hn, rfl⟩ := Option.map_eq_some_iff.1 hm
    exact (hterm t ht c hc n hn).1

/-- Where the bounds can be computed, no step of the evaluation overflows. -/
theorem fitsAt (h : e.MadeIn σ) (hσ : σ.Valid) (hrep : e.Everywhere Representable) (hb : e.Bounded)
    (hc : e.CumulativeFree) (hs : s.Within σ) : e.Everywhere (FitsAt s) := by
  induction e using induction_args with
  | h e ih =>
    refine .intro ?_ fun a ha => ih a ha (h.arg ha) (hrep.arg ha) (hb.arg ha) (hc.arg ha)
    have hvalue {n : Int} (hn : e.exact s = some n) : Checked.Fits n :=
      exact_fits hrep hb.here (h.inBounds hs) hn
    have harg : ∀ a ∈ e.args, ∀ c, a.bounds = .ok c → ∀ n, a.exact s = some n → n ∈ c := by
      intro a ha c hac n hn
      rw [a.range_of_bounds c hac]
      exact a.exact_mem_range ((h.arg ha).inBounds hs) n hn
    obtain ⟨b, hbounds⟩ := hb.here
    cases e with
    | negVar x =>
      intro n hn
      have hmem := (h.inBounds hs) x (by simp [occurrences_negVar]) n hn
      rw [bounds] at hbounds
      exact ⟨Bounds.fits_neg_of_complement hbounds hmem, hvalue (by simp [hn])⟩
    | sum as =>
      rw [bounds] at hbounds
      obtain ⟨bs, hbs, hsum⟩ := Checked.bind_eq_ok.1 hbounds
      exact Bounds.partialSumsFit_of_sum harg hbs ⟨le_refl 0, le_refl 0⟩ hsum
    | wsum ts => exact fitsAt_wsum (fun t ht => harg t.2 (List.mem_map_of_mem ht)) hbounds
    | sub a c =>
      intro m n hm hn
      exact hvalue (by rw [exact_sub, hm, hn]; rfl)
    | mul a c =>
      intro m n hm hn
      exact hvalue (by rw [exact_mul, hm, hn]; rfl)
    | neg a =>
      intro n hn
      exact hvalue (by rw [exact_neg, hn]; rfl)
    | constraint c => exact fitsAt_constraint h hσ hrep.here hc hs
    | function g =>
      cases g with
      | abs a =>
        intro n hn
        exact hvalue (by rw [exact_function, Function.map, hn]; rfl)
      | _ => trivial
    | _ => trivial

theorem MadeIn.termIn (h : e.MadeIn σ) (hd : e.FullyDefined) : e.TermIn σ :=
  ⟨hd, h.operands, h.built, h.scope⟩

end Expr

/-- Where no overflow occurs when the bounds of an expression and of its parts
are computed, none occurs when it is evaluated. The bounds enclose the value,
which exists unless an element may be undefined or a call occurs. -/
theorem bounds_enclose_value {σ : Store} {e : Expr} {s : Assignment} (h : e.MadeIn σ) (hσ : σ.Valid)
    (hrep : e.Everywhere Expr.Representable) (hcumulative : e.CumulativeFree) (hb : e.Bounded) (hs : s.Within σ) :
    ∃ b v, e.bounds = .ok b ∧ b.lower ≤ b.upper ∧ e.value.outcome s = .ok v ∧ (∀ n, v = some n → n ∈ b) ∧
      (e.FullyDefined → ∃ n, v = some n) := by
  obtain ⟨b, hbounds⟩ := hb.here
  have hrange := e.range_of_bounds b hbounds
  refine ⟨b, e.exact s, hbounds, ?_, Expr.outcome_eq_exact (Expr.fitsAt h hσ hrep hb hcumulative hs), ?_, ?_⟩
  · rw [hrange]
    exact e.lower_le_upper fun x hx => hs.lower_le_upper (h.has hx)
  · rw [hrange]
    exact e.exact_mem_range (h.inBounds hs)
  · intro hd
    have hvalued := ((h.termIn hd).sound (q := False) hσ).valued (World.admits_bare.2 hs)
    exact Option.isSome_iff_exists.1 hvalued

def depth : Variable := ⟨0, ⟨-4, 4⟩, .int⟩

def side : Variable := ⟨1, .boolean, .bool⟩

def depthStore : Store := ⟨#[⟨⟨-4, 4⟩, .int, .user⟩, ⟨.boolean, .bool, .user⟩]⟩

def penalty : Expr :=
  .wsum [(-2305843009213693952, .function (.abs (.var depth))),
    (7, .function (.element [.negVar side, .int 5] (.var side)))]

/-- The product can be as small as an integer of 64 bits can be. -/
theorem penalty_enclosed : penalty.MadeIn depthStore ∧ depthStore.Valid ∧
    penalty.Everywhere Expr.Representable ∧ penalty.CumulativeFree ∧ penalty.Bounded ∧
    Assignment.Within depthStore ⟨fun i => some (if i = 0 then -4 else 0)⟩ ∧ penalty.FullyDefined ∧
    ∃ n b, penalty.bounds = .ok b ∧ b.lower ≤ b.upper ∧
      penalty.value.outcome ⟨fun i => some (if i = 0 then -4 else 0)⟩ = .ok (some n) ∧ n ∈ b := by
  have hparts : penalty.Everywhere fun a => (a.OperandsBoolean ∧ a.Built) ∧ a.Representable ∧
      (∃ b, a.bounds = .ok b) ∧ (∀ ss ds es rs c, a ≠ .constraint (.cumulative ss ds es rs c)) ∧
      (∀ d, a ≠ .call d) ∧ ∀ g, a = .function g → g.isTotal = .ok true := by
    refine .intro
      ⟨⟨trivial, trivial⟩, by decide, ⟨_, by cbv⟩, by simp [penalty], by simp [penalty], by simp [penalty]⟩ ?_
    simp only [penalty, Expr.args, List.map_cons, List.map_nil, List.forall_mem_cons, List.not_mem_nil, false_imp_iff,
      implies_true, and_true]
    constructor
    · refine .intro ⟨⟨trivial, rfl⟩, by decide, ⟨_, by cbv⟩, by simp, by simp, ?_⟩ ?_
      · rintro g ⟨⟩
        rfl
      · simp only [Expr.args, Function.args, List.forall_mem_singleton]
        exact .intro ⟨⟨trivial, trivial⟩, by decide, ⟨_, by cbv⟩, by simp, by simp, by simp⟩ (List.forall_mem_nil _)
    · refine .intro ⟨⟨trivial, rfl⟩, by decide, ⟨_, by cbv⟩, by simp, by simp, ?_⟩ ?_
      · rintro g ⟨⟩
        cbv
      · simp only [Expr.args, Function.args, List.cons_append, List.nil_append, List.forall_mem_cons, List.not_mem_nil,
          false_imp_iff, implies_true, and_true]
        exact ⟨.intro ⟨⟨rfl, trivial⟩, by decide, ⟨_, by cbv⟩, by simp, by simp, by simp⟩ (List.forall_mem_nil _),
          .intro ⟨⟨trivial, trivial⟩, by decide, ⟨_, by cbv⟩, by simp, by simp, by simp⟩ (List.forall_mem_nil _),
          .intro ⟨⟨trivial, trivial⟩, by decide, ⟨_, by cbv⟩, by simp, by simp, by simp⟩ (List.forall_mem_nil _)⟩
  have hmade : penalty.MadeIn depthStore := by
    refine ⟨hparts.imp fun _ h => h.1.1, hparts.imp fun _ h => h.1.2, ?_⟩
    have hvars : penalty.vars = [depth, side] := by cbv
    rw [hvars, List.forall_mem_cons, List.forall_mem_singleton]
    exact ⟨⟨.user, rfl⟩, .user, rfl⟩
  have hvalid : depthStore.Valid := by
    rintro (_ | _ | i) d h hk <;> simp [depthStore] at h <;> subst h
    · cases hk
    · rfl
  have hrep : penalty.Everywhere Expr.Representable := hparts.imp fun _ h => h.2.1
  have hbounded : penalty.Bounded := hparts.imp fun _ h => h.2.2.1
  have hcumulative : penalty.CumulativeFree := hparts.imp fun _ h => h.2.2.2.1
  have hdefined : penalty.FullyDefined :=
    ⟨hparts.imp fun _ h => h.2.2.2.2.1, hparts.imp fun _ h => h.2.2.2.2.2⟩
  have hwithin : Assignment.Within depthStore ⟨fun i => some (if i = 0 then -4 else 0)⟩ := by
    rintro (_ | _ | i) d h <;> simp [depthStore] at h <;> subst h <;> simp [Bounds.mem_iff, Bounds.boolean]
  obtain ⟨b, v, hb, hle, hv, hmem, hsome⟩ := bounds_enclose_value hmade hvalid hrep hcumulative hbounded hwithin
  obtain ⟨n, rfl⟩ := hsome hdefined
  exact ⟨hmade, hvalid, hrep, hcumulative, hbounded, hwithin, hdefined, n, b, hb, hle, hv, hmem n rfl⟩

end ConstraintModel
