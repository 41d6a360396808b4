import ConstraintModel.Proofs.Enclosure
import ConstraintModel.Proofs.FlatSolutions

namespace ConstraintModel

theorem Expr.bounds_of_isSimple {σ : Store} {e : Expr} (hs : e.isSimple) (hp : e.Proper σ.Owns) :
    e.bounds = .ok e.range := by
  cases e with
  | bool _ | int _ | var _ =>
    rw [bounds, range]
    rfl
  | negVar x =>
    obtain ⟨hb, -, hbounds⟩ := proper_negVar.1 hp
    rw [bounds, range, hbounds hb]
    rfl
  | _ => cases hs

theorem Function.isTotal_eq_ok {σ : Store} {g : Function Expr} (h : ∀ a ∈ g.args, a.isSimple ∧ a.Proper σ.Owns)
    (here : (Expr.function g).TotalHere) : g.isTotal = .ok true := by
  cases g with
  | element as i =>
    obtain ⟨hs, hp⟩ := h i (by simp [args])
    have hbounds := Expr.bounds_of_isSimple hs hp
    simp only [Expr.TotalHere] at here
    simp only [isTotal, map, totalWithin, hbounds, List.length_map]
    refine congrArg Except.ok ?_
    simpa using here
  | _ => rfl

namespace Flat

open ConstraintModel.Expr (Steady)

variable {depth : Nat} {e r : Expr} {x : Defining Expr} {σ τ : Store} {w w' : World} {N : List Expr}
  {s t : Assignment}

/-- The ways to rewrite an expression into one with the same value: as a side
of a comparison, as a sum if it is linear, and as an argument. -/
inductive Rewriting (depth : Nat) (e : Expr) : Defining Expr → Prop
  | side : Rewriting depth e (side depth e)
  | affine : isLinearRoot e → Rewriting depth e (affine depth e)
  | operand : Rewriting depth e (operand depth e)

structure Completes (σ τ : Store) (N : List Expr) (s t : Assignment) : Prop where
  within : t.Within τ
  agrees : s.Agrees σ.size t
  holds : ∀ d ∈ N, d.Holds t

theorem isBool_of_isLinearRoot (h : isLinearRoot e) : e.isBool = false := by
  cases e with
  | sum _ | wsum _ | neg _ | mul _ _ => rfl
  | _ => cases h

theorem Rewriting.stands {q : Prop} (hx : Rewriting depth e x) (h : Ready q w e) (hd : e.Defined w) :
    x.Refining (.refines True) (.each (Steady q)) w fun r w' => w'.Stands e r := by
  have ih : Meanings q depth := meanings depth
  cases hx with
  | side => exact (ih.side w e h).imp fun r w' _ hr => hr.stands
  | affine hroot => exact (ih.affine w e h hd (isBool_of_isLinearRoot hroot)).imp fun r w' _ hr => hr.stands
  | operand => exact (ih.operand w e h hd).imp fun r w' _ hr => hr.stands

/-- A function without undefined values keeps none when its arguments are
rewritten. -/
theorem args_total {q : Prop} {g : Function Expr} (h : Ready q w (.function g)) (here : (Expr.function g).TotalHere) :
    (g.mapM (operand depth)).Refining (.refines True) (.each (Steady q)) w fun k _ => k.isTotal = .ok true := by
  have hargs := args_atoms (meanings depth) h fun a ha t ht => (h.pliable t ht).here.2 a ha
  refine ((Defining.refining (.refines True) (.each (Steady q))).function_mapM atom_stable hargs).imp
    fun k w' _ hk => ?_
  refine Function.isTotal_eq_ok (σ := w'.store) (fun b hb => ?_) ?_
  · obtain ⟨a, -, hab⟩ := forall₂_mem_right hk.args hb
    exact ⟨hab.isSimple, hab.stands.proper⟩
  · exact Function.totalHere_of_related (hk.mono fun _ _ h => h.stands.range) here

theorem completes_iff (hw : w = World.bare σ) (hτ : w'.store = τ) (hN : w'.constraints = w.constraints ++ N) :
    Completes σ τ N s t ↔ w'.Admits t ∧ s.Agrees σ.size t := by
  subst hw hτ
  have hN : w'.constraints = N := hN
  constructor
  · exact fun h => ⟨⟨h.within, hN ▸ h.holds⟩, h.agrees⟩
  · exact fun ⟨h, hst⟩ => ⟨h.within, hst, hN ▸ h.holds⟩

/-- Every assignment determines the variables that are created when an
expression is rewritten. The result has the value of the expression and no
larger bounds, and a function without undefined values keeps none. -/
theorem rewriting_keeps_value (hσ : σ.Valid) (hne : σ.Habitable) (he : e.Proper σ.Has) (htotal : e.Total)
    (hx : Rewriting depth e x) :
    (x.Sat False σ fun r N τ =>
      (∀ b, e.bounds = .ok b → r.range ⊆ b ∧ ∀ c, r.bounds = .ok c → c ⊆ b) ∧
      ∀ s, s.Within σ → ∃ n, e.exact s = some n ∧ e.value.Computes s (some n) ∧
        (∃ t, Completes σ τ N s t) ∧
        ∀ t t', Completes σ τ N s t → Completes σ τ N s t' → t.Agrees τ.size t' ∧ r.exact t = some n) ∧
    ∀ g, e = .function g → (g.mapM (operand depth)).Sat False σ fun k _ _ => k.isTotal = .ok true := by
  have hsound : e.Sound True (World.bare σ) := htotal.sound (he.owned hσ)
  have hready : Ready True (World.bare σ) e := ⟨hsound.proper, fun t ht => (hsound.tame ht).pliable, htotal.steady⟩
  have hinhabited := World.inhabited_bare hne
  constructor
  · refine (hx.stands hready hsound.defined hinhabited).imp ?_
    rintro r N τ - ⟨w', hτ, hN, hr, -, hstands⟩
    have hcompletes {s t : Assignment} := completes_iff (s := s) (t := t) rfl hτ hN
    refine ⟨fun b hb => ?_, fun s hs => ?_⟩
    · have hrange : r.range ⊆ b := e.range_of_bounds b hb ▸ hstands.range
      exact ⟨hrange, fun c hc => r.range_of_bounds c hc ▸ hrange⟩
    · have hs := World.admits_bare.2 hs
      have hexact := (hsound.valued hs).exact_eq
      refine ⟨_, hexact, hexact ▸ Expr.computes_exact e s, ?_, fun t t' ht ht' => ?_⟩
      · obtain ⟨t, ht, hst⟩ := hr.complete s hs
        exact ⟨t, hcompletes.2 ⟨ht, hst⟩⟩
      · obtain ⟨ht, hst⟩ := hcompletes.1 ht
        obtain ⟨ht', hst'⟩ := hcompletes.1 ht'
        refine ⟨hτ ▸ hr.unique trivial t t' ht ht' (hst.symm.trans hst'), ?_⟩
        rw [hstands.exact t ht, ← hexact]
        exact (Expr.Over.exact_congr hsound.proper.scope hst).symm
  · rintro g rfl
    refine (args_total hready htotal.here hinhabited).imp ?_
    rintro k N τ - ⟨w', -, -, -, -, hk⟩
    exact hk

def gauge : Variable := ⟨0, ⟨0, 4⟩, .int⟩

def switch : Variable := ⟨1, .boolean, .bool⟩

def gaugeStore : Store := ⟨#[⟨⟨0, 4⟩, .int, .user⟩, ⟨.boolean, .bool, .user⟩]⟩

def reading : Function Expr :=
  .element [.mul (.int 3) (.sum [.var gauge, .var gauge]), .int 5] (.var switch)

theorem operand_reading : gaugeStore.Valid ∧ gaugeStore.Habitable ∧
    (Expr.function reading).Proper gaugeStore.Has ∧ (Expr.function reading).Total ∧
    Rewriting 12 (.function reading) (operand 12 (.function reading)) ∧
    Assignment.Within gaugeStore ⟨fun i => some (if i = 0 then 2 else 0)⟩ ∧
    (∃ r D τ, operand 12 (.function reading) #[] gaugeStore = .ok (r, D) τ ∧ τ.size = 4 ∧ D.size = 2 ∧
      r.range ⊆ ⟨0, 24⟩ ∧
      ∃ t, Completes gaugeStore τ D.toList ⟨fun i => some (if i = 0 then 2 else 0)⟩ t ∧ r.exact t = some 12) ∧
    ∃ k D τ, reading.mapM (operand 12) #[] gaugeStore = .ok (k, D) τ ∧ k ≠ reading ∧ k.isTotal = .ok true := by
  have hvalid : gaugeStore.Valid := by
    rintro (_ | _ | i) d h hk <;> simp [gaugeStore] at h <;> subst h
    · cases hk
    · rfl
  have hwithin : Assignment.Within gaugeStore ⟨fun i => some (if i = 0 then 2 else 0)⟩ := by
    rintro (_ | _ | i) d h <;> simp [gaugeStore] at h <;> subst h <;> simp [Bounds.mem_iff, Bounds.boolean]
  have hterm : (Expr.function reading).TermIn gaugeStore := by
    have hgauge : (Expr.var gauge).TermIn gaugeStore := Expr.termIn_var ⟨.user, rfl⟩
    have hsum : (Expr.sum [.var gauge, .var gauge]).TermIn gaugeStore := Expr.termIn_sum (by simp [hgauge])
    have hmul : (Expr.mul (.int 3) (.sum [.var gauge, .var gauge])).TermIn gaugeStore :=
      Expr.termIn_of_args (by simp) trivial trivial (by simp) (by simp) (by simp [Expr.args, Expr.termIn_int, hsum])
    refine Expr.termIn_of_args (by simp) trivial rfl (by simp) (fun g hg => ?_) ?_
    · cases hg
      cbv
    · have hswitch : (Expr.var switch).TermIn gaugeStore := Expr.termIn_var ⟨.user, rfl⟩
      simp [Expr.args, reading, Function.args, hmul, Expr.termIn_int, hswitch]
  have hexact : (Expr.function reading).exact ⟨fun i => some (if i = 0 then 2 else 0)⟩ = some 12 := by
    simp only [reading, Expr.exact_function, Function.map, List.map_cons, List.map_nil, Expr.exact_mul,
      Expr.exact_sum, Expr.exact_var, Expr.exact_int]
    decide
  have hrewriting : Rewriting 12 (.function reading) (operand 12 (.function reading)) := .operand
  obtain ⟨hrun, hargs⟩ := rewriting_keeps_value hvalid ⟨_, hwithin⟩ hterm.inScope hterm.total hrewriting
  obtain ⟨r, D, τ, hr, hτ, hD⟩ : ∃ r D τ, operand 12 (.function reading) #[] gaugeStore = .ok (r, D) τ ∧
      τ.size = 4 ∧ D.size = 2 := ⟨_, _, _, by cbv, rfl, rfl⟩
  obtain ⟨k, D', τ', hk, hne⟩ : ∃ k D τ, reading.mapM (operand 12) #[] gaugeStore = .ok (k, D) τ ∧ k ≠ reading :=
    ⟨_, _, _, by cbv, by simp [reading]⟩
  have hrun := hrun #[]
  have hargs := hargs reading rfl #[]
  rw [hr] at hrun
  rw [hk] at hargs
  obtain ⟨-, N, hN, hrange, hvalue⟩ := hrun
  obtain ⟨-, -, -, htotal⟩ := hargs
  obtain rfl : D.toList = N := by simpa using hN
  obtain ⟨n, hn, -, ⟨t, ht⟩, hunique⟩ := hvalue _ hwithin
  obtain rfl : 12 = n := Option.some_inj.1 (hexact.symm.trans hn)
  exact ⟨hvalid, ⟨_, hwithin⟩, hterm.inScope, hterm.total, hrewriting, hwithin,
    ⟨r, D, τ, hr, hτ, hD, (hrange ⟨0, 24⟩ (by cbv)).1, t, ht, (hunique t t ht ht).2⟩, k, D', τ', hk, hne, htotal⟩

end Flat

end ConstraintModel
