import ConstraintModel.Proofs.Functions
import ConstraintModel.Proofs.LinearSums
import ConstraintModel.Proofs.Posting
import ConstraintModel.Proofs.SplitMeaning

namespace ConstraintModel

namespace Linear

open Defining (Refining)
open ConstraintModel.Expr (Operand Valued num)

variable {caps : Capabilities} {depth : Nat} {reified : Bool} {r : Relation} {w w' : World} {e a b l : Expr}
  {ts : List (Int × Expr)} {p : Assignment → Prop} {s : Assignment}

theorem Posts.decided {holds : Bool} (h : ∀ s, w.Admits s → (holds ↔ p s)) :
    Posts p (Pure.pure (decided holds)) w := by
  refine .pure ?_ fun s hs => ?_
  · cases holds <;> simp [Linear.decided, Expr.isBool]
  · rw [← h s hs]
    cases holds <;> simp [Linear.decided, Expr.holds_bool]

structure Terms (w : World) (a : Expr) (p : List (Int × Expr) × List Expr) (w' : World) : Prop where
  operands : ∀ t ∈ p.1, t.2.Operand w'.store
  posted : Posted w a.Valued p.2 w'
  exact : ∀ t, w'.Admits t → (∀ d ∈ p.2, d.Holds t) → a.exact t = some (weight p.1 t)

structure Meanings (caps : Capabilities) (depth : Nat) : Prop where
  constraint (w : World) (reified : Bool) (e : Expr) : IsInput e → e.Proper w.store.Owns →
    Posts e.Holds (constraint caps depth reified e) w
  implication (w : World) (l a : Expr) : IsInputTruth a → (Expr.implies l a).Proper w.store.Owns →
    Posts (Expr.implies l a).Holds (implication caps depth l a) w
  guarded (w : World) (l a : Expr) : l.isLiteral → IsInputTruth a → (Expr.implies l a).Proper w.store.Owns →
    Posts (Expr.implies l a).Holds (guarded caps depth l a) w
  comparison (w : World) (reified : Bool) (r : Relation) (a b : Expr) : IsInputSide a →
    a.Proper w.store.Owns → b.Operand w.store →
    Posts (Expr.cmp r a b).Holds (comparison caps depth reified r a b) w
  sum (w : World) (reified : Bool) (r : Relation) (ts : List (Int × Expr)) (b : Expr) :
    (∀ t ∈ ts, t.2.Operand w.store) → b.Operand w.store →
    Posts (fun s => r.holds (weight ts s) (b.num s)) (sum caps depth reified r ts b) w
  relation (w : World) (reified : Bool) (r : Relation) (a b : Expr) : (∀ x ∈ a.args, x.isSimple) →
    a.Proper w.store.Owns → b.Operand w.store →
    Posts (Expr.cmp r a b).Holds (relation caps depth reified r a b) w
  strict (w : World) (reified : Bool) (r : Relation) (delta : Int) (a b : Expr) :
    (∀ x ∈ a.args, x.isSimple) → a.Proper w.store.Owns → b.Operand w.store →
    Posts (fun s => ∃ m, a.exact s = some m ∧ r.holds m (b.num s + delta))
      (strict caps depth reified r delta a b) w
  bigM (w : World) (a b : Expr) : (∀ x ∈ a.args, x.isSimple) → a.Proper w.store.Owns →
    b.Operand w.store → Posts (Expr.cmp .ne a b).Holds (bigM caps depth a b) w
  termsOf (w : World) (a : Expr) : (∀ x ∈ a.args, x.isSimple) → a.Proper w.store.Owns →
    (termsOf caps depth a).Refining (.refines False) (.each fun _ => True) w (Terms w a)
  functionComparison (w : World) (reified : Bool) (g : Function Expr) (r : Relation) (b : Expr) :
    (∀ a ∈ g.args, a.isSimple) → (Expr.function g).Proper w.store.Owns → b.Operand w.store →
    Posts (Expr.cmp r (.function g) b).Holds (functionComparison caps depth reified g r b) w
  element (w : World) (array : List Expr) (index : Expr) (r : Relation) (b : Expr) :
    (∀ a ∈ (Function.element array index).args, a.isSimple) →
    (Expr.function (.element array index)).Proper w.store.Owns → b.Operand w.store →
    Posts (Expr.cmp r (.function (.element array index)) b).Holds (element caps depth array index r b) w
  allDifferent (w : World) (as : List Expr) : (∀ a ∈ as, a.Operand w.store) →
    Posts (Expr.constraint (.allDifferent as)).Holds (allDifferent caps depth as) w
  reformulate (w : World) (cs : List Expr) : (∀ c ∈ cs, c.isBool ∧ c.Sound True w) →
    Posts (fun s => ∀ c ∈ cs, c.Holds s) (reformulate caps depth cs) w

section

variable (ih : Meanings caps depth)

include ih

theorem constraint_posts (he : IsInput e) (hp : e.Proper w.store.Owns) :
    Posts e.Holds (constraint caps (depth + 1) reified e) w := by
  cases e with
  | bool b => exact .decided fun s _ => Expr.holds_bool.symm
  | var x =>
    rw [constraint]
    split
    · rename_i hb
      have hx : (Expr.var x).Operand w.store := ⟨rfl, hp⟩
      refine .single rfl (Expr.proper_cmp.2 ⟨Expr.proper_sum.2 (by simpa using hp), Expr.proper_int⟩)
        fun s hs => ?_
      rw [Expr.holds_cmp_sum (by simpa using hx.valued hs.within), hx.holds_iff_num hb hs.within]
      have := hx.num_boolean hb hs.within
      simp only [List.map_cons, List.map_nil, List.sum_cons, List.sum_nil, Relation.holds, decide_eq_true_eq]
      omega
    · exact .throw
  | negVar x =>
    have hx : (Expr.var x).Operand w.store := Expr.operand_var (Expr.proper_negVar.1 hp).2
    have hb : (Expr.var x).isBool := (Expr.proper_negVar.1 hp).1
    refine .single rfl (Expr.proper_cmp.2 ⟨Expr.proper_sum.2 (by simpa using hx.proper), Expr.proper_int⟩)
      fun s hs => ?_
    rw [Expr.holds_cmp_sum (by simpa using hx.valued hs.within), ← Expr.negated_var hb,
      Expr.holds_negated hx hb hs.within, hx.holds_iff_num hb hs.within]
    have := hx.num_boolean hb hs.within
    simp only [List.map_cons, List.map_nil, List.sum_cons, List.sum_nil, Relation.holds, decide_eq_true_eq]
    omega
  | and as =>
    obtain ⟨hb, has⟩ := Expr.proper_and.1 hp
    refine (ih.comparison w reified .ge (.sum as) _ (.inr he) (Expr.proper_sum.2 has) Expr.operand_int).congr
      fun s hs => ?_
    exact Expr.holds_and_iff_sum (fun a ha => ⟨hb a ha, he a ha, has a ha⟩) hs.within
  | or as =>
    obtain ⟨hb, has⟩ := Expr.proper_or.1 hp
    refine (ih.comparison w reified .ge (.sum as) _ (.inr he) (Expr.proper_sum.2 has) Expr.operand_int).congr
      fun s hs => ?_
    exact Expr.holds_or_iff_sum (fun a ha => ⟨hb a ha, he a ha, has a ha⟩) hs.within
  | implies l a =>
    rw [constraint]
    split
    · exact .throw
    · exact ih.implication w l a he hp
  | cmp r a b => exact ih.comparison w reified r a b he.1 (Expr.proper_cmp.1 hp).1 ⟨he.2, (Expr.proper_cmp.1 hp).2⟩
  | constraint c =>
    unfold constraint
    dsimp only
    split
    · exact .single rfl hp fun s _ => Iff.rfl
    · cases c with
      | allDifferent as =>
        cases reified
        · exact ih.allDifferent w as fun a ha => ⟨he a ha, hp.arg ha⟩
        · exact .throw
      | _ => exact .throw
  | call d => exact absurd hp Expr.proper_call
  | int _ | not _ | sum _ | wsum _ | sub _ _ | mul _ _ | neg _ | function _ => exact .throw

/-- A function is decomposed, and what follows relies on its auxiliary variables. -/
theorem decompose_posts {g : Function Expr} {c : Decomposition → List Expr} (hp : Local w.store p)
    (hs : ∀ x ∈ g.args, x.isSimple) (hg : (Expr.function g).Proper w.store.Owns) (hb : b.Operand w.store)
    (hc : ∀ d w', w ≤ w' → (∀ x ∈ d.constraining, x.isBool ∧ x.Sound True w') →
      (∀ x ∈ c d, x.isBool ∧ x.Sound True w') ∧ ∀ t, t.Within w'.store →
        ((∀ x ∈ d.constraining, x.Holds t) ↔ (Expr.cmp r (.function g) b).Holds t) →
        ((∀ x ∈ c d, x.Holds t) ↔ p t)) :
    Posts p (liftM (g.decompose r b) >>= fun d => reformulate caps depth (c d ++ d.defining)) w := by
  refine Refining.assume fun hw => ?_
  have hreplaces {d : Decomposition} {τ : Store} (hd : g.Decomposes w.store r b d τ) :
      d.Replaces True w τ (.cmp r (.function g) b) := hd.replaces hw hg.typed.here
    (fun x hx => Expr.sound_of_isSimple (hs x hx) (hg.arg hx)) (Expr.sound_of_isSimple hb.simple hb.proper)
  refine Posts.widen (g.decompose_sat r b) (fun d τ hd hh => ?_) fun d w' hw' hd => ?_
  · obtain ⟨v, rfl, -, hr, -⟩ := (hreplaces hd).refines
    exact hr.habitable hh
  · have hrep := hreplaces hd
    have hle : w ≤ w' := hw'.refines.le
    have hsound : ∀ x ∈ d.toList, x.isBool ∧ x.Sound True w' := fun x hx =>
      ⟨hrep.isBool x hx, (hrep.sound x hx).mono (World.widen_le hle)⟩
    obtain ⟨hnew, hiff⟩ := hc d w' hle fun x hx => hsound x (List.mem_append_left _ hx)
    obtain ⟨v, hv, hvc, hr, hholds⟩ := hrep.refines
    refine ⟨fun t => ∀ x ∈ c d ++ d.defining, x.Holds t, ⟨fun s hs hps => ?_, fun t ht hall => ?_⟩,
      ih.reformulate w' _ (List.forall_mem_append.2 ⟨hnew, fun x hx => hsound x (List.mem_append_right _ hx)⟩)⟩
    · obtain ⟨t, ht, hst⟩ := hr.complete s hs
      have hdef := ht.holds
      rw [hvc, List.forall_mem_append] at hdef
      exact ⟨t, hv ▸ ht.within, hst, List.forall_mem_append.2
        ⟨(hiff t (hv ▸ ht.within) (hholds t ht)).2 (hp s t hst hps), hdef.2⟩⟩
    · obtain ⟨hall, hdef⟩ := List.forall_mem_append.1 hall
      refine (hiff t ht.within (hholds t ⟨hv ▸ ht.within, ?_⟩)).1 hall
      rw [hvc]
      exact List.forall_mem_append.2 ⟨(hw'.admits_iff.1 ht).2.holds, hdef⟩

theorem implication_posts (ha : IsInputTruth a) (hp : (Expr.implies l a).Proper w.store.Owns) :
    Posts (Expr.implies l a).Holds (implication caps (depth + 1) l a) w := by
  obtain ⟨⟨hbl, hba⟩, hpl, hpa⟩ := Expr.proper_implies.1 hp
  rw [implication]
  split
  · exact .throw
  · rename_i hl
    have hl : l.isLiteral := by simpa using hl
    have hlo : l.Operand w.store := ⟨Expr.isSimple_of_isLiteral hl, hpl⟩
    split
    · rename_i hal
      have hn := Expr.operand_negated hlo hbl
      refine (ih.constraint w false (.or [l.negated, a]) ?_ (Expr.proper_or.2 ⟨?_, ?_⟩)).congr fun s hs => ?_
      · simpa [IsInput, IsInputTruth, Expr.args] using ⟨hn.simple, Expr.isSimple_of_isLiteral hal⟩
      · simpa using ⟨Expr.isBool_negated hbl hpl, hba⟩
      · simpa using ⟨hn.proper, hpa⟩
      · rw [Expr.holds_implies_iff (hlo.valued hs.within), Expr.holds_or]
        simp [Expr.holds_negated hlo hbl hs.within, imp_iff_not_or]
    · split
      · rename_i g r b hg
        obtain rfl := nonlinear?_eq hg
        obtain ⟨hpg, hpb⟩ := Expr.proper_cmp.1 hpa
        refine decompose_posts ih (c := fun d => [.implies l (.all d.constraining)]) (local_holds hp)
          (ha.1.resolve_left (by simp [Expr.isBool])) hpg ⟨ha.2, hpb⟩ fun d w' hle hd => ⟨?_, fun t ht h => ?_⟩
        · have hlw := hlo.mono hle.1
          rw [List.forall_mem_singleton]
          exact ⟨rfl, Expr.sound_implies hbl (Expr.isBool_all fun x hx => (hd x hx).1)
            (Expr.sound_of_isSimple hlw.simple hlw.proper)
            (Expr.sound_all (fun x hx => (hd x hx).1) fun x hx => (hd x hx).2)⟩
        · have hv := (hlo.mono hle.1).valued ht
          rw [List.forall_mem_singleton, Expr.holds_implies_iff hv, Expr.holds_implies_iff hv, Expr.holds_all, h]
      · exact ih.guarded w l a hl ha hp

theorem guarded_posts (hl : l.isLiteral) (ha : IsInputTruth a) (hp : (Expr.implies l a).Proper w.store.Owns) :
    Posts (Expr.implies l a).Holds (guarded caps (depth + 1) l a) w := by
  obtain ⟨⟨hbl, hba⟩, hpl, hpa⟩ := Expr.proper_implies.1 hp
  have hlo : l.Operand w.store := ⟨Expr.isSimple_of_isLiteral hl, hpl⟩
  rw [guarded]
  refine (ih.constraint w true a ha.isInput hpa).bind fun es w' hr hes => ?_
  have hlo' := hlo.mono hr.grows
  have himplies {e : Expr} {t : Assignment} (ht : w'.Admits t) :
      (Expr.implies l e).Holds t ↔ (l.Holds t → e.Holds t) := Expr.holds_implies_iff (hlo'.valued ht.within)
  split
  · rename_i hfalse
    have hfalse : Expr.bool false ∈ es := by simpa using hfalse
    have hnot (t : Assignment) (ht : w'.Admits t) : ¬a.Holds t := by
      intro hat
      obtain ⟨t', -, -, hall⟩ := hes.complete t (hr.sound t ht) hat
      have := hall _ hfalse
      rw [Expr.holds_bool] at this
      cases this
    have hn := Expr.operand_negated hlo' hbl
    refine ((ih.constraint w' false l.negated (isInputTruth_of_isLiteral
      (Expr.isLiteral_negated hl hpl)).isInput hn.proper).congr fun t ht => ?_).after hr (local_holds hp)
    rw [Expr.holds_negated hlo' hbl ht.within, himplies ht]
    exact ⟨fun h h' => absurd h' h, fun h h' => hnot t ht (h h')⟩
  · refine .pure ⟨List.forall_mem_map.2 fun e he => ?_, fun s hs himp => ?_, fun t ht hall => ?_⟩
    · exact ⟨rfl, Expr.proper_implies.2 ⟨⟨hbl, (hes.formed e he).1⟩, hlo'.proper, (hes.formed e he).2⟩⟩
    · simp only [List.forall_mem_map]
      by_cases h : l.Holds s
      · rw [Expr.holds_implies_iff (hlo.valued hs.within)] at himp
        obtain ⟨t, ht, hst, hall⟩ := hes.complete s hs (himp h)
        exact ⟨t, ht, hst, fun e he => (himplies ht).2 fun _ => hall e he⟩
      · obtain ⟨t, ht, hst⟩ := hr.complete s hs
        exact ⟨t, ht, hst, fun e _ => (himplies ht).2 fun hlt =>
          absurd ((Expr.Over.holds_congr hpl.scope hst).2 hlt) h⟩
    · rw [List.forall_mem_map] at hall
      exact (himplies ht).2 fun hlt => hes.sound t ht fun e he => (himplies ht).1 (hall e he) hlt

theorem comparison_posts (ha : IsInputSide a) (hpa : a.Proper w.store.Owns) (hb : b.Operand w.store) :
    Posts (Expr.cmp r a b).Holds (comparison caps (depth + 1) reified r a b) w := by
  unfold comparison
  split
  · rename_i m n hm hn
    exact .decided fun s _ => (Expr.holds_cmp_constants hm hn).symm
  · rename_i hc _
    have hsa : a.isSimple := Flat.isSimple_of_isConstant (by simp [Expr.isConstant, hc])
    exact (ih.comparison w reified r.converse b a (isInputSide_of_isSimple hb.simple) hb.proper ⟨hsa, hpa⟩).congr
      fun s _ => Expr.holds_cmp_converse
  · split
    · rename_i hl
      simp only [Bool.and_eq_true, decide_eq_true_eq] at hl
      obtain ⟨⟨rfl, hla⟩, hlb⟩ := hl
      have hsa : a.Operand w.store := ⟨Expr.isSimple_of_isLiteral hla, hpa⟩
      have hba := Expr.isBool_of_isLiteral hla
      have hbb := Expr.isBool_of_isLiteral hlb
      refine .single rfl (Expr.proper_cmp.2 ⟨Expr.proper_sum.2 (by simpa using ⟨hpa, hb.proper⟩), Expr.proper_int⟩)
        fun s hs => ?_
      have hva := hsa.valued hs.within
      have hvb := hb.valued hs.within
      rw [Expr.holds_cmp_sum (by simpa using ⟨hva, hvb⟩), Expr.holds_cmp_num hva hvb]
      have := hsa.num_boolean hba hs.within
      have := hb.num_boolean hbb hs.within
      simp only [List.map_cons, List.map_nil, List.sum_cons, List.sum_nil, Relation.holds, beq_iff_eq, bne_iff_ne]
      omega
    · have reference {a : Expr} (hpa : a.Proper w.store.Owns) (hs : a.isSimple) :
          Posts (Expr.cmp r a b).Holds (if b.isConstant then relation caps depth reified r a b
            else sum caps depth reified r [(1, a)] b) w := by
        split
        · exact ih.relation w reified r a b (by simp [Expr.args_of_isSimple hs]) hpa hb
        · have hao : a.Operand w.store := ⟨hs, hpa⟩
          refine (ih.sum w reified r [(1, a)] b (by simpa using hao) hb).congr fun s hs => ?_
          rw [Expr.holds_cmp_num (hao.valued hs.within) (hb.valued hs.within)]
          simp
      split
      · exact reference hpa rfl
      · exact reference hpa rfl
      · rename_i g _ _
        have hargs : ∀ x ∈ g.args, x.isSimple := ha.resolve_left (by simp [Expr.isBool])
        split
        · exact ih.relation w reified r _ b hargs hpa hb
        · exact ih.functionComparison w reified g r b hargs hpa hb
      · split
        · rename_i ts hts
          have hops : ∀ t ∈ ts, t.2.Operand w.store := fun t ht =>
            ⟨(ha.terms hpa hts t ht).1, (ha.terms hpa hts t ht).2⟩
          refine (ih.sum w reified r ts b hops hb).congr fun s hs => ?_
          have hexact := exact_asTerms? hts fun t ht => (hops t ht).valued hs.within
          rw [Expr.holds_cmp_num (Expr.valued_of_eq hexact) (hb.valued hs.within), Expr.num_eq hexact]
        · split
          · rename_i hm
            rw [Bool.and_eq_true] at hm
            refine ih.relation w reified r a b (ha.resolve_left fun hba => ?_) hpa hb
            cases a with
            | mul _ _ => cases hba
            | _ => cases hm.1
          · exact .throw

omit ih in
theorem args_ofTerms (h : ∀ t ∈ ts, t.2.isSimple) : ∀ a ∈ (Expr.ofTerms ts).args, a.isSimple := by
  unfold Expr.ofTerms
  split <;> exact List.forall_mem_map.2 h

theorem sum_posts (hts : ∀ t ∈ ts, t.2.Operand w.store) (hb : b.Operand w.store) :
    Posts (fun s => r.holds (weight ts s) (b.num s)) (sum caps (depth + 1) reified r ts b) w := by
  rw [sum]
  refine Refining.checked_bind fun p hp => ?_
  obtain ⟨kept, k⟩ := p
  have hkept : ∀ t ∈ kept, t.2.Operand w.store := forall_balance hp hts hb
  dsimp only
  split
  · rename_i hempty
    refine Posts.decided fun s _ => ?_
    rw [← holds_balance hp s, List.isEmpty_iff.1 hempty, weight_nil]
  · exact (ih.relation w reified r (.ofTerms kept) (.int k) (args_ofTerms fun t ht => (hkept t ht).simple)
      (proper_ofTerms fun t ht => (hkept t ht).proper) Expr.operand_int).congr fun s hs =>
        holds_cmp_balance hp fun t ht => (hkept t ht).valued hs.within

omit ih in
theorem holds_ne_iff : (Expr.cmp .ne a b).Holds s ↔ (Expr.cmp .lt a b).Holds s ∨ (Expr.cmp .gt a b).Holds s := by
  simp only [Expr.holds_cmp, Relation.holds, decide_eq_true_eq, bne_iff_ne]
  constructor
  · rintro ⟨m, n, hm, hn, hne⟩
    exact (Int.lt_or_gt_of_ne hne).imp (fun h => ⟨m, n, hm, hn, h⟩) fun h => ⟨m, n, hm, hn, h⟩
  · rintro (⟨m, n, hm, hn, h⟩ | ⟨m, n, hm, hn, h⟩) <;> exact ⟨m, n, hm, hn, by omega⟩

omit ih in
/-- A new Boolean variable selects the side on which unequal values lie. -/
theorem projects_ne {z : Variable} (hz : w.store.Creates z w'.store) (hzb : z.isBool)
    (hp : ∀ r, (Expr.cmp r a b).Proper w.store.Owns) : Projects w w' (Expr.cmp .ne a b).Holds fun t =>
      (Expr.implies (.var z) (.cmp .lt a b)).Holds t ∧ (Expr.implies (Expr.var z).negated (.cmp .gt a b)).Holds t := by
  have hzo : (Expr.var z).Operand w'.store := Expr.operand_var hz.owns
  have hzn := Expr.operand_negated hzo hzb
  have hselects {t : Assignment} (ht : t.Within w'.store) :
      ((Expr.implies (.var z) (.cmp .lt a b)).Holds t ∧
        (Expr.implies (Expr.var z).negated (.cmp .gt a b)).Holds t) ↔
      if (Expr.var z).num t = 1 then (Expr.cmp .lt a b).Holds t else (Expr.cmp .gt a b).Holds t := by
    rw [Expr.holds_implies_iff (hzo.valued ht), Expr.holds_implies_iff (hzn.valued ht),
      Expr.holds_negated hzo hzb ht, hzo.holds_iff_num hzb ht]
    split <;> simp [*]
  refine ⟨fun s hs hne => ?_, fun t ht h => ?_⟩
  · have select (n : Int) (hn : n ∈ z.bounds) (h : if n = 1 then (Expr.cmp .lt a b).Holds s
        else (Expr.cmp .gt a b).Holds s) : ∃ t, t.Within w'.store ∧ s.Agrees w.store.size t ∧
          (Expr.implies (.var z) (.cmp .lt a b)).Holds t ∧
          (Expr.implies (Expr.var z).negated (.cmp .gt a b)).Holds t := by
      have hagree := Assignment.agrees_extend s hz n
      have hwithin := hs.within.extend hz hn
      refine ⟨_, hwithin, hagree, (hselects hwithin).2 ?_⟩
      rwa [Assignment.num_assign, ← Expr.Over.holds_congr (hp .lt).scope hagree,
        ← Expr.Over.holds_congr (hp .gt).scope hagree]
    rcases holds_ne_iff.1 hne with hlt | hgt
    · exact select 1 (by rw [hz.boolean hzb]; decide) (by rwa [if_pos rfl])
    · exact select 0 (by rw [hz.boolean hzb]; decide) (by rwa [if_neg (by decide)])
  · have h := (hselects ht.within).1 h
    rw [holds_ne_iff]
    split at h
    · exact .inl h
    · exact .inr h

theorem relation_posts (ha : ∀ x ∈ a.args, x.isSimple) (hpa : a.Proper w.store.Owns)
    (hb : b.Operand w.store) : Posts (Expr.cmp r a b).Holds (relation caps (depth + 1) reified r a b) w := by
  have hproper (r : Relation) : (Expr.cmp r a b).Proper w.store.Owns := Expr.proper_cmp.2 ⟨hpa, hb.proper⟩
  cases r with
  | eq | le | ge => exact .single rfl (hproper _) fun s _ => Iff.rfl
  | lt =>
    refine (ih.strict w reified .le (-1) a b ha hpa hb).congr fun s hs => ?_
    rw [Expr.holds_cmp_operand (hb.valued hs.within)]
    simp only [Relation.holds, decide_eq_true_eq]
    exact exists_congr fun m => and_congr_right fun _ => by omega
  | gt =>
    refine (ih.strict w reified .ge 1 a b ha hpa hb).congr fun s hs => ?_
    rw [Expr.holds_cmp_operand (hb.valued hs.within)]
    simp only [Relation.holds, decide_eq_true_eq]
    exact exists_congr fun m => and_congr_right fun _ => by omega
  | ne =>
    rw [relation]
    split
    · exact ih.bigM w a b ha hpa hb
    · refine Posts.widen Lowering.Sat.freshBool ?_ ?_
      · rintro _ τ ⟨x, -, hx, hxb⟩ hh
        exact hx.habitable (by rw [hx.boolean hxb]; decide) hh
      · rintro _ w' hw ⟨z, rfl, hz, hzb⟩
        have hzo : (Expr.var z).Operand w'.store := Expr.operand_var hz.owns
        have himplies {l : Expr} (hlb : l.isBool) (hl : l.Proper w'.store.Owns) (r : Relation) :
            (Expr.implies l (.cmp r a b)).Proper w'.store.Owns :=
          Expr.proper_implies.2 ⟨⟨hlb, rfl⟩, hl, (hproper r).imp fun _ hx => hx.mono hw.grows⟩
        have hgt := himplies (Expr.isBool_negated (e := .var z) hzb hzo.proper)
          (Expr.operand_negated hzo hzb).proper .gt
        exact ⟨_, projects_ne hz hzb hproper, Posts.append
          (ih.implication w' (.var z) (.cmp .lt a b) ⟨.inr ha, hb.simple⟩ (himplies (l := .var z) hzb hzo.proper .lt))
          (fun w'' hr => ih.implication w'' (Expr.var z).negated (.cmp .gt a b) ⟨.inr ha, hb.simple⟩
            (hgt.imp fun _ hx => hx.mono hr.grows)) (local_holds hgt)⟩

theorem strict_posts {delta : Int} (ha : ∀ x ∈ a.args, x.isSimple) (hpa : a.Proper w.store.Owns)
    (hb : b.Operand w.store) : Posts (fun s => ∃ m, a.exact s = some m ∧ r.holds m (b.num s + delta))
      (strict caps (depth + 1) reified r delta a b) w := by
  rw [strict]
  split
  · rename_i k hk
    refine Refining.checked_bind fun l hl => ?_
    refine (ih.comparison w reified r a (.int l) (.inr ha) hpa Expr.operand_int).congr fun s hs => ?_
    rw [Expr.holds_cmp_operand (Expr.operand_int.valued hs.within), Expr.num_int, Expr.num_of_constant hk,
      ← (Checked.add_eq_ok.1 hl).2]
  · refine Refining.checked_bind fun range hrange => Refining.checked_bind fun range' hrange' => ?_
    refine Refining.lift_bind (Lowering.Sat.freshInt range') ?_
    rintro hin _ τ hg ⟨x, rfl, hx, -, rfl⟩
    have hmem {s : Assignment} (hs : s.Within w.store) : b.num s + delta ∈ x.bounds := by
      have hb := hb.num_mem_range hs
      rw [← b.range_of_bounds _ hrange] at hb
      rw [Bounds.of_add hrange']
      exact Bounds.add_mem hb ⟨le_refl _, le_refl _⟩
    have hw' := World.widens_widen (w := w) hg <| hx.habitable <| by
      obtain ⟨s, hs⟩ := hin
      exact (hmem hs.within).1.trans (hmem hs.within).2
    have hxo : (Expr.var x).Operand τ := Expr.operand_var hx.owns
    have hbo := hb.mono hg
    have hproper : (Expr.wsum [(1, .var x), (-1, b)]).Proper τ.Owns :=
      Expr.proper_wsum.2 (by simpa using And.intro hx.owns hbo.proper)
    have hdefines {t : Assignment} (ht : t.Within τ) :
        (Expr.cmp .eq (.wsum [(1, .var x), (-1, b)]) (.int delta)).Holds t ↔ (Expr.var x).num t = b.num t + delta := by
      have hexact : (Expr.wsum [(1, .var x), (-1, b)]).exact t = some (weight [(1, .var x), (-1, b)] t) :=
        exact_wsum_weight (by simpa using ⟨hxo.valued ht, hbo.valued ht⟩)
      rw [Expr.holds_cmp_num (Expr.valued_of_eq hexact) (Expr.operand_int.valued ht), Expr.num_eq hexact]
      simp only [weight_cons, weight_nil, Expr.num_int, Relation.holds, beq_iff_eq]
      omega
    refine Posts.define_sat hw' (hw'.refines.keeps hin) (ih.comparison _ false .eq (.wsum [(1, .var x), (-1, b)])
      (.int delta) ?_ hproper Expr.operand_int) (fun s hs => ?_) fun fs v hr hgrow hdef => ?_
    · exact .inr (by simpa [Expr.args] using ⟨hxo.simple, hb.simple⟩)
    · have hagree := Assignment.agrees_extend s hx (b.num s + delta)
      have hwithin := hs.within.extend hx (hmem hs.within)
      refine ⟨_, hwithin, hagree, (hdefines hwithin).2 ?_⟩
      rw [Assignment.num_assign, ← hb.proper.num_congr hagree]
    · refine ((ih.comparison v reified r a (.var x) (.inr ha) (hpa.imp fun _ hx => hx.mono hr.grows)
        (hxo.mono hgrow)).congr fun t ht => ?_).after hr ?_
      · rw [Expr.holds_cmp_operand ((hxo.mono hgrow).valued ht.within),
          (hdefines (ht.within.mono hgrow)).1 (hdef t ht)]
      · rintro s t hst ⟨m, hm, hrel⟩
        exact ⟨m, by rwa [← Expr.Over.exact_congr hpa.scope hst], by rwa [← hb.proper.num_congr hst]⟩

omit ih in
theorem asTerms?_of_terms? (h : a.terms? = some ts) : asTerms? a = some ts := by
  cases a with
  | sum _ | wsum _ => exact h
  | _ => cases h

omit ih in
theorem valued_of_isTotal {σ : Store} (ha : ∀ x ∈ a.args, x.isSimple) (hpa : a.Proper σ.Owns)
    (h : isTotal a = .ok true) (hs : s.Within σ) : a.Valued s := by
  have hargs : ∀ x ∈ a.args, x.Valued s := fun x hx => Expr.valued_of_isSimple (ha x hx) (hpa.arg hx) hs
  by_cases hg : ∃ g, a = .function g
  · obtain ⟨g, rfl⟩ := hg
    exact Expr.valued_of_isTotal hpa hargs h hs
  · exact Expr.valued_of_args hpa hs hargs fun as i he => absurd ⟨_, he⟩ hg

omit ih in
theorem terms_nil (hr : w.Refines False w') (hops : ∀ t ∈ ts, t.2.Operand w'.store)
    (h : ∀ s, w'.Admits s → a.exact s = some (weight ts s)) : Terms w a (ts, []) w' := by
  refine ⟨hops, ⟨by simp, fun s hs _ => ?_, fun t ht _ => Expr.valued_of_eq (h t ht)⟩, fun t ht _ => h t ht⟩
  obtain ⟨t, ht, hst⟩ := hr.complete s hs
  exact ⟨t, ht, hst, by simp⟩

theorem termsOf_terms (ha : ∀ x ∈ a.args, x.isSimple) (hpa : a.Proper w.store.Owns) :
    (termsOf caps (depth + 1) a).Refining (.refines False) (.each fun _ => True) w (Terms w a) := by
  have hops {ts : List (Int × Expr)} (h : asTerms? a = some ts) : ∀ t ∈ ts, t.2.Operand w.store := fun t ht =>
    ⟨ha _ (args_of_asTerms? h t ht), hpa.arg (args_of_asTerms? h t ht)⟩
  rw [termsOf]
  split
  · rename_i ts hts
    have hts := asTerms?_of_terms? hts
    exact .pure (terms_nil (.refl w) (hops hts) fun s hs =>
      exact_asTerms? hts fun t ht => (hops hts t ht).valued hs.within)
  · split
    · rename_i hs
      have hao : a.Operand w.store := ⟨hs, hpa⟩
      exact .pure (terms_nil (.refl w) (by simpa using hao) fun s hs => by
        rw [(hao.valued hs.within).exact_eq]
        simp)
    · refine Refining.checked_bind fun range hrange => Refining.lift_bind (Lowering.Sat.freshInt range) ?_
      rintro hin _ τ hg ⟨x, rfl, hx, -, rfl⟩
      have hrange := a.range_of_bounds _ hrange
      have hw' := World.widens_widen (w := w) hg <| hx.habitable <| by
        rw [hrange]
        exact hpa.lower_le_upper hin.habitable
      have hxo : (Expr.var x).Operand τ := Expr.operand_var hx.owns
      have hpaτ : a.Proper τ.Owns := hpa.imp fun _ h => h.mono hg
      have hequals {t : Assignment} (ht : t.Within τ) :
          (Expr.cmp .eq a (.var x)).Holds t ↔ a.exact t = some ((Expr.var x).num t) := by
        rw [Expr.holds_cmp_operand (hxo.valued ht)]
        simp [Relation.holds]
      have hprojects : Projects w (w.widen τ hg) a.Valued (Expr.cmp .eq a (.var x)).Holds := by
        refine ⟨fun s hs hv => ?_, fun t ht h => Expr.valued_of_eq ((hequals ht.within).1 h)⟩
        have hagree := Assignment.agrees_extend s hx (a.num s)
        have hwithin := hs.within.extend hx (n := a.num s) (by
          rw [hrange]
          exact hv.num_mem_range (Expr.Over.inBounds hpa.scope hs.within))
        refine ⟨_, hwithin, hagree, (hequals hwithin).2 ?_⟩
        rw [Assignment.num_assign, ← Expr.Over.exact_congr hpa.scope hagree, hv.exact_eq]
      have hposts := ih.comparison (w.widen τ hg) false .eq a (.var x) (.inr ha) hpaτ hxo
      refine Defining.Sat.checked_bind fun total htotal => ?_
      have hxv {v : World} (hgrow : τ.Grows v.store) : ∀ t ∈ [((1 : Int), Expr.var x)], t.2.Operand v.store := by
        simpa using hxo.mono hgrow
      have hweight (t : Assignment) : weight [(1, .var x)] t = (Expr.var x).num t := by simp
      cases total with
      | true =>
        refine Posts.define_sat hw' (hw'.refines.keeps hin) hposts (fun s hs =>
          hprojects.complete s hs (valued_of_isTotal ha hpa htotal hs.within)) fun fs v hr hgrow hdef => ?_
        exact .pure (terms_nil hr (hxv hgrow) fun t ht => by
          rw [hweight, (hequals (ht.within.mono hgrow)).1 (hdef t ht)])
      | false =>
        refine refining_of_widens hw' hin (hposts.bind fun fs v hr hfs => ?_)
        refine .pure ⟨hxv hr.grows, hfs.widen hw' hr hprojects, fun t ht hall => ?_⟩
        rw [hweight, (hequals (ht.within.mono hr.grows)).1 (hfs.sound t ht hall)]

theorem bigM_posts (ha : ∀ x ∈ a.args, x.isSimple) (hpa : a.Proper w.store.Owns) (hb : b.Operand w.store) :
    Posts (Expr.cmp .ne a b).Holds (bigM caps (depth + 1) a b) w := by
  rw [bigM]
  refine (ih.termsOf w a ha hpa).bind fun p w₁ hr₁ hterms => ?_
  obtain ⟨ts, definition⟩ := p
  have hops : ∀ t ∈ (subtract ts b).1, t.2.Operand w₁.store := by
    unfold subtract
    split
    · exact hterms.operands
    · exact List.forall_mem_append.2 ⟨hterms.operands, by simpa using hb.mono hr₁.grows⟩
  refine Refining.checked_bind fun range hrange => ?_
  refine refining_widen Lowering.Sat.freshBool (fun _ τ h hh => ?_) ?_
  · obtain ⟨x, -, hx, hxb⟩ := h
    exact hx.habitable (by rw [hx.boolean hxb]; decide) hh
  rintro _ w₂ hw₂ ⟨z, rfl, hz, hzb⟩
  refine Refining.checked_bind fun es hes => .pure ?_
  have hzo : (Expr.var z).Operand w₂.store := Expr.operand_var hz.owns
  have hrange := (Expr.wsum (subtract ts b).1).range_of_bounds _ hrange
  -- The indicator selects the side on which the difference lies.
  have hselects {t : Assignment} (ht : t.Within w₂.store) : (∀ e ∈ es, e.Holds t) ↔
      if (Expr.var z).num t = 0 then weight (subtract ts b).1 t < (subtract ts b).2
      else (subtract ts b).2 < weight (subtract ts b).1 t := by
    have hv : ∀ t' ∈ (subtract ts b).1, t'.2.Valued t := fun t' h => (hops t' h).valued (ht.mono hw₂.grows)
    refine holds_separated hes hv (hzo.valued ht) (hzo.num_boolean hzb ht) ?_
    rw [hrange, ← Expr.num_eq (exact_wsum_weight hv)]
    have hp : (Expr.wsum (subtract ts b).1).Proper w₁.store.Owns := Expr.proper_wsum.2 fun t' h => (hops t' h).proper
    exact Expr.Valued.num_mem_range (Expr.valued_of_eq (exact_wsum_weight hv))
      (Expr.Over.inBounds hp.scope (ht.mono hw₂.grows))
  have hdifferent {t : Assignment} {m : Int} (hm : m = weight ts t) :
      m ≠ b.num t ↔ weight (subtract ts b).1 t ≠ (subtract ts b).2 := by
    have := weight_subtract ts b t
    omega
  have hne {t : Assignment} (ht : t.Within w.store) := Expr.holds_cmp_operand (r := .ne) (a := a) (hb.valued ht)
  simp only [Relation.holds, bne_iff_ne] at hne
  have hposted := hterms.posted
  refine ⟨List.forall_mem_append.2 ⟨fun d hd => ?_, formed_separated hes (fun t ht => (hops t ht).mono hw₂.grows) hzo⟩,
    fun s hs h => ?_, fun t ht hall => ?_⟩
  · exact ⟨(hposted.formed d hd).1, (hposted.formed d hd).2.imp fun _ h => h.mono hw₂.grows⟩
  · obtain ⟨m, hm, h⟩ := (hne hs.within).1 h
    obtain ⟨t, ht, hst, hdef⟩ := hposted.complete s hs (Expr.valued_of_eq hm)
    have hexact := hterms.exact t ht hdef
    rw [← Expr.Over.exact_congr hpa.scope hst, hm, Option.some_inj] at hexact
    rw [hb.proper.num_congr hst, hdifferent hexact] at h
    obtain ⟨n, hn, hside⟩ : ∃ n, n ∈ z.bounds ∧ if n = 0 then weight (subtract ts b).1 t < (subtract ts b).2
        else (subtract ts b).2 < weight (subtract ts b).1 t := by
      rw [hz.boolean hzb]
      rcases Int.lt_or_gt_of_ne h with hlt | hgt
      · exact ⟨0, by decide, by rwa [if_pos rfl]⟩
      · exact ⟨1, by decide, by rwa [if_neg one_ne_zero]⟩
    have hagree := Assignment.agrees_extend t hz n
    have hwithin := ht.within.extend hz hn
    refine ⟨t.assign z n, hw₂.extend ht hwithin hagree, hst.trans (hagree.mono hr₁.grows.size_le),
      List.forall_mem_append.2 ⟨fun d hd => ?_, (hselects hwithin).2 ?_⟩⟩
    · exact (Expr.Over.holds_congr (hposted.formed d hd).2.scope hagree).1 (hdef d hd)
    · rwa [Assignment.num_assign, ← weight_congr hops hagree]
  · obtain ⟨hdef, hall⟩ := List.forall_mem_append.1 hall
    have ht₁ := (hw₂.admits_iff.1 ht).2
    refine (hne (hr₁.sound t ht₁).within).2 ⟨_, hterms.exact t ht₁ hdef, (hdifferent rfl).2 ?_⟩
    have hside := (hselects ht.within).1 hall
    split at hside <;> omega

end

end Linear

end ConstraintModel
