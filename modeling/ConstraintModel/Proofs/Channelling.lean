import ConstraintModel.Proofs.FlatValues
import ConstraintModel.Proofs.LinearEncodings
import ConstraintModel.Proofs.Separation

namespace ConstraintModel

namespace Defining

variable {α β : Type} {x : Defining α} {f : α → Defining β} {σ : Store} {P P' : α → Prop} {Q : β → Prop}
  {R : β → List Expr → Store → Prop}

def Quiet (x : Defining α) (σ : Store) (P : α → Prop) : Prop := x.Sat True σ fun a N τ => N = [] ∧ τ = σ ∧ P a

theorem Quiet.pure {a : α} (h : P a) : Quiet (pure a) σ P := Sat.pure ⟨rfl, rfl, h⟩

theorem Quiet.checked {c : Checked α} (h : ∀ a, c = .ok a → P a) : Quiet (liftM c) σ P :=
  Sat.checked fun a ha => ⟨rfl, rfl, h a ha⟩

theorem Quiet.imp (h : x.Quiet σ P) (hP : ∀ a, P a → P' a) : x.Quiet σ P' :=
  Sat.imp h fun a _ _ _ ⟨hN, hτ, ha⟩ => ⟨hN, hτ, hP a ha⟩

theorem Quiet.sat_bind (h : x.Quiet σ P) (hf : ∀ a, P a → (f a).Sat True σ R) : (x >>= f).Sat True σ R := by
  refine Sat.bind h ?_
  rintro a _ _ - ⟨rfl, rfl, ha⟩
  exact hf a ha

theorem Quiet.bind (h : x.Quiet σ P) (hf : ∀ a, P a → (f a).Quiet σ Q) : (x >>= f).Quiet σ Q := h.sat_bind hf

theorem Quiet.mapM {γ : Type} {as : List γ} {g : γ → Defining α} {P : γ → α → Prop}
    (h : ∀ a ∈ as, (g a).Quiet σ (P a)) : (as.mapM g).Quiet σ (List.Forall₂ P as) := by
  induction as with
  | nil => exact .pure .nil
  | cons a as ih =>
    rw [List.mapM_cons]
    rw [List.forall_mem_cons] at h
    exact h.1.bind fun b hb => (ih h.2).bind fun bs hbs => .pure (.cons hb hbs)

end Defining

namespace Assignment

variable {σ τ : Store} {s t : Assignment} {xs : List Variable}

theorem Agrees.extendAll (h : s.Agrees σ.size t) (hxs : σ.CreatesAll xs τ) (hv : ∀ x ∈ xs, s.value? x = t.value? x) :
    s.Agrees τ.size t := by
  induction hxs with
  | nil => exact h
  | cons hx _ ih =>
    rw [List.forall_mem_cons] at hv
    exact ih (h.extend hx hv.1) hv.2

theorem Within.value?_eq (h : s.Within σ) {x : Variable} (hx : σ.Has x) : s.value? x = some ((Expr.var x).num s) := by
  obtain ⟨n, -, hn⟩ := h.value hx
  rw [Expr.num, Expr.exact_var, hn]
  rfl

end Assignment

namespace Linear

open Defining (Quiet)
open ConstraintModel.Expr (Operand Valued num)

variable {caps : Capabilities} {depth : Nat} {reified : Bool} {r : Relation} {σ τ : Store} {a b : Expr}
  {ts : List (Int × Expr)} {es fs : List Expr} {p q : Assignment → Prop} {s : Assignment}

def Says (σ : Store) (p : Assignment → Prop) (es : List Expr) : Prop :=
  ∀ s, s.Within σ → ((∀ e ∈ es, e.Holds s) ↔ p s)

def States (σ : Store) (p : Assignment → Prop) (x : Defining (List Expr)) : Prop := x.Quiet σ (Says σ p)

theorem Says.append (hes : Says σ p es) (hfs : Says σ q fs) : Says σ (fun s => p s ∧ q s) (es ++ fs) :=
  fun s hs => List.forall_mem_append.trans (and_congr (hes s hs) (hfs s hs))

theorem Says.flatten {γ : Type} {as : List γ} {p : γ → Assignment → Prop} {ess : List (List Expr)}
    (h : List.Forall₂ (fun a es => Says σ (p a) es) as ess) : Says σ (fun s => ∀ a ∈ as, p a s) ess.flatten := by
  intro s hs
  induction h with
  | nil => simp
  | cons h _ ih =>
    dsimp only at ih ⊢
    rw [List.flatten_cons, List.forall_mem_append, h s hs, ih, List.forall_mem_cons]

theorem States.congr {x : Defining (List Expr)} (h : States σ p x) (hpq : ∀ s, s.Within σ → (p s ↔ q s)) :
    States σ q x := h.imp fun _ hes s hs => (hes s hs).trans (hpq s hs)

theorem states_single (e : Expr) : States σ e.Holds (pure [e]) := .pure fun _ _ => List.forall_mem_singleton

theorem states_decided {holds : Bool} (h : ∀ s, s.Within σ → (holds ↔ p s)) : States σ p (pure (decided holds)) := by
  refine .pure fun s hs => ?_
  rw [← h s hs]
  cases holds <;> simp [decided, Expr.holds_bool]

def StatesRelations (caps : Capabilities) (depth : Nat) (reified : Bool) (σ : Store) (r : Relation) : Prop :=
  ∀ a b, IsSum σ a → b.isConstant → States σ (Expr.cmp r a b).Holds (relation caps depth reified r a b)

theorem operand_of_isConstant (h : b.isConstant) : b.Operand σ :=
  ⟨Flat.isSimple_of_isConstant h, proper_of_isConstant h⟩

theorem isSum_ofTerms (h : ∀ t ∈ ts, t.2.Operand σ) : IsSum σ (.ofTerms ts) := by
  refine ⟨.inr ?_, args_ofTerms fun t ht => (h t ht).simple, proper_ofTerms fun t ht => (h t ht).proper⟩
  unfold Expr.ofTerms
  split <;> rfl

theorem sum_states (h : StatesRelations caps depth reified σ r) (hts : ∀ t ∈ ts, t.2.Operand σ) (hb : b.Operand σ) :
    States σ (fun s => r.holds (weight ts s) (b.num s)) (sum caps (depth + 1) reified r ts b) := by
  rw [sum]
  refine Quiet.bind (.checked (P := fun p => balance ts b = .ok p) fun _ hp => hp) fun p hp => ?_
  obtain ⟨kept, k⟩ := p
  have hkept : ∀ t ∈ kept, t.2.Operand σ := forall_balance hp hts hb
  dsimp only
  split
  · rename_i hempty
    refine states_decided fun s _ => ?_
    rw [← holds_balance hp s, List.isEmpty_iff.1 hempty, weight_nil]
  · exact (h _ (.int k) (isSum_ofTerms hkept) rfl).congr fun s hs =>
      holds_cmp_balance hp fun t ht => (hkept t ht).valued hs

theorem isSum_of_operand (h : a.Operand σ) : IsSum σ a :=
  ⟨.inl h.simple, by simp [Expr.args_of_isSimple h.simple], h.proper⟩

theorem statesRelations_closed (hd : 1 ≤ depth) (hr : r = .eq ∨ r = .le ∨ r = .ge) :
    StatesRelations caps depth reified σ r := by
  obtain ⟨d, rfl⟩ := Nat.exists_eq_add_of_le' hd
  intro a b _ _
  rcases hr with rfl | rfl | rfl <;> exact states_single _

/-- A comparison whose first side is not a constant, unless both sides are. -/
theorem comparison_states_of {n : Nat} (h : ∀ n, depth ≤ n → StatesRelations caps n reified σ r) (hn : depth + 2 ≤ n)
    (hr : r ≠ .ne) (ha : IsSum σ a) (hb : b.Operand σ) (hc : a.isConstant → b.isConstant) :
    States σ (Expr.cmp r a b).Holds (comparison caps n reified r a b) := by
  obtain ⟨d, rfl⟩ := Nat.exists_eq_add_of_le' (Nat.le_of_add_left_le hn : 1 ≤ n)
  unfold comparison
  split
  · rename_i m k hm hk
    exact states_decided fun s _ => (Expr.holds_cmp_constants hm hk).symm
  · rename_i hm hk
    simp [Expr.isConstant, hm, hk] at hc
  · rw [if_neg (by simp [hr])]
    have hsum : States σ (Expr.cmp r a b).Holds (sum caps d reified r (weighed a) b) := by
      obtain ⟨e, rfl⟩ := Nat.exists_eq_add_of_le' (by omega : 1 ≤ d)
      refine (sum_states (h e (by omega)) ha.operand hb).congr fun s hs => ?_
      rw [Expr.holds_cmp_num (Expr.valued_of_eq (ha.exact_eq hs)) (hb.valued hs), Expr.num_eq (ha.exact_eq hs)]
    have hsimple : States σ (Expr.cmp r a b).Holds (if b.isConstant then relation caps d reified r a b
        else sum caps d reified r (weighed a) b) := by
      split
      · exact h d (by omega) a b ha ‹_›
      · exact hsum
    cases a with
    | var x => exact hsimple
    | negVar x => exact hsimple
    | sum as => exact hsum
    | wsum ts => exact hsum
    | _ => rcases ha.shape with hs | hs <;> simp_all [Expr.isSimple, Expr.terms?, Expr.constant?]

theorem statesRelations_of_ne (hd : 5 ≤ depth) (hr : r ≠ .ne) : StatesRelations caps depth reified σ r := by
  intro a b ha hb
  obtain ⟨d, rfl⟩ := Nat.exists_eq_add_of_le' (by omega : 2 ≤ depth)
  have hstrict {r' : Relation} {delta : Int} (hr' : r' = .le ∨ r' = .ge)
      (hshift : ∀ m k, r'.holds m (k + delta) ↔ r.holds m k) :
      States σ (Expr.cmp r a b).Holds (strict caps (d + 1) reified r' delta a b) := by
    obtain ⟨k, hk⟩ := Option.isSome_iff_exists.1 hb
    rw [strict, hk]
    refine Quiet.bind (.checked (P := fun l => k + delta = l) fun l hl => (Checked.add_eq_ok.1 hl).2) fun l hl => ?_
    have hclosed : ∀ n, 1 ≤ n → StatesRelations caps n reified σ r' := fun n hn => statesRelations_closed hn (.inr hr')
    refine (comparison_states_of hclosed (by omega) (by rintro rfl; simp at hr') ha Expr.operand_int
      fun _ => rfl).congr fun s hs => ?_
    rw [Expr.holds_cmp_operand (Expr.operand_int.valued hs),
      Expr.holds_cmp_operand ((operand_of_isConstant hb).valued hs),
      Expr.num_int, Expr.num_of_constant hk, ← hl]
    exact exists_congr fun m => and_congr_right fun _ => hshift m k
  cases r with
  | eq => exact statesRelations_closed (by omega) (.inl rfl) a b ha hb
  | le => exact statesRelations_closed (by omega) (.inr (.inl rfl)) a b ha hb
  | ge => exact statesRelations_closed (by omega) (.inr (.inr rfl)) a b ha hb
  | lt => exact hstrict (.inl rfl) fun m k => by simp only [Relation.holds, decide_eq_true_eq]; omega
  | gt => exact hstrict (.inr rfl) fun m k => by simp only [Relation.holds, decide_eq_true_eq]; omega
  | ne => exact absurd rfl hr

theorem comparison_states (hd : 8 ≤ depth) (hr : r ≠ .ne) (ha : IsSum σ a) (hb : b.Operand σ) :
    States σ (Expr.cmp r a b).Holds (comparison caps depth reified r a b) := by
  have hrelation {r : Relation} (hr : r ≠ .ne) : ∀ n, 5 ≤ n → StatesRelations caps n reified σ r :=
    fun n hn => statesRelations_of_ne hn hr
  by_cases hc : a.isConstant → b.isConstant
  · exact comparison_states_of (hrelation hr) (by omega) hr ha hb hc
  · rw [Classical.not_imp] at hc
    obtain ⟨m, hm⟩ := Option.isSome_iff_exists.1 hc.1
    have hbc : b.constant? = none := Option.not_isSome_iff_eq_none.1 hc.2
    obtain ⟨d, rfl⟩ := Nat.exists_eq_add_of_le' (by omega : 1 ≤ depth)
    have hconverse : r.converse ≠ .ne := by cases r <;> simp_all [Relation.converse]
    unfold comparison
    rw [hm, hbc]
    refine (comparison_states_of (hrelation hconverse) (by omega) hconverse (isSum_of_operand hb)
      (operand_of_isConstant hc.1) fun h => absurd h hc.2).congr fun s _ => Expr.holds_cmp_converse

/-- A comparison that is false for all values is stated by the negation of the
literal. -/
theorem guarded_states {l : Variable} (hl : l.isBool) (hlo : σ.Owns l) (hd : 10 ≤ depth) (hr : r ≠ .ne) (ha : IsSum σ a)
    (hb : b.Operand σ) :
    States σ (Expr.implies (.var l) (.cmp r a b)).Holds (guarded caps depth (.var l) (.cmp r a b)) := by
  obtain ⟨d, rfl⟩ := Nat.exists_eq_add_of_le' (by omega : 2 ≤ depth)
  have hvar : (Expr.var l).Operand σ := Expr.operand_var hlo
  have himplies {e : Expr} {s : Assignment} (hs : s.Within σ) :
      (Expr.implies (.var l) e).Holds s ↔ ((Expr.var l).Holds s → e.Holds s) := Expr.holds_implies_iff (hvar.valued hs)
  rw [guarded, constraint]
  refine Quiet.bind (comparison_states (by omega) hr ha hb) fun es hes => ?_
  split
  · rename_i hfalse
    have hnot {s : Assignment} (hs : s.Within σ) : ¬(Expr.cmp r a b).Holds s := by
      intro h
      have := (hes s hs).2 h (.bool false) (by simpa using hfalse)
      rw [Expr.holds_bool] at this
      cases this
    rw [Expr.negated_var hl, constraint]
    refine (states_single _).congr fun s hs => ?_
    rw [himplies hs, imp_iff_not (hnot hs), Expr.holds_cmp_sum (by simpa using hvar.valued hs),
      hvar.holds_iff_num hl hs]
    have := hvar.num_boolean hl hs
    simp only [List.map_cons, List.map_nil, List.sum_cons, List.sum_nil, Relation.holds, decide_eq_true_eq]
    omega
  · refine .pure fun s hs => ?_
    have hcmp : (∀ e ∈ es, e.Holds s) ↔ (Expr.cmp r a b).Holds s := hes s hs
    simp only [List.forall_mem_map, himplies hs, ← hcmp]
    tauto

theorem implication_states {l : Variable} (hl : l.isBool) (hlo : σ.Owns l) (hd : 11 ≤ depth) (hr : r ≠ .ne)
    (ha : a.Operand σ) (hb : b.Operand σ) :
    States σ (Expr.implies (.var l) (.cmp r a b)).Holds (implication caps depth (.var l) (.cmp r a b)) := by
  obtain ⟨d, rfl⟩ := Nat.exists_eq_add_of_le' (by omega : 1 ≤ depth)
  have hnonlinear : nonlinear? caps (.cmp r a b) = none := by
    cases a with
    | function _ => cases ha.simple
    | _ => rfl
  rw [implication, if_neg (by simpa [Expr.isLiteral] using hl), if_neg (by simp [Expr.isLiteral]), hnonlinear]
  exact guarded_states hl hlo (by omega) hr (isSum_of_operand ha) hb

theorem isSum_sum {is : List Expr} (h : ∀ i ∈ is, i.Operand σ) : IsSum σ (.sum is) :=
  ⟨.inr rfl, fun i hi => (h i hi).simple, Expr.proper_sum.2 fun i hi => (h i hi).proper⟩

theorem isSum_wsum (h : ∀ t ∈ ts, t.2.Operand σ) : IsSum σ (.wsum ts) :=
  ⟨.inr rfl, List.forall_mem_map.2 fun t ht => (h t ht).simple, Expr.proper_wsum.2 fun t ht => (h t ht).proper⟩

theorem selects_states {zs : List Variable} {array : List Expr} {index : Expr} (hzs : ∀ z ∈ zs, z.isBool ∧ σ.Owns z)
    (harray : ∀ a ∈ array, a.Operand σ) (hindex : index.Operand σ) (hb : b.Operand σ) (hd : 11 ≤ depth) (hr : r ≠ .ne) :
    States σ (Selects (zs.map .var) array index r b) (do
      let one ← comparison caps depth false .eq (.sum (zs.map .var)) (.int 1)
      let position ← comparison caps depth false .eq (positions (zs.map .var)) index
      let entries ← ((zs.map Expr.var).zip array).mapM fun (l, a) => implication caps depth l (.cmp r a b)
      return one ++ position ++ entries.flatten) := by
  have hbits : ∀ i ∈ zs.map Expr.var, i.Operand σ := List.forall_mem_map.2 fun z hz => Expr.operand_var (hzs z hz).2
  refine Quiet.bind (comparison_states (by omega) (by simp) (isSum_sum hbits) Expr.operand_int) fun one hone => ?_
  refine Quiet.bind (comparison_states (by omega) (by simp)
    (isSum_wsum fun p hp => hbits _ (mem_of_indexed hp)) hindex) fun position hposition => ?_
  have hentry : ∀ p ∈ (zs.map Expr.var).zip array, States σ (Expr.implies p.1 (.cmp r p.2 b)).Holds
      (implication caps depth p.1 (.cmp r p.2 b)) := by
    rintro ⟨l, a⟩ hp
    obtain ⟨hl, ha⟩ := List.of_mem_zip hp
    obtain ⟨z, hz, rfl⟩ := List.mem_map.1 hl
    exact implication_states (hzs z hz).1 (hzs z hz).2 hd hr (harray a ha) hb
  exact (Quiet.mapM hentry).bind fun entries hentries => .pure ((hone.append hposition).append (.flatten hentries))

theorem assigns_states {hull : Bounds} {as : List Expr} {rows : List (List Expr)} (has : ∀ a ∈ as, a.Operand σ)
    (hrows : ∀ row ∈ rows, ∀ i ∈ row, i.isBool ∧ i.Operand σ) (hd : 8 ≤ depth) :
    States σ (Assigns hull.values as rows) (do
      let assigned ← (as.zip rows).mapM fun (a, row) => do
        let one ← comparison caps depth false .eq (.sum row) (.int 1)
        return one ++ (← comparison caps depth false .eq (valueOf hull.values row) a)
      let taken ← (columns hull.values.length rows).mapM fun column =>
        comparison caps depth false .le (.sum column) (.int 1)
      return assigned.flatten ++ taken.flatten) := by
  have hassigned : ∀ p ∈ as.zip rows, States σ
      (fun s => (Expr.cmp .eq (.sum p.2) (.int 1)).Holds s ∧ (Expr.cmp .eq (valueOf hull.values p.2) p.1).Holds s) (do
        let one ← comparison caps depth false .eq (.sum p.2) (.int 1)
        return one ++ (← comparison caps depth false .eq (valueOf hull.values p.2) p.1)) := by
    intro p hp
    obtain ⟨ha, hrow⟩ := List.of_mem_zip hp
    refine Quiet.bind (comparison_states hd (by simp) (isSum_sum fun i hi => (hrows _ hrow i hi).2)
      Expr.operand_int) fun one hone => ?_
    exact Quiet.bind (comparison_states hd (by simp) (isSum_wsum fun t ht => (hrows _ hrow _ (List.of_mem_zip ht).2).2)
      (has _ ha)) fun value hvalue => .pure (hone.append hvalue)
  have htaken : ∀ column ∈ columns hull.values.length rows, States σ (Expr.cmp .le (.sum column) (.int 1)).Holds
      (comparison caps depth false .le (.sum column) (.int 1)) := fun column hc =>
    comparison_states hd (by simp) (isSum_sum fun i hi => (mem_columns_sound hrows column hc i hi).2) Expr.operand_int
  exact (Quiet.mapM hassigned).bind fun assigned hassigned => (Quiet.mapM htaken).bind fun taken htaken =>
    .pure ((Says.flatten hassigned).append (.flatten htaken))

open Flat (Completes)

/-- Truth values for the new variables can be chosen so that the constraints and
definitions hold exactly where the property does, and there in one way only. -/
structure Channels (σ : Store) (zs : List Variable) (p : Assignment → Prop) (es N : List Expr) (τ : Store) : Prop where
  creates : σ.CreatesAll zs τ
  boolean : ∀ z ∈ zs, z.isBool
  satisfiable : ∀ s, s.Within σ → ((∃ t, Completes σ τ (es ++ N) s t) ↔ p s)
  unique : ∀ s t t', Completes σ τ (es ++ N) s t → Completes σ τ (es ++ N) s t' → t.Agrees τ.size t'

theorem Channels.congr {zs : List Variable} {N : List Expr} (h : Channels σ zs p es N τ)
    (hpq : ∀ s, s.Within σ → (p s ↔ q s)) : Channels σ zs q es N τ :=
  { h with satisfiable := fun s hs => (h.satisfiable s hs).trans (hpq s hs) }

/-- Constraints that say what an encoding says. -/
theorem Encodes.channels {zs : List Variable} {bits : Assignment → List Int} (h : Encodes σ zs bits p q τ)
    (hes : Says τ q es) : Channels σ zs p es [] τ := by
  have hcompletes {s t : Assignment} (ht : Completes σ τ (es ++ []) s t) :
      zs.map (num t ∘ .var) = bits s ∧ p s := by
    obtain ⟨heq, hp⟩ := h.determined s t ht.agrees
    rw [heq, hp]
    exact (h.iff t ht.within).1 ((hes t ht.within).1 fun e he => ht.holds e (List.mem_append_left _ he))
  refine ⟨h.creates, h.boolean, fun s hs => ⟨fun ⟨t, ht⟩ => (hcompletes ht).2, fun hp => ?_⟩, fun s t t' ht ht' => ?_⟩
  · obtain ⟨t, ht, hst, hq⟩ := h.complete hs hp
    exact ⟨t, ht, hst, fun e he => (hes t ht).2 hq e (by simpa using he)⟩
  · have hnums := (hcompletes ht).1.trans (hcompletes ht').1.symm
    refine (ht.agrees.symm.trans ht'.agrees).extendAll h.creates fun z hz => ?_
    rw [ht.within.value?_eq (h.creates.owns hz).1, ht'.within.value?_eq (h.creates.owns hz).1, Option.some_inj]
    exact List.map_eq_map_iff.1 hnums z hz

def EntryStands (r : Relation) (entries : List (Option Int)) (index rhs : Option Int) : Prop :=
  ∃ (k : Nat) (m n : Int), index = some (k : Int) ∧ entries[k]? = some (some m) ∧ rhs = some n ∧ r.holds m n

theorem holds_element_iff {array : List Expr} {index : Expr} (harray : ∀ a ∈ array, a.Operand σ)
    (hindex : index.Operand σ) (hb : b.Operand σ) (hs : s.Within σ) :
    (Expr.cmp r (.function (.element array index)) b).Holds s ↔
      EntryStands r (array.map (Expr.exact s)) (index.exact s) (b.exact s) := by
  have hv : ∀ a ∈ array, a.Valued s := fun a ha => (harray a ha).valued hs
  have hi := hindex.valued hs
  have hbv := hb.valued hs
  rw [Function.holds_element hv hi hbv, EntryStands, hi.exact_eq, hbv.exact_eq]
  constructor
  · rintro ⟨a, ha, hstands⟩
    obtain ⟨hpos, ha⟩ := entryAt?_eq_some.1 ha
    refine ⟨_, _, _, congrArg some (Int.toNat_of_nonneg hpos).symm, ?_, rfl, hstands⟩
    rw [List.getElem?_map, ha, Option.map_some, (hv a (List.mem_of_getElem? ha)).exact_eq]
  · rintro ⟨k, m, n, hk, hm, hn, hstands⟩
    rw [Option.some_inj] at hk hn
    rw [List.getElem?_map, Option.map_eq_some_iff] at hm
    obtain ⟨a, ha, hm⟩ := hm
    refine ⟨a, ?_, ?_⟩
    · rw [hk, entryAt?_eq_some, Int.toNat_natCast]
      exact ⟨Int.natCast_nonneg k, ha⟩
    · rwa [Expr.num_eq hm, hn]

theorem element_channels {array : List Expr} {index : Expr} (harray : ∀ a ∈ array, a.Operand σ)
    (hindex : index.Operand σ) (hb : b.Operand σ) (hd : 12 ≤ depth) (hr : r ≠ .ne) :
    (element caps depth array index r b).Sat True σ fun es N τ => ∃ zs,
      Channels σ zs (fun s => EntryStands r (array.map (Expr.exact s)) (index.exact s) (b.exact s)) es N τ := by
  obtain ⟨d, rfl⟩ := Nat.exists_eq_add_of_le' (by omega : 1 ≤ depth)
  rw [element]
  refine (Defining.Sat.lift (Lowering.Sat.freshBools array.length)).bind ?_
  rintro _ _ τ hg ⟨rfl, zs, rfl, hzs, hlength, hbool⟩
  refine Defining.Sat.imp (selects_states (fun z hz => ⟨hbool z hz, hzs.owns hz⟩)
    (fun a ha => (harray a ha).mono hg) (hindex.mono hg) (hb.mono hg) (by omega) hr) ?_
  rintro es _ _ - ⟨rfl, rfl, hes⟩
  exact ⟨zs, ((selects_encodes hzs hbool hlength harray hindex hb).channels hes).congr fun s hs =>
    holds_element_iff harray hindex hb hs⟩

def PairwiseDifferent (values : List (Option Int)) : Prop := ∃ ns : List Int, values = ns.map some ∧ ns.Nodup

theorem holds_allDifferent_iff {as : List Expr} (has : ∀ a ∈ as, a.Operand σ) (hs : s.Within σ) :
    (Expr.constraint (.allDifferent as)).Holds s ↔ PairwiseDifferent (as.map (Expr.exact s)) := by
  have hv : ∀ a ∈ as, a.Valued s := fun a ha => (has a ha).valued hs
  have hvalues : as.map (Expr.exact s) = (as.map (num s)).map some := by
    rw [List.map_map]
    exact List.map_congr_left fun a ha => (hv a ha).exact_eq
  rw [Expr.holds_allDifferent hv, PairwiseDifferent, hvalues]
  constructor
  · exact fun h => ⟨_, rfl, h⟩
  · rintro ⟨ns, heq, hns⟩
    rwa [List.map_injective_iff.2 (Option.some_injective _) heq]

theorem allDifferent_channels {as : List Expr} (has : ∀ a ∈ as, a.Operand σ) (hd : 9 ≤ depth) :
    (allDifferent caps depth as).Sat True σ fun es N τ => ∃ zs,
      Channels σ zs (fun s => PairwiseDifferent (as.map (Expr.exact s))) es N τ := by
  obtain ⟨d, rfl⟩ := Nat.exists_eq_add_of_le' (by omega : 1 ≤ depth)
  have hbounds : (as.mapM fun a => (a.bounds : Defining Bounds)).Quiet σ fun bs => bs = as.map Expr.range := by
    refine (Quiet.mapM (P := fun a b => a.range = b) fun a _ => .checked fun b hb => ?_).imp fun bs hbs => ?_
    · exact (a.range_of_bounds b hb).symm
    · rw [eq_comm, ← List.forall₂_eq_eq_eq, List.forall₂_map_left_iff]
      exact hbs
  rw [allDifferent]
  refine hbounds.sat_bind ?_
  rintro _ rfl
  split
  · rename_i hnone
    obtain rfl := List.map_eq_nil_iff.1 (hull?_eq_none hnone)
    refine .pure ⟨[], .nil, List.forall_mem_nil _, fun s hs => ?_, fun s t t' ht ht' => ht.agrees.symm.trans ht'.agrees⟩
    exact ⟨fun _ => ⟨[], rfl, .nil⟩, fun _ => ⟨s, hs, .refl _ s, List.forall_mem_nil _⟩⟩
  · rename_i hull hsome
    have hsub : ∀ a ∈ as, a.range ⊆ hull := by
      rw [hull?_eq_some hsome]
      exact fun a ha => Bounds.subset_hull (List.mem_map_of_mem ha)
    dsimp only
    rw [mapM_liftM]
    refine (Defining.Sat.lift (freshRows_sat hull.values.length as)).bind ?_
    rintro _ _ τ hg ⟨rfl, zss, rfl, hzss, hlengths, hbool⟩
    refine Defining.Sat.imp (assigns_states (fun a ha => (has a ha).mono hg)
      (operand_rows fun z hz => ⟨hbool z hz, hzss.owns hz⟩) (by omega)) ?_
    rintro es _ _ - ⟨rfl, rfl, hes⟩
    exact ⟨zss.flatten, ((assigns_encodes hzss hbool hlengths has hsub).channels hes).congr fun s hs =>
      holds_allDifferent_iff has hs⟩

/-- The indicators of an alldifferent constraint and of an element are channelled
to its arguments. Every assignment leaves one choice for them if the constraint
is met, and none otherwise. The depth suffices for both encodings, and `depth`
is never smaller. -/
theorem indicators_channel (caps : Capabilities) (σ : Store) (hd : 12 ≤ depth) :
    (∀ as : List Expr, (∀ a ∈ as, a.Operand σ) →
      (allDifferent caps depth as).Sat True σ fun es N τ =>
        ∃ zs, Channels σ zs (fun s => PairwiseDifferent (as.map (Expr.exact s))) es N τ) ∧
    ∀ (array : List Expr) (index : Expr) (r : Relation) (b : Expr), (∀ a ∈ array, a.Operand σ) → index.Operand σ →
      b.Operand σ → r ≠ .ne → (element caps depth array index r b).Sat True σ fun es N τ =>
        ∃ zs, Channels σ zs (fun s => EntryStands r (array.map (Expr.exact s)) (index.exact s) (b.exact s)) es N τ :=
  ⟨fun _ has => allDifferent_channels has (by omega),
    fun _ _ _ _ harray hindex hb hr => element_channels harray hindex hb hd hr⟩

def seat : Variable := ⟨0, ⟨-1, 2⟩, .int⟩

def isTaken : Variable := ⟨1, .boolean, .bool⟩

def seatStore : Store := ⟨#[⟨⟨-1, 2⟩, .int, .user⟩, ⟨.boolean, .bool, .user⟩]⟩

def atSeat (n : Int) : Assignment := ⟨fun i => some (if i = 0 then n else 1)⟩

/-- A seat that is neither the second nor the one that the view of the flag
stands for, and a seat whose entry is greater than the flag. -/
theorem indicators_seats :
    let as : List Expr := [.var seat, .negVar isTaken, .int 2]
    let array : List Expr := [.int 3, .var isTaken]
    (∀ a ∈ as, a.Operand seatStore) ∧ (∀ a ∈ array, a.Operand seatStore) ∧ (Expr.var seat).Operand seatStore ∧
      (Expr.var isTaken).Operand seatStore ∧
      (∃ es τ, allDifferent .none 12 as #[] seatStore = .ok (es, #[]) τ ∧ es.length = 10 ∧
        (∃ t, Completes seatStore τ es (atSeat 1) t) ∧ ¬∃ t, Completes seatStore τ es (atSeat 0) t) ∧
      ∃ es τ, element .none 12 array (.var seat) .gt (.var isTaken) #[] seatStore = .ok (es, #[]) τ ∧ es.length = 4 ∧
        (∃ t, Completes seatStore τ es (atSeat 0) t) ∧ (¬∃ t, Completes seatStore τ es (atSeat 1) t) ∧
        ¬∃ t, Completes seatStore τ es (atSeat 2) t := by
  intro as array
  have howns : seatStore.Owns seat ∧ seatStore.Owns isTaken := ⟨⟨⟨.user, rfl⟩, nofun⟩, ⟨.user, rfl⟩, fun _ => rfl⟩
  have hseat : (Expr.var seat).Operand seatStore := Expr.operand_var howns.1
  have htaken : (Expr.var isTaken).Operand seatStore := Expr.operand_var howns.2
  have has : ∀ a ∈ as, a.Operand seatStore := by
    simp only [as, List.forall_mem_cons, List.not_mem_nil, false_imp_iff, implies_true, and_true]
    exact ⟨hseat, ⟨rfl, Expr.proper_negVar.2 ⟨rfl, howns.2⟩⟩, Expr.operand_int⟩
  have harray : ∀ a ∈ array, a.Operand seatStore := by
    simp only [array, List.forall_mem_cons, List.not_mem_nil, false_imp_iff, implies_true, and_true]
    exact ⟨Expr.operand_int, htaken⟩
  have hwithin (n : Int) (hn : n ∈ seat.bounds) : (atSeat n).Within seatStore := by
    rintro (_ | _ | i) d h <;> simp [seatStore] at h <;> subst h
    · exact ⟨n, hn, rfl⟩
    · exact ⟨1, by decide, rfl⟩
  obtain ⟨hdifferent, helement⟩ := indicators_channel .none seatStore (le_refl 12)
  refine ⟨has, harray, hseat, htaken, ?_, ?_⟩
  · obtain ⟨es, τ, hrun, hlength⟩ : ∃ es τ, allDifferent .none 12 as #[] seatStore = .ok (es, #[]) τ ∧ es.length = 10 :=
      ⟨_, _, by cbv, rfl⟩
    have hsat := hdifferent as has #[]
    rw [hrun] at hsat
    obtain ⟨-, N, hN, zs, hchannels⟩ := hsat
    obtain rfl : N = [] := by simpa using hN.symm
    have hiff (n : Int) (hn : n ∈ seat.bounds) := hchannels.satisfiable _ (hwithin n hn)
    rw [List.append_nil] at hiff
    refine ⟨es, τ, hrun, hlength, (hiff 1 (by decide)).2 ⟨[1, 0, 2], ?_, by decide⟩, fun h => ?_⟩
    · simp [as, seat, isTaken, Assignment.value?, atSeat]
    · obtain ⟨ns, hns, hnodup⟩ := (hiff 0 (by decide)).1 h
      obtain rfl : [0, 0, 2] = ns := by
        refine List.map_injective_iff.2 (Option.some_injective _) (Eq.trans ?_ hns)
        simp [as, seat, isTaken, Assignment.value?, atSeat]
      exact absurd hnodup (by decide)
  · obtain ⟨es, τ, hrun, hlength⟩ : ∃ es τ, element .none 12 array (.var seat) .gt (.var isTaken) #[] seatStore =
        .ok (es, #[]) τ ∧ es.length = 4 := ⟨_, _, by cbv, rfl⟩
    have hsat := helement array (.var seat) .gt (.var isTaken) harray hseat htaken (by decide) #[]
    rw [hrun] at hsat
    obtain ⟨-, N, hN, zs, hchannels⟩ := hsat
    obtain rfl : N = [] := by simpa using hN.symm
    have hiff (n : Int) (hn : n ∈ seat.bounds) : (∃ t, Completes seatStore τ es (atSeat n) t) ↔
        EntryStands .gt [some 3, some 1] (some n) (some 1) := by
      have h := hchannels.satisfiable _ (hwithin n hn)
      rw [List.append_nil] at h
      simpa [array, seat, isTaken, Assignment.value?, atSeat] using h
    refine ⟨es, τ, hrun, hlength, (hiff 0 (by decide)).2 ⟨0, 3, 1, rfl, rfl, rfl, rfl⟩, fun h => ?_, fun h => ?_⟩
    · obtain ⟨k, m, l, hk, hm, hl, hgt⟩ := (hiff 1 (by decide)).1 h
      obtain rfl : k = 1 := Int.ofNat_inj.1 (Option.some_inj.1 hk).symm
      cases hm
      cases hl
      exact absurd hgt (by decide)
    · obtain ⟨k, m, l, hk, hm, -⟩ := (hiff 2 (by decide)).1 h
      obtain rfl : k = 2 := Int.ofNat_inj.1 (Option.some_inj.1 hk).symm
      cases hm

end Linear

end ConstraintModel
