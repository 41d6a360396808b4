import ConstraintModel.Proofs.FlatConfined
import ConstraintModel.Proofs.SupportedTree

namespace ConstraintModel

open ConstraintModel.Expr (Sized)
open Lowering (Stays)

variable {B : Start} {caps : Capabilities} {context : Context} {K depth n : Nat} {σ τ : Store} {a b e : Expr}
  {cs : List Expr}

def Start.Lighter (B : Start) (k n : Nat) (σ : Store) (e : Expr) : Prop := ∃ m < n, e.Sized (B.Allows σ) k m

theorem Start.Lighter.grow {k n : Nat} (h : B.Lighter k n σ e) (hg : σ.Extends B.live τ) : B.Lighter k n τ e := by
  obtain ⟨m, hm, h⟩ := h
  exact ⟨m, hm, h.grow hg⟩

def Start.lighter (B : Start) (k n : Nat) : B.Invariant (Array Expr) :=
  B.each (B.Lighter k n) fun _ _ _ hg h => h.grow hg

theorem topLevel_lighter {k n : Nat} (h : ∀ c ∈ cs, B.Lighter k n σ c) : ∀ c ∈ topLevel cs, B.Lighter k n σ c := by
  rw [topLevel, List.forall_mem_flatMap]
  rintro c hc e he
  obtain ⟨m, hm, hc⟩ := h c hc
  exact ⟨m, hm, hc.conjuncts e he⟩

namespace Supported

abbrev Runs {α : Type} (B : Start) (K : Nat) (x : Defining α) (σ : Store) (Q : α → Store → Prop) : Prop :=
  Carries B (B.lighter 1 K) x σ Q

structure Confined (caps : Capabilities) (B : Start) (K depth : Nat) : Prop where
  expr (σ : Store) (context : Context) (e : Expr) : e.Uses (B.Allows σ) → e.nesting 1 ≤ K →
    4 * e.nesting 1 + 1 ≤ depth →
    Runs B K (expr caps depth context e) σ fun e' τ => e'.Sized (B.Allows τ) 1 (e.nesting 1)
  comparison (σ : Store) (context : Context) (r : Relation) (a b : Expr) : (Expr.cmp r a b).Uses (B.Allows σ) →
    (Expr.cmp r a b).nesting 1 ≤ K → 4 * (Expr.cmp r a b).nesting 1 ≤ depth →
    Runs B K (comparison caps depth context r a b) σ fun e' τ =>
      e'.Sized (B.Allows τ) 1 ((Expr.cmp r a b).nesting 1)
  parts (σ : Store) (context : Context) (d : Decomposition) (n : Nat) :
    (∀ e ∈ d.constraining, e.Sized (B.Allows σ) 1 n) → (∀ e ∈ d.defining, B.Lighter 1 K σ e) → n ≤ K →
    4 * n + 2 ≤ depth → Runs B K (parts caps depth context d) σ fun e' τ => e'.Sized (B.Allows τ) 1 (n + 1)

section

variable (ih : Confined caps B K depth)

include ih

theorem parts_runs {d : Decomposition} (hc : ∀ e ∈ d.constraining, e.Sized (B.Allows σ) 1 n)
    (hd : ∀ e ∈ d.defining, B.Lighter 1 K σ e) (hn : n ≤ K) (hdepth : 4 * n + 2 ≤ depth + 1) :
    Runs B K (parts caps (depth + 1) context d) σ fun e' τ => e'.Sized (B.Allows τ) 1 (n + 1) := by
  rw [parts]
  refine Carries.bind (Carries.forall_mapM (P := fun τ e => e.Sized (B.Allows τ) 1 n)
    (fun _ _ _ hg h => h.grow hg) fun e he τ hg => ?_) fun es τ hg hes => ?_
  · have hle := (hc e he).nesting
    exact (ih.expr τ context e ((hc e he).uses.grow hg) (by omega) (by omega)).imp fun _ _ _ h => h.mono hle
  · refine (Carries.defineAll fun e he => (hd e he).grow hg).bind fun _ υ hg' _ => .pure ?_
    exact .all False.elim (fun e he => (hes e he).grow hg') (by omega)

/-- The arguments are examined before what they are arguments of. -/
theorem function_args_runs {g : Function Expr} (h : ∀ a ∈ g.args, a.Uses (B.Allows σ))
    (hK : greatest (g.args.map (Expr.nesting 1)) ≤ K)
    (hdepth : 4 * greatest (g.args.map (Expr.nesting 1)) + 1 ≤ depth) :
    Runs B K (g.mapM fun a => expr caps depth (argContext context a) a) σ fun k τ =>
      ∀ b ∈ k.args, b.Sized (B.Allows τ) 1 (greatest (g.args.map (Expr.nesting 1))) := by
  refine .function_mapM (fun _ _ _ hg h => h.grow hg) fun a ha τ hg => ?_
  have hle : a.nesting 1 ≤ _ := le_greatest_map ha
  exact (ih.expr τ _ a ((h a ha).grow hg) (by omega) (by omega)).imp fun _ _ _ h => h.mono hle

/-- A side that is not taken is a function, and it is replaced together with
the comparison. -/
theorem untakenSide_runs {r : Relation} {g : Function Expr} {rhs : Expr} {N : Nat}
    (hg : (Expr.function g).Uses (B.Allows σ)) (hr : rhs.Uses (B.Allows σ))
    (hN : N = 9 + 4 * greatest (g.args.map (Expr.nesting 1)) + rhs.nesting 1) (hK : N ≤ K)
    (hdepth : 4 * N ≤ depth + 1) :
    Runs B K (do
      let g ← g.mapM fun a => expr caps depth (argContext context a) a
      let rhs ← expr caps depth (argContext context rhs) rhs
      parts caps depth context (← g.decompose r rhs)) σ fun e' τ => e'.Sized (B.Allows τ) 1 N := by
  subst hN
  refine (function_args_runs ih (Expr.uses_function.1 hg) (by omega) (by omega)).bind fun k τ hτ hk => ?_
  refine (ih.expr τ _ rhs (hr.grow hτ) (by omega) (by omega)).bind fun rhs' υ hυ hrhs => ?_
  have hparts := Function.decompose_sized (r := r) le_rfl (fun a ha => (hk a ha).grow hυ) hrhs
  refine (Carries.lift hparts).bind fun d φ _ hd => ?_
  refine (ih.parts φ context d _ hd.1 (fun e he => ⟨_, ?_, hd.2 e he⟩) (by omega) (by omega)).imp
    fun _ _ _ h => h.mono (by omega)
  omega

theorem comparison_runs {r : Relation} (h : (Expr.cmp r a b).Uses (B.Allows σ)) (hK : (Expr.cmp r a b).nesting 1 ≤ K)
    (hdepth : 4 * (Expr.cmp r a b).nesting 1 ≤ depth + 1) :
    Runs B K (comparison caps (depth + 1) context r a b) σ fun e' τ =>
      e'.Sized (B.Allows τ) 1 ((Expr.cmp r a b).nesting 1) := by
  obtain ⟨ha, hb⟩ := Expr.uses_cmp.1 h
  rw [comparison]
  refine Carries.checked_bind fun found? hfound => ?_
  split
  · rcases untakenSide?_eq_ok hfound with ⟨rfl, rfl, rfl⟩ | ⟨rfl, rfl, rfl⟩
    · refine untakenSide_runs ih ha hb ?_ hK hdepth
      rw [Expr.nesting_cmp, Expr.nesting_function]
      omega
    · refine untakenSide_runs ih hb ha ?_ hK hdepth
      rw [Expr.nesting_cmp, Expr.nesting_function]
      omega
  · rw [Expr.nesting_cmp] at hK hdepth ⊢
    refine (ih.expr σ _ a ha (by omega) (by omega)).bind fun a' τ hg ha' => ?_
    refine (ih.expr τ _ b (hb.grow hg) (by omega) (by omega)).bind fun b' υ hg' hb' => ?_
    exact .pure (.cmp (ha'.grow hg') hb' (by omega))

theorem constraint_runs {c : Constraint Expr} (h : (Expr.constraint c).Uses (B.Allows σ))
    (hK : (Expr.constraint c).nesting 1 ≤ K) (hdepth : 4 * (Expr.constraint c).nesting 1 ≤ depth) :
    Runs B K (expr caps (depth + 1) context (.constraint c)) σ fun e' τ =>
      e'.Sized (B.Allows τ) 1 ((Expr.constraint c).nesting 1) := by
  have hw := c.weight_pos
  rw [Expr.nesting_constraint] at hK hdepth ⊢
  rw [expr]
  refine (Carries.constraint_mapM (P := fun τ b =>
    b.Sized (B.Allows τ) 1 (greatest (c.args.map (Expr.nesting 1)))) (fun _ _ _ hg h => h.grow hg)
    fun a ha τ hg => ?_).bind fun d τ hg hd => ?_
  · have hle : a.nesting 1 ≤ _ := le_greatest_map ha
    exact (ih.expr τ _ a ((Expr.uses_constraint.1 h a ha).grow hg) (by omega) (by omega)).imp
      fun _ _ _ h => h.mono hle
  · split
    · exact .pure (.constraint False.elim hd.2 (by rw [hd.1]))
    · refine (Carries.lift (Constraint.decompose_sized le_rfl hd.2)).bind fun D υ _ hD => ?_
      rw [hd.1] at hD
      refine (ih.parts υ context D _ (fun e he => hD e (List.mem_append_left _ he))
        (fun e he => ⟨_, ?_, hD e (List.mem_append_right _ he)⟩) (by omega) (by omega)).imp
          fun _ _ _ h => h.mono (by omega)
      omega

theorem function_runs {g : Function Expr} (h : (Expr.function g).Uses (B.Allows σ))
    (hK : (Expr.function g).nesting 1 ≤ K) (hdepth : 4 * (Expr.function g).nesting 1 ≤ depth) :
    Runs B K (expr caps (depth + 1) context (.function g)) σ fun e' τ =>
      e'.Sized (B.Allows τ) 1 ((Expr.function g).nesting 1) := by
  rw [Expr.nesting_function] at hK hdepth ⊢
  rw [expr]
  refine (function_args_runs ih (Expr.uses_function.1 h) (by omega) (by omega)).bind
    fun k τ _ hk => .assume fun hτ => ?_
  refine Carries.checked_bind fun kept _ => ?_
  split
  · exact .pure (.function False.elim hk (by omega))
  · refine Carries.checked_bind fun c hc => ?_
    refine (Carries.lift (Stays.freshInt (hτ.bounds (Expr.uses_function.2 fun a ha => (hk a ha).uses) hc))).bind ?_
    rintro _ υ hg ⟨x, rfl, hx⟩
    have hparts := Function.decompose_sized (r := .eq) le_rfl (fun a ha => (hk a ha).grow hg) (.var (n := 0) hx)
    refine (Carries.lift hparts).bind fun d φ hg' hd => ?_
    refine (Carries.defineAll fun e he => ?_).bind fun _ _ hg'' _ => .pure (.var ((hx.mono hg').mono hg''))
    rcases List.mem_append.1 he with he | he
    · exact ⟨_, by omega, hd.1 e he⟩
    · exact ⟨_, by omega, hd.2 e he⟩

theorem expr_runs (h : e.Uses (B.Allows σ)) (hK : e.nesting 1 ≤ K) (hdepth : 4 * e.nesting 1 ≤ depth) :
    Runs B K (expr caps (depth + 1) context e) σ fun e' τ => e'.Sized (B.Allows τ) 1 (e.nesting 1) := by
  have same {σ : Store} (h : e.Uses (B.Allows σ)) : e.Sized (B.Allows σ) 1 (e.nesting 1) := h.sized le_rfl
  have args (hcall : ∀ d, e ≠ .call d) :
      Runs B K (e.mapArgsM fun a => expr caps depth (argContext context a) a) σ fun e' τ =>
        e'.Sized (B.Allows τ) 1 (e.nesting 1) := by
    have hargs (a : Expr) (ha : a ∈ e.args) (τ : Store) (hg : σ.Extends B.live τ) :
        Runs B K (expr caps depth (argContext context a) a) τ fun b υ => b.Sized (B.Allows υ) 1 (a.nesting 1) := by
      have := Expr.nesting_arg_add (k := 1) ha hcall
      exact ih.expr τ _ a ((h.arg ha).grow hg) ((Expr.nesting_arg ha hcall).trans hK) (by omega)
    have hmapped : Runs B K (e.mapArgsM fun a => expr caps depth (argContext context a) a) σ fun e' τ =>
        e.Mapped (fun a b => b.Sized (B.Allows τ) 1 (a.nesting 1)) e' :=
      (Carries.calculus B (B.lighter 1 K)).mapArgsM (R := fun τ a b => b.Sized (B.Allows τ) 1 (a.nesting 1))
        (fun _ _ _ _ hg h => h.grow hg) hcall hargs
    exact hmapped.imp fun e' τ hg hm => .mapped hm (h.grow hg) fun _ _ h => h
  cases e with
  | bool _ | int _ | var _ | negVar _ =>
    rw [expr]
    exact .pure (same h)
  | cmp r a b =>
    rw [expr]
    exact ih.comparison σ context r a b h hK hdepth
  | constraint c => exact constraint_runs ih h hK hdepth
  | function g => exact function_runs ih h hK hdepth
  | call d =>
    rw [expr]
    split
    · exact .pure (same h)
    · exact .throw (by simp)
  | _ => rw [expr] <;> first | exact args (by simp) | simp

end

theorem confined (caps : Capabilities) (B : Start) (K depth : Nat) : Confined caps B K depth := by
  induction depth with
  | zero =>
    refine ⟨fun _ _ e _ _ h => absurd h (by omega), fun _ _ r a b _ _ h => ?_,
      fun _ _ _ _ _ _ _ h => absurd h (by omega)⟩
    rw [Expr.nesting_cmp] at h
    omega
  | succ depth ih => exact {
      expr := fun _ _ _ h hK hdepth => expr_runs ih h hK (by omega)
      comparison := fun _ _ _ _ _ => comparison_runs ih
      parts := fun _ _ _ _ => parts_runs ih }

/-- Each round leaves lighter definitions to the next one. -/
theorem examine_stays (h : ∀ c ∈ cs, B.Lighter 1 n σ c) :
    (examine caps n cs).Stays B σ B.Keeps := by
  induction n generalizing σ cs with
  | zero =>
    cases cs with
    | nil => exact .pure (List.forall_mem_nil _)
    | cons c cs =>
      obtain ⟨m, hm, -⟩ := h c (List.mem_cons_self ..)
      omega
  | succ n ih =>
    cases cs with
    | nil => exact .pure (List.forall_mem_nil _)
    | cons c cs =>
      rw [examine]
      · have hround : Runs B n ((topLevel (c :: cs)).mapM fun e => return (← expr caps (depth e) .top e).conjuncts) σ
            fun ess τ => ∀ es ∈ ess, B.Keeps es τ := by
          refine .forall_mapM (fun _ _ _ hg h => h.grow hg) fun e he τ hg => ?_
          obtain ⟨m, hm, hs⟩ := topLevel_lighter h e he
          have hle := hs.nesting
          refine ((confined caps B n _).expr τ .top e (hs.uses.grow hg) (by omega) ?_).bind fun e' υ _ he' =>
            .pure fun f hf => (he'.conjuncts f hf).uses
          unfold depth
          omega
        refine hround.collect.bind fun p τ _ hp => (ih hp.2).bind fun rest υ hg hrest => .pure fun e he => ?_
        rcases List.mem_append.1 he with he | he
        · obtain ⟨es, hes, he⟩ := List.mem_flatten.1 he
          exact (hp.1 es hes e he).grow hg
        · exact hrest e he
      · simp

/-- The parts of a decomposition are lighter than the constraint. -/
theorem constraint_parts_stays {c : Constraint Expr} (h : (Expr.constraint c).Uses (B.Allows σ)) :
    c.decompose.Stays B σ fun d τ =>
      ∃ m < (Expr.constraint c).nesting 0, ∀ e ∈ d.toList, e.Sized (B.Allows τ) 0 m := by
  have hargs : ∀ a ∈ c.args, a.Sized (B.Allows σ) 0 (greatest (c.args.map (Expr.nesting 0))) :=
    fun a ha => (Expr.uses_constraint.1 h a ha).sized (le_greatest_map ha)
  refine (Constraint.decompose_sized (Nat.zero_le 1) hargs).imp fun d τ _ hd => ⟨_, ?_, hd⟩
  have := c.weight_pos
  rw [Expr.nesting_constraint]
  omega

/-- The parts of a decomposition are lighter than the comparison. -/
theorem function_parts_stays {r : Relation} {g : Function Expr} (h : (Expr.cmp r (.function g) b).Uses (B.Allows σ)) :
    (g.decompose r b).Stays B σ fun d τ =>
      ∃ m < (Expr.cmp r (.function g) b).nesting 0, ∀ e ∈ d.toList, e.Sized (B.Allows τ) 0 m := by
  obtain ⟨hg, hb⟩ := Expr.uses_cmp.1 h
  have hargs : ∀ a ∈ g.args, a.Sized (B.Allows σ) 0 (greatest (g.args.map (Expr.nesting 0))) :=
    fun a ha => (Expr.uses_function.1 hg a ha).sized (le_greatest_map ha)
  refine (Function.decompose_sized (Nat.zero_le 1) hargs (hb.sized le_rfl)).imp fun d τ _ hd =>
    ⟨4 + 2 * greatest (g.args.map (Expr.nesting 0)) + b.nesting 0, ?_, fun e he => ?_⟩
  · rw [Expr.nesting_cmp, Expr.nesting_function]
    omega
  · rcases List.mem_append.1 he with he | he
    · exact hd.1 e he
    · exact (hd.2 e he).mono (by omega)

theorem replacement_stays (h : e.Uses (B.Allows σ)) : (replacement? caps e).Stays B σ fun d? τ =>
    ∀ d ∈ d?, ∃ m < e.nesting 0, ∀ c ∈ d.toList, c.Sized (B.Allows τ) 0 m := by
  unfold replacement?
  split
  · split
    · exact .pure (by simp)
    · exact (constraint_parts_stays h).bind fun d τ _ hd => .pure fun _ h => Option.some.inj h ▸ hd
  · split
    · exact .pure (by simp)
    · exact (function_parts_stays h).bind fun d τ _ hd => .pure fun _ h => Option.some.inj h ▸ hd
  · split
    · exact .pure (by simp)
    · exact .throw (by simp)
  · exact .pure (by simp)

/-- What a reified expression is replaced by stays under the reification,
which is lighter with it. -/
theorem reified_sized {m l : Nat} {d : Decomposition} {f : Expr → Expr} (hd : ∀ c ∈ d.toList, c.Sized (B.Allows τ) 0 m)
    (hf : ∀ e, e.Sized (B.Allows τ) 0 m → (f e).Sized (B.Allows τ) 0 (m + l)) :
    ∀ c ∈ f (.all d.constraining) :: d.defining, c.Sized (B.Allows τ) 0 (m + l) := by
  refine List.forall_mem_cons.2 ⟨hf _ (.all False.elim (fun e he => hd e (List.mem_append_left _ he)) (by omega)),
    fun e he => ?_⟩
  exact (hd e (List.mem_append_right _ he)).mono (Nat.le_add_right m l)

theorem replacements_stays (h : e.Uses (B.Allows σ)) : (replacements? caps e).Stays B σ fun es? τ =>
    ∀ es ∈ es?, ∃ m < e.nesting 0, ∀ c ∈ es, c.Sized (B.Allows τ) 0 m := by
  unfold replacements?
  split
  · split
    · exact .pure (by simp)
    · exact (constraint_parts_stays h).bind fun d τ _ hd => .pure fun _ h => Option.some.inj h ▸ hd
  · rename_i r a b
    obtain ⟨ha, hb⟩ := Expr.uses_cmp.1 h
    split
    · refine (replacement_stays ha).bind fun d? τ hg hd => .pure fun es hes => ?_
      obtain ⟨d, hsome, rfl⟩ := Option.map_eq_some_iff.1 hes
      obtain ⟨m, hm, hd⟩ := hd d hsome
      refine ⟨m + b.nesting 0, by rw [Expr.nesting_cmp]; omega, ?_⟩
      exact reified_sized (f := fun e => .cmp .eq e b) hd fun e he => .cmp he ((hb.grow hg).sized le_rfl) (by omega)
    · split
      · split
        · exact .pure (by simp)
        · exact (function_parts_stays h).bind fun d τ _ hd => .pure fun _ h => Option.some.inj h ▸ hd
      · exact .pure (by simp)
  · rename_i l a
    obtain ⟨hl, ha⟩ := Expr.uses_implies.1 h
    refine (replacement_stays ha).bind fun d? τ hg hd => .pure fun es hes => ?_
    obtain ⟨d, hsome, rfl⟩ := Option.map_eq_some_iff.1 hes
    obtain ⟨m, hm, hd⟩ := hd d hsome
    refine ⟨m + l.nesting 0, by rw [Expr.nesting_implies]; omega, ?_⟩
    exact reified_sized (f := .implies l) hd fun e he => .implies False.elim ((hl.grow hg).sized le_rfl) he (by omega)
  · exact .pure (by simp)

/-- What a constraint is replaced by is lighter than it, also when it has been
flattened. -/
theorem examineFlat_stays (h : ∀ c ∈ cs, B.Lighter 0 n σ c) :
    (examineFlat caps n cs).Stays B σ B.Keeps := by
  induction n generalizing σ cs with
  | zero =>
    cases cs with
    | nil => exact .pure (List.forall_mem_nil _)
    | cons c cs =>
      obtain ⟨m, hm, -⟩ := h c (List.mem_cons_self ..)
      omega
  | succ n ih =>
    rw [examineFlat]
    refine Stays.bind (Stays.keeps_mapM fun e he τ hg => ?_) fun _ _ _ hparts => .pure hparts
    obtain ⟨m, hm, hs⟩ := (h e he).grow hg
    have hle := hs.nesting
    refine (replacements_stays hs.uses).bind fun es? υ hg' hes => ?_
    split
    · exact .pure (List.forall_mem_singleton.2 (hs.uses.grow hg'))
    · obtain ⟨l, hl, hes⟩ := hes _ rfl
      refine (flatten_stays hes).bind fun fs φ _ hfs => ih fun f hf => ⟨l, by omega, hfs f hf⟩

end Supported

theorem lighter_of_keeps {k : Nat} (h : B.Keeps cs σ) :
    ∀ c ∈ cs, B.Lighter k (greatest (cs.map (Expr.nesting k)) + 1) σ c := by
  intro c hc
  have hle : c.nesting k ≤ _ := le_greatest_map hc
  exact ⟨c.nesting k, Nat.lt_succ_of_le hle, (h c hc).sized le_rfl⟩

theorem decomposeTree_stays (h : B.Keeps cs σ) : (decomposeTree caps cs).Stays B σ B.Keeps :=
  Supported.examine_stays (lighter_of_keeps h)

theorem decomposeFlat_stays (h : B.Keeps cs σ) : (decomposeFlat caps cs).Stays B σ B.Keeps :=
  Supported.examineFlat_stays (lighter_of_keeps h)

end ConstraintModel
