import ConstraintModel.Expr.Bounds
import ConstraintModel.Expr.Variables
import ConstraintModel.Proofs.Interval
import ConstraintModel.Proofs.Truth
import Mathlib.Data.List.Perm.Subperm

namespace ConstraintModel

def Function.range : Function Bounds → Bounds
  | abs b => b.magnitude
  | minimum bs => .minimum bs
  | maximum bs => .maximum bs
  | count bs _ => ⟨0, bs.length⟩
  | distinct bs => ⟨min bs.length 1, bs.length⟩
  | element bs _ => .hull bs

def Expr.range : Expr → Bounds
  | bool b => .point b.toInt
  | int n => .point n
  | var x => x.bounds
  | negVar x => x.bounds.opposite
  | and _ | or _ | implies _ _ | not _ | cmp _ _ _ | constraint _ | call _ => .boolean
  | sum as => (as.map range).sum
  | wsum ts => (ts.map fun t => t.1 • t.2.range).sum
  | sub a b => a.range - b.range
  | mul a b => a.range * b.range
  | neg a => -a.range
  | function g => (g.attach.map fun ⟨a, _⟩ => a.range).range
termination_by e => sizeOf e
decreasing_by
  all_goals simp_wf
  all_goals first
    | omega
    | (have hlt := sizeOf_lt_of_mem_terms ‹_ ∈ ts›; omega)
    | (have hlt := List.sizeOf_lt_of_mem ‹_ ∈ as›; omega)
    | (have hlt := Function.sizeOf_lt_of_mem_args ‹_ ∈ g.args›; omega)

theorem Expr.range_function (g : Function Expr) : (function g).range = (g.map range).range := by
  rw [range, g.map_attach]

theorem Checked.mapM_eq_ok {α β : Type} {as : List α} {f : α → Checked β} {bs : List β} :
    as.mapM f = .ok bs ↔ List.Forall₂ (fun a b => f a = .ok b) as bs := by
  induction as generalizing bs with
  | nil => cases bs <;> simp [pure, Except.pure]
  | cons a as ih =>
    rw [List.mapM_cons, bind_eq_ok]
    constructor
    · rintro ⟨b, hb, h⟩
      obtain ⟨cs, hcs, h⟩ := bind_eq_ok.1 h
      cases h
      exact .cons hb (ih.1 hcs)
    · rintro (_ | ⟨hb, hbs⟩)
      exact ⟨_, hb, bind_eq_ok.2 ⟨_, ih.2 hbs, rfl⟩⟩

theorem Checked.exists_mapM {α β : Type} {as : List α} {f : α → Checked β} (h : ∀ a ∈ as, ∃ b, f a = .ok b) :
    ∃ bs, as.mapM f = .ok bs := by
  induction as with
  | nil => exact ⟨[], rfl⟩
  | cons a as ih =>
    obtain ⟨⟨b, hb⟩, has⟩ := List.forall_mem_cons.1 h
    obtain ⟨bs, hbs⟩ := ih has
    exact ⟨b :: bs, mapM_eq_ok.2 (.cons hb (mapM_eq_ok.1 hbs))⟩

theorem Checked.mapM_eq_map {α β : Type} {as : List α} {f : α → Checked β} {g : α → β}
    (h : ∀ a ∈ as, ∀ b, f a = .ok b → b = g a) {bs : List β} (hbs : as.mapM f = .ok bs) :
    bs = as.map g := by
  replace hbs := mapM_eq_ok.1 hbs
  induction hbs with
  | nil => rfl
  | cons hb _ ih =>
    rw [h _ (List.mem_cons_self ..) _ hb, ih fun a ha => h a (List.mem_cons_of_mem _ ha), List.map_cons]

theorem Function.range_of_bounds {α : Type} {g : Function α} {f : α → Checked Bounds}
    {r : α → Bounds} (h : ∀ a ∈ g.args, ∀ b, f a = .ok b → b = r a) {b : Bounds}
    (hb : (g.map f).bounds = .ok b) : b = (g.map r).range := by
  cases g with
  | abs a =>
    obtain ⟨c, hc, hb⟩ := Checked.bind_eq_ok.1 hb
    rw [Bounds.of_abs hb, h a (List.mem_singleton_self a) c hc]
    rfl
  | minimum as | maximum as =>
    obtain ⟨bs, hbs, hb⟩ := Checked.bind_eq_ok.1 hb
    cases hb
    rw [List.mapM_map] at hbs
    rw [Checked.mapM_eq_map h hbs]
    rfl
  | count as v =>
    cases hb
    simp [map, range]
  | distinct as =>
    cases hb
    simp [map, range]
  | element as i =>
    obtain ⟨bs, hbs, hb⟩ := Checked.bind_eq_ok.1 hb
    cases hb
    rw [List.mapM_map] at hbs
    rw [Checked.mapM_eq_map (fun a ha => h a (List.mem_append_left _ ha)) hbs]
    rfl

namespace Expr

/-- Where the checked bounds do not overflow they are the exact ones. -/
theorem range_of_bounds (e : Expr) : ∀ b, e.bounds = .ok b → b = e.range := by
  induction e using induction_args with
  | h e ih =>
    intro b hb
    cases e with
    | bool _ | int _ | var _ | and _ | or _ | implies _ _ | not _ | cmp _ _ _ | constraint _
    | call _ => rw [bounds] at hb; cases hb; rw [range]
    | negVar x =>
      rw [bounds] at hb
      rw [range, Bounds.of_complement hb]
    | sum as =>
      rw [bounds] at hb
      obtain ⟨bs, hbs, hb⟩ := Checked.bind_eq_ok.1 hb
      rw [range, Bounds.of_sum hb, Checked.mapM_eq_map ih hbs]
      rfl
    | wsum ts =>
      rw [bounds] at hb
      obtain ⟨bs, hbs, hb⟩ := Checked.bind_eq_ok.1 hb
      rw [range, Bounds.of_sum hb, Checked.mapM_eq_map (fun t ht c hc => ?_) hbs]
      obtain ⟨d, hd, hc⟩ := Checked.bind_eq_ok.1 hc
      rw [Bounds.of_scale hc, ih t.2 (List.mem_map_of_mem ht) d hd]
    | sub a c =>
      rw [bounds] at hb
      obtain ⟨p, hp, hb⟩ := Checked.bind_eq_ok.1 hb
      obtain ⟨q, hq, hb⟩ := Checked.bind_eq_ok.1 hb
      rw [range, Bounds.of_sub hb, ih a (by simp [args]) p hp, ih c (by simp [args]) q hq]
    | mul a c =>
      rw [bounds] at hb
      obtain ⟨p, hp, hb⟩ := Checked.bind_eq_ok.1 hb
      obtain ⟨q, hq, hb⟩ := Checked.bind_eq_ok.1 hb
      rw [range, Bounds.of_mul hb, ih a (by simp [args]) p hp, ih c (by simp [args]) q hq]
    | neg a =>
      rw [bounds] at hb
      obtain ⟨p, hp, hb⟩ := Checked.bind_eq_ok.1 hb
      rw [range, Bounds.of_neg hb, ih a (by simp [args]) p hp]
    | function g =>
      rw [bounds, g.map_attach] at hb
      rw [range_function, Function.range_of_bounds ih hb]

end Expr

theorem Exact.mapM_eq_some {α β : Type} {f : α → Option β} {as : List α} {bs : List β} :
    as.mapM f = some bs ↔ List.Forall₂ (fun a b => f a = some b) as bs := by
  induction as generalizing bs with
  | nil => simp [eq_comm]
  | cons a as ih =>
    rw [List.mapM_cons, List.forall₂_cons_left_iff]
    cases hf : f a with
    | none => simp
    | some b =>
      cases hm : as.mapM f with
      | none =>
        simp only [Option.bind_eq_bind, Option.bind_some, Option.bind_none, reduceCtorEq,
          false_iff]
        rintro ⟨c, cs, -, hcs, -⟩
        rw [← ih, hm] at hcs
        cases hcs
      | some cs =>
        rw [hm] at ih
        simp [← ih, eq_comm]

theorem Exact.values_eq_some {α β : Type} {f : α → Option β} {as : List α} {bs : List β} :
    (as.map f).mapM id = some bs ↔ List.Forall₂ (fun a b => f a = some b) as bs := by
  rw [List.mapM_map]
  exact mapM_eq_some

namespace Distinct

theorem nodup_eraseDups (ns : List Int) : ns.eraseDups.Nodup := by
  induction h : ns.length using Nat.strong_induction_on generalizing ns with
  | h k ih =>
    cases ns with
    | nil => exact List.nodup_nil
    | cons n ns =>
      rw [List.eraseDups_cons, List.nodup_cons]
      constructor
      · rw [List.mem_eraseDups]
        simp
      · have := List.length_filter_le (fun m => !m == n) ns
        rw [List.length_cons] at h
        exact ih _ (by omega) _ rfl

theorem value_le_length (ns : List Int) : value ns ≤ ns.length := by
  have := (List.subperm_of_subset (nodup_eraseDups ns) fun n hn => List.mem_eraseDups.1 hn).length_le
  exact Int.ofNat_le.2 this

theorem one_le_value {ns : List Int} (h : ns ≠ []) : 1 ≤ value ns := by
  cases ns with
  | nil => exact absurd rfl h
  | cons n ns =>
    rw [value, List.eraseDups_cons, List.length_cons]
    omega

end Distinct

theorem values_mem_ranges {α : Type} {f : α → Option Int} {r : α → Bounds} {as : List α}
    (h : ∀ a ∈ as, ∀ n, f a = some n → n ∈ r a) {ns : List Int}
    (hns : (as.map f).mapM id = some ns) : List.Forall₂ (· ∈ ·) ns (as.map r) := by
  rw [List.forall₂_map_right_iff]
  replace hns := Exact.values_eq_some.1 hns
  induction hns with
  | nil => exact .nil
  | cons ha _ ih =>
    exact .cons (h _ (List.mem_cons_self ..) _ ha) (ih fun a ha => h a (List.mem_cons_of_mem _ ha))

theorem Function.mem_range {α : Type} {g : Function α} {f : α → Option Int} {r : α → Bounds}
    (h : ∀ a ∈ g.args, ∀ n, f a = some n → n ∈ r a) {n : Int} (hn : (g.map f).exact = some n) :
    n ∈ (g.map r).range := by
  cases g with
  | abs a =>
    obtain ⟨m, hm, hn⟩ := Option.bind_eq_some_iff.1 hn
    cases hn
    exact Bounds.magnitude_mem (h a (List.mem_singleton_self a) m hm)
  | minimum as =>
    obtain ⟨ns, hns, hn⟩ := Option.bind_eq_some_iff.1 hn
    exact Bounds.min?_mem (values_mem_ranges h hns) hn
  | maximum as =>
    obtain ⟨ns, hns, hn⟩ := Option.bind_eq_some_iff.1 hn
    exact Bounds.max?_mem (values_mem_ranges h hns) hn
  | count as v =>
    obtain ⟨m, -, hn⟩ := Option.bind_eq_some_iff.1 hn
    obtain ⟨ns, hns, hn⟩ := Option.bind_eq_some_iff.1 hn
    cases hn
    have hle := List.count_le_length (a := m) (l := ns)
    rw [(Exact.values_eq_some.1 hns).length_eq.symm] at hle
    simp only [map, range, Count.value, Bounds.mem_iff, List.length_map]
    omega
  | distinct as =>
    obtain ⟨ns, hns, hn⟩ := Option.bind_eq_some_iff.1 hn
    cases hn
    have hlen := (Exact.values_eq_some.1 hns).length_eq
    have hle := Distinct.value_le_length ns
    simp only [map, range, Bounds.mem_iff, List.length_map]
    cases as with
    | nil =>
      rw [List.length_nil, eq_comm, List.length_eq_zero_iff] at hlen
      rw [hlen]
      exact ⟨le_refl _, le_refl _⟩
    | cons a as =>
      have hne : ns ≠ [] := by
        rintro rfl
        simp at hlen
      have := Distinct.one_le_value hne
      omega
  | element as i =>
    obtain ⟨m, hm, hn⟩ := Option.bind_eq_some_iff.1 hn
    rw [entryAt?_map] at hn
    cases ha : entryAt? as m with
    | none => rw [ha] at hn; cases hn
    | some a =>
      rw [ha] at hn
      have hmem := mem_of_entryAt? ha
      exact Bounds.mem_of_subset (Bounds.subset_hull (List.mem_map_of_mem hmem))
        (h a (List.mem_append_left _ hmem) n hn)

theorem Bounds.toInt_mem_boolean (b : Bool) : (b.toInt : Int) ∈ Bounds.boolean := by
  cases b <;> decide

theorem Exact.ofTruth_mem_boolean {b : Option Bool} {n : Int} (h : ofTruth b = some n) :
    n ∈ Bounds.boolean := by
  obtain ⟨b, -, rfl⟩ := Option.map_eq_some_iff.1 h
  exact Bounds.toInt_mem_boolean b

namespace Expr

def InBounds (s : Assignment) (e : Expr) : Prop :=
  ∀ x ∈ e.occurrences, ∀ n, s.value? x = some n → n ∈ x.bounds

theorem occurrences_var (x : Variable) : (var x).occurrences = [x] := by rw [occurrences]

theorem occurrences_negVar (x : Variable) : (negVar x).occurrences = [x] := by rw [occurrences]

theorem occurrences_eq {e : Expr} (h : ∀ x, e ≠ var x ∧ e ≠ negVar x) :
    e.occurrences = e.args.flatMap occurrences := by
  rw [occurrences.eq_def]
  cases e with
  | var x => exact absurd rfl (h x).1
  | negVar x => exact absurd rfl (h x).2
  | _ => simp [List.flatMap_subtype, List.unattach_attach]

theorem mem_occurrences_of_arg {e a : Expr} (ha : a ∈ e.args) {x : Variable}
    (hx : x ∈ a.occurrences) : x ∈ e.occurrences := by
  rw [occurrences_eq fun y => ⟨by rintro rfl; simp [args] at ha, by rintro rfl; simp [args] at ha⟩]
  exact List.mem_flatMap.2 ⟨a, ha, hx⟩

theorem InBounds.arg {s : Assignment} {e a : Expr} (h : e.InBounds s) (ha : a ∈ e.args) :
    a.InBounds s := fun x hx => h x (mem_occurrences_of_arg ha hx)

/-- The exact value of an expression lies in its range. -/
theorem exact_mem_range {s : Assignment} (e : Expr) (h : e.InBounds s) :
    ∀ n, e.exact s = some n → n ∈ e.range := by
  induction e using induction_args with
  | h e ih =>
    replace ih := fun a ha => ih a ha (h.arg ha)
    intro n hn
    cases e with
    | bool b | int b =>
      simp only [exact_bool, exact_int, Option.some.injEq] at hn
      subst hn
      rw [range]
      exact ⟨le_refl _, le_refl _⟩
    | var x =>
      rw [exact_var] at hn
      rw [range]
      exact h x (by simp [occurrences_var]) n hn
    | negVar x =>
      rw [exact_negVar] at hn
      obtain ⟨m, hm, rfl⟩ := Option.map_eq_some_iff.1 hn
      rw [range]
      exact Bounds.opposite_mem (h x (by simp [occurrences_negVar]) m hm)
    | and _ =>
      rw [exact_and] at hn
      rw [range]
      exact Exact.ofTruth_mem_boolean hn
    | or _ =>
      rw [exact_or] at hn
      rw [range]
      exact Exact.ofTruth_mem_boolean hn
    | implies _ _ =>
      rw [exact_implies] at hn
      rw [range]
      exact Exact.ofTruth_mem_boolean hn
    | not _ =>
      rw [exact_not] at hn
      rw [range]
      exact Exact.ofTruth_mem_boolean hn
    | cmp _ _ _ =>
      rw [exact_cmp] at hn
      rw [range]
      exact Exact.ofTruth_mem_boolean hn
    | constraint _ =>
      rw [exact_constraint] at hn
      rw [range]
      exact Exact.ofTruth_mem_boolean hn
    | call _ =>
      rw [exact_call] at hn
      cases hn
    | sum as =>
      rw [exact_sum] at hn
      obtain ⟨ns, hns, rfl⟩ := Option.map_eq_some_iff.1 hn
      rw [range]
      exact Bounds.sum_mem (values_mem_ranges ih hns)
    | wsum ts =>
      rw [exact_wsum, Exact.weightedSum, List.mapM_map] at hn
      obtain ⟨ns, hns, rfl⟩ := Option.map_eq_some_iff.1 hn
      rw [range]
      refine Bounds.sum_mem (values_mem_ranges (fun t ht m hm => ?_) (List.mapM_map.trans hns))
      obtain ⟨k, hk, rfl⟩ := Option.map_eq_some_iff.1 hm
      exact Bounds.smul_mem t.1 (ih t.2 (List.mem_map_of_mem ht) k hk)
    | sub a b =>
      rw [exact_sub] at hn
      obtain ⟨p, hp, hn⟩ := Option.bind_eq_some_iff.1 hn
      obtain ⟨q, hq, rfl⟩ := Option.map_eq_some_iff.1 hn
      rw [range]
      exact Bounds.sub_mem (ih a (by simp [args]) p hp) (ih b (by simp [args]) q hq)
    | mul a b =>
      rw [exact_mul] at hn
      obtain ⟨p, hp, hn⟩ := Option.bind_eq_some_iff.1 hn
      obtain ⟨q, hq, rfl⟩ := Option.map_eq_some_iff.1 hn
      rw [range]
      exact Bounds.mul_mem (ih a (by simp [args]) p hp) (ih b (by simp [args]) q hq)
    | neg a =>
      rw [exact_neg] at hn
      obtain ⟨p, hp, rfl⟩ := Option.map_eq_some_iff.1 hn
      rw [range]
      exact Bounds.neg_mem (ih a (by simp [args]) p hp)
    | function g =>
      rw [exact_function] at hn
      rw [range_function]
      exact Function.mem_range ih hn

end Expr

end ConstraintModel
