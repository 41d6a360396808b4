import ConstraintModel.Proofs.MutualInverses
import Mathlib.Data.List.Sort

namespace ConstraintModel

namespace IntervalSet

variable {is js rs : List (Int × Int)} {current : Int × Int} {ns ks : List Int} {n : Int}

structure Separated (is : List (Int × Int)) : Prop where
  nonempty : ∀ i ∈ is, i.1 ≤ i.2
  apart : is.Pairwise fun i j => i.2 + 1 < j.1

theorem contains_iff : (IntervalSet.mk is).contains n ↔ ∃ i ∈ is, i.1 ≤ n ∧ n ≤ i.2 := by
  simp [contains]

theorem mem_dropRepeats (ns : List Int) : n ∈ dropRepeats ns ↔ n ∈ ns := by
  induction ns using dropRepeats.induct with
  | case1 a rest ih =>
    rw [dropRepeats, if_pos rfl, ih]
    simp
  | case2 a b rest hne ih =>
    rw [dropRepeats, if_neg hne, List.mem_cons, ih]
    simp
  | case3 values h => rw [dropRepeats]; exact h

theorem increasing_dropRepeats (ns : List Int) (h : ns.Pairwise (· ≤ ·)) : (dropRepeats ns).Pairwise (· < ·) := by
  induction ns using dropRepeats.induct with
  | case1 a rest ih =>
    rw [dropRepeats, if_pos rfl]
    exact ih (List.pairwise_cons.1 h).2
  | case2 a b rest hne ih =>
    obtain ⟨ha, hrest⟩ := List.pairwise_cons.1 h
    rw [dropRepeats, if_neg hne]
    refine List.pairwise_cons.2 ⟨fun n hn => ?_, ih hrest⟩
    have hab := ha b (List.mem_cons_self ..)
    rcases List.mem_cons.1 ((mem_dropRepeats _).1 hn) with rfl | hn
    · omega
    · have := (List.pairwise_cons.1 hrest).1 n hn
      omega
  | case3 values hshort =>
    rw [dropRepeats]
    · match values, hshort with
      | [], _ => exact .nil
      | [a], _ => exact List.pairwise_singleton _ _
      | a :: b :: rest, hshort => exact absurd rfl (hshort a b rest)
    · exact hshort

structure Continues (current : Int × Int) (ns : List Int) (rs : List (Int × Int)) : Prop extends Separated rs where
  starts : ∀ r ∈ rs, current.1 ≤ r.1
  covers : ∀ n, (∃ r ∈ rs, r.1 ≤ n ∧ n ≤ r.2) ↔ (current.1 ≤ n ∧ n ≤ current.2) ∨ n ∈ ns

/-- An integer that does not follow the current interval starts another one. -/
theorem Continues.cons (h : Continues (n, n) ns rs) (hle : current.1 ≤ current.2) (hn : current.2 + 1 < n) :
    Continues current (n :: ns) (current :: rs) := by
  refine ⟨⟨List.forall_mem_cons.2 ⟨hle, h.nonempty⟩, List.pairwise_cons.2 ⟨fun r hr => ?_, h.apart⟩⟩, ?_, fun k => ?_⟩
  · exact hn.trans_le (h.starts r hr)
  · refine List.forall_mem_cons.2 ⟨le_refl _, fun r hr => ?_⟩
    have := h.starts r hr
    dsimp only at this
    omega
  · have hcovers := h.covers k
    rw [List.exists_mem_cons_iff, hcovers, List.mem_cons]
    have hpoint : n ≤ k ∧ k ≤ n ↔ k = n := by omega
    rw [hpoint]

/-- Nothing overflows, because an integer above the end of an interval leaves
room for one more. -/
theorem runs_continues (current : Int × Int) (hle : current.1 ≤ current.2)
    (hfits : ∀ n ∈ current.2 :: ns, Checked.Fits n) (h : (current.2 :: ns).Pairwise (· < ·)) :
    ∃ rs, runs current ns = .ok rs ∧ Continues current ns rs := by
  induction ns generalizing current with
  | nil =>
    refine ⟨[current], rfl, ⟨by simpa using hle, by simp⟩, by simp, by simp⟩
  | cons n ns ih =>
    obtain ⟨hend, hns⟩ := List.pairwise_cons.1 h
    have hlt := hend n (List.mem_cons_self ..)
    rw [List.forall_mem_cons] at hfits
    have hroom : Checked.Fits (current.2 + 1) := by
      have hn := hfits.2 n (List.mem_cons_self ..)
      have hcurrent := hfits.1
      unfold Checked.Fits at hn hcurrent ⊢
      omega
    have hadd : Checked.add current.2 1 = .ok (current.2 + 1) := Checked.add_eq_ok.2 ⟨hroom, rfl⟩
    by_cases hnext : current.2 + 1 = n
    · obtain ⟨rs, hrs, hcontinues⟩ := ih (current.1, n) (by dsimp only; omega) hfits.2 hns
      refine ⟨rs, ?_, hcontinues.toSeparated, hcontinues.starts, fun k => ?_⟩
      · rw [runs]
        exact Checked.bind_eq_ok.2 ⟨_, hadd, by rw [if_pos hnext]; exact hrs⟩
      · rw [hcontinues.covers, List.mem_cons, ← or_assoc]
        have hextended : current.1 ≤ k ∧ k ≤ n ↔ (current.1 ≤ k ∧ k ≤ current.2) ∨ k = n := by omega
        exact or_congr_left hextended
    · obtain ⟨rs, hrs, hcontinues⟩ := ih (n, n) (le_refl n) hfits.2 hns
      refine ⟨current :: rs, ?_, hcontinues.cons hle (by omega)⟩
      rw [runs]
      refine Checked.bind_eq_ok.2 ⟨_, hadd, ?_⟩
      rw [if_neg hnext]
      exact Checked.bind_eq_ok.2 ⟨rs, hrs, rfl⟩

theorem runsOf_separated (hfits : ∀ k ∈ ks, Checked.Fits k) : ∃ rs, runsOf ks = .ok rs ∧ Separated rs ∧
    ∀ n, (∃ r ∈ rs, r.1 ≤ n ∧ n ≤ r.2) ↔ n ∈ ks := by
  have hmem (n : Int) : n ∈ dropRepeats (ks.mergeSort (· ≤ ·)) ↔ n ∈ ks := by
    rw [mem_dropRepeats, List.mem_mergeSort]
  have hincreasing : (dropRepeats (ks.mergeSort (· ≤ ·))).Pairwise (· < ·) :=
    increasing_dropRepeats _ (List.pairwise_mergeSort' (· ≤ ·) ks)
  unfold runsOf
  generalize dropRepeats (ks.mergeSort (· ≤ ·)) = sorted at hmem hincreasing
  cases sorted with
  | nil => exact ⟨[], rfl, ⟨by simp, .nil⟩, fun n => by simp [← hmem n]⟩
  | cons first rest =>
    obtain ⟨rs, hrs, hcontinues⟩ := runs_continues (first, first) (le_refl first)
      (fun n hn => hfits n ((hmem n).1 hn)) hincreasing
    refine ⟨rs, hrs, hcontinues.toSeparated, fun n => ?_⟩
    have hpoint : first ≤ n ∧ n ≤ first ↔ n = first := by omega
    rw [hcontinues.covers, ← hmem n, List.mem_cons, hpoint]

/-- The merging of neighbours where distances are not limited to 64 bits. -/
def coalesce (current : Int × Int) : List (Int × Int) → List (Int × Int)
  | [] => [current]
  | next :: rest =>
    if next.1 - current.2 ≤ 1 then coalesce (current.1, next.2) rest else current :: coalesce next rest

def joined (is : List (Int × Int)) : List (Int × Int) :=
  match (is.filter fun (lo, hi) => lo ≤ hi).mergeSort (fun a b => a.1 ≤ b.1) with
  | [] => []
  | first :: rest => coalesce first rest

def DistancesFit : List (Int × Int) → Prop := List.IsChain fun i j => Checked.Fits (j.1 - i.2)

theorem touches_eq_ok {i j : Int × Int} {b : Bool} :
    touches i j = .ok b ↔ Checked.Fits (j.1 - i.2) ∧ decide (j.1 - i.2 ≤ 1) = b := by
  rw [touches, Checked.bind_eq_ok]
  constructor
  · rintro ⟨n, hn, hb⟩
    obtain ⟨hfits, rfl⟩ := Checked.sub_eq_ok.1 hn
    exact ⟨hfits, Except.ok.inj hb⟩
  · rintro ⟨hfits, rfl⟩
    exact ⟨_, Checked.sub_eq_ok.2 ⟨hfits, rfl⟩, rfl⟩

theorem merge_eq_coalesce (h : merge current is = .ok js) : js = coalesce current is := by
  induction is generalizing current js with
  | nil => exact (Except.ok.inj h).symm
  | cons next rest ih =>
    obtain ⟨b, hb, h⟩ := Checked.bind_eq_ok.1 h
    obtain ⟨-, rfl⟩ := touches_eq_ok.1 hb
    rw [coalesce]
    by_cases htouch : next.1 - current.2 ≤ 1
    · rw [if_pos (decide_eq_true htouch)] at h
      rw [if_pos htouch]
      exact ih h
    · rw [if_neg (by simpa using htouch)] at h
      obtain ⟨ks, hks, h⟩ := Checked.bind_eq_ok.1 h
      rw [if_neg htouch, ← ih hks]
      exact (Except.ok.inj h).symm

theorem ofIntervals_eq_joined {s : IntervalSet} (h : ofIntervals is = .ok s) : s = ⟨joined is⟩ := by
  unfold ofIntervals at h
  unfold joined
  generalize List.mergeSort _ _ = sorted at h ⊢
  cases sorted with
  | nil => exact (Except.ok.inj h).symm
  | cons first rest =>
    obtain ⟨js, hjs, h⟩ := Checked.bind_eq_ok.1 h
    rw [merge_eq_coalesce hjs] at h
    exact (Except.ok.inj h).symm

theorem coalesce_of_apart (h : (current :: is).Pairwise fun i j => i.2 + 1 < j.1) :
    coalesce current is = current :: is := by
  induction is generalizing current with
  | nil => rfl
  | cons next rest ih =>
    obtain ⟨hnext, hrest⟩ := List.pairwise_cons.1 h
    have := hnext next (List.mem_cons_self ..)
    rw [coalesce, if_neg (by omega), ih hrest]

theorem merge_cons {next : Int × Int} (h : touches current next = .ok false) :
    merge current (next :: is) = (current :: ·) <$> merge next is := by
  rw [merge, h]
  cases merge next is <;> rfl

theorem merge_of_apart (h : (current :: is).Pairwise fun i j => i.2 + 1 < j.1) :
    (merge current is = .ok (current :: is) ∧ DistancesFit (current :: is)) ∨
      (merge current is = .error .overflow ∧ ¬DistancesFit (current :: is)) := by
  induction is generalizing current with
  | nil => exact .inl ⟨rfl, .singleton _⟩
  | cons next rest ih =>
    obtain ⟨hnext, hrest⟩ := List.pairwise_cons.1 h
    have hgap := hnext next (List.mem_cons_self ..)
    by_cases hfits : Checked.Fits (next.1 - current.2)
    · have htouches : touches current next = .ok false :=
        touches_eq_ok.2 ⟨hfits, decide_eq_false (by omega)⟩
      rw [merge_cons htouches]
      refine (ih hrest).imp (fun ⟨hmerge, hchain⟩ => ⟨?_, .cons_cons hfits hchain⟩)
        fun ⟨hmerge, hchain⟩ => ⟨?_, fun h => hchain (List.isChain_cons_cons.1 h).2⟩ <;> rw [hmerge] <;> rfl
    · refine .inr ⟨?_, fun h => hfits (List.isChain_cons_cons.1 h).1⟩
      rw [merge, touches, Checked.sub, Checked.ofInt, if_neg hfits]
      rfl

section Separated

variable (h : Separated is)

include h

/-- Dropping empty intervals and sorting leave separated intervals as they are. -/
theorem Separated.sorted :
    (is.filter fun (lo, hi) => lo ≤ hi).mergeSort (fun a b => decide (a.1 ≤ b.1)) = is := by
  rw [List.filter_eq_self.2 fun i hi => decide_eq_true (h.nonempty i hi)]
  refine List.mergeSort_of_pairwise (h.apart.imp_of_mem fun {i j} hi _ hij => decide_eq_true ?_)
  have := h.nonempty i hi
  omega

/-- There is nothing to merge, so nothing is lost or added. -/
theorem Separated.joined_eq : joined is = is := by
  rw [joined, h.sorted]
  cases is with
  | nil => rfl
  | cons first rest => exact coalesce_of_apart h.apart

theorem Separated.ofIntervals_eq :
    (ofIntervals is = .ok ⟨is⟩ ∧ DistancesFit is) ∨ (ofIntervals is = .error .overflow ∧ ¬DistancesFit is) := by
  rw [ofIntervals, h.sorted]
  cases is with
  | nil => exact .inl ⟨rfl, .nil⟩
  | cons first rest =>
    refine (merge_of_apart h.apart).imp (And.imp_left fun hmerge => ?_) (And.imp_left fun hmerge => ?_)
    · exact Checked.bind_eq_ok.2 ⟨_, hmerge, rfl⟩
    · dsimp only
      rw [hmerge]
      rfl

end Separated

end IntervalSet

namespace Expr

variable {s : Assignment} {e : Expr} {values : List Expr} {rs : List (Int × Int)} {ns ks : List Int} {n : Int}

def Represents (e : Expr) (values : List Expr) (c : Expr) : Prop :=
  ∀ s n ns, e.Evaluates s n → List.Forall₂ (Evaluates s) values ns →
    c.value.isTrue.outcome s = .ok (some (decide (n ∈ ns)))

theorem evaluates_of_constant (h : e.constant? = some n) : e.Evaluates s n := by
  cases e with
  | bool b =>
    cases h
    rw [Evaluates, value]
    rfl
  | int k =>
    cases h
    rw [Evaluates, value]
    rfl
  | _ => cases h

theorem evaluates_constants (h : values.mapM constant? = some ks) : List.Forall₂ (Evaluates s) values ks :=
  (Exact.mapM_eq_some.1 h).imp fun _ _ => evaluates_of_constant

theorem values_of_constants (h : values.mapM constant? = some ks) (hns : List.Forall₂ (Evaluates s) values ns) :
    ns = ks := by
  have hvalues := values_of_evaluates hns
  rw [values_of_evaluates (evaluates_constants h)] at hvalues
  exact (Option.some_inj.1 hvalues).symm

open Eval in
theorem outcome_constraint {c : Constraint Expr} (hargs : ∀ a ∈ c.args, ∃ n, a.Evaluates s n)
    (hfits : (c.map (exact s)).Fits) : (constraint c).value.isTrue.outcome s = .ok (c.map (exact s)).exact := by
  have hgives : ∀ a ∈ c.args, a.value.Gives False s (a.exact s) := by
    intro a ha
    obtain ⟨n, hn⟩ := hargs a ha
    rw [hn.exact_eq]
    exact .inl hn
  have h := (Constraint.gives_holds hgives fun _ => hfits).ofBool.isTrue
  rw [Exact.truth_ofTruth] at h
  rw [value, c.map_attach]
  exact gives_false_iff.1 h

theorem represents_memberOfList (e : Expr) (values : List Expr) :
    e.Represents values (constraint (.memberOfList e values)) := by
  intro s n ns hn hns
  rw [outcome_constraint (c := .memberOfList e values) (fun a ha => ?_) trivial]
  · simp only [Constraint.map, Constraint.exact, hn.exact_eq, values_of_evaluates hns]
    simp [pure]
  · rcases List.mem_cons.1 ha with rfl | ha
    · exact ⟨n, hn⟩
    · exact (forall₂_mem_left hns ha).imp fun _ => And.right

theorem represents_memberOfSet (h : values.mapM constant? = some ks)
    (hcovers : ∀ n, (∃ r ∈ rs, r.1 ≤ n ∧ n ≤ r.2) ↔ n ∈ ks) : e.Represents values (memberOfSet e ⟨rs⟩) := by
  intro s n ns hn hns
  rw [values_of_constants h hns]
  have harg : ∀ a ∈ (Constraint.memberOfSet e ⟨rs⟩).args, ∃ n, a.Evaluates s n := by
    rintro a (_ | ⟨_, ⟨⟩⟩)
    exact ⟨n, hn⟩
  rw [memberOfSet, outcome_constraint harg trivial]
  simp only [Constraint.map, Constraint.exact, hn.exact_eq, ← hcovers n, ← IntervalSet.contains_iff]
  simp [pure]

theorem fits_of_constants (h : values.mapM constant? = some ks) (hfits : ∀ k, .int k ∈ values → Checked.Fits k) :
    ∀ k ∈ ks, Checked.Fits k := by
  intro k hk
  obtain ⟨v, hv, hvk⟩ := forall₂_mem_right (Exact.mapM_eq_some.1 h) hk
  cases v with
  | bool b =>
    cases hvk
    cases b <;> decide
  | int n =>
    cases hvk
    exact hfits k hv
  | _ => cases hvk

theorem memberOf_constants (h : values.mapM constant? = some ks) (hrs : IntervalSet.runsOf ks = .ok rs) :
    memberOf e values = (do return memberOfSet e (← IntervalSet.ofIntervals rs)) := by
  rw [memberOf, h]
  dsimp only
  rw [IntervalSet.ofValues, hrs]
  rfl

end Expr

open ConstraintModel.Expr IntervalSet in
/-- A constraint on membership in a list says just that. A list of constants
becomes a set, whose intervals are separated before they are merged, so the
merging is free to do nothing. It can only overflow, at a distance that needs
more than 64 bits. -/
theorem memberOf_represents (e : Expr) (values : List Expr) (hfits : ∀ k, .int k ∈ values → Checked.Fits k) :
    (∀ c, memberOf e values = .ok c → e.Represents values c) ∧
    (values.mapM constant? = none → memberOf e values = .ok (.constraint (.memberOfList e values))) ∧
    ∀ ks, values.mapM constant? = some ks → ∃ rs, runsOf ks = .ok rs ∧ Separated rs ∧
      (∀ n, (∃ r ∈ rs, r.1 ≤ n ∧ n ≤ r.2) ↔ n ∈ ks) ∧ joined rs = rs ∧
      e.Represents values (memberOfSet e ⟨joined rs⟩) ∧
      ((memberOf e values = .ok (memberOfSet e ⟨rs⟩) ∧ DistancesFit rs) ∨
        (memberOf e values = .error .overflow ∧ ¬DistancesFit rs)) := by
  have hlist (h : values.mapM constant? = none) : memberOf e values = .ok (.constraint (.memberOfList e values)) := by
    rw [memberOf, h]
    rfl
  refine ⟨fun c hc => ?_, hlist, fun ks hks => ?_⟩
  · cases hks : values.mapM constant? with
    | none =>
      rw [hlist hks] at hc
      cases hc
      exact represents_memberOfList e values
    | some ks =>
      obtain ⟨rs, hrs, hseparated, hcovers⟩ := runsOf_separated (fits_of_constants hks hfits)
      rw [memberOf_constants hks hrs] at hc
      obtain ⟨set, hset, hc⟩ := Checked.bind_eq_ok.1 hc
      cases hc
      rw [ofIntervals_eq_joined hset, hseparated.joined_eq]
      exact represents_memberOfSet hks hcovers
  · obtain ⟨rs, hrs, hseparated, hcovers⟩ := runsOf_separated (fits_of_constants hks hfits)
    refine ⟨rs, hrs, hseparated, hcovers, hseparated.joined_eq, ?_, ?_⟩
    · rw [hseparated.joined_eq]
      exact represents_memberOfSet hks hcovers
    · rw [memberOf_constants hks hrs]
      refine hseparated.ofIntervals_eq.imp (And.imp_left fun h => ?_) (And.imp_left fun h => ?_) <;> rw [h] <;> rfl

/-- The listed constants are neither sorted nor distinct, and one of them is the
largest that fits. -/
theorem memberOf_mixedConstants :
    let x : Variable := ⟨0, ⟨0, 9⟩, .int⟩
    let s := Assignment.empty.assign x 2
    let values : List Expr := [.int 5, .bool true, .int 9223372036854775807, .int 3, .int 2, .int 1]
    let rs : List (Int × Int) := [(1, 3), (5, 5), (9223372036854775807, 9223372036854775807)]
    (∀ k, .int k ∈ values → Checked.Fits k) ∧ IntervalSet.Separated rs ∧
      Expr.memberOf (.var x) values = .ok (.memberOfSet (.var x) ⟨rs⟩) ∧
      (Expr.memberOfSet (.var x) ⟨rs⟩).value.isTrue.outcome s = .ok (some true) := by
  intro x s values rs
  have hfits : ∀ k, .int k ∈ values → Checked.Fits k := by
    simp only [values, List.mem_cons, List.not_mem_nil, Expr.int.injEq, reduceCtorEq, or_false, false_or]
    rintro k (rfl | rfl | rfl | rfl | rfl) <;> decide
  have hks : values.mapM Expr.constant? = some [5, 1, 9223372036854775807, 3, 2, 1] := rfl
  obtain ⟨hrepresents, -, hconstants⟩ := memberOf_represents (.var x) values hfits
  obtain ⟨rs', hrs, hseparated, -, -, -, hmerged⟩ := hconstants _ hks
  obtain rfl : rs = rs' := by
    have hrun : IntervalSet.runsOf [5, 1, 9223372036854775807, 3, 2, 1] = .ok rs := by cbv
    exact Except.ok.inj (hrun.symm.trans hrs)
  have hdistances : IntervalSet.DistancesFit rs :=
    .cons_cons (by decide) (.cons_cons (by decide) (.singleton _))
  obtain ⟨hset, -⟩ | ⟨-, hfar⟩ := hmerged
  · refine ⟨hfits, hseparated, hset, ?_⟩
    have hx : (Expr.var x).Evaluates s 2 := by
      rw [Expr.Evaluates, Expr.value]
      rfl
    exact hrepresents _ hset s 2 _ hx (Expr.evaluates_constants hks)
  · exact absurd hdistances hfar

/-- The two intervals are too far apart for their distance to be computed. -/
example : Expr.memberOf (.int 0) [.int (-9223372036854775808), .int 9223372036854775807] = .error .overflow := by cbv

end ConstraintModel
