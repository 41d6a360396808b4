import ConstraintModel.Proofs.Functions

namespace ConstraintModel

open ConstraintModel.Expr (num)

namespace Cumulative

variable {ss ds es rs : List Int} {c t : Int}

theorem load_eq_sum : load ss es rs t =
    ((ss.zip (es.zip rs)).map fun p => if p.1 ≤ t ∧ t < p.2.1 then p.2.2 else 0).sum := by
  unfold load
  induction ss.zip (es.zip rs) with
  | nil => rfl
  | cons p ps ih =>
    rw [List.map_cons, List.sum_cons, ← ih, List.filter_cons]
    split_ifs <;> simp_all

/-- Outside the span of the tasks none of them runs. -/
theorem load_eq_zero (h : (∀ s ∈ ss, t < s) ∨ ∀ e ∈ es, e ≤ t) : load ss es rs t = 0 := by
  have hnone : (ss.zip (es.zip rs)).filter (fun p => p.1 ≤ t && t < p.2.1) = [] := by
    rw [List.filter_eq_nil_iff]
    intro p hp
    obtain ⟨hs, hrest⟩ := List.of_mem_zip hp
    obtain ⟨he, -⟩ := List.of_mem_zip hrest
    simp only [Bool.and_eq_true, decide_eq_true_eq, not_and, not_lt]
    rcases h with h | h
    · have := h _ hs
      omega
    · exact fun _ => h _ he
  rw [load, hnone]
  rfl

structure IsSchedule (starts durations ends demands : List Int) (capacity : Int) : Prop where
  consistent : ∀ p ∈ starts.zip (durations.zip ends), p.1 + p.2.1 = p.2.2
  limited : ∀ t : Int, load starts ends demands t ≤ capacity

/-- It is enough to examine the times from the first start to the last end. -/
theorem load_le_iff {first last : Int} {times : List Int} (hfirst : ss.min? = some first) (hlast : es.max? = some last)
    (hspan : first ≤ last) (htimes : ∀ t, first ≤ t → t ≤ last → t ∈ times) :
    (∀ t ∈ times, load ss es rs t ≤ c) ↔ ∀ t, load ss es rs t ≤ c := by
  obtain ⟨-, hle⟩ := List.min?_eq_some_iff.1 hfirst
  obtain ⟨-, hge⟩ := List.max?_eq_some_iff.1 hlast
  constructor
  · intro h t
    by_cases ht : first ≤ t ∧ t ≤ last
    · exact h t (htimes t ht.1 ht.2)
    · -- no task runs, and none runs either when the last one has ended
      have hzero : load ss es rs last = 0 := load_eq_zero (.inr hge)
      have hlimit := h last (htimes last hspan (le_refl last))
      rw [load_eq_zero]
      · omega
      · by_cases hlt : t < first
        · exact .inl fun s hs => by have := hle s hs; omega
        · exact .inr fun e he => by have := hge e he; omega
  · exact fun h t _ => h t

section

variable (hlength : ss.length = ds.length) (hlength' : ss.length = es.length) (hd : ∀ d ∈ ds, 0 ≤ d)

include hlength hlength' hd

theorem exists_span (hne : ss ≠ []) (hends : ∀ p ∈ ss.zip (ds.zip es), p.1 + p.2.1 = p.2.2) :
    ∃ first last, ss.min? = some first ∧ es.max? = some last ∧ first ≤ last := by
  match ss, ds, es with
  | [], _, _ => exact absurd rfl hne
  | s :: ss, d :: ds, e :: es =>
    obtain ⟨first, hfirst⟩ :=
      Option.isSome_iff_exists.1 (List.isSome_min?_of_mem (List.mem_cons_self (a := s) (l := ss)))
    obtain ⟨last, hlast⟩ := Option.isSome_iff_exists.1 (List.isSome_max?_of_mem (List.mem_cons_self (a := e) (l := es)))
    refine ⟨first, last, hfirst, hlast, ?_⟩
    have hend : s + d = e := hends (s, d, e) (by simp)
    have hduration := hd d (List.mem_cons_self ..)
    have hle := (List.min?_eq_some_iff.1 hfirst).2 s (List.mem_cons_self ..)
    have hge := (List.max?_eq_some_iff.1 hlast).2 e (List.mem_cons_self ..)
    omega

/-- The evaluation recognises exactly the schedules. -/
theorem fits_iff_isSchedule (hne : ss ≠ []) : fits ss ds es rs c ↔ IsSchedule ss ds es rs c := by
  rw [fits, Bool.and_eq_true, List.all_eq_true]
  simp only [beq_iff_eq]
  constructor
  · rintro ⟨hends, hlimit⟩
    obtain ⟨first, last, hfirst, hlast, hspan⟩ := exists_span hlength hlength' hd hne hends
    rw [hfirst, hlast] at hlimit
    refine ⟨hends, (load_le_iff hfirst hlast hspan fun t h h' => Bounds.mem_values (b := ⟨first, last⟩).2 ⟨h, h'⟩).1 ?_⟩
    simpa using hlimit
  · rintro ⟨hends, hlimit⟩
    obtain ⟨first, last, hfirst, hlast, -⟩ := exists_span hlength hlength' hd hne hends
    rw [hfirst, hlast]
    exact ⟨hends, by simpa using fun t _ => hlimit t⟩

/-- It makes no difference which times are examined as long as all are at which
a task can run. -/
theorem fits_iff (times : List Int) (hempty : ss = [] → times = [])
    (htimes : ∀ first ∈ ss, ∀ last ∈ es, ∀ t, first ≤ t → t ≤ last → t ∈ times) :
    fits ss ds es rs c ↔ (∀ p ∈ ss.zip (ds.zip es), p.1 + p.2.1 = p.2.2) ∧ ∀ t ∈ times, load ss es rs t ≤ c := by
  by_cases hne : ss = []
  · simp [fits, hne, hempty hne]
  · rw [fits_iff_isSchedule hlength hlength' hd hne]
    constructor
    · exact fun h => ⟨h.consistent, fun t _ => h.limited t⟩
    · rintro ⟨hends, hlimit⟩
      obtain ⟨first, last, hfirst, hlast, hspan⟩ := exists_span hlength hlength' hd hne hends
      obtain ⟨hmem, -⟩ := List.min?_eq_some_iff.1 hfirst
      obtain ⟨hmem', -⟩ := List.max?_eq_some_iff.1 hlast
      exact ⟨hends, (load_le_iff hfirst hlast hspan (htimes first hmem last hmem')).1 hlimit⟩

end

variable {q : Prop} {w : World} {start duration finish demand : List Expr} {capacity : Expr} {s : Assignment}

theorem holds_cumulative (hs : ∀ a ∈ start, a.Valued s) (hd : ∀ a ∈ duration, a.Valued s)
    (he : ∀ a ∈ finish, a.Valued s) (hr : ∀ a ∈ demand, a.Valued s) (hc : capacity.Valued s) :
    (Expr.constraint (.cumulative start duration finish demand capacity)).Holds s ↔
      fits (start.map (num s)) (duration.map (num s)) (finish.map (num s)) (demand.map (num s)) (capacity.num s) := by
  simp [Expr.holds_constraint, Constraint.map, Constraint.exact, Expr.values_num hs, Expr.values_num hd,
    Expr.values_num he, Expr.values_num hr, hc.exact_eq]

theorem mem_times {t : Int} {a b : Expr} (ha : a ∈ start) (hb : b ∈ finish) (hat : a.range.lower ≤ t)
    (htb : t ≤ b.range.upper) : t ∈ times start finish := by
  obtain ⟨lower, hlower⟩ := Option.isSome_iff_exists.1
    (List.isSome_min?_of_mem (List.mem_map_of_mem (f := Bounds.lower) (List.mem_map_of_mem (f := Expr.range) ha)))
  obtain ⟨upper, hupper⟩ := Option.isSome_iff_exists.1
    (List.isSome_max?_of_mem (List.mem_map_of_mem (f := Bounds.upper) (List.mem_map_of_mem (f := Expr.range) hb)))
  rw [times, Bounds.least, hlower, Bounds.greatest, hupper]
  have hle := (List.min?_eq_some_iff.1 hlower).2 _ (List.mem_map_of_mem (List.mem_map_of_mem ha))
  have hge := (List.max?_eq_some_iff.1 hupper).2 _ (List.mem_map_of_mem (List.mem_map_of_mem hb))
  exact Bounds.mem_values.2 ⟨hle.trans hat, htb.trans hge⟩

/-- Whether a task runs is a truth value. -/
theorem sound_runsAt {a b : Expr} (ha : a.Sound q w) (hb : b.Sound q w) (t : Int) : (runsAt a b t).Sound q w ∧
    ∀ s, w.Admits s → (runsAt a b t).num s = if a.num s ≤ t ∧ t < b.num s then 1 else 0 := by
  have hargs : ∀ c ∈ [Expr.cmp .le a (.int t), .cmp .gt b (.int t)], c.isBool ∧ c.Sound q w := by
    simpa [Expr.isBool] using ⟨Expr.sound_cmp ha Expr.sound_int, Expr.sound_cmp hb Expr.sound_int⟩
  have hsound : (runsAt a b t).Sound q w := Expr.sound_and (fun c hc => (hargs c hc).1) fun c hc => (hargs c hc).2
  refine ⟨hsound, fun s hs => ?_⟩
  have hint : (Expr.int t).Valued s := Expr.valued_of_eq (Expr.exact_int ..)
  rw [hsound.num_eq_toInt (p := a.num s ≤ t ∧ t < b.num s) rfl hs]
  · by_cases h : a.num s ≤ t ∧ t < b.num s
    · rw [if_pos h, decide_eq_true h]
      rfl
    · rw [if_neg h, decide_eq_false h]
      rfl
  · simp [runsAt, Expr.holds_and, Expr.holds_cmp_num (ha.valued hs) hint, Expr.holds_cmp_num (hb.valued hs) hint,
      Relation.holds]

section

variable (hs : ∀ a ∈ start, a.Sound q w) (he : ∀ a ∈ finish, a.Sound q w) (hr : ∀ a ∈ demand, a.Sound q w)
  (hc : capacity.Sound q w)

include hs he hr hc

theorem sound_limit (t : Int) : (limit start finish demand capacity t).Sound q w ∧ ∀ s, w.Admits s →
    ((limit start finish demand capacity t).Holds s ↔
      load (start.map (num s)) (finish.map (num s)) (demand.map (num s)) t ≤ capacity.num s) := by
  have hterms : ∀ a ∈ (start.zip (finish.zip demand)).map fun p => Expr.mul p.2.2 (runsAt p.1 p.2.1 t),
      a.Sound q w := by
    rw [List.forall_mem_map]
    intro p hp
    obtain ⟨hps, hrest⟩ := List.of_mem_zip hp
    obtain ⟨hpe, hpr⟩ := List.of_mem_zip hrest
    exact Expr.sound_mul (hr _ hpr) (sound_runsAt (hs _ hps) (he _ hpe) t).1
  refine ⟨Expr.sound_cmp (Expr.sound_sum hterms) hc, fun u hu => ?_⟩
  have hv := fun a ha => (hterms a ha).valued hu
  rw [limit, Expr.holds_cmp_num (Expr.valued_sum hv) (hc.valued hu), Expr.num_sum hv, load_eq_sum, List.map_map,
    List.zip_map, List.zip_map, List.map_map, Relation.holds, decide_eq_true_eq]
  refine iff_of_eq (congrArg (· ≤ _) (congrArg _ (List.map_congr_left fun p hp => ?_)))
  obtain ⟨hps, hrest⟩ := List.of_mem_zip hp
  obtain ⟨hpe, hpr⟩ := List.of_mem_zip hrest
  obtain ⟨hruns, hnum⟩ := sound_runsAt (hs _ hps) (he _ hpe) t
  have hmul : (Expr.mul p.2.2 (runsAt p.1 p.2.1 t)).num u = p.2.2.num u * (runsAt p.1 p.2.1 t).num u :=
    Expr.num_eq (by rw [Expr.exact_mul, ((hr _ hpr).valued hu).exact_eq, (hruns.valued hu).exact_eq]; rfl)
  refine (hmul.trans (congrArg _ (hnum u hu))).trans ?_
  rw [mul_ite, mul_one, mul_zero]
  rfl

end

theorem replaces (hs : ∀ a ∈ start, a.Sound q w) (hd : ∀ a ∈ duration, a.Sound q w) (he : ∀ a ∈ finish, a.Sound q w)
    (hr : ∀ a ∈ demand, a.Sound q w) (hc : capacity.Sound q w) (hlength : start.length = duration.length)
    (hlength' : start.length = finish.length) (hlasting : ∀ d ∈ duration, 0 ≤ d.range.lower) :
    (Decomposition.direct (encoding start duration finish demand capacity)).Replaces q w w.store
      (.constraint (.cumulative start duration finish demand capacity)) := by
  have hsounds : ∀ a ∈ encoding start duration finish demand capacity, a.isBool ∧ a.Sound q w := by
    refine List.forall_mem_append.2 ⟨List.forall_mem_map.2 fun p hp => ⟨rfl, ?_⟩, List.forall_mem_map.2 fun t _ =>
      ⟨rfl, (sound_limit hs he hr hc t).1⟩⟩
    obtain ⟨hps, hrest⟩ := List.of_mem_zip hp
    obtain ⟨hpd, hpe⟩ := List.of_mem_zip hrest
    exact Expr.sound_cmp (Expr.sound_plus (hs _ hps) (hd _ hpd)).1 (he _ hpe)
  refine Decomposition.replaces_direct (fun a ha => (hsounds a ha).1) (fun a ha => (hsounds a ha).2) fun t ht => ?_
  have valued {as : List Expr} (has : ∀ a ∈ as, a.Sound q w) : ∀ a ∈ as, a.Valued t := fun a ha => (has a ha).valued ht
  rw [holds_cumulative (valued hs) (valued hd) (valued he) (valued hr) (hc.valued ht),
    fits_iff (by simpa using hlength) (by simpa using hlength') ?_ (times start finish) ?_ ?_, encoding,
    List.forall_mem_append, List.forall_mem_map, List.forall_mem_map, List.zip_map, List.zip_map, List.forall_mem_map]
  · refine and_congr (forall₂_congr fun p hp => ?_) (forall₂_congr fun u _ => (sound_limit hs he hr hc u).2 t ht)
    obtain ⟨hps, hrest⟩ := List.of_mem_zip hp
    obtain ⟨hpd, hpe⟩ := List.of_mem_zip hrest
    obtain ⟨hplus, hnum⟩ := Expr.sound_plus (hs _ hps) (hd _ hpd)
    rw [Expr.holds_cmp_num (hplus.valued ht) ((he _ hpe).valued ht), hnum t ht, Relation.holds, beq_iff_eq]
    rfl
  · rw [List.forall_mem_map]
    intro d hd'
    have := (Bounds.mem_iff.1 ((hd d hd').num_mem_range ht)).1
    exact (hlasting d hd').trans this
  · intro hnil
    rw [List.map_eq_nil_iff.1 hnil]
    rfl
  · simp only [List.forall_mem_map]
    intro a ha b hb u hau hub
    exact mem_times ha hb ((Bounds.mem_iff.1 ((hs a ha).num_mem_range ht)).1.trans hau)
      (hub.trans (Bounds.mem_iff.1 ((he b hb).num_mem_range ht)).2)

def IsScheduled (s : Assignment) (start duration finish demand : List Expr) (capacity : Expr) : Prop :=
  IsSchedule (start.map (num s)) (duration.map (num s)) (finish.map (num s)) (demand.map (num s)) (capacity.num s)

end Cumulative

/-- A cumulative constraint of at least one task holds exactly if every task
ends in time and the capacity suffices at every time. So do the constraints that
it is replaced by, and their negation holds exactly if it does not. -/
theorem cumulative_isScheduled_decides {σ : Store} {start duration finish demand demands : List Expr} {capacity : Expr}
    (hσ : σ.Valid) (hne : start ≠ [])
    (hbuilt : Expr.cumulative start duration finish demand capacity =
      .ok (.constraint (.cumulative start duration finish demands capacity)))
    (hargs : ∀ a ∈ start ++ duration ++ finish ++ demands ++ [capacity], a.TermIn σ) :
    (∀ s, s.Within σ → (∀ a ∈ start ++ duration ++ finish ++ demands ++ [capacity], a.exact s = some (a.num s)) ∧
      (Expr.constraint (.cumulative start duration finish demands capacity)).Decides s
        (Cumulative.IsScheduled s start duration finish demands capacity)) ∧
    (Constraint.cumulative start duration finish demands capacity).decompose.Sat True σ fun d τ =>
      τ = σ ∧ d.defining = [] ∧ ∀ s, s.Within σ →
        (Expr.all d.constraining).Decides s (Cumulative.IsScheduled s start duration finish demands capacity) ∧
        (Expr.all d.constraining).negated.Decides s
          (¬Cumulative.IsScheduled s start duration finish demands capacity) := by
  have hrebuilt := Constraint.built_of_rebuild (c := .cumulative start duration finish demand capacity) hbuilt
  have hlengths := Constraint.formed_of_rebuild hrebuilt
  have hlasting := Constraint.durations_of_rebuild hrebuilt
  have hsound : ∀ a ∈ start ++ duration ++ finish ++ demands ++ [capacity], a.Sound True (World.bare σ) :=
    fun a ha => (hargs a ha).sound hσ
  have hcumulative : (Expr.constraint (.cumulative start duration finish demands capacity)).Sound True (World.bare σ) :=
    Expr.sound_constraint hlengths hlasting hsound
  have hparts := hsound
  simp only [List.forall_mem_append, List.forall_mem_singleton] at hparts
  obtain ⟨⟨⟨⟨hstart, hduration⟩, hfinish⟩, hdemands⟩, hcapacity⟩ := hparts
  have hholds (s : Assignment) (hs : s.Within σ) :
      (Expr.constraint (.cumulative start duration finish demands capacity)).Holds s ↔
        Cumulative.IsScheduled s start duration finish demands capacity := by
    have valued {as : List Expr} (has : ∀ a ∈ as, a.Sound True (World.bare σ)) : ∀ a ∈ as, a.Valued s :=
      fun a ha => (has a ha).valued (World.admits_bare.2 hs)
    rw [Cumulative.holds_cumulative (valued hstart) (valued hduration) (valued hfinish) (valued hdemands)
      (hcapacity.valued (World.admits_bare.2 hs))]
    refine Cumulative.fits_iff_isSchedule (by simpa using hlengths.1) (by simpa using hlengths.2.1) ?_
      (by simpa using hne)
    rw [List.forall_mem_map]
    intro d hd
    exact (hlasting d hd).trans ((hduration d hd).num_mem_range (World.admits_bare.2 hs)).1
  constructor
  · intro s hs
    exact ⟨fun a ha => ((hsound a ha).valued (World.admits_bare.2 hs)).exact_eq,
      (hcumulative.decides rfl (World.admits_bare.2 hs) (hholds s hs)).1⟩
  · refine (Constraint.decompose_sat (.cumulative start duration finish demands capacity)).imp fun d τ _ hd => ?_
    cases hd with
    | cumulative =>
    refine ⟨rfl, rfl, fun s hs => ?_⟩
    exact (Cumulative.replaces hstart hduration hfinish hdemands hcapacity hlengths.1 hlengths.2.1 hlasting).decides hs
      (hholds s hs)

def taskStore : Store := ⟨#[⟨⟨-1, 2⟩, .int, .user⟩, ⟨⟨0, 4⟩, .int, .user⟩]⟩

def taskStart : Variable := ⟨0, ⟨-1, 2⟩, .int⟩

def taskEnd : Variable := ⟨1, ⟨0, 4⟩, .int⟩

def besideProvider : Constraint Expr :=
  .cumulative [.var taskStart, .int 0] [.int 2, .int 3] [.var taskEnd, .int 3] [.int 3, .int (-2)] (.int 1)

def startingAt (n : Int) : Assignment := ⟨fun i => if i = 0 then some n else some (n + 2)⟩

theorem cumulative_besideProvider : taskStore.Valid ∧ besideProvider.rebuild = .ok (.constraint besideProvider) ∧
    (∀ a ∈ besideProvider.args, a.TermIn taskStore) ∧
    (startingAt 1).Within taskStore ∧ Cumulative.IsSchedule [1, 0] [2, 3] [3, 3] [3, -2] 1 ∧
    (startingAt (-1)).Within taskStore ∧ ¬Cumulative.IsSchedule [-1, 0] [2, 3] [1, 3] [3, -2] 1 ∧
    ∃ d, besideProvider.decompose taskStore = .ok d taskStore ∧
      (Expr.all d.constraining).Decides (startingAt (-1)) False := by
  have hvalid : taskStore.Valid := by
    rintro (_ | _ | i) d h hk <;> simp [taskStore] at h <;> subst h <;> cases hk
  have hterms : ∀ a ∈ besideProvider.args, a.TermIn taskStore := by
    simp only [besideProvider, Constraint.args, List.forall_mem_append, List.forall_mem_cons, List.not_mem_nil,
      false_imp_iff, implies_true, and_true, Expr.termIn_int]
    exact ⟨Expr.termIn_var ⟨.user, rfl⟩, Expr.termIn_var ⟨.user, rfl⟩⟩
  have hbuilt : besideProvider.rebuild = .ok (.constraint besideProvider) := by cbv
  have hwithin (n : Int) (hn : n ∈ Bounds.mk (-1) 2) : (startingAt n).Within taskStore := by
    rintro (_ | _ | i) d h <;> simp [taskStore] at h <;> subst h <;>
      simp only [Bounds.mem_iff] at hn <;> simp [startingAt, Bounds.mem_iff] <;> omega
  obtain ⟨hvalue, hdecompose⟩ := @cumulative_isScheduled_decides taskStore [.var taskStart, .int 0] [.int 2, .int 3]
    [.var taskEnd, .int 3] [.int 3, .int (-2)] _ (.int 1) hvalid (by simp) hbuilt hterms
  have hlate := (hvalue (startingAt 1) (hwithin 1 (by decide))).2.holds.1 (by
    simp only [Expr.exact_constraint, Constraint.map, List.map_cons, List.map_nil, Expr.exact_var, Expr.exact_int]
    decide)
  have hearly := (hvalue (startingAt (-1)) (hwithin (-1) (by decide))).2.fails.1 (by
    simp only [Expr.exact_constraint, Constraint.map, List.map_cons, List.map_nil, Expr.exact_var, Expr.exact_int]
    decide)
  obtain ⟨d, τ, hrun⟩ : ∃ d τ, besideProvider.decompose taskStore = .ok d τ := ⟨_, _, by cbv⟩
  obtain ⟨-, rfl, -, hdecides⟩ := hdecompose.ok hrun
  have hfalse := (hdecides (startingAt (-1)) (hwithin (-1) (by decide))).1
  rw [eq_false hearly] at hfalse
  simp only [Cumulative.IsScheduled, List.map_cons, List.map_nil, Expr.num, Expr.exact_var,
    Expr.exact_int] at hlate hearly
  exact ⟨hvalid, hbuilt, hterms, hwithin 1 (by decide), hlate, hwithin (-1) (by decide), hearly, d, hrun, hfalse⟩

end ConstraintModel
