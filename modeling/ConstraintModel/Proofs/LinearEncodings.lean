import ConstraintModel.Proofs.LinearMeaning

namespace ConstraintModel

namespace Linear

open Defining (Refining)
open ConstraintModel.Expr (Operand Valued num)

variable {caps : Capabilities} {depth : Nat} {reified : Bool} {r : Relation} {w w' : World} {a b : Expr}
  {s : Assignment}

/-- Indicators of which a single one holds. -/
theorem holds_selection {σ : Store} {is : List Expr} (his : ∀ i ∈ is, i.isBool ∧ i.Operand σ) (hs : s.Within σ) :
    (Expr.cmp .eq (.sum is) (.int 1)).Holds s ↔ ∃ k < is.length, is.map (num s) = indicators is.length k := by
  have hbits := Expr.isBit_nums his hs
  rw [Expr.holds_cmp_sum fun i hi => (his i hi).2.valued hs, Relation.holds, beq_iff_eq]
  constructor
  · intro hsum
    simpa using eq_indicators hbits hsum
  · rintro ⟨k, hk, heq⟩
    rw [heq, sum_indicators hk]

theorem weight_zip {ws : List Int} {is : List Expr} :
    weight (ws.zip is) s = (List.zipWith (· * ·) ws (is.map (num s))).sum := by
  rw [weight, List.zip, List.map_zipWith, List.zipWith_map_right]

theorem indexed_eq_zip {α : Type} (as : List α) : indexed as = ((List.range as.length).map Int.ofNat).zip as := by
  refine List.ext_getElem (by simp [indexed]) fun i hi hi' => ?_
  simp [indexed]

/-- One property says that another one holds and that the new variables have
certain bits, which the other variables determine. -/
structure Encodes (σ : Store) (zs : List Variable) (bits : Assignment → List Int) (p q : Assignment → Prop)
    (τ : Store) : Prop where
  creates : σ.CreatesAll zs τ
  boolean : ∀ z ∈ zs, z.isBool
  length : ∀ s, (bits s).length = zs.length
  areBits : ∀ s, ∀ n ∈ bits s, IsBit n
  determined : ∀ s t, s.Agrees σ.size t → bits s = bits t ∧ (p s ↔ p t)
  iff : ∀ t, t.Within τ → (q t ↔ zs.map (num t ∘ .var) = bits t ∧ p t)

/-- The bits can be chosen wherever the encoded property holds. -/
theorem Encodes.complete {σ τ : Store} {zs : List Variable} {bits : Assignment → List Int} {p q : Assignment → Prop}
    (h : Encodes σ zs bits p q τ) (hs : s.Within σ) (hp : p s) : ∃ t, t.Within τ ∧ s.Agrees σ.size t ∧ q t := by
  obtain ⟨t, ht, hst, hnums⟩ := hs.extends_bits h.creates h.boolean (bits s) (h.length s) (h.areBits s)
  obtain ⟨hbits, hiff⟩ := h.determined s t hst
  exact ⟨t, ht, hst, (h.iff t ht).2 ⟨hnums.trans hbits, hiff.1 hp⟩⟩

theorem Encodes.projects {zs : List Variable} {bits : Assignment → List Int} {p q : Assignment → Prop}
    (h : Encodes w.store zs bits p q w'.store) : Projects w w' p q :=
  ⟨fun _ hs => h.complete hs.within, fun t ht hq => ((h.iff t ht.within).1 hq).2⟩

/-- A single indicator holds, its position is the index, and the entry there is
compared. -/
def Selects (is array : List Expr) (index : Expr) (r : Relation) (b : Expr) (s : Assignment) : Prop :=
  ((Expr.cmp .eq (.sum is) (.int 1)).Holds s ∧ (Expr.cmp .eq (positions is) index).Holds s) ∧
    ∀ p ∈ is.zip array, (Expr.implies p.1 (.cmp r p.2 b)).Holds s

theorem selects_iff {σ : Store} {is array : List Expr} {index : Expr} (his : ∀ i ∈ is, i.isBool ∧ i.Operand σ)
    (hlength : is.length = array.length) (hi : index.Operand σ) (ht : s.Within σ) :
    Selects is array index r b s ↔ ∃ k < array.length, is.map (num s) = indicators array.length k ∧ index.num s = k ∧
      ∀ a, array[k]? = some a → (Expr.cmp r a b).Holds s := by
  have hv : ∀ i ∈ is, i.Valued s := fun i hi => (his i hi).2.valued ht
  have hweight : (Expr.wsum (indexed is)).exact s = some (weight (indexed is) s) :=
    exact_wsum_weight fun p hp => hv _ (mem_of_indexed hp)
  have hposition : (Expr.cmp .eq (positions is) index).Holds s ↔ weight (indexed is) s = index.num s := by
    rw [positions, Expr.holds_cmp_num (Expr.valued_of_eq hweight) (hi.valued ht), Expr.num_eq hweight,
      Relation.holds, beq_iff_eq]
  have hentries {k : Nat} (heq : is.map (num s) = indicators array.length k) :
      (∀ p ∈ is.zip array, (Expr.implies p.1 (.cmp r p.2 b)).Holds s) ↔
        ∀ a, array[k]? = some a → (Expr.cmp r a b).Holds s := by
    rw [← forall_mem_zip_indicators (P := fun a => (Expr.cmp r a b).Holds s), ← heq, List.zip_map_left,
      List.forall_mem_map]
    refine forall₂_congr fun p hp => ?_
    have hp := List.of_mem_zip hp
    rw [Expr.holds_implies_iff (hv _ hp.1), (his _ hp.1).2.holds_iff_num (his _ hp.1).1 ht]
    rfl
  have hvalue {k : Nat} (hk : k < array.length) (heq : is.map (num s) = indicators array.length k) :
      weight (indexed is) s = k := by
    have hlast : ((List.range is.length).map Int.ofNat).length = array.length := by simp [hlength]
    rw [indexed_eq_zip, weight_zip, heq, ← hlast]
    exact sum_zipWith_indicators (by simp [hlength, hk])
  rw [Selects, holds_selection his ht, hposition, hlength]
  constructor
  · rintro ⟨⟨⟨k, hk, heq⟩, hpos⟩, hent⟩
    exact ⟨k, hk, heq, by rw [← hpos, hvalue hk heq], (hentries heq).1 hent⟩
  · rintro ⟨k, hk, heq, hpos, hent⟩
    exact ⟨⟨⟨k, hk, heq⟩, by rw [hpos, hvalue hk heq]⟩, (hentries heq).2 hent⟩

theorem selects_encodes {σ τ : Store} {zs : List Variable} {array : List Expr} {index : Expr}
    (hzs : σ.CreatesAll zs τ) (hbool : ∀ z ∈ zs, z.isBool) (hlength : zs.length = array.length)
    (harray : ∀ a ∈ array, a.Operand σ) (hi : index.Operand σ) (hb : b.Operand σ) :
    Encodes σ zs (fun s => indicators array.length (index.num s).toNat)
      (Expr.cmp r (.function (.element array index)) b).Holds (Selects (zs.map .var) array index r b) τ := by
  have hproper : (Expr.cmp r (.function (.element array index)) b).Proper σ.Owns := by
    refine Expr.proper_cmp.2 ⟨Expr.proper_function.2 ⟨trivial, List.forall_mem_append.2 ⟨?_, ?_⟩⟩, hb.proper⟩
    · exact fun a ha => (harray a ha).proper
    · exact List.forall_mem_singleton.2 hi.proper
  have hg := hzs.grows
  refine ⟨hzs, hbool, fun s => by simpa using hlength.symm, fun s => isBit_of_mem_indicators, fun s t hst => ⟨?_, ?_⟩,
    fun t ht => ?_⟩
  · rw [hi.proper.num_congr hst]
  · exact Expr.Over.holds_congr hproper.scope hst
  · have his : ∀ i ∈ zs.map Expr.var, i.isBool ∧ i.Operand τ :=
      List.forall_mem_map.2 fun z hz => ⟨hbool z hz, Expr.operand_var (hzs.owns hz)⟩
    have hv : ∀ a ∈ array, a.Valued t := fun a ha => ((harray a ha).mono hg).valued ht
    have hbv := (hb.mono hg).valued ht
    rw [selects_iff his (by simpa using hlength) (hi.mono hg) ht, List.map_map,
      Function.holds_element hv ((hi.mono hg).valued ht) hbv]
    constructor
    · rintro ⟨k, hk, hbits, hpos, hentry⟩
      have ha := List.getElem?_eq_getElem hk
      refine ⟨by rw [hpos, Int.toNat_natCast, hbits], array[k], ?_, ?_⟩
      · rw [hpos, entryAt?_eq_some, Int.toNat_natCast]
        exact ⟨Int.natCast_nonneg k, ha⟩
      · rw [← Expr.holds_cmp_num (hv _ (List.mem_of_getElem? ha)) hbv]
        exact hentry _ ha
    · rintro ⟨hbits, a, ha, hrel⟩
      obtain ⟨hpos, ha⟩ := entryAt?_eq_some.1 ha
      refine ⟨_, (List.getElem?_eq_some_iff.1 ha).1, hbits, (Int.toNat_of_nonneg hpos).symm, fun c hc => ?_⟩
      rw [ha, Option.some_inj] at hc
      subst hc
      rwa [Expr.holds_cmp_num (hv _ (List.mem_of_getElem? ha)) hbv]

theorem mapM_liftM {α β : Type} (f : α → Lowering β) (as : List α) :
    (as.mapM fun a => (liftM (f a) : Defining β)) = liftM (as.mapM f) := by
  induction as with
  | nil => simp
  | cons a as ih => simp [List.mapM_cons, ih]

theorem freshRows_sat {strict : Prop} {σ : Store} (n : Nat) (as : List Expr) :
    (as.mapM fun _ => freshBools n).Sat strict σ fun rows τ => ∃ xss : List (List Variable),
      rows = xss.map (List.map .var) ∧ σ.CreatesAll xss.flatten τ ∧ xss.map List.length = as.map (fun _ => n) ∧
        ∀ x ∈ xss.flatten, x.isBool := by
  induction as generalizing σ with
  | nil => exact .pure ⟨[], rfl, .nil, rfl, by simp⟩
  | cons a as ih =>
    rw [List.mapM_cons]
    refine (Lowering.Sat.freshBools n).bind ?_
    rintro _ τ - ⟨xs, rfl, hxs, hlength, hb⟩
    refine ih.bind ?_
    rintro _ υ - ⟨xss, rfl, hxss, hlengths, hbs⟩
    refine .pure ⟨xs :: xss, rfl, hxs.append hxss, by simp [hlength, hlengths], ?_⟩
    rw [List.flatten_cons]
    exact List.forall_mem_append.2 ⟨hb, hbs⟩

/-- Every argument has the value that its row of indicators selects, and no
column is selected twice. -/
def Assigns (values : List Int) (as : List Expr) (rows : List (List Expr)) (s : Assignment) : Prop :=
  (∀ p ∈ as.zip rows, (Expr.cmp .eq (.sum p.2) (.int 1)).Holds s ∧ (Expr.cmp .eq (valueOf values p.2) p.1).Holds s) ∧
    ∀ column ∈ columns values.length rows, (Expr.cmp .le (.sum column) (.int 1)).Holds s

theorem eq_of_getElem?_values {b : Bounds} {k : Nat} {n : Int} (h : b.values[k]? = some n) : n = b.lower + k := by
  rw [Bounds.values, List.getElem?_map] at h
  obtain ⟨i, hi, rfl⟩ := Option.map_eq_some_iff.1 h
  rw [(List.getElem?_eq_some_iff.1 hi).2.symm, List.getElem_range]

def offset (hull : Bounds) (n : Int) : Nat := (n - hull.lower).toNat

theorem entry_offset {hull : Bounds} {n : Int} (h : n ∈ hull) : hull.values[offset hull n]? = some n :=
  (entryAt?_eq_some.1 (entryAt?_values h)).2

theorem selects_value {σ : Store} {hull : Bounds} {row : List Expr} (hrow : ∀ i ∈ row, i.isBool ∧ i.Operand σ)
    (hlength : row.length = hull.values.length) (ha : a.Operand σ) (hmem : a.num s ∈ hull) (hs : s.Within σ) :
    ((Expr.cmp .eq (.sum row) (.int 1)).Holds s ∧ (Expr.cmp .eq (valueOf hull.values row) a).Holds s) ↔
      row.map (num s) = indicators hull.values.length (offset hull (a.num s)) := by
  have hweight : (Expr.wsum (hull.values.zip row)).exact s = some (weight (hull.values.zip row) s) :=
    exact_wsum_weight fun p hp => (hrow _ (List.of_mem_zip hp).2).2.valued hs
  have hvalue {k : Nat} {n : Int} (heq : row.map (num s) = indicators hull.values.length k)
      (hk : hull.values[k]? = some n) : weight (hull.values.zip row) s = n := by
    rw [weight_zip, heq]
    exact sum_zipWith_indicators hk
  have hentry := entry_offset hmem
  rw [holds_selection hrow hs, valueOf,
    Expr.holds_cmp_num (Expr.valued_of_eq hweight) (ha.valued hs), Expr.num_eq hweight, Relation.holds, beq_iff_eq,
    hlength]
  constructor
  · rintro ⟨⟨k, hk, heq⟩, hn⟩
    have hk := List.getElem?_eq_getElem hk
    rw [hvalue heq hk] at hn
    have := eq_of_getElem?_values hk
    have hoffset : offset hull (a.num s) = k := by
      unfold offset
      omega
    rw [heq, hoffset]
  · intro heq
    exact ⟨⟨_, (List.getElem?_eq_some_iff.1 hentry).1, heq⟩, hvalue heq hentry⟩

theorem mem_columns_sound {σ : Store} {n : Nat} {rows : List (List Expr)}
    (hrows : ∀ row ∈ rows, ∀ i ∈ row, i.isBool ∧ i.Operand σ) :
    ∀ column ∈ columns n rows, ∀ i ∈ column, i.isBool ∧ i.Operand σ := by
  intro column hc i hi
  obtain ⟨row, hrow, hi⟩ := mem_of_mem_columns column hc i hi
  exact hrows row hrow i hi

theorem assigned_iff {σ : Store} {hull : Bounds} {as : List Expr} {rows : List (List Expr)}
    (hrows : ∀ row ∈ rows, ∀ i ∈ row, i.isBool ∧ i.Operand σ)
    (hlengths : rows.map List.length = as.map fun _ => hull.values.length) (has : ∀ a ∈ as, a.Operand σ)
    (hmem : ∀ a ∈ as, a.num s ∈ hull) (hs : s.Within σ) :
    (∀ p ∈ as.zip rows, (Expr.cmp .eq (.sum p.2) (.int 1)).Holds s ∧
      (Expr.cmp .eq (valueOf hull.values p.2) p.1).Holds s) ↔
    rows.map (List.map (num s)) = as.map fun a => indicators hull.values.length (offset hull (a.num s)) := by
  induction as generalizing rows with
  | nil =>
    rw [List.map_nil, List.map_eq_nil_iff] at hlengths
    simp [hlengths]
  | cons a as ih =>
    cases rows with
    | nil => cases hlengths
    | cons row rows =>
      obtain ⟨hlength, hlengths⟩ := List.cons.inj hlengths
      rw [List.forall_mem_cons] at hrows has hmem
      rw [List.zip_cons_cons, List.forall_mem_cons, List.map_cons, List.map_cons, List.cons.injEq,
        ih hrows.2 hlengths has.2 hmem.2, selects_value hrows.1 hlength has.1 hmem.1 hs]

theorem assigns_iff {σ : Store} {hull : Bounds} {as : List Expr} {rows : List (List Expr)}
    (hrows : ∀ row ∈ rows, ∀ i ∈ row, i.isBool ∧ i.Operand σ)
    (hlengths : rows.map List.length = as.map fun _ => hull.values.length) (has : ∀ a ∈ as, a.Operand σ)
    (hmem : ∀ a ∈ as, a.num s ∈ hull) (hs : s.Within σ) : Assigns hull.values as rows s ↔
      rows.map (List.map (num s)) = as.map (fun a => indicators hull.values.length (offset hull (a.num s))) ∧
        (as.map (num s)).Nodup := by
  rw [Assigns, assigned_iff hrows hlengths has hmem hs, and_congr_right_iff]
  intro heq
  have hoffsets : ∀ n ∈ as.map (num s), n ∈ hull := List.forall_mem_map.2 hmem
  have hcounts : (columns hull.values.length rows).map (fun column => (column.map (num s)).sum) =
      (List.range hull.values.length).map fun k => (((as.map (num s)).map (offset hull)).count k : Int) :=
    sum_columns (by rw [heq, List.map_map, List.map_map]; rfl)
  have hcolumns : (∀ column ∈ columns hull.values.length rows, (Expr.cmp .le (.sum column) (.int 1)).Holds s) ↔
      ∀ m ∈ (columns hull.values.length rows).map fun column => (column.map (num s)).sum, m ≤ 1 := by
    rw [List.forall_mem_map]
    refine forall₂_congr fun column hc => ?_
    rw [Expr.holds_cmp_sum fun i hi => (mem_columns_sound hrows column hc i hi).2.valued hs, Relation.holds,
      decide_eq_true_eq]
  rw [hcolumns, hcounts, List.forall_mem_map]
  constructor
  · intro h
    refine List.Nodup.of_map (offset hull) (List.nodup_iff_count_le_one.2 fun k => ?_)
    by_cases hk : k ∈ (as.map (num s)).map (offset hull)
    · obtain ⟨n, hn, rfl⟩ := List.mem_map.1 hk
      have hlt := (List.getElem?_eq_some_iff.1 (entry_offset (hoffsets n hn))).1
      have := h _ (List.mem_range.2 hlt)
      omega
    · rw [List.count_eq_zero_of_not_mem hk]
      exact Nat.zero_le 1
  · intro h k _
    have hinj : ((as.map (num s)).map (offset hull)).Nodup := by
      refine h.map_on fun m hm n hn heq => ?_
      have hm := entry_offset (hoffsets m hm)
      rw [heq, entry_offset (hoffsets n hn), Option.some_inj] at hm
      exact hm.symm
    have := List.nodup_iff_count_le_one.1 hinj k
    omega

theorem hull?_eq_some {bs : List Bounds} {hull : Bounds} (h : Bounds.hull? bs = some hull) :
    hull = Bounds.hull bs := by
  unfold Bounds.hull? at h
  cases hl : Bounds.least bs with
  | none => simp [hl] at h
  | some l =>
    cases hu : Bounds.greatest bs with
    | none => simp [hl, hu] at h
    | some u =>
      simp only [hl, hu, Option.bind_eq_bind, Option.bind_some, Option.pure_def, Option.some_inj] at h
      rw [← h, Bounds.hull, hl, hu]
      rfl

theorem hull?_eq_none {bs : List Bounds} (h : Bounds.hull? bs = none) : bs = [] := by
  cases bs with
  | nil => rfl
  | cons b bs => simp [Bounds.hull?, Bounds.least, Bounds.greatest] at h

theorem operand_rows {σ : Store} {zss : List (List Variable)} (h : ∀ z ∈ zss.flatten, z.isBool ∧ σ.Owns z) :
    ∀ row ∈ zss.map (List.map Expr.var), ∀ i ∈ row, i.isBool ∧ i.Operand σ := by
  intro row hrow i hi
  obtain ⟨zs, hzs, rfl⟩ := List.mem_map.1 hrow
  obtain ⟨z, hz, rfl⟩ := List.mem_map.1 hi
  have hz := h z (List.mem_flatten.2 ⟨zs, hzs, hz⟩)
  exact ⟨hz.1, Expr.operand_var hz.2⟩

theorem assigns_encodes {σ τ : Store} {hull : Bounds} {as : List Expr} {zss : List (List Variable)}
    (hzss : σ.CreatesAll zss.flatten τ) (hbool : ∀ z ∈ zss.flatten, z.isBool)
    (hlengths : zss.map List.length = as.map fun _ => hull.values.length) (has : ∀ a ∈ as, a.Operand σ)
    (hsub : ∀ a ∈ as, a.range ⊆ hull) :
    Encodes σ zss.flatten (fun s => (as.map fun a => indicators hull.values.length (offset hull (a.num s))).flatten)
      (Expr.constraint (.allDifferent as)).Holds (Assigns hull.values as (zss.map (List.map .var))) τ := by
  have hproper : (Expr.constraint (.allDifferent as)).Proper σ.Owns :=
    Expr.proper_constraint.2 ⟨trivial, fun a ha => (has a ha).proper⟩
  have has' : ∀ a ∈ as, a.Operand τ := fun a ha => (has a ha).mono hzss.grows
  refine ⟨hzss, hbool, fun s => ?_, fun s => ?_, fun s t hst => ⟨?_, ?_⟩, fun t ht => ?_⟩
  · rw [List.length_flatten, List.length_flatten, hlengths, List.map_map]
    simp [Function.comp_def]
  · exact List.forall_mem_flatten.2 (List.forall_mem_map.2 fun a _ => isBit_of_mem_indicators)
  · exact congrArg _ (List.map_congr_left fun a ha => by rw [(has a ha).proper.num_congr hst])
  · exact Expr.Over.holds_congr hproper.scope hst
  · have hlengths' : (zss.map (List.map Expr.var)).map List.length = as.map fun _ => hull.values.length := by
      rw [List.map_map, ← hlengths]
      exact List.map_congr_left fun zs _ => List.length_map ..
    have hwidths : (zss.map (List.map (num t) ∘ List.map Expr.var)).map List.length =
        (as.map fun a => indicators hull.values.length (offset hull (a.num t))).map List.length := by
      rw [List.map_map, List.map_map]
      simpa [Function.comp_def] using hlengths
    rw [assigns_iff (operand_rows fun z hz => ⟨hbool z hz, hzss.owns hz⟩) hlengths' has'
      (fun a ha => Bounds.mem_of_subset (hsub a ha) ((has' a ha).num_mem_range ht)) ht,
      Expr.holds_allDifferent fun a ha => (has' a ha).valued ht, List.map_map, List.eq_iff_flatten_eq,
      and_iff_left hwidths, List.map_flatten]
    simp only [Function.comp_def, List.map_map]

section

variable (ih : Meanings caps depth)

include ih

theorem element_posts {array : List Expr} {index : Expr} (hs : ∀ a ∈ (Function.element array index).args, a.isSimple)
    (hp : (Expr.function (.element array index)).Proper w.store.Owns) (hb : b.Operand w.store) :
    Posts (Expr.cmp r (.function (.element array index)) b).Holds (element caps (depth + 1) array index r b) w := by
  have hwhole : (Expr.cmp r (.function (.element array index)) b).Proper w.store.Owns :=
    Expr.proper_cmp.2 ⟨hp, hb.proper⟩
  have harray : ∀ a ∈ array, a.Operand w.store := fun a ha =>
    ⟨hs a (List.mem_append_left _ ha), hp.arg (List.mem_append_left _ ha)⟩
  have hindex : index.Operand w.store :=
    ⟨hs index (by simp [Function.args]), hp.arg (by simp [Expr.args, Function.args])⟩
  rw [element]
  refine Posts.widen (Lowering.Sat.freshBools _) ?_ ?_
  · rintro _ τ ⟨xs, -, hxs, -, hb⟩ hh
    exact hxs.habitable (fun x hx => by rw [(hxs.owns hx).2 (hb x hx)]; decide) hh
  · rintro _ w' hw ⟨xs, rfl, hxs, hlength, hbool⟩
    have his : ∀ i ∈ xs.map Expr.var, i.isBool ∧ i.Operand w'.store :=
      List.forall_mem_map.2 fun x hx => ⟨hbool x hx, Expr.operand_var (hxs.owns hx)⟩
    have hindex' := hindex.mono hw.grows
    refine ⟨_, (selects_encodes hxs hbool hlength harray hindex hb).projects, ?_⟩
    have hpositions : ∀ p ∈ indexed (xs.map Expr.var), p.2.Operand w'.store :=
      fun p hp => (his _ (mem_of_indexed hp)).2
    have hweights : (positions (xs.map .var)).Proper w'.store.Owns :=
      Expr.proper_wsum.2 fun p hp => (hpositions p hp).proper
    have himplies : ∀ p ∈ (xs.map Expr.var).zip array,
        (Expr.implies p.1 (.cmp r p.2 b)).Proper w'.store.Owns := by
      intro p hp
      obtain ⟨hl, ha⟩ := List.of_mem_zip hp
      exact Expr.proper_implies.2 ⟨⟨(his _ hl).1, rfl⟩, (his _ hl).2.proper, Expr.proper_cmp.2
        ⟨((harray _ ha).mono hw.grows).proper, (hb.mono hw.grows).proper⟩⟩
    have hlocal := fun p hp => local_holds (himplies p hp)
    refine (ih.comparison w' false .eq (.sum (xs.map .var)) (.int 1) (.inr fun i hi => (his i hi).2.simple)
      (Expr.proper_sum.2 fun i hi => (his i hi).2.proper) Expr.operand_int).bind fun one w₁ hr₁ hone => ?_
    refine (ih.comparison w₁ false .eq (positions (xs.map .var)) index
      (.inr (List.forall_mem_map.2 fun p hp => (hpositions p hp).simple))
      (hweights.imp fun _ h => h.mono hr₁.grows) (hindex'.mono hr₁.grows)).bind fun position w₂ hr₂ hposition => ?_
    have hr := hr₁.trans hr₂
    refine (Posts.mapM (p := fun p => (Expr.implies p.1 (.cmp r p.2 b)).Holds)
      (fun p hp => (hlocal p hp).mono hr.grows) fun p hp v hv => ?_).bind fun entries w₃ hr₃ hentries => .pure ?_
    · have ha := harray _ (List.of_mem_zip hp).2
      exact ih.implication v p.1 (.cmp r p.2 b) ⟨isInputSide_of_isSimple ha.simple, hb.simple⟩
        ((himplies p hp).imp fun _ h => h.mono (hr.grows.trans hv.grows))
    · exact (hone.append hr₁ hposition hr₂ (local_holds (Expr.proper_cmp.2 ⟨hweights, hindex'.proper⟩))).append hr
        hentries hr₃ fun s t hst h p hp => hlocal p hp s t hst (h p hp)

theorem assigns_posts {hull : Bounds} {as : List Expr} {rows : List (List Expr)} (has : ∀ a ∈ as, a.Operand w.store)
    (hrows : ∀ row ∈ rows, ∀ i ∈ row, i.isBool ∧ i.Operand w.store) :
    Posts (Assigns hull.values as rows) (do
      let assigned ← (as.zip rows).mapM fun (a, row) => do
        let one ← comparison caps depth false .eq (.sum row) (.int 1)
        return one ++ (← comparison caps depth false .eq (valueOf hull.values row) a)
      let taken ← (columns hull.values.length rows).mapM fun column =>
        comparison caps depth false .le (.sum column) (.int 1)
      return assigned.flatten ++ taken.flatten) w := by
  have hsum {is : List Expr} (his : ∀ i ∈ is, i.isBool ∧ i.Operand w.store) (r : Relation) :
      (Expr.cmp r (.sum is) (.int 1)).Proper w.store.Owns :=
    Expr.proper_cmp.2 ⟨Expr.proper_sum.2 fun i hi => (his i hi).2.proper, Expr.proper_int⟩
  have hcount {is : List Expr} (his : ∀ i ∈ is, i.isBool ∧ i.Operand w.store) (r : Relation) {v : World}
      (hr : w.Refines False v) : Posts (Expr.cmp r (.sum is) (.int 1)).Holds
        (comparison caps depth false r (.sum is) (.int 1)) v :=
    ih.comparison v false r (.sum is) (.int 1) (.inr fun i hi => (his i hi).2.simple)
      ((Expr.proper_cmp.1 (hsum his r)).1.imp fun _ h => h.mono hr.grows) Expr.operand_int
  have hvalue : ∀ p ∈ as.zip rows, (Expr.cmp .eq (valueOf hull.values p.2) p.1).Proper w.store.Owns := by
    intro p hp
    obtain ⟨ha, hrow⟩ := List.of_mem_zip hp
    exact Expr.proper_cmp.2 ⟨Expr.proper_wsum.2 fun t ht => (hrows _ hrow _ (List.of_mem_zip ht).2).2.proper,
      (has _ ha).proper⟩
  have hcolumns := mem_columns_sound (n := hull.values.length) hrows
  have hassigned : ∀ p ∈ as.zip rows, Local w.store fun s => (Expr.cmp .eq (.sum p.2) (.int 1)).Holds s ∧
      (Expr.cmp .eq (valueOf hull.values p.2) p.1).Holds s := fun p hp s t hst h =>
    ⟨local_holds (hsum (hrows _ (List.of_mem_zip hp).2) .eq) s t hst h.1, local_holds (hvalue p hp) s t hst h.2⟩
  have htaken : ∀ column ∈ columns hull.values.length rows, Local w.store (Expr.cmp .le (.sum column) (.int 1)).Holds :=
    fun column hc => local_holds (hsum (hcolumns column hc) .le)
  refine (Posts.mapM hassigned fun p hp v hr => ?_).bind fun assigned w₁ hr₁ h₁ =>
    (Posts.mapM (fun column hc => (htaken column hc).mono hr₁.grows) fun column hc v hr =>
      hcount (hcolumns column hc) .le (hr₁.trans hr)).bind fun taken w₂ hr₂ h₂ =>
    .pure (h₁.append hr₁ h₂ hr₂ fun s t hst h column hc => htaken column hc s t hst (h column hc))
  obtain ⟨ha, hrow⟩ := List.of_mem_zip hp
  refine Posts.append (hcount (hrows _ hrow) .eq hr) (fun v' hr' => ?_) ((local_holds (hvalue p hp)).mono hr.grows)
  refine ih.comparison v' false .eq (valueOf hull.values p.2) p.1 (.inr (List.forall_mem_map.2 fun t ht => ?_))
    ((Expr.proper_cmp.1 (hvalue p hp)).1.imp fun _ h => h.mono (hr.trans hr').grows)
    ((has _ ha).mono (hr.trans hr').grows)
  exact (hrows _ hrow _ (List.of_mem_zip ht).2).2.simple

theorem allDifferent_posts {as : List Expr} (has : ∀ a ∈ as, a.Operand w.store) :
    Posts (Expr.constraint (.allDifferent as)).Holds (allDifferent caps (depth + 1) as) w := by
  have hproper : (Expr.constraint (.allDifferent as)).Proper w.store.Owns :=
    (Expr.proper_iff (by simp)).2 ⟨trivial, fun a ha => (has a ha).proper⟩
  rw [allDifferent]
  refine Refining.bind (Q := fun bs _ => bs = as.map Expr.range) ?_ fun bs w₀ hr hbs => ?_
  · refine ((Defining.refining (.refines False) (.each fun _ => True)).mapM
      (R := fun _ (a : Expr) (b : Bounds) => a.range = b)
      (fun _ _ _ _ _ h => h) fun a _ _ _ => Refining.checked fun b hb => (a.range_of_bounds b hb).symm).imp
      fun bs _ _ h => ?_
    rw [eq_comm, ← List.forall₂_eq_eq_eq, List.forall₂_map_left_iff]
    exact h
  subst hbs
  have has := fun a ha => (has a ha).mono hr.grows
  split
  · rename_i hnone
    obtain rfl := List.map_eq_nil_iff.1 (hull?_eq_none hnone)
    refine Posts.after hr (local_holds hproper) (.pure (by simp) fun s hs => ?_)
    rw [Expr.holds_allDifferent (by simp)]
    simp
  · rename_i hull hsome
    have hsub : ∀ a ∈ as, a.range ⊆ hull := by
      rw [hull?_eq_some hsome]
      exact fun a ha => Bounds.subset_hull (List.mem_map_of_mem ha)
    dsimp only
    rw [mapM_liftM]
    refine Posts.after hr (local_holds hproper) (Posts.widen (freshRows_sat _ as) ?_ ?_)
    · rintro _ τ ⟨xss, -, hxs, -, hb⟩ hh
      exact hxs.habitable (fun x hx => by rw [(hxs.owns hx).2 (hb x hx)]; decide) hh
    · rintro _ w' hw ⟨xss, rfl, hxs, hlengths, hbool⟩
      exact ⟨_, (assigns_encodes hxs hbool hlengths has hsub).projects,
        assigns_posts ih (fun a ha => (has a ha).mono hw.grows) (operand_rows fun x hx => ⟨hbool x hx, hxs.owns hx⟩)⟩

end

end Linear

end ConstraintModel
