import ConstraintModel.Function.Decompose
import ConstraintModel.Constraint.Decompose
import ConstraintModel.Proofs.Fresh

namespace ConstraintModel

namespace Expr

def guards (x : Expr) (length : Nat) : List Expr :=
  (if x.range.lower < 0 then [cmp .ge x (int 0)] else []) ++
    if length ≤ x.range.upper then [cmp .lt x (int length)] else []

theorem guards_of_inRange {x : Expr} {length : Nat} {gs : List Expr}
    (h : x.inRange length = .ok gs) : gs = x.guards length := by
  obtain ⟨b, hb, h⟩ := Checked.bind_eq_ok.1 h
  cases h
  rw [x.range_of_bounds b hb, guards]

end Expr

theorem ranges_of_mapM {as : List Expr} {bs : List Bounds} (h : as.mapM Expr.bounds = .ok bs) :
    bs = as.map Expr.range :=
  Checked.mapM_eq_map (fun a _ => a.range_of_bounds) h

theorem successorsInRange_eq {succ gs : List Expr} (h : successorsInRange succ = .ok gs) :
    gs = succ.flatMap fun s => s.guards succ.length := by
  obtain ⟨gss, hgss, h⟩ := Checked.bind_eq_ok.1 h
  cases h
  rw [Checked.mapM_eq_map (fun s _ b hb => Expr.guards_of_inRange hb) hgss, List.flatMap_def]

def hullAround (args : List Expr) (b : Bounds) : Bounds := (args.map Expr.range).foldl .union b

theorem hullAround_of_hullWith {args : List Expr} {b c : Bounds} (h : hullWith args b = .ok c) :
    c = hullAround args b := by
  obtain ⟨bs, hbs, h⟩ := Checked.bind_eq_ok.1 h
  cases h
  rw [ranges_of_mapM hbs, hullAround]

namespace Circuit

def encoding (succ : List Expr) (hull : Bounds) (order : List Expr) : Decomposition where
  constraining := (succ.flatMap fun s => s.guards succ.length) ++
    [.constraint (.allDifferent succ), .constraint (.allDifferent order)] ++
    order.getLast?.toList.map fun o => .cmp .eq o (.int 0)
  defining := ((order.zip succ).head?.toList.map fun (o, s) => .cmp .eq o s) ++ chain succ hull order

end Circuit

namespace Subcircuit

def encoding (succ : List Expr) (hull : Bounds) (start : Expr) (visits : List Expr) :
    Decomposition where
  constraining := (succ.flatMap fun s => s.guards succ.length) ++ [.constraint (.allDifferent succ)] ++
    (indexed succ).map fun (i, s) =>
      .implies (.cmp .ne s (.int i)) (.any (visits.map fun v => .cmp .eq v (.int i)))
  defining := .cmp .eq start (.function (.minimum (candidates succ))) ::
    (visits.head?.toList.map fun v => .cmp .eq v start) ++ chain succ hull visits

end Subcircuit

namespace Inverse

def link (backward : List Expr) (i : Int) (x : Expr) : Expr :=
  match x.constant? with
  | some c =>
    match entryAt? backward c with
    | some y => .cmp .eq y (.int i)
    | none => .bool false
  | none => .all (x.guards backward.length ++ [.cmp .eq (.function (.element backward x)) (.int i)])

theorem link_of_channel {backward : List Expr} {i : Int} {x e : Expr}
    (h : channel backward i x = .ok e) : e = link backward i x := by
  unfold channel at h
  unfold link
  cases hc : x.constant? with
  | some c =>
    rw [hc] at h
    cases h
    rfl
  | none =>
    rw [hc] at h
    obtain ⟨gs, hgs, h⟩ := Checked.bind_eq_ok.1 h
    cases h
    rw [Expr.guards_of_inRange hgs]

end Inverse

namespace Cumulative

def times (start finish : List Expr) : List Int :=
  match Bounds.least (start.map Expr.range), Bounds.greatest (finish.map Expr.range) with
  | some lower, some upper => (Bounds.mk lower upper).values
  | _, _ => []

def limit (start finish demand : List Expr) (capacity : Expr) (t : Int) : Expr :=
  .cmp .le (.sum ((start.zip (finish.zip demand)).map fun (s, e, r) => .mul r (runsAt s e t))) capacity

def encoding (start duration finish demand : List Expr) (capacity : Expr) : List Expr :=
  ((start.zip (duration.zip finish)).map fun (s, d, e) => .cmp .eq (s.plus d) e) ++
    (times start finish).map (limit start finish demand capacity)

theorem encoding_of_decompose {start duration finish demand : List Expr} {capacity : Expr}
    {d : Decomposition} (h : decompose start duration finish demand capacity = .ok d) :
    d = .direct (encoding start duration finish demand capacity) := by
  obtain ⟨bs, hbs, h⟩ := Checked.bind_eq_ok.1 h
  obtain ⟨cs, hcs, h⟩ := Checked.bind_eq_ok.1 h
  cases h
  rw [ranges_of_mapM hbs, ranges_of_mapM hcs]
  rfl

end Cumulative

inductive Member.Target (σ : Store) (a : Expr) : Expr → List Expr → Store → Prop
  | simple : a.isSimple → Target σ a a [] σ
  | fresh {x : Variable} {τ : Store} : a.isSimple = false → σ.Creates x τ → x.isBool = a.isBool →
    (¬a.isBool → x.bounds = a.range) → Target σ a (.var x) [.cmp .eq (.var x) a] τ

inductive Constraint.Decomposes (σ : Store) : Constraint Expr → Decomposition → Store → Prop
  | allDifferent (as : List Expr) : Decomposes σ (.allDifferent as) (AllDifferent.decompose as) σ
  | allDifferentExceptZero (as : List Expr) :
    Decomposes σ (.allDifferentExceptZero as) (AllDifferentExceptZero.decompose as) σ
  | allEqual (as : List Expr) : Decomposes σ (.allEqual as) (AllEqual.decompose as) σ
  | monotone (order : Monotonicity) (as : List Expr) :
    Decomposes σ (.monotone order as) (order.decompose as) σ
  | circuit (succ : List Expr) {order : List Variable} {τ : Store} :
    σ.CreatesAll order τ → order.length = succ.length →
    (∀ x ∈ order, ¬x.isBool ∧ x.bounds = hullAround succ (.point 0)) →
    Decomposes σ (.circuit succ)
      (Circuit.encoding succ (hullAround succ (.point 0)) (order.map .var)) τ
  | subcircuit (succ : List Expr) {start : Variable} {visits : List Variable} {τ υ : Store} :
    σ.Creates start τ → ¬start.isBool → start.bounds = ⟨0, succ.length⟩ →
    τ.CreatesAll visits υ → visits.length = succ.length →
    (∀ x ∈ visits, ¬x.isBool ∧ x.bounds = hullAround succ ⟨0, succ.length⟩) →
    Decomposes σ (.subcircuit succ)
      (Subcircuit.encoding succ (hullAround succ ⟨0, succ.length⟩) (.var start) (visits.map .var)) υ
  | subcircuitThrough (succ : List Expr) (start : Nat) :
    Decomposes σ (.subcircuitThrough succ start) (Subcircuit.decomposeThrough succ start) σ
  | inverse (fs bs : List Expr) : Decomposes σ (.inverse fs bs)
      (.direct [.all ((indexed fs).map fun (i, x) => Inverse.link bs i x)]) σ
  | cumulative (ss ds es rs : List Expr) (capacity : Expr) :
    Decomposes σ (.cumulative ss ds es rs capacity)
      (.direct (Cumulative.encoding ss ds es rs capacity)) σ
  | cardinality (xs vs ns : List Expr) :
    Decomposes σ (.cardinality xs vs ns) (Cardinality.decompose xs vs ns) σ
  | table (xs : List Expr) (rows : List (List Int)) :
    Decomposes σ (.table xs rows) (Table.decompose xs rows) σ
  | memberOfSet (a : Expr) (set : IntervalSet) {x : Expr} {defining : List Expr} {τ : Store} :
    Member.Target σ a x defining τ →
    Decomposes σ (.memberOfSet a set)
      ⟨(x.range.values.filter fun n => !set.contains n).map fun n => .cmp .ne x (.int n), defining⟩ τ
  | memberOfList (a : Expr) (vs : List Expr) {x : Expr} {defining : List Expr} {τ : Store} :
    Member.Target σ a x defining τ →
    Decomposes σ (.memberOfList a vs) ⟨[.any (vs.map fun v => .cmp .eq x v)], defining⟩ τ
  | xor (as : List Expr) : Decomposes σ (.xor as) (Xor.decompose as) σ
  | ifThenElse (c t e : Expr) : Decomposes σ (.ifThenElse c t e) (IfThenElse.decompose c t e) σ

open Lowering (Sat)

variable {strict : Prop} {σ : Store}

theorem Member.target_sat (a : Expr) :
    (Member.target a).Sat strict σ fun p τ => Member.Target σ a p.1 p.2 τ := by
  unfold Member.target
  split
  · exact .pure (.simple ‹_›)
  · rename_i hs
    refine (Sat.freshFor a).bind ?_
    rintro _ τ - ⟨x, rfl, hx, hb, hbounds⟩
    exact .pure (.fresh (Bool.eq_false_of_not_eq_true hs) hx hb hbounds)

theorem Constraint.decompose_sat (c : Constraint Expr) :
    c.decompose.Sat strict σ (Decomposes σ c) := by
  cases c with
  | allDifferent as => exact .pure (.allDifferent as)
  | allDifferentExceptZero as => exact .pure (.allDifferentExceptZero as)
  | allEqual as => exact .pure (.allEqual as)
  | monotone order as => exact .pure (.monotone order as)
  | circuit succ =>
    refine Sat.checked_bind fun hull hhull => ?_
    obtain rfl := hullAround_of_hullWith hhull
    refine (Sat.freshInts _ _).bind ?_
    rintro _ τ - ⟨order, rfl, hcreates, hlength, hbounds⟩
    refine Sat.checked_bind fun gs hgs => ?_
    obtain rfl := successorsInRange_eq hgs
    exact .pure (.circuit succ hcreates hlength hbounds)
  | subcircuit succ =>
    refine Sat.checked_bind fun hull hhull => ?_
    obtain rfl := hullAround_of_hullWith hhull
    refine (Sat.freshInt _).bind ?_
    rintro _ τ - ⟨start, rfl, hstart, hb, hsb⟩
    refine (Sat.freshInts _ _).bind ?_
    rintro _ υ - ⟨visits, rfl, hcreates, hlength, hbounds⟩
    refine Sat.checked_bind fun gs hgs => ?_
    obtain rfl := successorsInRange_eq hgs
    exact .pure (.subcircuit succ hstart hb hsb hcreates hlength hbounds)
  | subcircuitThrough succ start => exact .pure (.subcircuitThrough succ start)
  | inverse fs bs =>
    refine Sat.checked fun d hd => ?_
    obtain ⟨es, hes, hd⟩ := Checked.bind_eq_ok.1 hd
    cases hd
    rw [Checked.mapM_eq_map (g := fun p : Int × Expr => Inverse.link bs p.1 p.2)
      (fun p _ e he => Inverse.link_of_channel he) hes]
    exact .inverse fs bs
  | cumulative ss ds es rs capacity =>
    refine Sat.checked fun d hd => ?_
    rw [Cumulative.encoding_of_decompose hd]
    exact .cumulative ss ds es rs capacity
  | cardinality xs vs ns => exact .pure (.cardinality xs vs ns)
  | table xs rows => exact .pure (.table xs rows)
  | memberOfSet a set =>
    refine (Member.target_sat a).bind ?_
    rintro ⟨x, defining⟩ τ - htarget
    refine Sat.checked_bind fun b hb => ?_
    rw [x.range_of_bounds b hb]
    exact .pure (.memberOfSet a set htarget)
  | memberOfList a vs =>
    refine (Member.target_sat a).bind ?_
    rintro ⟨x, defining⟩ τ - htarget
    exact .pure (.memberOfList a vs htarget)
  | xor as => exact .pure (.xor as)
  | ifThenElse c t e => exact .pure (.ifThenElse c t e)

namespace Distinct

def encoding (array : List Expr) (r : Relation) (rhs : Expr) : Expr :=
  .cmp r (.sum (((Bounds.hull? (array.map Expr.range)).elim [] Bounds.values).map fun n =>
    .any (array.map fun a => .cmp .eq a (.int n)))) rhs

end Distinct

namespace Element

def encoding (array : List Expr) (index : Expr) (r : Relation) (rhs : Expr) : List Expr :=
  match index.constant? with
  | some i => [((entryAt? array i).map fun a => .cmp r a rhs).getD (.bool false)]
  | none => index.guards array.length ++
    ((indexed array).filter fun (i, _) => i ∈ index.range).map fun (i, a) =>
      .implies (.cmp .eq index (.int i)) (.cmp r a rhs)

theorem encoding_of_decompose {array : List Expr} {index : Expr} {r : Relation} {rhs : Expr}
    {d : Decomposition} (h : decompose array index r rhs = .ok d) :
    d = .direct (encoding array index r rhs) := by
  unfold decompose at h
  unfold encoding
  cases hc : index.constant? with
  | some c =>
    rw [hc] at h
    cases h
    rfl
  | none =>
    rw [hc] at h
    obtain ⟨gs, hgs, h⟩ := Checked.bind_eq_ok.1 h
    obtain ⟨b, hb, h⟩ := Checked.bind_eq_ok.1 h
    cases h
    rw [Expr.guards_of_inRange hgs, index.range_of_bounds b hb]

end Element

inductive Function.Decomposes (σ : Store) (r : Relation) (rhs : Expr) :
    Function Expr → Decomposition → Store → Prop
  | absSame {x : Expr} : 0 ≤ x.range.lower → Decomposes σ r rhs (.abs x) (.direct [.cmp r x rhs]) σ
  | absOpposite {x y : Expr} : x.range.upper ≤ 0 → x.minus = .ok y →
    Decomposes σ r rhs (.abs x) (.direct [.cmp r y rhs]) σ
  | abs {x y : Expr} {z : Variable} {τ : Store} : σ.Creates z τ → ¬z.isBool →
    z.bounds = x.range.magnitude → x.minus = .ok y →
    Decomposes σ r rhs (.abs x) ⟨[.cmp r (.var z) rhs],
      [.implies (.cmp .ge x (.int 0)) (.cmp .eq x (.var z)),
        .implies (.cmp .lt x (.int 0)) (.cmp .eq y (.var z))]⟩ τ
  | minimum (as : List Expr) {z : Variable} {τ : Store} : σ.Creates z τ → ¬z.isBool →
    z.bounds = (Expr.function (.minimum as)).range →
    Decomposes σ r rhs (.minimum as) ⟨[.cmp r (.var z) rhs],
      [.all (as.map fun a => .cmp .le (.var z) a), .any (as.map fun a => .cmp .eq (.var z) a)]⟩ τ
  | maximum (as : List Expr) {z : Variable} {τ : Store} : σ.Creates z τ → ¬z.isBool →
    z.bounds = (Expr.function (.maximum as)).range →
    Decomposes σ r rhs (.maximum as) ⟨[.cmp r (.var z) rhs],
      [.all (as.map fun a => .cmp .ge (.var z) a), .any (as.map fun a => .cmp .eq (.var z) a)]⟩ τ
  | count (as : List Expr) (v : Expr) :
    Decomposes σ r rhs (.count as v) (Count.decompose as v r rhs) σ
  | distinct (as : List Expr) :
    Decomposes σ r rhs (.distinct as) (.direct [Distinct.encoding as r rhs]) σ
  | element (as : List Expr) (i : Expr) :
    Decomposes σ r rhs (.element as i) (.direct (Element.encoding as i r rhs)) σ

theorem Function.decompose_sat (g : Function Expr) (r : Relation) (rhs : Expr) :
    (g.decompose r rhs).Sat strict σ (Decomposes σ r rhs g) := by
  cases g with
  | abs x =>
    refine Sat.checked_bind fun b hb => ?_
    obtain rfl := x.range_of_bounds b hb
    split
    · exact .pure (.absSame ‹_›)
    · split
      · exact Sat.checked_bind fun y hy => .pure (.absOpposite ‹_› hy)
      · refine Sat.checked_bind fun m hm => ?_
        obtain rfl := Bounds.of_abs hm
        refine (Sat.freshInt _).bind ?_
        rintro _ τ - ⟨z, rfl, hz, hzb, hbounds⟩
        exact Sat.checked_bind fun y hy => .pure (.abs hz hzb hbounds hy)
  | minimum as =>
    refine Sat.checked_bind fun b hb => (Sat.freshInt _).bind ?_
    obtain rfl := (Expr.function (.minimum as)).range_of_bounds b hb
    rintro _ τ - ⟨z, rfl, hz, hzb, hbounds⟩
    exact .pure (.minimum as hz hzb hbounds)
  | maximum as =>
    refine Sat.checked_bind fun b hb => (Sat.freshInt _).bind ?_
    obtain rfl := (Expr.function (.maximum as)).range_of_bounds b hb
    rintro _ τ - ⟨z, rfl, hz, hzb, hbounds⟩
    exact .pure (.maximum as hz hzb hbounds)
  | count as v => exact .pure (.count as v)
  | distinct as =>
    refine Sat.checked fun d hd => ?_
    obtain ⟨bs, hbs, hd⟩ := Checked.bind_eq_ok.1 hd
    cases hd
    rw [ranges_of_mapM hbs]
    exact .distinct as
  | element as i =>
    refine Sat.checked fun d hd => ?_
    rw [Element.encoding_of_decompose hd]
    exact .element as i

end ConstraintModel
