import ConstraintModel.Bounds

namespace ConstraintModel

inductive Function (α : Type) where
  | abs (arg : α)
  | minimum (args : List α)
  | maximum (args : List α)
  | count (array : List α) (value : α)
  | distinct (array : List α)
  | element (array : List α) (index : α)
  deriving DecidableEq, Repr

namespace Function

variable {α β : Type}

def name : Function α → String
  | abs _ => "abs"
  | minimum _ => "min"
  | maximum _ => "max"
  | count _ _ => "count"
  | distinct _ => "nvalue"
  | element _ _ => "element"

def args : Function α → List α
  | abs a => [a]
  | minimum as | maximum as | distinct as => as
  | count as v => as ++ [v]
  | element as i => as ++ [i]

def map (f : α → β) : Function α → Function β
  | abs a => abs (f a)
  | minimum as => minimum (as.map f)
  | maximum as => maximum (as.map f)
  | count as v => count (as.map f) (f v)
  | distinct as => distinct (as.map f)
  | element as i => element (as.map f) (f i)

def attach (g : Function α) : Function { a // a ∈ g.args } :=
  match g with
  | abs a => abs ⟨a, List.mem_singleton_self a⟩
  | minimum as => minimum as.attach
  | maximum as => maximum as.attach
  | count as v =>
    count (as.attachWith _ fun _ h => List.mem_append_left _ h)
      ⟨v, List.mem_append_right _ (List.mem_singleton_self v)⟩
  | distinct as => distinct as.attach
  | element as i =>
    element (as.attachWith _ fun _ h => List.mem_append_left _ h)
      ⟨i, List.mem_append_right _ (List.mem_singleton_self i)⟩

def mapM {m : Type → Type} [Monad m] (f : α → m β) : Function α → m (Function β)
  | abs a => return abs (← f a)
  | minimum as => return minimum (← as.mapM f)
  | maximum as => return maximum (← as.mapM f)
  | count as v => return count (← as.mapM f) (← f v)
  | distinct as => return distinct (← as.mapM f)
  | element as i => return element (← as.mapM f) (← f i)

def bounds : Function (Checked Bounds) → Checked Bounds
  | abs a => do (← a).abs
  | minimum as => return .minimum (← as.mapM id)
  | maximum as => return .maximum (← as.mapM id)
  | count as _ => return ⟨0, as.length⟩
  | distinct as => return ⟨min as.length 1, as.length⟩
  | element as _ => do
    let bs ← as.mapM id
    return ⟨(Bounds.least bs).getD 0, (Bounds.greatest bs).getD 0⟩

/-- Whether the function is defined for all values of its arguments within
the given intervals. Only an element can be undefined, when its index leaves
the array. -/
def totalWithin : Function (Checked Bounds) → Checked Bool
  | element as i => return 0 ≤ (← i).lower && (← i).upper < as.length
  | _ => return true

theorem map_attach (f : α → β) (g : Function α) : (g.attach.map fun a => f a.1) = g.map f := by
  cases g <;> simp only [attach, map] <;> congr 1 <;>
    first | exact List.attach_map_val | exact List.attachWith_map_val _

theorem args_map (f : α → β) (g : Function α) : (g.map f).args = g.args.map f := by
  cases g <;> simp [map, args]

theorem name_map (f : α → β) (g : Function α) : (g.map f).name = g.name := by
  cases g <;> rfl

theorem sizeOf_lt_of_mem_args [SizeOf α] {g : Function α} {a : α} (h : a ∈ g.args) :
    sizeOf a < sizeOf g := by
  cases g with
  | abs b =>
    rw [List.mem_singleton.1 h, abs.sizeOf_spec]
    omega
  | minimum as =>
    rw [minimum.sizeOf_spec]
    have : sizeOf a < sizeOf as := List.sizeOf_lt_of_mem h
    omega
  | maximum as =>
    rw [maximum.sizeOf_spec]
    have : sizeOf a < sizeOf as := List.sizeOf_lt_of_mem h
    omega
  | distinct as =>
    rw [distinct.sizeOf_spec]
    have : sizeOf a < sizeOf as := List.sizeOf_lt_of_mem h
    omega
  | count as v =>
    rw [count.sizeOf_spec]
    rcases List.mem_append.1 h with h | h
    · have := List.sizeOf_lt_of_mem h; omega
    · rw [List.mem_singleton.1 h]; omega
  | element as i =>
    rw [element.sizeOf_spec]
    rcases List.mem_append.1 h with h | h
    · have := List.sizeOf_lt_of_mem h; omega
    · rw [List.mem_singleton.1 h]; omega

end Function

end ConstraintModel
