namespace ConstraintModel

inductive Argument (α : Type) where
  | single (value : α)
  | array (values : List α)
  deriving DecidableEq, Repr

namespace Argument

variable {α β : Type}

def toList : Argument α → List α
  | single a => [a]
  | array as => as

def map (f : α → β) : Argument α → Argument β
  | single a => single (f a)
  | array as => array (as.map f)

def attach (arg : Argument α) : Argument { a // a ∈ arg.toList } :=
  match arg with
  | single a => single ⟨a, List.mem_singleton_self a⟩
  | array as => array as.attach

def mapM {m : Type → Type} [Monad m] (f : α → m β) : Argument α → m (Argument β)
  | single a => return single (← f a)
  | array as => return array (← as.mapM f)

theorem sizeOf_lt_of_mem_toList [SizeOf α] {arg : Argument α} {a : α} (h : a ∈ arg.toList) :
    sizeOf a < sizeOf arg := by
  cases arg <;> simp only [toList, List.mem_singleton] at h
  · subst h; simp
  · have := List.sizeOf_lt_of_mem h; simp; omega

end Argument

/-- A call of a function of the backend. The variables in its arguments stand
for variables of the backend, except in the arguments at the verbatim
positions. -/
structure Call (α : Type) where
  name : String
  arguments : List (Argument α)
  verbatim : List Nat
  deriving DecidableEq, Repr

namespace Call

variable {α β : Type}

def args (call : Call α) : List α := call.arguments.flatMap Argument.toList

def map (f : α → β) (call : Call α) : Call β :=
  { call with arguments := call.arguments.map (Argument.map f) }

def attach (call : Call α) : Call { a // a ∈ call.args } :=
  { call with
    arguments := call.arguments.attach.map fun arg =>
      arg.1.attach.map fun a => ⟨a.1, List.mem_flatMap.2 ⟨arg.1, arg.2, a.2⟩⟩ }

def tagged (call : Call α) : List (Bool × Argument α) :=
  call.arguments.zipIdx.map fun (arg, i) => (call.verbatim.contains i, arg)

def substituteM {m : Type → Type} [Monad m] (f : α → m α) (call : Call α) : m (Call α) := do
  let arguments ← call.tagged.mapM fun (isVerbatim, arg) =>
    if isVerbatim then return arg else arg.mapM f
  return { call with arguments }

theorem sizeOf_lt_of_mem_args [SizeOf α] {call : Call α} {a : α} (h : a ∈ call.args) :
    sizeOf a < sizeOf call := by
  obtain ⟨arg, harg, ha⟩ := List.mem_flatMap.1 h
  have := List.sizeOf_lt_of_mem harg
  have := Argument.sizeOf_lt_of_mem_toList ha
  cases call
  simp at *
  omega

end Call

end ConstraintModel
