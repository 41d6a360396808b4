import ConstraintModel.Bounds

namespace ConstraintModel

inductive Kind where
  | bool | int
  deriving DecidableEq, Repr

inductive Origin where
  | user | auxiliary
  deriving DecidableEq, Repr

/-- A decision variable. It is identified by its index in the store that
created it and carries its domain with it. -/
structure Variable where
  index : Nat
  bounds : Bounds
  kind : Kind
  deriving DecidableEq, Repr

namespace Variable

def isBool (x : Variable) : Bool := x.kind == .bool

def text (x : Variable) : String :=
  match x.kind with
  | .bool => "BV" ++ toString x.index
  | .int => "IV" ++ toString x.index

end Variable

structure Definition where
  bounds : Bounds
  kind : Kind
  origin : Origin
  deriving DecidableEq, Repr

/-- The definitions of all variables created so far. Indices are handed out
in order and are never used again. -/
structure Store where
  definitions : Array Definition
  deriving DecidableEq, Repr

namespace Store

def empty : Store := ⟨#[]⟩

def size (s : Store) : Nat := s.definitions.size

def isEmpty (s : Store) : Bool := s.definitions.isEmpty

def isAuxiliary (s : Store) (x : Variable) : Bool :=
  match s.definitions[x.index]? with
  | some d => d.origin == .auxiliary
  | none => false

def add (s : Store) (d : Definition) : Variable × Store :=
  (⟨s.size, d.bounds, d.kind⟩, ⟨s.definitions.push d⟩)

theorem size_add (s : Store) (d : Definition) : (s.add d).2.size = s.size + 1 := by
  simp [add, size]

theorem index_add (s : Store) (d : Definition) : (s.add d).1.index = s.size := rfl

theorem definitions_add (s : Store) (d : Definition) {i : Nat} (h : i < s.size) :
    (s.add d).2.definitions[i]? = s.definitions[i]? := by
  have h : i < s.definitions.size := h
  simp [add, Array.getElem?_push, Nat.ne_of_lt h]

end Store

end ConstraintModel
