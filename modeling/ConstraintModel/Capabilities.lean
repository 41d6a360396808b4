namespace ConstraintModel

inductive Context where
  | top | nested
  deriving DecidableEq, Repr

structure Capabilities where
  supported : List String
  supportedNested : List String
  linear : List String
  deriving DecidableEq, Repr

namespace Capabilities

def none : Capabilities := ⟨[], [], []⟩

def supports (caps : Capabilities) : Context → String → Bool
  | .top, name => caps.supported.contains name
  | .nested, name => caps.supportedNested.contains name

def isLinear (caps : Capabilities) (name : String) : Bool :=
  name == "sum" || name == "wsum" || caps.linear.contains name

def extend (a b : Capabilities) : Capabilities :=
  ⟨a.supported ++ b.supported, a.supportedNested ++ b.supportedNested, a.linear ++ b.linear⟩

end Capabilities

end ConstraintModel
