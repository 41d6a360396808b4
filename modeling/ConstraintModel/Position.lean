import ConstraintModel.Lowering

namespace ConstraintModel

variable {α β : Type}

def entryAt? (as : List α) (i : Int) : Option α := if 0 ≤ i then as[i.toNat]? else none

def pairs : List α → List (α × α)
  | [] => []
  | a :: as => as.map (a, ·) ++ pairs as

def neighbours (as : List α) : List (α × α) := as.zip as.tail

def indexed (as : List α) : List (Int × α) := as.zipIdx.map fun (a, i) => (Int.ofNat i, a)

/-- Restricts an expression to the positions of a list of the given length,
as far as its bounds do not do so already. -/
def Expr.inRange (x : Expr) (length : Nat) : Checked (List Expr) := do
  let b ← x.bounds
  let lower := if b.lower < 0 then [cmp .ge x (int 0)] else []
  let upper := if length ≤ b.upper then [cmp .lt x (int length)] else []
  return lower ++ upper

theorem entryAt?_map (f : α → β) (as : List α) (i : Int) :
    entryAt? (as.map f) i = (entryAt? as i).map f := by
  unfold entryAt?
  split
  · exact List.getElem?_map ..
  · rfl

theorem mem_of_entryAt? {as : List α} {i : Int} {a : α} (h : entryAt? as i = some a) : a ∈ as := by
  unfold entryAt? at h
  split at h
  · exact List.mem_of_getElem? h
  · cases h

end ConstraintModel
