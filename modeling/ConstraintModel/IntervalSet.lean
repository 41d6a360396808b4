import ConstraintModel.Checked

namespace ConstraintModel

/-- A set of integers given by a list of inclusive intervals. It stands for
the list of ranges of an external library. Of its constructor from intervals
`ofIntervals` assumes that it drops the empty ones, sorts the others by their
start, merges a range with the next one when that starts at a distance of at
most 1 from its end, and takes the end of the next one for the result. -/
structure IntervalSet where
  intervals : List (Int × Int)
  deriving DecidableEq, Repr

namespace IntervalSet

def contains (s : IntervalSet) (n : Int) : Bool :=
  s.intervals.any fun (lo, hi) => lo ≤ n && n ≤ hi

/-- The distance is computed even when the intervals overlap, and has to fit. -/
def touches (current next : Int × Int) : Checked Bool :=
  return (← Checked.sub next.1 current.2) ≤ 1

/-- The end of the next interval is taken also when the current one reaches
further. -/
def merge (current : Int × Int) : List (Int × Int) → Checked (List (Int × Int))
  | [] => return [current]
  | next :: rest => do
    if ← touches current next then
      merge (current.1, next.2) rest
    else
      return current :: (← merge next rest)

def ofIntervals (intervals : List (Int × Int)) : Checked IntervalSet := do
  match (intervals.filter fun (lo, hi) => lo ≤ hi).mergeSort (fun a b => a.1 ≤ b.1) with
  | [] => return ⟨[]⟩
  | first :: rest => return ⟨← merge first rest⟩

def runs (current : Int × Int) : List Int → Checked (List (Int × Int))
  | [] => return [current]
  | n :: rest => do
    if (← Checked.add current.2 1) = n then
      runs (current.1, n) rest
    else
      return current :: (← runs (n, n) rest)

def dropRepeats : List Int → List Int
  | a :: b :: rest => if a = b then dropRepeats (b :: rest) else a :: dropRepeats (b :: rest)
  | values => values

def runsOf (values : List Int) : Checked (List (Int × Int)) :=
  match dropRepeats (values.mergeSort (· ≤ ·)) with
  | [] => return []
  | first :: rest => runs (first, first) rest

def ofValues (values : List Int) : Checked IntervalSet := do ofIntervals (← runsOf values)

def intervalText (interval : Int × Int) : String :=
  if interval.1 = interval.2 then toString interval.1
  else toString interval.1 ++ "..=" ++ toString interval.2

def text (s : IntervalSet) : String :=
  "\x7b" ++ ", ".intercalate (s.intervals.map intervalText) ++ "\x7d"

end IntervalSet

end ConstraintModel
