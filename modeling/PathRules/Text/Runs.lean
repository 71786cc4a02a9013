import PathRules.Text.CharSet
/-!
Properties of characters as runs: the code points in order, cut into runs of equal value. A run is
written as the letters of its value and its length, where a length of one is left out.
-/

namespace PathRules.Text

/-- Reads runs whose values have `width` letters, the first of which begins at `start`: the first
code point of each run with its value. -/
def readRuns (width : Nat) (start : Nat) : (fuel : Nat) → List Char → List (Nat × String)
  | 0, _ => []
  | _ + 1, [] => []
  | fuel + 1, cs =>
    let value := String.ofList (cs.take width)
    let rest := cs.drop width
    let run := rest.takeWhile isDigit
    let length := if run.isEmpty then 1 else digitsValue 0 run
    (start, value) :: readRuns width (start + length) fuel (rest.drop run.length)

/-- The value of a code point: that of the last run that begins at or before it. -/
def valueAt {α : Type} (runs : List (Nat × α)) (value : α) (n : Nat) : α :=
  match runs with
  | [] => value
  | (start, next) :: rest => if start ≤ n then valueAt rest next n else value

def rangesWhere {α : Type} (chosen : α → Bool) : List (Nat × α) → List (Nat × Nat)
  | [] => []
  | [(start, value)] => if chosen value then [(start, CharSet.lastCode)] else []
  | (start, value) :: (next, value') :: rest =>
    let others := rangesWhere chosen ((next, value') :: rest)
    if chosen value then (start, next - 1) :: others else others

end PathRules.Text
