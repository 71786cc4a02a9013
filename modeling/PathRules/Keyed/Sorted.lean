import PathRules.Keyed.Basic
/-!
Keyed lists in a given order of their keys. `upsert` changes the value of a key or inserts the key
at its place.
-/

namespace PathRules.Keyed

variable {κ α : Type} [DecidableEq κ]

/-- Changes the value of a key, or inserts the key before the first one that comes after it. -/
def upsert (isBefore : κ → κ → Bool) (f : Option α → α) : List (κ × α) → κ → List (κ × α)
  | [], key => [(key, f none)]
  | (k, v) :: rest, key =>
    if k = key then (k, f (some v)) :: rest
    else if isBefore key k then (key, f none) :: (k, v) :: rest
    else (k, v) :: upsert isBefore f rest key

/-- Whether the keys come in the given order, each once. -/
def Sorted (isBefore : κ → κ → Bool) (entries : List (κ × α)) : Prop :=
  (keys entries).Pairwise fun a b => isBefore a b = true

end PathRules.Keyed
