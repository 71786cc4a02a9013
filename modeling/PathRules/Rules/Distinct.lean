import PathRules.Validator
/-!
The rule that no element of a sequence is repeated. The elements that repeat an earlier one are
reported, each at its index.
-/

namespace PathRules.Rules

/-- The indices, from `i` on, of the items that equal an earlier one; `seen` holds the items before,
the last first. -/
def repeatsFrom (seen : List Value) (i : Nat) : List Value → List Nat
  | [] => []
  | v :: rest =>
    let later := repeatsFrom (v :: seen) (i + 1) rest
    if seen.any (fun w => w == v) then i :: later else later

/-- The indices of the items that equal an earlier one. -/
def repeats (items : List Value) : List Nat :=
  repeatsFrom [] 0 items

def distinct : Validator where
  name := "distinct"
  check c :=
    match c.value with
    | .sequence items =>
      let indices := repeats items
      { accepted := indices.isEmpty, value := c.value, elements := indices }
    | v => { accepted := false, value := v }

end PathRules.Rules
