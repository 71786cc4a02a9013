import PathRules.Validator
/-!
Rules that ask a lookup whether a value is known. A value that is already invalid is not asked
about. When the lookup cannot answer, in time or at all, the rule fails and the cause is reported.
-/

namespace PathRules.Rules

/-- Asks the lookup of the call about the value under validation. -/
def ask (c : Context) (scope : String) : LookupAnswer :=
  match c.call.extras.lookup with
  | none => { result := .error (.unavailable "no lookup in extras") }
  | some lookup =>
    if c.deadlinePassed then { result := .error (.timeout c.remainingTime) }
    else lookup.ask scope c.value c.remainingTime

/-- The verdict on a value by what a lookup says about it. -/
def verdictBy (accept : Bool → Bool) (c : Context) (scope : String) : Verdict :=
  if c.invalid then { accepted := true, value := c.value }
  else
    let answer := ask c scope
    match answer.result with
    | .ok known =>
      { accepted := accept known, value := c.value, notes := answer.notes
        elapsed := answer.elapsed }
    | .error cause =>
      { accepted := false, value := c.value, failures := [cause], notes := answer.notes
        elapsed := answer.elapsed }

def isKnown (scope : String) : Validator where
  name := "exists"
  check c := verdictBy id c scope

/-- The value must not be known in a scope. -/
def isUnknown (scope : String) : Validator where
  name := "unique"
  check c := verdictBy not c scope

end PathRules.Rules
