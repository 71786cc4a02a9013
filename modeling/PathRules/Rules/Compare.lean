import PathRules.Rules.Types
/-!
Rules that compare a value with those at another path, which is relative to the rule set of the
field. The comparison must hold with each value that is there; absent ones do not count.
-/

namespace PathRules.Rules

def foundValue? (m : Match) : Option Value :=
  if m.found = .found then m.value else none

/-- Whether a condition holds for every value at another path. The walk leaves a sequence at the
first value for which it fails. -/
def holdsForAll (c : Context) (other : String) (condition : Value → Bool) : Bool :=
  match c.related? other with
  | none => true
  | some ms =>
    (ms.visit (fun holds m =>
      match foundValue? m with
      | none => (holds, false)
      | some v => if condition v then (holds, false) else (false, true)) true).1

/-- Whether the date under validation and each date at another path are in a given order. -/
def datesCompare (c : Context) (other : String) (ordered : Instant → Instant → Bool) : Bool :=
  match instantOf? c.value with
  | none => false
  | some t => holdsForAll c other fun v => (instantOf? v).any (ordered t)

/-- The value must be a date after those at another path. -/
def after (other : String) : Validator where
  name := "after"
  dependsOn := some other
  placeholders _ := [(":date", other)]
  check := Validator.judge fun c => datesCompare c other fun t u => u.isBefore t

/-- The value must be a date before those at another path. -/
def before (other : String) : Validator where
  name := "before"
  dependsOn := some other
  placeholders _ := [(":date", other)]
  check := Validator.judge fun c => datesCompare c other fun t u => t.isBefore u

/-- The value must be a date after the time of the call. -/
def afterNow : Validator where
  name := "after_now"
  check := Validator.judge fun c => (instantOf? c.value).any fun t => c.call.now.isBefore t

/-- The value must equal those at another path. -/
def same (other : String) : Validator where
  name := "same"
  dependsOn := some other
  placeholders _ := [(":other", other)]
  check := Validator.judge fun c => holdsForAll c other fun v => v == c.value

end PathRules.Rules
