import PathRules.Registry
import PathRules.Rules.Arguments
import PathRules.Rules.Compare
import PathRules.Rules.Distinct
import PathRules.Rules.Format
import PathRules.Rules.Known
import PathRules.Rules.Size
import PathRules.Rules.Structural
/-!
The registries of the rules of this library: the structural ones alone, and all of them.
-/

namespace PathRules.Rules

/-- The factory of a rule without arguments. -/
def plain (name : String) (v : Validator) : String × RuleFactory :=
  (name, fun arguments => do
    noArguments name arguments
    return v)

def withArgument (name : String) (make : String → Validator) : String × RuleFactory :=
  (name, fun arguments => (singleArgument name arguments).map make)

def withNumber (name : String) (make : Float → Validator) : String × RuleFactory :=
  (name, fun arguments => do
    let argument ← singleArgument name arguments
    let bound ← numberArgument name argument
    return make bound)

/-- Makes the rule of a required field by the name of its flag. -/
def makeRequiredIf : RuleFactory
  | [flag] => .ok (requiredIfFlag flag)
  | _ => badArguments "required_if" "expected the name of one extra flag"

/-- Makes the rule of dates, with a pattern if there are arguments. The pattern may hold commas. -/
def makeDate : RuleFactory
  | [] => .ok (date none)
  | arguments =>
    let pattern := joinedArguments arguments
    if pattern.isEmpty then badArguments "date" "format cannot be empty"
    else .ok (date (some pattern))

def makeBetween : RuleFactory := fun arguments => do
  expectCount "between" arguments 2
  let least ← numberArgument "between" (arguments.getD 0 "")
  let most ← numberArgument "between" (arguments.getD 1 "")
  if most < least then
    badArguments "between" ("lower bound " ++ Decimal.plainText least ++ " is above upper bound " ++
      Decimal.plainText most)
  else return between least most

/-- Makes the rule of a regular expression, which may hold commas. -/
def makeRegex : RuleFactory := fun arguments =>
  let pattern := joinedArguments arguments
  if pattern.isEmpty then badArguments "regex" "pattern cannot be empty"
  else
    match regex pattern with
    | .ok v => .ok v
    | .error reason => badArguments "regex" reason

def makeOneOf : RuleFactory := fun arguments =>
  (listArgument "in" arguments).map oneOf

def structuralFactories : List (String × RuleFactory) :=
  [plain "required" required, ("required_if", makeRequiredIf), plain "nullable" nullable,
    plain "array" array, plain "object" object]

/-- The rules about values. -/
def valueFactories : List (String × RuleFactory) :=
  [plain "string" string, plain "integer" integer, plain "numeric" numeric, plain "bool" boolean,
    ("date", makeDate), withArgument "after" after, withArgument "before" before,
    withArgument "same" same, plain "after_now" afterNow, withNumber "min" atLeast,
    withNumber "max" atMost, ("between", makeBetween), plain "email" email, plain "url" url,
    plain "uuid" uuid, plain "alpha" alpha, plain "alpha_num" alphaNum, ("regex", makeRegex),
    ("in", makeOneOf), plain "distinct" distinct, withArgument "exists" isKnown,
    withArgument "unique" isUnknown]

def structural : Registry := ⟨structuralFactories⟩

def standard : Registry := ⟨structuralFactories ++ valueFactories⟩

end PathRules.Rules
