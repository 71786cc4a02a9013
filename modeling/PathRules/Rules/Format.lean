import PathRules.Regex.Automaton
import PathRules.Regex.Machine
import PathRules.Regex.Parser
import PathRules.Validator
import PathRules.Value.Json
/-!
Rules about the form of texts. Each pattern is a regular expression that must match some part of the
text; the patterns of the named forms match whole texts.
-/

namespace PathRules.Rules

def emailPattern : String :=
  "^[a-zA-Z0-9.!#$%&'*+/=?^_\x60\x7b|\x7d~-]+" ++
    "@[a-zA-Z0-9](?:[a-zA-Z0-9-]\x7b0,61\x7d[a-zA-Z0-9])?" ++
    "(?:\\.[a-zA-Z0-9](?:[a-zA-Z0-9-]\x7b0,61\x7d[a-zA-Z0-9])?)*$"

def urlPattern : String :=
  "^https?://[^\\s/$.?#].[^\\s]*$"

/-- The pattern of identifiers in five groups of hexadecimal digits. -/
def uuidPattern : String :=
  "^[0-9a-fA-F]\x7b8\x7d-[0-9a-fA-F]\x7b4\x7d-[0-9a-fA-F]\x7b4\x7d-[0-9a-fA-F]\x7b4\x7d-" ++
    "[0-9a-fA-F]\x7b12\x7d$"

def alphaPattern : String :=
  "^[\\p\x7bL\x7d\\p\x7bM\x7d]+$"

def alphaNumPattern : String :=
  "^[\\p\x7bL\x7d\\p\x7bM\x7d\\p\x7bN\x7d]+$"

/-- The expression of a pattern; one that matches nothing if it is no pattern. -/
def expressionOf (pattern : String) : Regex :=
  (Regex.ofString pattern).toOption.getD (.chars .empty)

/-- The text must have a part that an expression matches. -/
def matching (name : String) (r : Regex) : Validator :=
  let machine := r.machine
  { name
    check := Validator.judge fun c => c.value.string?.any machine.accepts }

def email : Validator := matching "email" (expressionOf emailPattern)

def url : Validator := matching "url" (expressionOf urlPattern)

def uuid : Validator := matching "uuid" (expressionOf uuidPattern)

def alpha : Validator := matching "alpha" (expressionOf alphaPattern)

def alphaNum : Validator := matching "alpha_num" (expressionOf alphaNumPattern)

/-- The rule of a pattern, or why there is none. -/
def regex (pattern : String) : Except String Validator :=
  match Regex.ofString pattern with
  | .error _ => .error "regex parse error"
  | .ok r =>
    if r.fits then .ok (matching "regex" r)
    else
      .error ("Compiled regex exceeds size limit of " ++ Text.integerText Regex.sizeLimit ++
        " bytes.")

/-- Whether the text of a value is one of a list; only texts, numbers and truth values have one. -/
def isOneOf (texts : List String) : Value → Bool
  | .string s => texts.contains s
  | .int n => texts.contains (Value.int n).text
  | .float x => texts.contains (Value.float x).text
  | .bool b => texts.contains (Value.bool b).text
  | _ => false

def oneOf (texts : List String) : Validator where
  name := "in"
  placeholders _ := [(":values", String.intercalate ", " texts)]
  check := Validator.judge fun c => isOneOf texts c.value

end PathRules.Rules
