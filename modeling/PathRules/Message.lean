import PathRules.Validator
/-!
Messages. The key of a message names the rule that failed; a translator turns the key and the
placeholders of the rule into text. A template is filled in one pass from left to right: at each
colon the longest name of a placeholder that stands there is replaced, and what was put in is not
looked at again.
-/

namespace PathRules

/-- Turns the key of a message and its placeholders into text. -/
abbrev Translator := String → List (String × String) → String

namespace Message

/-- The message for data that is null. -/
def malformedInput : String := "malformed input"

def isElement (l : Location) : Bool :=
  match l.getLast? with
  | some (.index _) => true
  | _ => false

/-- The key of the message of a failed rule: its name, the kind of the value if the rule depends on
it, and whether the value is an element. -/
def key (v : Validator) (c : Context) : String :=
  "validation.rules." ++ v.name ++ (if v.kindDependent then "." ++ c.value.kind.word else "") ++
    (if isElement c.location then ".element" else "")

def ofFailure (translate : Translator) (v : Validator) (c : Context) : String :=
  translate (key v c) ((":field", c.fieldName) :: v.placeholders c)

/-- The text of a key is the key itself. -/
def keys : Translator := fun key _ => key

/-- The placeholders in the order in which they are tried: longer names first, otherwise as
given. -/
def byLength (placeholders : List (String × String)) : List (String × String) :=
  placeholders.mergeSort fun a b => b.1.utf8ByteSize ≤ a.1.utf8ByteSize

/-- The first placeholder whose name stands at the start of the text. A placeholder without name
stands nowhere. -/
def placeholderAt? (placeholders : List (String × String)) (text : List Char) :
    Option (String × String) :=
  placeholders.find? fun (name, _) => !name.isEmpty && name.toList.isPrefixOf text

/-- Fills the rest of a template, the first `skip` characters of which belong to a name that was
replaced. -/
def fillFrom (placeholders : List (String × String)) : (skip : Nat) → List Char → List Char
  | _, [] => []
  | skip + 1, _ :: rest => fillFrom placeholders skip rest
  | 0, c :: rest =>
    if c = ':' then
      match placeholderAt? placeholders (c :: rest) with
      | some (name, value) => value.toList ++ fillFrom placeholders (name.length - 1) rest
      | none => ':' :: fillFrom placeholders 0 rest
    else c :: fillFrom placeholders 0 rest

def fill (template : String) (placeholders : List (String × String)) : String :=
  String.ofList (fillFrom (byLength placeholders) 0 template.toList)

/-- The translator that fills the templates of a table; a key without template is its own text. -/
def table (templates : List (String × String)) : Translator := fun key placeholders =>
  match Keyed.get? templates key with
  | some template => fill template placeholders
  | none => key

end Message
end PathRules
