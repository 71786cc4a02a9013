import PathRules.RuleSet
import PathRules.Text.Blank
/-!
Registries: the rules that can be declared by name. A declaration is the name of a rule, or a name,
a colon and arguments between commas; blanks around each part mean nothing.
-/

namespace PathRules

/-- Makes a rule from its arguments. -/
abbrev RuleFactory := List String → Except ConfigError Validator

/-- A declared rule: its name and its arguments. -/
structure RuleCall where
  name : String
  arguments : List String
  deriving DecidableEq, Repr

namespace RuleCall

/-- The parts of a text between separators. -/
def splitAt (mark : Char) : List Char → List (List Char)
  | [] => [[]]
  | c :: rest =>
    if c = mark then [] :: splitAt mark rest
    else
      match splitAt mark rest with
      | [] => [[c]]
      | part :: parts => (c :: part) :: parts

/-- The text before the first colon and the text behind it. -/
def splitName (cs : List Char) : List Char × Option (List Char) :=
  let name := cs.takeWhile (· != ':')
  match cs.drop name.length with
  | [] => (name, none)
  | _ :: rest => (name, some rest)

/-- The arguments that a text gives. -/
def argumentsOf (cs : List Char) : List String :=
  (splitAt ',' cs).map fun part => String.ofList (Text.trimList part)

def ofString (declaration : String) : Except ConfigError RuleCall :=
  let cs := Text.trimList declaration.toList
  let (name, arguments) := splitName cs
  let name := String.ofList (Text.trimList name)
  if name.isEmpty then
    .error (.malformedDeclaration ("missing rule name in \"" ++ String.ofList cs ++ "\""))
  else .ok ⟨name, (arguments.map argumentsOf).getD []⟩

end RuleCall

/-- The rules that are known by name. -/
structure Registry where
  factories : List (String × RuleFactory)

namespace Registry

def empty : Registry := ⟨[]⟩

/-- Makes a rule known by a name, in place of any other of that name. -/
def register (r : Registry) (name : String) (factory : RuleFactory) : Registry :=
  ⟨Keyed.put r.factories name factory⟩

def contains (r : Registry) (name : String) : Bool :=
  Keyed.has r.factories name

def names (r : Registry) : List String :=
  (Keyed.keys r.factories).mergeSort fun a b => decide (a ≤ b)

def build (r : Registry) (declaration : String) : Except ConfigError Validator := do
  let call ← RuleCall.ofString declaration
  match Keyed.get? r.factories call.name with
  | none => .error (.unknownValidator call.name)
  | some factory => factory call.arguments

def buildAll (r : Registry) (declarations : List String) : Except ConfigError (List Validator) :=
  declarations.mapM r.build

end Registry

namespace RuleSet

def declarationsOf (path : String) (items : List Json) : Except ConfigError (List String) :=
  items.mapM fun item =>
    match item with
    | .string s => .ok s
    | _ => .error (.malformedDeclaration ("rules of \"" ++ path ++ "\" must be strings"))

mutual

/-- The entry for a path in a document: a list of declarations or a document of its own. -/
def entryOfJson (registry : Registry) (path : String) : Json → Except ConfigError RuleEntry
  | .array items => do
    let declarations ← declarationsOf path items
    let validators ← registry.buildAll declarations
    return .rules validators
  | .object members => do
    let entries ← entriesOfJson registry members
    return .nested entries
  | _ =>
    .error (.malformedDeclaration
      ("\"" ++ path ++ "\" must map to a list of rules or a nested rule set"))

def entriesOfJson (registry : Registry) :
    List (String × Json) → Except ConfigError (List (String × RuleEntry))
  | [] => .ok []
  | (path, value) :: rest => do
    let entry ← entryOfJson registry path value
    let entries ← entriesOfJson registry rest
    return (path, entry) :: entries

end

/-- The rule set that a document declares: an object from paths to lists of declarations or to rule
sets below them. -/
def ofJson (registry : Registry) : Json → Except ConfigError RuleSet
  | .object members => entriesOfJson registry members
  | _ => .error (.malformedDeclaration "rule set must be an object")

/-- The rule set that the text of a document declares. -/
def ofText (registry : Registry) (text : String) : Except ConfigError RuleSet :=
  match Json.read text with
  | .ok document => ofJson registry document
  | .error _ => .error (.malformedDeclaration "invalid JSON")

end RuleSet
end PathRules
