import PathRules.Compile
import PathRules.Registry
import PathRules.Text.Quoted
/-!
Descriptions of rules on one line, for those who look for a mistake in them. A description names the
parts of a thing with their own descriptions; validators stand as their names.
-/

namespace PathRules

namespace Description

def list (items : List String) : String :=
  "[" ++ String.intercalate ", " items ++ "]"

/-- A thing with described parts. -/
def record (name : String) (parts : List (String × String)) : String :=
  let texts := parts.map fun (label, text) => label ++ ": " ++ text
  name ++ " \x7b " ++ String.intercalate ", " texts ++ " \x7d"

/-- A case of a thing with one described part. -/
def variant (name part : String) : String :=
  name ++ "(" ++ part ++ ")"

def nameList (vs : List Validator) : String :=
  list (vs.map Validator.name)

end Description

open Description

def Registry.description (r : Registry) : String :=
  record "Registry" [("rules", list (r.names.map Text.quoted))]

namespace RuleSet

mutual

def entryDescription : RuleEntry → String
  | .rules vs => variant "Rules" (nameList vs)
  | .nested entries =>
    variant "Nested" (record "RuleSet" [("entries", list (entryDescriptions entries))])
  | .scoped depth vs =>
    record "Scoped" [("prefix_depth", Text.integerText depth), ("rules", nameList vs)]

def entryDescriptions : List (String × RuleEntry) → List String
  | [] => []
  | (path, entry) :: rest =>
    ("(" ++ Text.quoted path ++ ", " ++ entryDescription entry ++ ")") :: entryDescriptions rest

end

def description (set : RuleSet) : String :=
  record "RuleSet" [("entries", list (entryDescriptions set))]

end RuleSet

def Field.description (f : Field) : List Field → String
  | [] => text "None"
  | item :: rest => text (variant "Some" (item.description rest))
where
  /-- The description with that of the element field. -/
  text (elements : String) : String :=
    record "Field" [("path", Text.quoted f.path.text), ("validators", nameList f.validators),
      ("prefix_depth", Text.integerText f.info.prefixDepth), ("elements", elements)]

def CompiledRules.description (c : CompiledRules) : String :=
  record "CompiledRules" [("fields", list (c.chains.map fun chain =>
    chain.head.description chain.items))]

end PathRules
