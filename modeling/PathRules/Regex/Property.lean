import PathRules.Text.Age
import PathRules.Text.Property
import PathRules.Text.ScriptUse
import PathRules.Text.Segment
/-!
Sets of characters by the names that patterns give them. A name alone is that of a property, of a
category or of a script; a name with a value asks for the characters for which a property has that
value.
-/

namespace PathRules.Regex

open PathRules.Text (Category CharSet)

/-- A name in small letters without spaces, underscores and dashes; an `is` in front is left out. -/
def plainName (cs : List Char) : String :=
  let plain (cs : List Char) : List Char :=
    (cs.filter fun c => c.toNat < 128 && c != '_' && c != '-' && c != ' ').map Char.toLower
  match plain (cs.take 2) with
  | ['i', 's'] =>
    let rest := plain (cs.drop 2)
    if rest = ['c'] then "isc" else String.ofList rest
  | _ => String.ofList (plain cs)

/-- The categories that a name stands for, the names of single categories aside. -/
def categoryGroup? (name : String) : Option (List Category) :=
  match name with
  | "l" | "letter" => some (Category.group 'L')
  | "m" | "mark" | "combiningmark" => some (Category.group 'M')
  | "n" | "number" => some (Category.group 'N')
  | "p" | "punctuation" | "punct" => some (Category.group 'P')
  | "z" | "separator" => some (Category.group 'Z')
  | "s" | "symbol" => some (Category.group 'S')
  | "c" | "other" => some (Category.group 'C')
  | "lc" | "casedletter" => some [.uppercaseLetter, .lowercaseLetter, .titlecaseLetter]
  | "cntrl" => some [.control]
  | "digit" => some [.decimalNumber]
  | _ => none

/-- The category with a name; characters never are surrogates. -/
def category? (name : String) : Option Category :=
  Category.all.find? fun c =>
    c != .surrogate &&
      (c.name == name || String.ofList (c.letters.toList.map Char.toLower) == name)

/-- The characters of the category or of the categories with a name. -/
def categorySet? (name : String) : Option CharSet :=
  match name with
  | "any" => some .all
  | "ascii" => some (.range 0 0x7F)
  | "assigned" => some (Category.setOf [.unassigned]).compl
  | name =>
    ((categoryGroup? name).orElse fun _ => (category? name).map fun c => [c]).map Category.setOf

/-- The characters for which the property with a name has a value. -/
def valueSet? (name value : String) : Option CharSet :=
  match name with
  | "generalcategory" | "gc" => categorySet? value
  | "script" | "sc" => (Text.scriptNamed? value).map Text.scriptSet
  | "scriptextensions" | "scx" => (Text.scriptNamed? value).map Text.scriptUse
  | "age" => Text.ageSet? value
  | "graphemeclusterbreak" | "gcb" => Text.namedSet? value Text.graphemeClasses
  | "wordbreak" | "wb" => Text.namedSet? value Text.wordClasses
  | "sentencebreak" | "sb" => Text.namedSet? value Text.sentenceClasses
  | _ => none

/-- The characters of the property, category or script with a name. -/
def nameSet? (name : String) : Option CharSet :=
  (Text.namedSet? name Text.properties).orElse fun _ =>
    (categorySet? name).orElse fun _ => (Text.scriptNamed? name).map Text.scriptSet

/-- A text cut at the first place where a mark stands; none if it stands nowhere. -/
def cutAt? (mark : List Char) : List Char → Option (List Char × List Char)
  | [] => none
  | c :: rest =>
    if mark.isPrefixOf (c :: rest) then some ([], (c :: rest).drop mark.length)
    else (cutAt? mark rest).map fun (before, behind) => (c :: before, behind)

/-- The set that a name in a pattern stands for. The mark between a name and a value is `!=`, `:` or
`=`; all three mean the same, and the first of them that stands anywhere counts. -/
def propertySet? (cs : List Char) : Option CharSet :=
  let cut :=
    (cutAt? ['!', '='] cs).orElse fun _ => (cutAt? [':'] cs).orElse fun _ => cutAt? ['='] cs
  match cut with
  | some (name, value) => valueSet? (plainName name) (plainName value)
  | none => nameSet? (plainName cs)

end PathRules.Regex
