import PathRules.Keyed.Basic
/-!
JSON documents as trees. Objects keep the order of their members. A number is an integer when it is
written without fraction and exponent and fits a word of 64 bits, signed or unsigned, and a double
otherwise.
-/

namespace PathRules

inductive Json where
  | null
  | bool (b : Bool)
  | integer (n : Int)
  | real (x : Float)
  | string (s : String)
  | array (items : List Json)
  | object (members : List (String × Json))
  deriving Inhabited

namespace Json

def string? : Json → Option String
  | string s => some s
  | _ => none

def array? : Json → Option (List Json)
  | array items => some items
  | _ => none

def object? : Json → Option (List (String × Json))
  | object members => some members
  | _ => none

/-- The member of an object; `null` when it is missing or the document is no object. -/
def member (document : Json) (key : String) : Json :=
  ((document.object?.getD []).lookup key).getD null

def strings (ss : List String) : Json :=
  array (ss.map string)

def stringOrNull : Option String → Json
  | some s => string s
  | none => null

end Json
end PathRules
