import PathRules.ErrorTree.Basic
import PathRules.Json.Basic
/-!
Error trees as JSON documents. A node is an object with the members `errors`, `fields` and
`elements`; the first is left out when it is empty, the others when the node is not one of a map or
a sequence. The keys of `elements` are the indices in decimal. A document may also give the three
members in an array, and unknown members are skipped.
-/

namespace PathRules.ErrorTree

/-- The members of an object, without those that are left out. -/
def presentMembers (members : List (Bool × String × Json)) : List (String × Json) :=
  members.filterMap fun (present, key, value) => if present then some (key, value) else none

mutual

def toJson : ErrorTree → Json
  | node errors isObject isArray children =>
    .object <| presentMembers
      [(!errors.isEmpty, "errors", .strings errors),
        (isObject, "fields", .object (fieldMembers children)),
        (isArray, "elements", .object (elementMembers children))]

/-- The members for the keys among children. -/
def fieldMembers : List (Segment × ErrorTree) → List (String × Json)
  | [] => []
  | (.key name, t) :: rest => (name, toJson t) :: fieldMembers rest
  | (.index _, _) :: rest => fieldMembers rest

/-- The members for the indices among children. -/
def elementMembers : List (Segment × ErrorTree) → List (String × Json)
  | [] => []
  | (.index i, t) :: rest => (Text.integerText i, toJson t) :: elementMembers rest
  | (.key _, _) :: rest => elementMembers rest

end

/-- The index that a key of `elements` denotes: a number of 64 bits as it is written, without `+`
and leading zeros. -/
def index? (key : String) : Option Int :=
  match Text.integer? key.toList with
  | some i => if Text.integerText i = key ∧ Text.fitsInt64 i then some i else none
  | none => none

/-- The messages of a node, from its member. -/
def errorsOf? : Json → Option (List String)
  | .array items => items.mapM Json.string?
  | _ => none

/-- Puts children in their order; of two for one segment the later one stays. -/
def sortChildren (children : List (Segment × ErrorTree)) : List (Segment × ErrorTree) :=
  children.foldl (fun acc (s, t) => Keyed.upsert Segment.isBefore (fun _ => t) acc s) []

/-- A node from what its members denote; a missing member is empty. -/
def assemble (errors : Option (List String))
    (fields elements : Option (List (Segment × ErrorTree))) : ErrorTree :=
  node (errors.getD []) fields.isSome elements.isSome
    (sortChildren (fields.getD [] ++ elements.getD []))

/-- What the members of a node denote, each at most once. -/
structure Parts where
  errors : Option (List String) := none
  fields : Option (Option (List (Segment × ErrorTree))) := none
  elements : Option (Option (List (Segment × ErrorTree))) := none

/-- The node that parts make up. -/
def Parts.toTree (p : Parts) : ErrorTree :=
  assemble p.errors (p.fields.getD none) (p.elements.getD none)

mutual

/-- The tree that a document denotes. -/
def ofJson? : Json → Option ErrorTree
  | .object members => (ofMembers? {} members).map Parts.toTree
  | .array items => (ofItems? items).map Parts.toTree
  | _ => none

def ofMembers? (parts : Parts) : List (String × Json) → Option Parts
  | [] => some parts
  | ("errors", value) :: rest => do
    let errors ← errorsOf? value
    ofMembers? { parts with errors := some errors } rest
  | ("fields", value) :: rest => do
    let fields ← fieldsOf? value
    ofMembers? { parts with fields := some fields } rest
  | ("elements", value) :: rest => do
    let elements ← elementsOf? value
    ofMembers? { parts with elements := some elements } rest
  | _ :: rest => ofMembers? parts rest

def ofItems? : List Json → Option Parts
  | [] => some {}
  | [errors] => do
    let errors ← errorsOf? errors
    return { errors := some errors }
  | [errors, fields] => do
    let errors ← errorsOf? errors
    let fields ← fieldsOf? fields
    return { errors := some errors, fields := some fields }
  | [errors, fields, elements] => do
    let errors ← errorsOf? errors
    let fields ← fieldsOf? fields
    let elements ← elementsOf? elements
    return { errors := some errors, fields := some fields, elements := some elements }
  | _ => none

/-- The children for the keys of a map, which may be null. -/
def fieldsOf? : Json → Option (Option (List (Segment × ErrorTree)))
  | .null => some none
  | .object members => (fieldChildren? members).map some
  | _ => none

/-- The children for the indices of a sequence, which may be null. -/
def elementsOf? : Json → Option (Option (List (Segment × ErrorTree)))
  | .null => some none
  | .object members => (elementChildren? members).map some
  | _ => none

def fieldChildren? : List (String × Json) → Option (List (Segment × ErrorTree))
  | [] => some []
  | (key, value) :: rest => do
    let t ← ofJson? value
    let children ← fieldChildren? rest
    return (.key key, t) :: children

def elementChildren? : List (String × Json) → Option (List (Segment × ErrorTree))
  | [] => some []
  | (key, value) :: rest => do
    let i ← index? key
    let t ← ofJson? value
    let children ← elementChildren? rest
    return (.index i, t) :: children

end

end PathRules.ErrorTree
