import PathRules.Text.Numeral
/-!
Locations: the way from the root of a tree of data to one of its nodes, as the keys and indices that
lead there. Index -1 stands for an element that does not exist.
-/

namespace PathRules

/-- One step down: a key of a map or an index of a sequence. -/
inductive Segment where
  | key (name : String)
  | index (i : Int)
  deriving DecidableEq, Repr, Inhabited

namespace Segment

/-- The index of an element that does not exist. -/
def missing : Segment := index (-1)

/-- The text of a segment: the key itself, or the index in brackets. -/
def text : Segment → String
  | key name => name
  | index i => "[" ++ Text.integerText i ++ "]"

/-- The place in a sequence that an index denotes. -/
def place? : Segment → Option Nat
  | key _ => none
  | index i => if i < 0 then none else some i.toNat

/-- The order of segments: keys by name, then indices by number. -/
def isBefore : Segment → Segment → Bool
  | key a, key b => a < b
  | key _, index _ => true
  | index _, key _ => false
  | index a, index b => a < b

end Segment

/-- The segments from the root to a node. -/
abbrev Location := List Segment

namespace Location

/-- The text of the segments behind the first: a key follows a point, an index follows directly. -/
def tailText : Location → String
  | [] => ""
  | .key name :: rest => "." ++ name ++ tailText rest
  | .index i :: rest => Segment.text (.index i) ++ tailText rest

/-- The text of a location, such as `items[-1].name`. -/
def text : Location → String
  | [] => ""
  | s :: rest => s.text ++ tailText rest

/-- The location of the containing node; the root is its own parent. -/
def parent (l : Location) : Location :=
  l.dropLast

def fieldName? (l : Location) : Option String :=
  l.reverse.findSome? fun
    | .key name => some name
    | .index _ => none

end Location
end PathRules
