import PathRules.Keyed.Sorted
import PathRules.Location
/-!
Messages arranged in the shape of the data they are about. A node has its own messages and the nodes
of its keys and elements, sorted by segment. It also knows whether it is the node of a map and of a
sequence at all, since a map may be noted before any of its keys. Index -1 holds messages about an
element that does not exist.
-/

namespace PathRules

inductive ErrorTree where
  | node (errors : List String) (isObject isArray : Bool) (children : List (Segment × ErrorTree))
  deriving Inhabited

namespace ErrorTree

def empty : ErrorTree := node [] false false []

/-- The messages of a node itself. -/
def errors : ErrorTree → List String
  | node errors _ _ _ => errors

def isObject : ErrorTree → Bool
  | node _ isObject _ _ => isObject

def isArray : ErrorTree → Bool
  | node _ _ isArray _ => isArray

def children : ErrorTree → List (Segment × ErrorTree)
  | node _ _ _ children => children

def child? (t : ErrorTree) (s : Segment) : Option ErrorTree :=
  Keyed.get? t.children s

/-- The node at a location. -/
def get? (t : ErrorTree) : Location → Option ErrorTree
  | [] => some t
  | s :: rest => (t.child? s).bind fun c => c.get? rest

def isKey : Segment → Bool
  | .key _ => true
  | .index _ => false

@[simp] theorem isKey_key (name : String) : isKey (.key name) = true := rfl

@[simp] theorem isKey_index (i : Int) : isKey (.index i) = false := rfl

/-- Updates the child at a segment, which is created if need be. -/
def updateChild (f : ErrorTree → ErrorTree) (s : Segment) : ErrorTree → ErrorTree
  | node errors isObject isArray children =>
    node errors (isObject || isKey s) (isArray || !isKey s)
      (Keyed.upsert Segment.isBefore (fun c => f (c.getD empty)) children s)

/-- Updates the node at a location; nodes on the way are created if need be. -/
def update (f : ErrorTree → ErrorTree) : Location → ErrorTree → ErrorTree
  | [] => f
  | s :: rest => updateChild (update f rest) s

def create (t : ErrorTree) (l : Location) : ErrorTree :=
  update id l t

/-- Adds a message behind those of a node. -/
def append (message : String) : ErrorTree → ErrorTree
  | node errors isObject isArray children => node (errors ++ [message]) isObject isArray children

def add (t : ErrorTree) (l : Location) (message : String) : ErrorTree :=
  update (append message) l t

def ofMessages (messages : List (Location × String)) : ErrorTree :=
  messages.foldl (fun t m => t.add m.1 m.2) empty

mutual

def count : ErrorTree → Nat
  | node errors _ _ children => errors.length + countAll children

def countAll : List (Segment × ErrorTree) → Nat
  | [] => 0
  | (_, t) :: rest => count t + countAll rest

end

def isEmpty (t : ErrorTree) : Bool :=
  t.count == 0

/-- The tree, if it has messages. -/
def nonEmpty? (t : ErrorTree) : Option ErrorTree :=
  if t.isEmpty then none else some t

mutual

/-- The messages of `other` behind those of `own`, node by node. -/
def merge (own : ErrorTree) : (other : ErrorTree) → ErrorTree
  | node errors isObject isArray children =>
    node (own.errors ++ errors) (own.isObject || isObject) (own.isArray || isArray)
      (mergeAll own.children children)

def mergeAll (own : List (Segment × ErrorTree)) :
    List (Segment × ErrorTree) → List (Segment × ErrorTree)
  | [] => own
  | (s, t) :: rest =>
    mergeAll (Keyed.upsert Segment.isBefore (fun c => merge (c.getD empty) t) own s) rest

end

mutual

def eq : ErrorTree → ErrorTree → Bool
  | node e o a c, node e' o' a' c' => e == e' && o == o' && a == a' && eqAll c c'

def eqAll : List (Segment × ErrorTree) → List (Segment × ErrorTree) → Bool
  | [], [] => true
  | (s, a) :: rest, (s', b) :: rest' => s == s' && eq a b && eqAll rest rest'
  | _, _ => false

end

instance : BEq ErrorTree := ⟨eq⟩

/-- The text of the location of a child, given the text of the location above it. -/
def childText (above : String) : Segment → String
  | .key name => if above.isEmpty then name else above ++ "." ++ name
  | .index i => above ++ Segment.text (.index i)

def line (place message : String) : String :=
  (if place.isEmpty then message else place ++ ": " ++ message) ++ "\n"

mutual

/-- One line per message: those of a node, then those of its children. -/
def textAt (place : String) : ErrorTree → String
  | node errors _ _ children => String.join (errors.map (line place)) ++ textAll place children

def textAll (place : String) : List (Segment × ErrorTree) → String
  | [] => ""
  | (s, t) :: rest => textAt (childText place s) t ++ textAll place rest

end

/-- All messages, one line each, behind the texts of their locations. -/
def text (t : ErrorTree) : String :=
  textAt "" t

end ErrorTree
end PathRules
