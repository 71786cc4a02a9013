/-!
Paths: descriptions of one or more places in a tree of data. A path is a list of accessors, where a
name goes to a key of a map and `each` to every element of a sequence; the empty path is the root
itself. Written, names are joined by points and each marker is `[]`, as in `orders[].items[].id`.

A path is also a chain of steps, one for every value on the way: a step says how the way goes on
from that value, and under which key the value was found.
-/

namespace PathRules

/-- How a path goes from a value to the values below it. -/
inductive Accessor where
  /-- To the value of a key. -/
  | key (name : String)
  /-- To every element. -/
  | each
  deriving DecidableEq, Repr, Inhabited

/-- A path. -/
abbrev Path := List Accessor

/-- What the value at a step is expected to be. -/
inductive StepKind where
  /-- The value that the path leads to. -/
  | element
  /-- A sequence, all elements of which are meant. -/
  | array
  /-- A map, one key of which is meant. -/
  | object
  deriving DecidableEq, Repr

/-- A value on the way of a path, with the key that it is found under. -/
structure Step where
  kind : StepKind
  name : Option String
  deriving DecidableEq, Repr

namespace Path

def root : Path := []

/-- The path to the elements of the root. -/
def elements : Path := [.each]

/-- The text of a path that goes on behind a name or a marker. -/
def tailText : Path → String
  | [] => ""
  | .key name :: rest => "." ++ name ++ tailText rest
  | .each :: rest => "[]" ++ tailText rest

def text : Path → String
  | .key name :: rest => name ++ tailText rest
  | p => tailText p

/-- The steps of the rest of a path from a value that was found under a name. -/
def stepsFrom (name : Option String) : Path → List Step
  | [] => [⟨.element, name⟩]
  | .key k :: rest => ⟨.object, name⟩ :: stepsFrom (some k) rest
  | .each :: rest => ⟨.array, name⟩ :: stepsFrom none rest

/-- The steps of a path. A name at the start belongs to the first step. -/
def steps : Path → List Step
  | .key name :: rest => stepsFrom (some name) rest
  | p => stepsFrom none p

def depth : Path → Nat
  | .key _ :: rest => rest.length + 1
  | p => p.length + 1

/-- The number of markers. -/
def arrayDepth (p : Path) : Nat :=
  p.count .each

def hasArray (p : Path) : Bool :=
  p.contains .each

def isRoot (p : Path) : Bool :=
  p.isEmpty

def tail (p : Path) : Step :=
  p.steps.getLastD ⟨.element, none⟩

/-- The path of the first `depth` steps. -/
def truncate : Path → Nat → Path
  | _, 0 => root
  | .key name :: rest, depth + 1 => .key name :: rest.take depth
  | p, depth + 1 => p.take depth

/-- The paths to the sequences whose elements a path goes through, the outermost first. -/
def containers (p : Path) : List Path :=
  (List.range p.length).filterMap fun n => if p[n]? = some .each then some (p.take n) else none

/-- The text of a path below another, both given as text. A marker attaches directly, a name behind
a point; the empty text is the root. -/
def joinText (parent child : String) : String :=
  if parent.isEmpty then child
  else if child.isEmpty then parent
  else if child.toList.head? = some '[' then parent ++ child
  else parent ++ "." ++ child

theorem length_stepsFrom (name : Option String) (p : Path) :
    (stepsFrom name p).length = p.length + 1 := by
  induction p generalizing name with
  | nil => rfl
  | cons a rest ih => cases a <;> simp [stepsFrom, ih]

theorem length_steps (p : Path) : p.steps.length = p.depth := by
  unfold steps depth
  split <;> simp [length_stepsFrom]

end Path
end PathRules
