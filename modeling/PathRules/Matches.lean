import PathRules.Path.Basic
import PathRules.Value.Basic
/-!
The matches of a path in a tree of data. Every path has matches everywhere: where a key or an
element is missing, the match says so instead of holding a value, and index -1 stands for the
element of a sequence that has none. The matches form a tree that branches at each marker, so that a
visitor who stops ends only the sequence it is in.
-/

namespace PathRules

/-- How a match came about. -/
inductive Found where
  | found
  /-- The container exists, the key or the element does not. -/
  | elementNotFound
  /-- A container on the way is missing or has the wrong shape. -/
  | parentNotFound
  deriving DecidableEq, Repr

structure Match where
  value : Option Value
  parent : Option Value
  /-- The key or the index of the value in its parent. -/
  segment : Option Segment
  location : Location
  found : Found

/-- Where the value of a step comes from. -/
inductive Source where
  | root (v : Value)
  | entry (parent : Value) (s : Segment)
  /-- An element of a value that is present but no sequence. -/
  | misshapen (parent : Value)
  | detached

namespace Source

def value? : Source → Option Value
  | root v => some v
  | entry parent s => parent.child? s
  | misshapen _ => none
  | detached => none

def parent? : Source → Option Value
  | root _ => none
  | entry parent _ => some parent
  | misshapen parent => some parent
  | detached => none

def found : Source → Found
  | root _ => .found
  | entry parent s =>
    match parent, s with
    | .map _, .key _ => if (parent.child? s).isSome then .found else .elementNotFound
    | .sequence _, .index _ => if (parent.child? s).isSome then .found else .elementNotFound
    | _, _ => .parentNotFound
  | misshapen _ => .elementNotFound
  | detached => .parentNotFound

end Source

/-- The matches of a path: one, or those of the elements of a sequence. -/
inductive Matches where
  | one (m : Match)
  | elements (branches : List Matches)

namespace Matches

/-- The matches of the rest of a path from a value. -/
def fromSource (source : Source) (segment : Option Segment) (location : Location) : Path → Matches
  | [] => one ⟨source.value?, source.parent?, segment, location, source.found⟩
  | .key name :: rest =>
    let s := Segment.key name
    let next := match source.value? with
      | some v => if v.isMap then Source.entry v s else .detached
      | none => .detached
    fromSource next (some s) (location ++ [s]) rest
  | .each :: rest =>
    let missing (next : Source) : Matches :=
      fromSource next (some .missing) (location ++ [.missing]) rest
    match source.value? with
    | some (.sequence []) =>
      elements (if rest.isEmpty then [missing (.entry (.sequence []) .missing)] else [])
    | some (.sequence items) =>
      elements <| (List.range items.length).map fun (i : Nat) =>
        let s := Segment.index i
        fromSource (.entry (.sequence items) s) (some s) (location ++ [s]) rest
    | some v => elements [missing (.misshapen v)]
    | none => elements [missing .detached]

/-- The matches of a path from the node at `base`. Where there is no such node, nothing is found,
and the first name of the path adds nothing to the locations. -/
def ofPathAt (p : Path) (data : Value) (base : Location) : Matches :=
  match data.get? base, p with
  | none, .key _ :: rest => fromSource .detached none base rest
  | none, p => fromSource .detached none base p
  | some start, .key name :: rest =>
    fromSource (.entry start (.key name)) (some (.key name)) (base ++ [.key name]) rest
  | some start, p => fromSource (.root start) none base p

def ofPath (p : Path) (data : Value) : Matches :=
  ofPathAt p data []

mutual

def toList : Matches → List Match
  | one m => [m]
  | elements branches => toListAll branches

def toListAll : List Matches → List Match
  | [] => []
  | b :: rest => toList b ++ toListAll rest

end

mutual

/-- Visits the matches in order. A visitor who asks to stop ends the innermost sequence. The last
component says whether the visitor asked to stop. -/
def visit {σ : Type} (f : σ → Match → σ × Bool) (state : σ) : Matches → σ × Bool
  | one m => f state m
  | elements branches => (visitAll f state branches, false)

/-- Visits the branches of a sequence until the visitor asks to stop. -/
def visitAll {σ : Type} (f : σ → Match → σ × Bool) (state : σ) : List Matches → σ
  | [] => state
  | b :: rest =>
    let (next, stop) := visit f state b
    if stop then next else visitAll f next rest

end

end Matches
end PathRules
