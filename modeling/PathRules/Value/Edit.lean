import PathRules.Value.Basic
/-!
Edits of a tree of data at one location. Every edit is an update of the node at a location that
exists; the rest of the tree stays as it is.
-/

namespace PathRules.Value

/-- Puts a child in place of the one at a segment that exists. -/
def putChild (v : Value) (s : Segment) (c : Value) : Value :=
  match v, s with
  | map entries, .key name => map (Keyed.put entries name c)
  | sequence items, .index i => sequence (items.set i.toNat c)
  | v, _ => v

/-- Updates the node at a location; `none` if there is no such node or the update has no result. -/
def update? (v : Value) (f : Value → Option Value) : Location → Option Value
  | [] => f v
  | s :: rest => do
    let c ← v.child? s
    let c ← c.update? f rest
    return v.putChild s c

/-- Gives a key of a map or an index of a sequence its value. A key may be new, an index must be in
range. -/
def setChild? (v : Value) (s : Segment) (new : Value) : Option Value :=
  match v, s with
  | map entries, .key name => some (map (Keyed.put entries name new))
  | sequence items, .index i =>
    match (Segment.index i).place? with
    | some n => if n < items.length then some (sequence (items.set n new)) else none
    | none => none
  | _, _ => none

/-- Replaces the value at a location, or inserts it as a new key when its parent is a map. -/
def set? (v : Value) (l : Location) (new : Value) : Option Value :=
  match l.getLast? with
  | none => some new
  | some s => v.update? (fun parent => parent.setChild? s new) l.dropLast

/-- Moves the value at a location out and leaves null in its place: the value and the tree left. -/
def take? (v : Value) (l : Location) : Option (Value × Value) := do
  let old ← v.get? l
  let rest ← v.update? (fun _ => some null) l
  return (old, rest)

/-- Removes a key from its map: the value and the tree left. Sequences are never shortened. -/
def remove? (v : Value) (l : Location) : Option (Value × Value) := do
  let s ← l.getLast?
  let old ← v.get? l
  let rest ← v.update? (fun parent =>
    match parent, s with
    | map entries, .key name => some (map (Keyed.erase entries name))
    | _, _ => none) l.dropLast
  return (old, rest)

end PathRules.Value
