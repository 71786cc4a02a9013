import PathRules.Lookup
/-!
Extras: what a call hands to its validators besides the data. There is at most one extra of each
type, and named extras hold plain values, such as flags that rules can ask for.
-/

namespace PathRules

/-- An extra of a type. `shared` tells extras apart that were handed in as a shared value. -/
structure Shared (α : Type) where
  value : α
  shared : Option Nat := none

structure Extras where
  integer : Option (Shared Int64) := none
  text : Option (Shared String) := none
  real : Option (Shared Float) := none
  lookup : Option Lookup := none
  named : List (String × Value) := []

namespace Extras

def empty : Extras := {}

/-- Names a value, in place of any other of that name. -/
def name (e : Extras) (key : String) (v : Value) : Extras :=
  { e with named := Keyed.put e.named key v }

def named? (e : Extras) (key : String) : Option Value :=
  Keyed.get? e.named key

def flag (e : Extras) (key : String) : Bool :=
  ((e.named? key).bind Value.bool?).getD false

def size (e : Extras) : Nat :=
  [e.integer.isSome, e.text.isSome, e.real.isSome, e.lookup.isSome].count true + e.named.length

def isEmpty (e : Extras) : Bool :=
  e.size == 0

/-- The extras of both; where both have one, that of `other` stays. -/
def extend (e other : Extras) : Extras where
  integer := other.integer.orElse fun _ => e.integer
  text := other.text.orElse fun _ => e.text
  real := other.real.orElse fun _ => e.real
  lookup := other.lookup.orElse fun _ => e.lookup
  named := other.named.foldl (fun acc p => Keyed.put acc p.1 p.2) e.named

end Extras
end PathRules
