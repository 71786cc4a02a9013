import PathRules.Keyed.Basic
/-!
TOML documents as trees, and how a document grows line by line. A table comes about by a header, by
being on the way to another one, or by dotted keys; the three exclude each other in part, and no key
is defined twice.
-/

namespace PathRules

/-- A value in a TOML document. Numbers with a fraction and dates are kept as text. -/
inductive Toml where
  | text (s : String)
  | integer (n : Int)
  | real (text : String)
  | flag (b : Bool)
  | date (text : String)
  | array (items : List Toml)
  | inlineTable (entries : List (String × Toml))
  /-- A table. `implied` says that no header has named it yet, `dotted` that dotted keys made it. -/
  | table (implied dotted : Bool) (entries : List (String × Toml))
  /-- The tables of an array of tables, the last one first. -/
  | tables (items : List (List (String × Toml)))
  deriving Inhabited

namespace Toml

/-- A table that is being written. -/
structure Table where
  implied : Bool
  dotted : Bool
  entries : List (String × Toml)

def Table.empty : Table := ⟨false, false, []⟩

def Table.toToml (t : Table) : Toml :=
  table t.implied t.dotted t.entries

def Table.put (t : Table) (key : String) (v : Toml) : Table :=
  { t with entries := Keyed.put t.entries key v }

/-- Changes the table at the end of a path, where missing tables on the way are created. Dotted keys
do not go into a table that a header has named. -/
def Table.update (dotted : Bool) (f : Table → Option Table) : List String → Table → Option Table
  | [], t => f t
  | key :: rest, t =>
    match Keyed.get? t.entries key with
    | none => (Table.update dotted f rest ⟨true, dotted, []⟩).map fun c => t.put key c.toToml
    | some (table implied wasDotted entries) =>
      if dotted && !implied then none
      else
        (Table.update dotted f rest ⟨implied, wasDotted, entries⟩).map fun c => t.put key c.toToml
    | some (tables (last :: others)) =>
      (Table.update dotted f rest ⟨false, false, last⟩).map fun c =>
        t.put key (tables (c.entries :: others))
    | some _ => none

/-- Defines a dotted key of a table. -/
def Table.define (path : List String) (v : Toml) (t : Table) : Option Table :=
  match path.getLast? with
  | none => none
  | some key =>
    let parents := path.dropLast
    Table.update true (fun t =>
      if t.dotted == parents.isEmpty || Keyed.has t.entries key then none
      else some (t.put key v)) parents t

/-- Names a table by a header. -/
def Table.openTable (path : List String) (t : Table) : Option Table :=
  match path.getLast? with
  | none => none
  | some key =>
    Table.update false (fun t =>
      match Keyed.get? t.entries key with
      | none => some (t.put key (table false false []))
      | some (table true false entries) => some (t.put key (table false false entries))
      | some _ => none) path.dropLast t

/-- Adds a table to an array of tables by a header. -/
def Table.openArrayTable (path : List String) (t : Table) : Option Table :=
  match path.getLast? with
  | none => none
  | some key =>
    Table.update false (fun t =>
      match Keyed.get? t.entries key with
      | none => some (t.put key (tables [[]]))
      | some (tables items) => some (t.put key (tables ([] :: items)))
      | some _ => none) path.dropLast t

/-- Defines a dotted key in the table that the last header has named. -/
def Table.defineBelow (header path : List String) (v : Toml) (t : Table) : Option Table :=
  Table.update false (Table.define path v) header t

end Toml
end PathRules
