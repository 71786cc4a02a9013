import PathRules.Json.Reader
import PathRules.Json.Writer
import PathRules.Value.Basic
/-!
Values as JSON documents and as text. A document has no handles, infinities and NaN, which become
null, and writes dates as strings. A value also writes itself into a sink, node by node; documents
and compact text are such sinks.
-/

namespace PathRules.Value

/-- The value of a number that a document gives as an integer. -/
def ofInteger (n : Int) : Value :=
  if Text.fitsInt64 n then int (Int64.ofInt n) else float (Decimal.ofInteger n)

mutual

/-- The value that a document denotes. -/
def ofJson : Json → Value
  | .null => null
  | .bool b => bool b
  | .integer n => ofInteger n
  | .real x => float x
  | .string s => string s
  | .array items => sequence (ofJsonItems items)
  | .object members => map (ofJsonMembers members)

def ofJsonItems : List Json → List Value
  | [] => []
  | item :: rest => ofJson item :: ofJsonItems rest

def ofJsonMembers : List (String × Json) → List (String × Value)
  | [] => []
  | (key, value) :: rest => (key, ofJson value) :: ofJsonMembers rest

end

mutual

def toJson : Value → Json
  | null => .null
  | bool b => .bool b
  | int n => .integer n.toInt
  | float x => if (Decimal.Binary.ofFloat? x).isSome then .real x else .null
  | string s => .string s
  | date t => .string t.text
  | sequence items => .array (toJsonItems items)
  | map entries => .object (toJsonEntries entries)
  | handle _ => .null

def toJsonItems : List Value → List Json
  | [] => []
  | item :: rest => toJson item :: toJsonItems rest

def toJsonEntries : List (String × Value) → List (String × Json)
  | [] => []
  | (key, value) :: rest => (key, toJson value) :: toJsonEntries rest

end

/-- What a value is written to: what each kind of node becomes there, given what the nodes below it
became. -/
structure Sink (ρ : Type) where
  null : ρ
  bool : Bool → ρ
  int : Int64 → ρ
  float : Float → ρ
  string : String → ρ
  sequence : List ρ → ρ
  map : List (String × ρ) → ρ

mutual

/-- Writes a value node by node, dates as strings and handles as null. -/
def write {ρ : Type} (sink : Sink ρ) : Value → ρ
  | null => sink.null
  | bool b => sink.bool b
  | int n => sink.int n
  | float x => sink.float x
  | string s => sink.string s
  | date t => sink.string t.text
  | sequence items => sink.sequence (writeItems sink items)
  | map entries => sink.map (writeEntries sink entries)
  | handle _ => sink.null

def writeItems {ρ : Type} (sink : Sink ρ) : List Value → List ρ
  | [] => []
  | item :: rest => write sink item :: writeItems sink rest

def writeEntries {ρ : Type} (sink : Sink ρ) : List (String × Value) → List (String × ρ)
  | [] => []
  | (key, value) :: rest => (key, write sink value) :: writeEntries sink rest

end

theorem ofJsonItems_eq_map (items : List Json) : ofJsonItems items = items.map ofJson := by
  induction items with
  | nil => rfl
  | cons item rest ih => rw [ofJsonItems, ih, List.map_cons]

theorem ofJsonMembers_eq_map (members : List (String × Json)) :
    ofJsonMembers members = members.map fun m => (m.1, ofJson m.2) := by
  induction members with
  | nil => rfl
  | cons m rest ih => rw [ofJsonMembers, ih, List.map_cons]

theorem toJsonItems_eq_map (items : List Value) : toJsonItems items = items.map toJson := by
  induction items with
  | nil => rfl
  | cons item rest ih => rw [toJsonItems, ih, List.map_cons]

theorem toJsonEntries_eq_map (entries : List (String × Value)) :
    toJsonEntries entries = entries.map fun e => (e.1, toJson e.2) := by
  induction entries with
  | nil => rfl
  | cons e rest ih => rw [toJsonEntries, ih, List.map_cons]

theorem writeItems_eq_map {ρ : Type} (sink : Sink ρ) (items : List Value) :
    writeItems sink items = items.map (write sink) := by
  induction items with
  | nil => rfl
  | cons item rest ih => rw [writeItems, ih, List.map_cons]

theorem writeEntries_eq_map {ρ : Type} (sink : Sink ρ) (entries : List (String × Value)) :
    writeEntries sink entries = entries.map fun e => (e.1, write sink e.2) := by
  induction entries with
  | nil => rfl
  | cons e rest ih => rw [writeEntries, ih, List.map_cons]

/-- Writing to documents. The members of an object are put in one after the other. -/
def Sink.document : Sink Json where
  null := .null
  bool b := .bool b
  int n := .integer n.toInt
  float x := if (Decimal.Binary.ofFloat? x).isSome then .real x else .null
  string s := .string s
  sequence items := .array items
  map entries := .object (Keyed.ofPairs entries)

/-- Writing to compact text. -/
def Sink.text : Sink String where
  null := "null"
  bool b := if b then "true" else "false"
  int n := Text.integerText n.toInt
  float x := Json.realText x
  string s := Json.quote s
  sequence items := Json.bracketed "[" "]" items
  map entries := Json.bracketed "\x7b" "\x7d" (entries.map fun (key, text) =>
    Json.quote key ++ ":" ++ text)

/-- The compact JSON text of a value, written without building its document. -/
def jsonText (v : Value) : String :=
  v.write Sink.text

/-- The text of a value as it stands in messages: scalars plainly, sequences and maps as JSON, a
handle as its kind in angle brackets. -/
def text (v : Value) : String :=
  match v with
  | null => "null"
  | bool b => if b then "true" else "false"
  | int n => Text.integerText n.toInt
  | float x => Decimal.plainText x
  | string s => s
  | date t => t.text
  | handle h => "<" ++ h.kind ++ ">"
  | sequence _ => v.jsonText
  | map _ => v.jsonText

end PathRules.Value
