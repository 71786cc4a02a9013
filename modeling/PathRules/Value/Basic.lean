import PathRules.Calendar.Instant
import PathRules.Decimal.Binary
import PathRules.Keyed.Basic
import PathRules.Location
/-!
The data that rules are checked against: a tree of scalars, sequences and maps. Maps keep the order
in which their keys came. Equality ignores that order, tells an integer from the double of the same
value, and finds NaN equal to nothing.
-/

namespace PathRules

/-- A value of the host that is carried along and never looked into, such as an uploaded file. Two
handles are equal when they are the same one. -/
structure Handle where
  kind : String
  id : Int
  deriving DecidableEq, Repr, Inhabited

/-- A node of the data. -/
inductive Value where
  | null
  | bool (b : Bool)
  | int (n : Int64)
  | float (x : Float)
  | string (s : String)
  | date (t : Instant)
  | sequence (items : List Value)
  | map (entries : List (String × Value))
  | handle (h : Handle)
  deriving Inhabited

namespace Value

/-- The broad kinds of values, which select the wording of messages. -/
inductive Kind where
  | null | bool | numeric | string | date | array | object | file
  deriving DecidableEq, Repr

/-- The word for a kind in the keys of messages. -/
def Kind.word : Kind → String
  | null => "null"
  | bool => "bool"
  | numeric => "numeric"
  | string => "string"
  | date => "date"
  | array => "array"
  | object => "object"
  | file => "file"

def kind : Value → Kind
  | null => .null
  | bool _ => .bool
  | int _ => .numeric
  | float _ => .numeric
  | string _ => .string
  | date _ => .date
  | sequence _ => .array
  | map _ => .object
  | handle _ => .file

def isNull : Value → Bool
  | null => true
  | _ => false

def isSequence : Value → Bool
  | sequence _ => true
  | _ => false

def isMap : Value → Bool
  | map _ => true
  | _ => false

def isNumber : Value → Bool
  | int _ => true
  | float _ => true
  | _ => false

def string? : Value → Option String
  | string s => some s
  | _ => none

def bool? : Value → Option Bool
  | bool b => some b
  | _ => none

def int? : Value → Option Int64
  | int n => some n
  | _ => none

/-- The number of an integer or a double, as the nearest double. -/
def float? : Value → Option Float
  | int n => some (Decimal.ofInteger n.toInt)
  | float x => some x
  | _ => none

def date? : Value → Option Instant
  | date t => some t
  | _ => none

def sequence? : Value → Option (List Value)
  | sequence items => some items
  | _ => none

def map? : Value → Option (List (String × Value))
  | map entries => some entries
  | _ => none

def handle? : Value → Option Handle
  | handle h => some h
  | _ => none

mutual

def eq : Value → Value → Bool
  | null, null => true
  | bool a, bool b => a == b
  | int a, int b => a == b
  | float a, float b => a == b
  | string a, string b => a == b
  | date a, date b => a == b
  | sequence a, sequence b => eqItems a b
  | map a, map b => a.length == b.length && entriesIn a b
  | handle a, handle b => a == b
  | _, _ => false

/-- Whether two lists have the same length and equal items at each place. -/
def eqItems : List Value → List Value → Bool
  | [], [] => true
  | a :: as, b :: bs => eq a b && eqItems as bs
  | _, _ => false

/-- Whether each of some entries has an equal value in a map. -/
def entriesIn : List (String × Value) → List (String × Value) → Bool
  | [], _ => true
  | (key, a) :: rest, entries =>
    (match Keyed.get? entries key with
      | some b => eq a b
      | none => false) && entriesIn rest entries

end

instance : BEq Value := ⟨eq⟩

mutual

/-- Whether no map in the tree holds a key twice. -/
def WellFormed : Value → Prop
  | sequence items => WellFormedItems items
  | map entries => (Keyed.keys entries).Nodup ∧ WellFormedEntries entries
  | _ => True

def WellFormedItems : List Value → Prop
  | [] => True
  | item :: rest => WellFormed item ∧ WellFormedItems rest

def WellFormedEntries : List (String × Value) → Prop
  | [] => True
  | (_, value) :: rest => WellFormed value ∧ WellFormedEntries rest

end

/-- Induction on a tree, with leaves apart from sequences and maps. -/
theorem tree_induction {P : Value → Prop}
    (leaf : ∀ v : Value, v.isSequence = false → v.isMap = false → P v)
    (sequence : ∀ items, (∀ v ∈ items, P v) → P (sequence items))
    (map : ∀ entries, (∀ e ∈ entries, P e.2) → P (map entries)) : ∀ v, P v
  | .sequence items => sequence items fun v _ => tree_induction leaf sequence map v
  | .map entries => map entries fun e _ => tree_induction leaf sequence map e.2
  | .null => leaf _ rfl rfl
  | .bool _ => leaf _ rfl rfl
  | .int _ => leaf _ rfl rfl
  | .float _ => leaf _ rfl rfl
  | .string _ => leaf _ rfl rfl
  | .date _ => leaf _ rfl rfl
  | .handle _ => leaf _ rfl rfl
termination_by v => sizeOf v
decreasing_by
  · have hlt := List.sizeOf_lt_of_mem ‹v ∈ items›
    simp only [Value.sequence.sizeOf_spec]
    omega
  · have hlt := List.sizeOf_lt_of_mem ‹e ∈ entries›
    have hvalue : sizeOf e = 1 + sizeOf e.1 + sizeOf e.2 := rfl
    simp only [Value.map.sizeOf_spec]
    omega

theorem wellFormedItems_iff {items : List Value} :
    WellFormedItems items ↔ ∀ v ∈ items, v.WellFormed := by
  induction items with
  | nil => simp [WellFormedItems]
  | cons v items ih => simp [WellFormedItems, ih]

theorem wellFormedEntries_iff {entries : List (String × Value)} :
    WellFormedEntries entries ↔ ∀ e ∈ entries, e.2.WellFormed := by
  induction entries with
  | nil => simp [WellFormedEntries]
  | cons e entries ih =>
    obtain ⟨key, v⟩ := e
    rw [WellFormedEntries, ih, List.forall_mem_cons]

theorem wellFormed_map_iff {entries : List (String × Value)} :
    (map entries).WellFormed ↔
      (Keyed.keys entries).Nodup ∧ ∀ e ∈ entries, e.2.WellFormed := by
  rw [WellFormed, wellFormedEntries_iff]

theorem wellFormed_sequence_iff {items : List Value} :
    (sequence items).WellFormed ↔ ∀ v ∈ items, v.WellFormed := by
  rw [WellFormed, wellFormedItems_iff]

def child? (v : Value) (s : Segment) : Option Value :=
  match v, s with
  | map entries, .key name => Keyed.get? entries name
  | sequence items, .index i => ((Segment.index i).place?).bind fun n => items[n]?
  | _, _ => none

def get? (v : Value) : Location → Option Value
  | [] => some v
  | s :: rest => (v.child? s).bind fun c => c.get? rest

@[simp] theorem get?_nil (v : Value) : v.get? [] = some v := rfl

theorem get?_append (v : Value) (l m : Location) :
    v.get? (l ++ m) = (v.get? l).bind fun c => c.get? m := by
  induction l generalizing v with
  | nil => rfl
  | cons s rest ih =>
    simp only [List.cons_append, get?]
    cases v.child? s with
    | none => rfl
    | some c => simpa using ih c

end Value
end PathRules
