import PathRules.Json.Basic
import PathRules.Decimal.Notation
/-!
The compact text of a JSON document: no blanks, members in order, the five short escapes where they
exist and `\u00xx` for the other control characters. A double without decimal text is `null`.
-/

namespace PathRules.Json

/-- A digit of a two-digit hexadecimal number below 32. -/
def hexDigit (n : Nat) : Char :=
  (Nat.toDigits 16 n).headD '0'

/-- How one character stands inside a JSON string. -/
def escapeChar (c : Char) : List Char :=
  match c with
  | '"' => ['\\', '"']
  | '\\' => ['\\', '\\']
  | '\x08' => ['\\', 'b']
  | '\x0c' => ['\\', 'f']
  | '\n' => ['\\', 'n']
  | '\r' => ['\\', 'r']
  | '\t' => ['\\', 't']
  | c =>
    if c.toNat < 32 then
      ['\\', 'u', '0', '0', hexDigit (c.toNat / 16), hexDigit (c.toNat % 16)]
    else [c]

def quote (s : String) : String :=
  String.ofList ('"' :: (s.toList.flatMap escapeChar) ++ ['"'])

/-- The text of a double, `null` when it has none. -/
def realText (x : Float) : String :=
  (Decimal.documentText? x).getD "null"

/-- The parts of a list with commas between them and brackets around them. -/
def bracketed (opening closing : String) (parts : List String) : String :=
  opening ++ String.intercalate "," parts ++ closing

mutual

def render : Json → String
  | null => "null"
  | bool b => if b then "true" else "false"
  | integer n => Text.integerText n
  | real x => realText x
  | string s => quote s
  | array items => bracketed "[" "]" (renderItems items)
  | object members => bracketed "\x7b" "\x7d" (renderMembers members)

def renderItems : List Json → List String
  | [] => []
  | item :: rest => render item :: renderItems rest

def renderMembers : List (String × Json) → List String
  | [] => []
  | (key, value) :: rest => (quote key ++ ":" ++ render value) :: renderMembers rest

end

theorem renderItems_eq_map (items : List Json) : renderItems items = items.map render := by
  induction items with
  | nil => rfl
  | cons item rest ih => rw [renderItems, ih, List.map_cons]

theorem renderMembers_eq_map (members : List (String × Json)) :
    renderMembers members = members.map fun m => quote m.1 ++ ":" ++ render m.2 := by
  induction members with
  | nil => rfl
  | cons m rest ih => rw [renderMembers, ih, List.map_cons]

end PathRules.Json
