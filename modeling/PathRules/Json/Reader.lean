import PathRules.Json.Basic
import PathRules.Decimal.Reading
/-!
Reading a JSON document from text. Blanks are space, tab, line feed and carriage return. A repeated
member keeps its first place and its last value. Documents nest at most 127 levels deep, which also
bounds the recursion of the reader.

A number that is no integer of 64 bits becomes a double in two roundings: the significant digits as
a double, and that multiplied or divided by a power of ten. A result beyond the largest double is an
error.
-/

namespace PathRules.Json

/-- Why a text is no JSON document. -/
inductive ReadError where
  | unexpectedEnd
  | unexpected (c : Char)
  | controlCharacter
  | badEscape
  | loneSurrogate
  | badNumber
  | outOfRange
  | tooDeep
  deriving DecidableEq, Repr

/-- The deepest nesting of arrays and objects in a document. -/
def maxDepth : Nat := 127

def isBlank (c : Char) : Bool :=
  c == ' ' || c == '\t' || c == '\n' || c == '\r'

/-- The text from its first character that is no blank. -/
def skipBlanks (cs : List Char) : List Char :=
  cs.dropWhile isBlank

/-! ### Strings -/

def hexValue? (c : Char) : Option Nat :=
  if '0' ≤ c ∧ c ≤ '9' then some (c.toNat - 48)
  else if 'a' ≤ c ∧ c ≤ 'f' then some (c.toNat - 87)
  else if 'A' ≤ c ∧ c ≤ 'F' then some (c.toNat - 55)
  else none

/-- The unit of 16 bits that four hexadecimal digits denote. -/
def unit? (a b c d : Char) : Option Nat := do
  let a ← hexValue? a
  let b ← hexValue? b
  let c ← hexValue? c
  let d ← hexValue? d
  return ((a * 16 + b) * 16 + c) * 16 + d

/-- The character of an escape of one letter. -/
def escape? : Char → Option Char
  | '"' => some '"'
  | '\\' => some '\\'
  | '/' => some '/'
  | 'b' => some '\x08'
  | 'f' => some '\x0c'
  | 'n' => some '\n'
  | 'r' => some '\r'
  | 't' => some '\t'
  | _ => none

/-- Reads a string behind its opening quote; `acc` holds the characters read, last one first. -/
def readStringRest (acc : List Char) : List Char → Except ReadError (String × List Char)
  | [] => .error .unexpectedEnd
  | '"' :: rest => .ok (String.ofList acc.reverse, rest)
  | '\\' :: 'u' :: a :: b :: c :: d :: rest =>
    match unit? a b c d with
    | none => .error .badEscape
    | some high =>
      if 0xDC00 ≤ high ∧ high ≤ 0xDFFF then .error .loneSurrogate
      else if 0xD800 ≤ high ∧ high ≤ 0xDBFF then
        match rest with
        | '\\' :: 'u' :: e :: f :: g :: h :: rest =>
          match unit? e f g h with
          | none => .error .badEscape
          | some low =>
            if 0xDC00 ≤ low ∧ low ≤ 0xDFFF then
              let code := 0x10000 + (high - 0xD800) * 0x400 + (low - 0xDC00)
              readStringRest (Char.ofNat code :: acc) rest
            else .error .loneSurrogate
        | _ => .error .loneSurrogate
      else readStringRest (Char.ofNat high :: acc) rest
  | '\\' :: c :: rest =>
    match escape? c with
    | some e => readStringRest (e :: acc) rest
    | none => .error .badEscape
  | c :: rest =>
    if c.toNat < 32 then .error .controlCharacter else readStringRest (c :: acc) rest

/-! ### Numbers -/

/-- The significant digits of a number and the power of ten that they are scaled by. -/
structure Significand where
  value : Nat
  exponent : Int
  deriving DecidableEq, Repr

/-- Takes digits before the point while the significand fits a word; each further digit only raises
the exponent. -/
def Significand.addWhole (s : Significand) (d : Nat) : Significand :=
  if s.exponent = 0 ∧ s.value * 10 + d < Text.wordBound then ⟨s.value * 10 + d, 0⟩
  else ⟨s.value, s.exponent + 1⟩

/-- Takes digits behind the point while the significand fits a word. -/
def takeFraction (s : Significand) : List Nat → Significand
  | [] => s
  | d :: ds =>
    if s.value * 10 + d < Text.wordBound then takeFraction ⟨s.value * 10 + d, s.exponent - 1⟩ ds
    else s

/-- The largest exponent that is kept. -/
def exponentBound : Nat := 2147483647

/-- `x · 10 ^ exponent`, scaled in steps of at most `10 ^ 308`; `none` beyond the largest double. -/
def scale? (fuel : Nat) (x : Float) (exponent : Int) : Option Float :=
  match fuel with
  | 0 => some x
  | fuel + 1 =>
    if exponent.natAbs ≤ 308 then
      let power := Float.ofScientific 1 false exponent.natAbs
      if exponent ≥ 0 then
        let y := x * power
        if y.isInf then none else some y
      else some (x / power)
    else if x == 0 then some x
    else if exponent ≥ 0 then none
    else scale? fuel (x / Float.ofScientific 1 false 308) (exponent + 308)

/-- The double of a significand. Four steps of scaling reach zero from any significand. -/
def Significand.float? (s : Significand) (negative : Bool) : Option Float :=
  (scale? 4 (Decimal.ofInteger s.value) s.exponent).map fun x => if negative then -x else x

/-- Reads the exponent of a number behind its `e`. -/
def readExponent (negative : Bool) (s : Significand) (cs : List Char) :
    Except ReadError (Json × List Char) :=
  let (down, cs) := match cs with
    | '+' :: rest => (false, rest)
    | '-' :: rest => (true, rest)
    | cs => (false, cs)
  let ds := cs.takeWhile Text.isDigit
  let rest := cs.dropWhile Text.isDigit
  if ds.isEmpty then .error .badNumber
  else
    let e := Text.digitsValue 0 ds
    if e > exponentBound then
      if s.value ≠ 0 ∧ !down then .error .outOfRange
      else .ok (.real (if negative then -0.0 else 0.0), rest)
    else
      let shift : Int := if down then -(e : Int) else e
      match ({ s with exponent := s.exponent + shift }).float? negative with
      | some x => .ok (.real x, rest)
      | none => .error .outOfRange

/-- Reads the end of a number whose digits are known. -/
def readScaled (negative : Bool) (s : Significand) (cs : List Char) :
    Except ReadError (Json × List Char) :=
  match cs with
  | 'e' :: rest => readExponent negative s rest
  | 'E' :: rest => readExponent negative s rest
  | rest =>
    match s.float? negative with
    | some x => .ok (.real x, rest)
    | none => .error .outOfRange

/-- The number written by digits alone: an integer if it fits a word, otherwise a double. There is
no negative integer zero. -/
def wholeNumber? (negative : Bool) (s : Significand) : Option Json :=
  if s.exponent ≠ 0 then (s.float? negative).map real
  else if !negative then some (.integer s.value)
  else if s.value = 0 ∨ s.value > 9223372036854775808 then
    some (.real (-(Decimal.ofInteger s.value)))
  else some (.integer (-(s.value : Int)))

/-- Reads a number behind its sign. -/
def readNumber (negative : Bool) (cs : List Char) : Except ReadError (Json × List Char) :=
  let whole := cs.takeWhile Text.isDigit
  let rest := cs.dropWhile Text.isDigit
  if whole.isEmpty then .error .badNumber
  else if whole.head? = some '0' ∧ whole.length > 1 then .error .badNumber
  else
    let s := whole.foldl (fun s c => s.addWhole ((Text.digit? c).getD 0)) (⟨0, 0⟩ : Significand)
    match rest with
    | '.' :: tail =>
      let fraction := tail.takeWhile Text.isDigit
      if fraction.isEmpty then .error .badNumber
      else
        readScaled negative (takeFraction s (fraction.map fun c => (Text.digit? c).getD 0))
          (tail.dropWhile Text.isDigit)
    | 'e' :: _ => readScaled negative s rest
    | 'E' :: _ => readScaled negative s rest
    | _ =>
      match wholeNumber? negative s with
      | some n => .ok (n, rest)
      | none => .error .outOfRange

/-! ### Documents -/

/-- Reads the items of an array, the first of which is due, up to the closing bracket. -/
def readItems (item : List Char → Except ReadError (Json × List Char)) :
    Nat → List Json → List Char → Except ReadError (List Json × List Char)
  | 0, _, _ => .error .unexpectedEnd
  | fuel + 1, acc, cs => do
    let (value, rest) ← item (skipBlanks cs)
    match skipBlanks rest with
    | ',' :: rest => readItems item fuel (value :: acc) rest
    | ']' :: rest => .ok ((value :: acc).reverse, rest)
    | c :: _ => .error (.unexpected c)
    | [] => .error .unexpectedEnd

/-- Reads the members of an object, the first of which is due, up to the closing brace. -/
def readMembers (item : List Char → Except ReadError (Json × List Char)) :
    Nat → List (String × Json) → List Char → Except ReadError (List (String × Json) × List Char)
  | 0, _, _ => .error .unexpectedEnd
  | fuel + 1, acc, cs => do
    match skipBlanks cs with
    | '"' :: rest =>
      let (key, rest) ← readStringRest [] rest
      match skipBlanks rest with
      | ':' :: rest =>
        let (value, rest) ← item (skipBlanks rest)
        match skipBlanks rest with
        | ',' :: rest => readMembers item fuel ((key, value) :: acc) rest
        | '\x7d' :: rest => .ok (Keyed.ofPairs ((key, value) :: acc).reverse, rest)
        | c :: _ => .error (.unexpected c)
        | [] => .error .unexpectedEnd
      | c :: _ => .error (.unexpected c)
      | [] => .error .unexpectedEnd
    | c :: _ => .error (.unexpected c)
    | [] => .error .unexpectedEnd

/-- Reads a document in which arrays and objects nest at most `depth` deep. The text starts with no
blank. -/
def readValue : (depth : Nat) → List Char → Except ReadError (Json × List Char)
  | depth, cs =>
    match cs with
    | 'n' :: 'u' :: 'l' :: 'l' :: rest => .ok (.null, rest)
    | 't' :: 'r' :: 'u' :: 'e' :: rest => .ok (.bool true, rest)
    | 'f' :: 'a' :: 'l' :: 's' :: 'e' :: rest => .ok (.bool false, rest)
    | '"' :: rest => (readStringRest [] rest).map fun (s, rest) => (.string s, rest)
    | '-' :: rest => readNumber true rest
    | '[' :: rest =>
      match depth with
      | 0 => .error .tooDeep
      | depth + 1 =>
        match skipBlanks rest with
        | ']' :: rest => .ok (.array [], rest)
        | rest => (readItems (readValue depth) rest.length [] rest).map
            fun (items, rest) => (.array items, rest)
    | '\x7b' :: rest =>
      match depth with
      | 0 => .error .tooDeep
      | depth + 1 =>
        match skipBlanks rest with
        | '\x7d' :: rest => .ok (.object [], rest)
        | rest => (readMembers (readValue depth) rest.length [] rest).map
            fun (members, rest) => (.object members, rest)
    | c :: rest => if Text.isDigit c then readNumber false (c :: rest) else .error (.unexpected c)
    | [] => .error .unexpectedEnd

def read (text : String) : Except ReadError Json := do
  let (document, rest) ← readValue maxDepth (skipBlanks text.toList)
  match skipBlanks rest with
  | [] => .ok document
  | c :: _ => .error (.unexpected c)

end PathRules.Json
