import PathRules.Path.Basic
import PathRules.Text.Numeral
/-!
Reading a path from its text. The reader goes through the characters once and knows what may stand
next from what it read last: the start, a point, a part of a name, or a marker. Faults are reported
with the byte at which they stand.
-/

namespace PathRules

/-- Why a text is no path. Positions count bytes. -/
inductive PathError where
  | empty
  | leadingDot
  | trailingDot
  | consecutiveDots (position : Nat)
  | unclosedBracket (position : Nat)
  | unopenedBracket (position : Nat)
  | nonEmptyBracket (position : Nat)
  | unexpectedCharacter (character : Char) (position : Nat)
  deriving DecidableEq, Repr

def PathError.message : PathError → String
  | empty => "empty path"
  | leadingDot => "path cannot start with a dot"
  | trailingDot => "path cannot end with a dot"
  | consecutiveDots position => "consecutive dots at position " ++ Text.integerText position
  | unclosedBracket position => "unclosed bracket at position " ++ Text.integerText position
  | unopenedBracket position => "unopened bracket at position " ++ Text.integerText position
  | nonEmptyBracket position => "non-empty bracket at position " ++ Text.integerText position
  | unexpectedCharacter character position =>
    "unexpected '" ++ character.toString ++ "' at position " ++ Text.integerText position ++
      ", expected a separator"

namespace Path

/-- What was read last. -/
inductive Reader where
  | start
  | dot
  /-- A part of a name, the last character first. -/
  | name (letters : List Char)
  | marker
  deriving DecidableEq, Repr

/-- The accessors read, the last first, with a name that is now complete. -/
def Reader.finish (r : Reader) (done : List Accessor) : List Accessor :=
  match r with
  | name letters => .key (String.ofList letters.reverse) :: done
  | _ => done

/-- Reads the rest of a path. `done` holds the complete accessors, the last first. -/
def readFrom (r : Reader) (position : Nat) (done : List Accessor) :
    List Char → Except PathError Path
  | [] =>
    match r with
    | .start => .error .empty
    | .dot => .error .trailingDot
    | r => .ok (r.finish done).reverse
  | '.' :: rest =>
    match r with
    | .start => .error .leadingDot
    | .dot => .error (.consecutiveDots position)
    | r => readFrom .dot (position + 1) (r.finish done) rest
  | '[' :: ']' :: rest =>
    match r with
    | .dot => .error (.unexpectedCharacter '[' position)
    | r => readFrom .marker (position + 2) (.each :: r.finish done) rest
  | '[' :: rest =>
    match r with
    | .dot => .error (.unexpectedCharacter '[' position)
    | _ =>
      if rest.contains ']' then .error (.nonEmptyBracket position)
      else .error (.unclosedBracket position)
  | ']' :: _ => .error (.unopenedBracket position)
  | c :: rest =>
    match r with
    | .marker => .error (.unexpectedCharacter c position)
    | .name letters => readFrom (.name (c :: letters)) (position + c.utf8Size) done rest
    | _ => readFrom (.name [c]) (position + c.utf8Size) done rest

/-- The path that a text denotes. -/
def ofString (s : String) : Except PathError Path :=
  readFrom .start 0 [] s.toList

/-- The path that a text denotes, where the empty text is the root. -/
def ofStringOrRoot (s : String) : Except PathError Path :=
  if s.isEmpty then .ok root else ofString s

end Path
end PathRules
