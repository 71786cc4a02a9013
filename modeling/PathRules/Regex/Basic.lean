import PathRules.Text.Property
/-!
Regular expressions. An expression may ask about its place in the text, so what it matches there
depends on the characters before and behind that place.
-/

namespace PathRules

/-- A condition on a place in a text. -/
inductive Regex.Assertion where
  | textStart
  | textEnd
  | lineStart
  | lineEnd
  /-- The start of a line when carriage returns end lines too. -/
  | crlfStart
  | crlfEnd
  /-- A word begins or ends; with `ascii`, words hold only Latin letters, digits and underscores. -/
  | wordBoundary (ascii : Bool)
  | noWordBoundary (ascii : Bool)
  | wordStart (ascii : Bool)
  | wordEnd (ascii : Bool)
  | wordStartHalf (ascii : Bool)
  | wordEndHalf (ascii : Bool)
  deriving DecidableEq, Repr

/-- A regular expression. -/
inductive Regex where
  /-- Nothing. -/
  | empty
  /-- Nothing, at a place that meets a condition. -/
  | look (a : Regex.Assertion)
  /-- One character of a set. -/
  | chars (s : Text.CharSet)
  /-- One expression, then another. -/
  | cat (a b : Regex)
  /-- One expression or another. -/
  | alt (a b : Regex)
  /-- At least `least` and at most `most` times an expression. -/
  | times (r : Regex) (least : Nat) (most : Option Nat)
  /-- An expression whose part of the text is remembered. -/
  | group (r : Regex)
  deriving DecidableEq, Repr

namespace Regex

/-- A place in a text, by the characters before and behind it. -/
structure Place where
  before : Option Char
  behind : Option Char
  deriving DecidableEq, Repr

/-- Whether a character is part of a word. -/
def inWord (ascii : Bool) : Option Char → Bool
  | none => false
  | some c => if ascii then c.isAlphanum || c == '_' else Text.isWord c

def Assertion.holds (a : Assertion) (p : Place) : Bool :=
  match a with
  | textStart => p.before.isNone
  | textEnd => p.behind.isNone
  | lineStart => p.before.isNone || p.before == some '\n'
  | lineEnd => p.behind.isNone || p.behind == some '\n'
  | crlfStart =>
    p.before.isNone || p.before == some '\n' ||
      (p.before == some '\r' && p.behind != some '\n')
  | crlfEnd =>
    p.behind.isNone || p.behind == some '\r' ||
      (p.behind == some '\n' && p.before != some '\r')
  | wordBoundary ascii => inWord ascii p.before != inWord ascii p.behind
  | noWordBoundary ascii => inWord ascii p.before == inWord ascii p.behind
  | wordStart ascii => !inWord ascii p.before && inWord ascii p.behind
  | wordEnd ascii => inWord ascii p.before && !inWord ascii p.behind
  | wordStartHalf ascii => !inWord ascii p.before
  | wordEndHalf ascii => !inWord ascii p.behind

end Regex
end PathRules
