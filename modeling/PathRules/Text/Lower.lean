/-!
Comparing text with plain lower-case words without regard to case.
-/

namespace PathRules.Text

/-- The lower case of a letter from A to Z and of the Kelvin sign, the only other character whose
lower case is a plain letter; other characters as they are. -/
def lowerChar (c : Char) : Char :=
  if c = '\u212a' then 'k' else c.toLower

/-- The text with plain letters in lower case. -/
def lower (s : String) : String :=
  String.ofList (s.toList.map lowerChar)

end PathRules.Text
