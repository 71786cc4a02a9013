import PathRules.Text.Mark
import PathRules.Text.Newer
/-!
Texts between quotes, in which every character can be seen. Characters without a shape of their own
(controls, separators other than the space, unassigned and private ones, marks that attach to the
character before them) stand as their number in hexadecimal.
-/

namespace PathRules.Text

/-- The categories of characters without a shape. -/
def shapeless : List Category :=
  [.control, .format, .surrogate, .privateUse, .unassigned, .lineSeparator, .paragraphSeparator,
    .spaceSeparator, .nonspacingMark, .enclosingMark]

/-- The letters that fill the place of a missing one in a syllable and are not drawn. -/
def fillers : CharSet := .ofText "115F-1160 3164 FFA0"

/-- The characters that are written as they are, those of the first 128 aside. -/
def visible : CharSet :=
  ((Category.setOf shapeless).compl.diff (otherGraphemeExtend.union fillers)).union newerVisible

/-- Whether a character can be seen on its own. -/
def isVisible (c : Char) : Bool :=
  if c.toNat < 127 then 32 ≤ c.toNat else visible.mem c.toNat

/-- How a character stands between quotes. -/
def quotedChar (c : Char) : List Char :=
  match c with
  | '"' => ['\\', '"']
  | '\\' => ['\\', '\\']
  | '\n' => ['\\', 'n']
  | '\r' => ['\\', 'r']
  | '\t' => ['\\', 't']
  | '\x00' => ['\\', '0']
  | c =>
    if isVisible c then [c]
    else ['\\', 'u', '\x7b'] ++ Nat.toDigits 16 c.toNat ++ ['\x7d']

def quoted (s : String) : String :=
  String.ofList ('"' :: s.toList.flatMap quotedChar ++ ['"'])

end PathRules.Text
