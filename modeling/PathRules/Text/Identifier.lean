import PathRules.Text.Category
/-!
The characters of identifiers and of the marks around them, which no identifier holds.
-/

namespace PathRules.Text

/-- The characters that are kept for the marks of formal languages. -/
def patternSyntax : CharSet :=
  .ofText (String.join [
    "21-2F 3A-40 5B-5E 60 7B-7E A1-A7 A9 AB-AC AE B0-B1 B6 BB BF D7 F7 2010-2027 2030-203E ",
    "2041-2053 2055-205E 2190-245F 2500-2775 2794-2BFF 2E00-2E7F 3001-3003 3008-3020 3030 ",
    "FD3E-FD3F FE45-FE46"])

/-- The characters that are kept for the blanks of formal languages. -/
def patternWhiteSpace : CharSet := .ofText "9-D 20 85 200E-200F 2028-2029"

/-- The characters that begin identifiers although they are no letters. -/
def otherIdStart : CharSet := .ofText "1885-1886 2118 212E 309B-309C"

/-- The characters within identifiers that their category does not admit. -/
def otherIdContinue : CharSet := .ofText "B7 387 1369-1371 19DA 200C-200D 30FB FF65"

/-- The characters that begin identifiers. -/
def idStart : CharSet :=
  ((Category.setOf (.letterNumber :: Category.group 'L')).union otherIdStart).diff
    (patternSyntax.union patternWhiteSpace)

/-- The characters of identifiers. -/
def idContinue : CharSet :=
  (CharSet.unions [idStart, otherIdContinue, Category.setOf
    [.nonspacingMark, .spacingMark, .decimalNumber, .connectorPunctuation]]).diff
      (patternSyntax.union patternWhiteSpace)

/-- The characters of identifiers that take another form when texts are brought to a normal form. -/
def unstableContinue : CharSet :=
  .ofText "37A 309B-309C FC5E-FC63 FDFA-FDFB FE70 FE72 FE74 FE76 FE78 FE7A FE7C FE7E"

/-- More characters that begin identifiers but do so no longer in a normal form. -/
def unstableStart : CharSet := .ofText "E33 EB3 FF9E-FF9F"

/-- The characters that begin identifiers in every normal form. -/
def xidStart : CharSet := idStart.diff (unstableContinue.union unstableStart)

/-- The characters of identifiers in every normal form. -/
def xidContinue : CharSet := idContinue.diff unstableContinue

end PathRules.Text
