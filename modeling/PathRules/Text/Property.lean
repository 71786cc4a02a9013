import PathRules.Text.Alphabetic
import PathRules.Text.Blank
import PathRules.Text.Casing
import PathRules.Text.Identifier
import PathRules.Text.Mark
import PathRules.Text.Pictograph
import PathRules.Text.Punctuation
/-!
The properties that a character has or has not, by their names. Most have a long and a short name;
both are given in small letters without separators.
-/

namespace PathRules.Text

def caseProperties : List (List String × CharSet) :=
  [(["alphabetic", "alpha"], alphabetic), (["lowercase", "lower"], lowercase),
    (["uppercase", "upper"], uppercase), (["cased"], cased),
    (["caseignorable", "ci"], caseIgnorable),
    (["changeswhenlowercased", "cwl"], changesWhenLowercased),
    (["changeswhenuppercased", "cwu"], changesWhenUppercased),
    (["changeswhentitlecased", "cwt"], changesWhenTitlecased),
    (["changeswhencasefolded", "cwcf"], changesWhenCasefolded),
    (["changeswhencasemapped", "cwcm"], changesWhenCasemapped),
    (["otheralphabetic", "oalpha"], otherAlphabetic),
    (["otherlowercase", "olower"], otherLowercase),
    (["otheruppercase", "oupper"], otherUppercase), (["softdotted", "sd"], softDotted)]

/-- The properties of identifiers and formal languages. -/
def identifierProperties : List (List String × CharSet) :=
  [(["idstart", "ids"], idStart), (["idcontinue", "idc"], idContinue),
    (["xidstart", "xids"], xidStart), (["xidcontinue", "xidc"], xidContinue),
    (["otheridstart", "oids"], otherIdStart), (["otheridcontinue", "oidc"], otherIdContinue),
    (["patternsyntax", "patsyn"], patternSyntax),
    (["patternwhitespace", "patws"], patternWhiteSpace),
    (["idcompatmathstart"], idCompatMathStart), (["idcompatmathcontinue"], idCompatMathContinue)]

/-- The properties of marks and of characters that are not drawn. -/
def markProperties : List (List String × CharSet) :=
  [(["graphemeextend", "grext"], graphemeExtend), (["graphemebase", "grbase"], graphemeBase),
    (["graphemelink", "grlink"], graphemeLink),
    (["othergraphemeextend", "ogrext"], otherGraphemeExtend), (["diacritic", "dia"], diacritic),
    (["extender", "ext"], extender), (["modifiercombiningmark", "mcm"], modifierCombiningMark),
    (["prependedconcatenationmark", "pcm"], prependedConcatenationMark),
    (["logicalorderexception", "loe"], logicalOrderException),
    (["variationselector", "vs"], variationSelector), (["joincontrol", "joinc"], joinControl),
    (["bidicontrol", "bidic"], bidiControl), (["deprecated", "dep"], deprecated),
    (["noncharactercodepoint", "nchar"], noncharacter),
    (["defaultignorablecodepoint", "di"], defaultIgnorable),
    (["otherdefaultignorablecodepoint", "odi"], otherDefaultIgnorable)]

/-- The properties of punctuation, numbers and mathematics. -/
def punctuationProperties : List (List String × CharSet) :=
  [(["whitespace", "wspace", "space"], blanks), (["dash"], dash), (["hyphen"], hyphen),
    (["quotationmark", "qmark"], quotationMark),
    (["terminalpunctuation", "term"], terminalPunctuation),
    (["sentenceterminal", "sterm"], sentenceTerminal), (["math"], math),
    (["othermath", "omath"], otherMath), (["asciihexdigit", "ahex"], asciiHexDigit),
    (["hexdigit", "hex"], hexDigit)]

def pictographProperties : List (List String × CharSet) :=
  [(["emoji"], emoji), (["emojipresentation", "epres"], emojiPresentation),
    (["emojimodifier", "emod"], emojiModifier), (["emojimodifierbase", "ebase"], emojiModifierBase),
    (["emojicomponent", "ecomp"], emojiComponent),
    (["extendedpictographic", "extpict"], extendedPictographic),
    (["regionalindicator", "ri"], regionalIndicator), (["ideographic", "ideo"], ideographic),
    (["unifiedideograph", "uideo"], unifiedIdeograph), (["radical"], radical),
    (["idsunaryoperator", "idsu"], idsUnaryOperator),
    (["idsbinaryoperator", "idsb"], idsBinaryOperator),
    (["idstrinaryoperator", "idst"], idsTrinaryOperator)]

def properties : List (List String × CharSet) :=
  caseProperties ++ identifierProperties ++ markProperties ++ punctuationProperties ++
    pictographProperties

def namedSet? (name : String) (sets : List (List String × CharSet)) : Option CharSet :=
  (sets.find? fun (names, _) => names.contains name).map Prod.snd

/-- The characters of words: letters, marks, digits, connectors and joiners. -/
def wordCharacters : CharSet :=
  .unions [alphabetic, joinControl, Category.setOf
    ([.decimalNumber, .connectorPunctuation] ++ Category.group 'M')]

def isWord (c : Char) : Bool :=
  if c.toNat < 128 then c.isAlphanum || c == '_' else wordCharacters.mem c.toNat

end PathRules.Text
