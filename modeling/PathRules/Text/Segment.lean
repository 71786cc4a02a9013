import PathRules.Text.Alphabetic
import PathRules.Text.Blank
import PathRules.Text.Casing
import PathRules.Text.Mark
import PathRules.Text.Pictograph
import PathRules.Text.Punctuation
import PathRules.Text.Script
/-!
Classes of characters by which texts are cut into characters as users see them, into words and into
sentences. Each class has a long and a short name; characters of no class have no name here.
-/

namespace PathRules.Text

/-- The characters that mark the end of a line, in two classes of one character each. -/
def lineEnds : List (List String × CharSet) :=
  [(["cr"], .single '\r'), (["lf"], .single '\n')]

/-- The character that joins two pictures into one. -/
def zeroWidthJoiner : CharSet := .single '\u200d'

/-! ### Characters as users see them -/

/-- The consonants that are written before the letter they follow. -/
def prependingLetter : CharSet :=
  .ofText "D4E 111C2-111C3 113D1 1193F 11941 11A3A 11A84-11A89 11D46 11F02"

/-- The characters that stand before the one they belong to. -/
def prepend : CharSet := prependingLetter.union prependedConcatenationMark

def graphemeExtension : CharSet := graphemeExtend.union emojiModifier

/-- The characters that control a text and are no part of it. -/
def graphemeControl : CharSet :=
  (CharSet.unions [Category.setOf [.lineSeparator, .paragraphSeparator, .control, .format],
    (Category.setOf [.unassigned]).inter defaultIgnorable]).diff
      (.unions [graphemeExtension, prepend, zeroWidthJoiner, .single '\r', .single '\n'])

/-- The marks with a width that do not attach. -/
def notSpacing : CharSet :=
  .ofText (String.join [
    "102B-102C 1038 1062-1064 1067-106D 1083 1087-108C 108F 109A-109C 1A61 1A63-1A64 AA7B AA7D ",
    "11720-11721"])

/-- The vowels that attach although they are letters. -/
def spacingVowel : CharSet := .ofText "E33 EB3"

/-- The marks with a width that attach to the character before them. -/
def spacingMark : CharSet :=
  ((Category.setOf [.spacingMark]).diff (graphemeExtension.union notSpacing)).union spacingVowel

/-- The syllables of two letters; each is followed by the syllables with a third letter. -/
def hangulPairs : CharSet :=
  .ofRanges ((List.range 399).map fun i => (0xAC00 + 28 * i, 0xAC00 + 28 * i))

/-- The syllables of two or three letters. -/
def hangulSyllables : CharSet := .ofText "AC00-D7A3"

/-- The letters that begin a syllable. -/
def leadingConsonant : CharSet := .ofText "1100-115F A960-A97C"

def vowelLetter : CharSet := .ofText "1160-11A7 D7B0-D7C6 16D63 16D67-16D6A"

/-- The letters that end a syllable. -/
def trailingConsonant : CharSet := .ofText "11A8-11FF D7CB-D7FB"

/-- The classes for characters as users see them. -/
def graphemeClasses : List (List String × CharSet) :=
  lineEnds ++
    [(["control", "cn"], graphemeControl), (["extend", "ex"], graphemeExtension),
      (["zwj"], zeroWidthJoiner), (["regionalindicator", "ri"], regionalIndicator),
      (["prepend", "pp"], prepend), (["spacingmark", "sm"], spacingMark),
      (["l"], leadingConsonant), (["v"], vowelLetter), (["t"], trailingConsonant),
      (["lv"], hangulPairs), (["lvt"], hangulSyllables.diff hangulPairs)]

/-! ### Words -/

/-- The characters that extend a word without being part of its letters. -/
def wordExtension : CharSet :=
  (CharSet.unions [graphemeExtend, Category.setOf [.spacingMark], emojiModifier]).diff
    zeroWidthJoiner

/-- The marks that stand before or under the digits of a number. -/
def numberMark : CharSet := .ofText "600-605 6DD 890-891 8E2 110BD 110CD"

/-- The digits of words that are no decimal digits, and the sign before decimals. -/
def otherNumeric : CharSet := .ofText "66B 19DA"

def wordNumeric : CharSet :=
  .unions [Category.setOf [.decimalNumber], otherNumeric, numberMark]

/-- The formats that part words or join pictures. -/
def unseenSpace : CharSet := .ofText "200B-200D"

/-- The mark over the letters of an abbreviation. -/
def abbreviationMark : CharSet := .ofText "70F"

def wordFormat : CharSet :=
  (Category.setOf [.format]).diff
    (.unions [unseenSpace, wordExtension, wordNumeric, abbreviationMark])

/-- The signs of the syllabary that no script claims. -/
def otherKatakana : CharSet := .ofText "3031-3035 309B-309C 30A0 30FC FF70"

/-- The characters of the syllabary for words from abroad. -/
def katakana : CharSet := (scriptSet "Kana").union otherKatakana

/-- The letters of the script in which an apostrophe can end a word. -/
def hebrewLetter : CharSet := (scriptSet "Hebr").inter (Category.setOf [.otherLetter])

def otherWordLetter : CharSet :=
  .ofText (String.join [
    "B8 2C2-2C5 2D2-2D7 2DE-2DF 2E5-2EB 2ED 2EF-2FF 55A-55C 55E 58A 5F3 70F A708-A716 A720-A721 ",
    "A789-A78A AB5B"])

def scriptsWithoutSpaces : List String :=
  ["Ahom", "Hira", "Khmr", "Lana", "Laoo", "Mymr", "Tale", "Talu", "Tavt", "Thai"]

def wordLetter : CharSet :=
  (alphabetic.union otherWordLetter).diff
    (.unions ([ideographic, katakana, wordExtension, hebrewLetter] ++
      scriptsWithoutSpaces.map scriptSet))

/-- The marks within words and within numbers. -/
def midNumLet : CharSet := .ofText "2E 2018-2019 2024 FE52 FF07 FF0E"

/-- The marks within words. -/
def midLetter : CharSet := .ofText "3A B7 387 55F 5F4 2027 FE13 FE55 FF1A"

/-- The marks within numbers. -/
def midNum : CharSet := .ofText "2C 3B 37E 589 60C-60D 66C 7F8 2044 FE10 FE14 FE50 FE54 FF0C FF1B"

/-- The characters that end a line, but for the two of every keyboard. -/
def newline : CharSet := .ofText "B-C 85 2028-2029"

/-- The spaces that stay together. -/
def wordSpace : CharSet := .ofText "20 1680 2000-2006 2008-200A 205F 3000"

/-- The narrow space within numbers. -/
def narrowSpace : CharSet := .ofText "202F"

def wordClasses : List (List String × CharSet) :=
  lineEnds ++
    [(["newline", "nl"], newline), (["extend"], wordExtension), (["zwj"], zeroWidthJoiner),
      (["format", "fo"], wordFormat), (["katakana", "ka"], katakana),
      (["hebrewletter", "hl"], hebrewLetter), (["aletter", "le"], wordLetter),
      (["singlequote", "sq"], .single '\x27'), (["doublequote", "dq"], .single '"'),
      (["midnumlet", "mb"], midNumLet), (["midletter", "ml"], midLetter),
      (["midnum", "mn"], midNum), (["numeric", "nu"], wordNumeric),
      (["extendnumlet", "ex"], (Category.setOf [.connectorPunctuation]).union narrowSpace),
      (["regionalindicator", "ri"], regionalIndicator), (["wsegspace"], wordSpace)]

/-! ### Sentences -/

/-- The characters that extend a sentence without being part of its letters. -/
def sentenceExtension : CharSet :=
  .unions [graphemeExtend, Category.setOf [.spacingMark], zeroWidthJoiner]

/-- The characters that end a paragraph. -/
def sentenceSeparator : CharSet := .ofText "85 2028-2029"

/-- The sign within numbers that words do not hold. -/
def thousandsMark : CharSet := .ofText "66C"

/-- The digits of sentences. -/
def sentenceNumeric : CharSet := wordNumeric.union thousandsMark

def sentenceFormat : CharSet :=
  (Category.setOf [.format]).diff (sentenceExtension.union sentenceNumeric)

/-- The spaces of sentences. -/
def sentenceSpace : CharSet :=
  blanks.diff (.unions [sentenceSeparator, .single '\r', .single '\n'])

/-- The lower-case letters of a script that uses them alone. -/
def singleCaseLower : CharSet := .ofText "10D0-10FA 10FD-10FF"

def singleCaseUpper : CharSet := .ofText "1C90-1CBA 1CBD-1CBF"

/-- The letters that do not begin a sentence. -/
def sentenceLower : CharSet := lowercase.diff (graphemeExtend.union singleCaseLower)

def sentenceUpper : CharSet :=
  (uppercase.union (Category.setOf [.titlecaseLetter])).diff singleCaseUpper

/-- A mark of punctuation that counts as a letter. -/
def otherSentenceLetter : CharSet := .ofText "5F3"

def sentenceLetter : CharSet :=
  (alphabetic.union otherSentenceLetter).diff
    (.unions [sentenceLower, sentenceUpper, sentenceExtension])

/-- The full stops, which also stand in abbreviations. -/
def fullStop : CharSet := .ofText "2E 2024 FE52 FF0E"

/-- The marks behind which a sentence goes on. -/
def sentenceContinue : CharSet :=
  .ofText (String.join [
    "2C-2D 3A-3B 37E 55D 60C-60D 7F8 1802 1808 2013-2014 3001 FE10-FE11 FE13-FE14 FE31-FE32 ",
    "FE50-FE51 FE54-FE55 FE58 FE63 FF0C-FF0D FF1A-FF1B FF64"])

/-- Quotation marks whose category is another one. -/
def otherClose : CharSet := .ofText "22 27 275B-2760 2E00-2E01 2E06-2E08 2E0B 1F676-1F678"

/-- The brackets and quotation marks. -/
def sentenceClose : CharSet :=
  (Category.setOf [.openPunctuation, .closePunctuation, .initialPunctuation,
    .finalPunctuation]).union otherClose

def sentenceClasses : List (List String × CharSet) :=
  lineEnds ++
    [(["sep", "se"], sentenceSeparator), (["extend", "ex"], sentenceExtension),
      (["format", "fo"], sentenceFormat), (["sp"], sentenceSpace), (["lower", "lo"], sentenceLower),
      (["upper", "up"], sentenceUpper), (["oletter", "le"], sentenceLetter),
      (["numeric", "nu"], sentenceNumeric), (["aterm", "at"], fullStop),
      (["scontinue", "sc"], sentenceContinue),
      (["sterm", "st"], sentenceTerminal.diff fullStop), (["close", "cl"], sentenceClose)]

end PathRules.Text
