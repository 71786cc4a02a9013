import PathRules.Calendar.Day
import PathRules.Decimal.Reading
import PathRules.Toml.Basic
/-!
Reading a TOML document. Each reader takes what it needs from the front of the text and returns the
rest, or `none` where the text is no TOML. Inline tables may take several lines and end in a comma,
and times may lack their seconds. Numbers have to fit: whole numbers the words of 128 bits, others
the range of doubles.
-/

namespace PathRules.Toml

def skipSpace (cs : List Char) : List Char :=
  cs.dropWhile fun c => c == ' ' || c == '\t'

/-- Whether a character may not stand in a comment or a string of one line. -/
def isControl (c : Char) : Bool :=
  (c.toNat < 32 && c != '\t') || c.toNat == 127

/-- Skips a line end, if one stands here. -/
def skipLineEnd? : List Char → Option (List Char)
  | '\n' :: rest => some rest
  | '\r' :: '\n' :: rest => some rest
  | _ => none

def skipComment (cs : List Char) : Option (List Char) :=
  match cs with
  | '#' :: rest =>
    let comment := rest.takeWhile fun c => c != '\n'
    let body := if comment.getLast? == some '\r' then comment.dropLast else comment
    if body.any isControl then none
    else some (rest.drop body.length)
  | cs => some cs

def skipLines : (fuel : Nat) → List Char → Option (List Char)
  | 0, cs => some cs
  | fuel + 1, cs => do
    let cs ← skipComment (skipSpace cs)
    match skipLineEnd? cs with
    | some rest => skipLines fuel rest
    | none => some cs

def skipAll (cs : List Char) : Option (List Char) :=
  skipLines (cs.length + 1) cs

/-- The rest behind a line that ends here. -/
def endLine (cs : List Char) : Option (List Char) := do
  let cs ← skipComment (skipSpace cs)
  if cs.isEmpty then some [] else skipLineEnd? cs

/-! ### Strings -/

/-- Reads a character given by `count` hexadecimal digits. -/
def readScalar (count : Nat) (cs : List Char) : Option (Char × List Char) := do
  let ds := cs.take count
  if ds.length < count then none
  let n ← Text.hexNumber? ds
  if n.isValidChar then some (Char.ofNat n, cs.drop count) else none

def readEscape : List Char → Option (Char × List Char)
  | 'b' :: rest => some ('\x08', rest)
  | 't' :: rest => some ('\t', rest)
  | 'n' :: rest => some ('\n', rest)
  | 'f' :: rest => some ('\x0c', rest)
  | 'e' :: rest => some ('\x1b', rest)
  | 'r' :: rest => some ('\r', rest)
  | '"' :: rest => some ('"', rest)
  | '\\' :: rest => some ('\\', rest)
  | 'x' :: rest => readScalar 2 rest
  | 'u' :: rest => readScalar 4 rest
  | 'U' :: rest => readScalar 8 rest
  | _ => none

/-- Reads a string of one line behind its opening quote. -/
def readBasic : (fuel : Nat) → List Char → List Char → Option (String × List Char)
  | 0, _, _ => none
  | fuel + 1, acc, cs =>
    match cs with
    | '"' :: rest => some (String.ofList acc.reverse, rest)
    | '\\' :: rest => (readEscape rest).bind fun (c, rest) => readBasic fuel (c :: acc) rest
    | c :: rest => if isControl c then none else readBasic fuel (c :: acc) rest
    | [] => none

/-- Reads a string of one line without escapes behind its opening quote. -/
def readLiteral (cs : List Char) : Option (String × List Char) :=
  let body := cs.takeWhile (· != '\x27')
  if body.any isControl then none
  else
    match cs.drop body.length with
    | _ :: rest => some (String.ofList body, rest)
    | [] => none

/-- The rest behind a line end that follows an opening mark of three quotes directly. -/
def dropFirstLineEnd (cs : List Char) : List Char :=
  (skipLineEnd? cs).getD cs

/-- Skips the line end behind a backslash and all blanks and line ends that follow. -/
def skipContinuation (cs : List Char) : Option (List Char) :=
  (skipLineEnd? (skipSpace cs)).map fun rest =>
    rest.dropWhile fun c => c == ' ' || c == '\t' || c == '\n' || c == '\r'

/-- Reads a string of several lines up to its closing mark of three quotes. One or two quotes more
belong to the string. -/
def readLines (quote : Char) (escapes : Bool) :
    (fuel : Nat) → List Char → List Char → Option (String × List Char)
  | 0, _, _ => none
  | fuel + 1, acc, cs =>
    let quotes := cs.takeWhile (· == quote)
    if quotes.length ≥ 3 then
      if quotes.length > 5 then none
      else
        let extra := quotes.drop 3
        some (String.ofList (acc.reverse ++ extra), cs.drop quotes.length)
    else
      match cs with
      | [] => none
      | '\r' :: '\n' :: rest => readLines quote escapes fuel ('\n' :: '\r' :: acc) rest
      | '\\' :: rest =>
        if escapes then
          match skipContinuation rest with
          | some rest => readLines quote escapes fuel acc rest
          | none => (readEscape rest).bind fun (c, rest) =>
              readLines quote escapes fuel (c :: acc) rest
        else readLines quote escapes fuel ('\\' :: acc) rest
      | c :: rest =>
        if isControl c && c != '\n' then none else readLines quote escapes fuel (c :: acc) rest

/-- Reads a string of any form, if one stands here. -/
def readString (cs : List Char) : Option (String × List Char) :=
  let fuel := cs.length + 1
  match cs with
  | '"' :: '"' :: '"' :: rest => readLines '"' true fuel [] (dropFirstLineEnd rest)
  | '\x27' :: '\x27' :: '\x27' :: rest => readLines '\x27' false fuel [] (dropFirstLineEnd rest)
  | '"' :: rest => readBasic fuel [] rest
  | '\x27' :: rest => readLiteral rest
  | _ => none

/-! ### Keys -/

/-- Whether a character may stand in a key without quotes. -/
def isBareChar (c : Char) : Bool :=
  c.isAlphanum || c == '_' || c == '-'

def readKeyPart (cs : List Char) : Option (String × List Char) :=
  match cs with
  | '"' :: rest => readBasic (rest.length + 1) [] rest
  | '\x27' :: rest => readLiteral rest
  | cs =>
    let name := cs.takeWhile isBareChar
    if name.isEmpty then none else some (String.ofList name, cs.drop name.length)

def readKeyParts : (fuel : Nat) → List Char → Option (List String × List Char)
  | 0, _ => none
  | fuel + 1, cs => do
    let (part, rest) ← readKeyPart (skipSpace cs)
    match skipSpace rest with
    | '.' :: rest => (readKeyParts fuel rest).map fun (parts, rest) => (part :: parts, rest)
    | rest => some ([part], rest)

/-- The most parts that a key may have, and the most arrays and inline tables that may lie in each
other. -/
def depthLimit : Nat := 80

def readKey (cs : List Char) : Option (List String × List Char) :=
  (readKeyParts (cs.length + 1) cs).filter fun (parts, _) => parts.length ≤ depthLimit

/-! ### Numbers and dates -/

/-- The digits of a number without the underscores between them; `none` if an underscore does not
stand between two digits. -/
def plainDigits? (isDigit : Char → Bool) : List Char → Option (List Char)
  | [] => none
  | [d] => if isDigit d then some [d] else none
  | d :: '_' :: rest =>
    if isDigit d then (plainDigits? isDigit rest).map (d :: ·) else none
  | d :: rest => if isDigit d then (plainDigits? isDigit rest).map (d :: ·) else none

/-- The number that digits of a base denote. -/
def inBase? (base : Nat) (cs : List Char) : Option Int := do
  let ds ← plainDigits? (fun c => (Text.hexDigit? c).any (· < base)) cs
  return ds.foldl (fun n c => n * base + (Text.hexDigit? c).getD 0) 0

/-- Digits in base ten without a needless zero in front. -/
def decimalDigits? (cs : List Char) : Option (List Char) := do
  let ds ← plainDigits? Text.isDigit cs
  if ds.length > 1 && ds.head? == some '0' then none else some ds

/-- Whether a number fits a word of 128 bits, with or without a sign. -/
def fitsWord (n : Int) : Bool :=
  -Int.pow 2 127 ≤ n && n < Int.pow 2 128

def integer? : List Char → Option Int
  | '0' :: 'x' :: ds => inBase? 16 ds
  | '0' :: 'o' :: ds => inBase? 8 ds
  | '0' :: 'b' :: ds => inBase? 2 ds
  | '-' :: ds => (decimalDigits? ds).map fun ds => -(Text.digitsValue 0 ds : Int)
  | '+' :: ds => (decimalDigits? ds).map fun ds => Int.ofNat (Text.digitsValue 0 ds)
  | ds => (decimalDigits? ds).map fun ds => Int.ofNat (Text.digitsValue 0 ds)

/-- The word behind an optional sign. -/
def dropSign : List Char → List Char
  | '+' :: cs => cs
  | '-' :: cs => cs
  | cs => cs

/-- Whether a word is a number with a fraction, an exponent or both, or infinity or NaN. -/
def isReal (word : List Char) : Bool :=
  let cs := dropSign word
  if cs == ['i', 'n', 'f'] || cs == ['n', 'a', 'n'] then true
  else
    let isE (c : Char) : Bool := c == 'e' || c == 'E'
    let number := cs.takeWhile fun c => !isE c
    let exponent := cs.drop number.length
    let whole := number.takeWhile (· != '.')
    let fraction := number.drop whole.length
    let exponentFits :=
      match exponent with
      | [] => !fraction.isEmpty
      | _ :: ds => (plainDigits? Text.isDigit (dropSign ds)).isSome
    let fractionFits :=
      match fraction with
      | [] => true
      | _ :: ds => (plainDigits? Text.isDigit ds).isSome
    (decimalDigits? whole).isSome && fractionFits && exponentFits

/-- Whether the number that a word for a real denotes is in the range of doubles. Infinity and NaN
are written as words of their own. -/
def realFits (word : List Char) : Bool :=
  let isNumber := word.any Text.isDigit
  let value := Decimal.float? (String.ofList (word.filter (· != '_')))
  !isNumber || value.any fun x => (Decimal.Binary.ofFloat? x).isSome

/-- Reads a number of exactly `count` digits in a range. -/
def readNumber (count least most : Nat) (cs : List Char) : Option (Nat × List Char) :=
  let ds := cs.take count
  if ds.length == count && ds.all Text.isDigit then
    let n := Text.digitsValue 0 ds
    if least ≤ n ∧ n ≤ most then some (n, cs.drop count) else none
  else none

/-- The rest behind a number of exactly `count` digits in a range. -/
def dropNumber (count least most : Nat) (cs : List Char) : Option (List Char) :=
  (readNumber count least most cs).map Prod.snd

/-- The rest behind one character. -/
def dropMark (mark : Char) : List Char → Option (List Char)
  | c :: rest => if c == mark then some rest else none
  | [] => none

/-- The rest behind a date, which has to be a day of the calendar. -/
def dropDate (cs : List Char) : Option (List Char) := do
  let (year, cs) ← readNumber 4 0 9999 cs
  let cs ← dropMark '-' cs
  let (month, cs) ← readNumber 2 1 12 cs
  let cs ← dropMark '-' cs
  let (day, cs) ← readNumber 2 1 31 cs
  if (Calendar.Day.ofDate? year month day).isSome then some cs else none

/-- The rest behind the seconds of a time. -/
def dropSeconds (cs : List Char) : Option (List Char) := do
  let cs ← dropNumber 2 0 60 cs
  match cs with
  | '.' :: rest =>
    let ds := rest.takeWhile Text.isDigit
    if ds.isEmpty then none else some (rest.drop ds.length)
  | cs => some cs

/-- The rest behind a time, whose seconds may be left out. -/
def dropTime (cs : List Char) : Option (List Char) := do
  let cs ← dropNumber 2 0 23 cs
  let cs ← dropMark ':' cs
  let cs ← dropNumber 2 0 59 cs
  match cs with
  | ':' :: rest => dropSeconds rest
  | cs => some cs

/-- The rest behind an offset from universal time. -/
def dropOffset : List Char → Option (List Char)
  | [] => some []
  | ['Z'] => some []
  | ['z'] => some []
  | sign :: cs => do
    if sign != '+' && sign != '-' then none
    let cs ← dropNumber 2 0 23 cs
    let cs ← dropMark ':' cs
    dropNumber 2 0 59 cs

/-- Whether a word is a date, a time or both. -/
def isDate (word : List Char) : Bool :=
  match dropDate word with
  | some [] => true
  | some (mark :: rest) =>
    (mark == 'T' || mark == 't' || mark == ' ') &&
      ((dropTime rest).bind dropOffset == some [])
  | none => dropTime word == some []

/-- Whether a character may stand in a word that is no string. -/
def isWordChar (c : Char) : Bool :=
  c.isAlphanum || c == '_' || c == '-' || c == '+' || c == '.' || c == ':'

/-- Reads a word. A space may stand between a date and a time. -/
def readWord (cs : List Char) : List Char × List Char :=
  let word := cs.takeWhile isWordChar
  let rest := cs.drop word.length
  match rest with
  | ' ' :: more =>
    let time := more.takeWhile isWordChar
    if dropDate word == some [] && (dropNumber 2 0 23 time).isSome then
      (word ++ ' ' :: time, more.drop time.length)
    else (word, rest)
  | _ => (word, rest)

def ofWord? (word : List Char) : Option Toml :=
  if word == ['t', 'r', 'u', 'e'] then some (flag true)
  else if word == ['f', 'a', 'l', 's', 'e'] then some (flag false)
  else
    match integer? word with
    | some n => if fitsWord n then some (integer n) else none
    | none =>
      if isReal word then
        if realFits word then some (real (String.ofList word)) else none
      else if isDate word then some (date (String.ofList word))
      else none

/-! ### Values and documents -/

mutual

/-- Reads a value. The depth is the number of arrays and inline tables around it. -/
def readValue : (fuel : Nat) → (depth : Nat) → List Char → Option (Toml × List Char)
  | 0, _, _ => none
  | fuel + 1, depth, cs =>
    match cs with
    | '[' :: rest =>
      if depth < depthLimit then
        (readItems fuel (depth + 1) rest).map fun (items, rest) => (array items, rest)
      else none
    | '\x7b' :: rest =>
      if depth < depthLimit then
        (readEntries fuel (depth + 1) .empty rest).map fun (t, rest) =>
          (inlineTable t.entries, rest)
      else none
    | '"' :: _ => (readString cs).map fun (s, rest) => (text s, rest)
    | '\x27' :: _ => (readString cs).map fun (s, rest) => (text s, rest)
    | cs =>
      let (word, rest) := readWord cs
      (ofWord? word).map fun v => (v, rest)

/-- Reads the items of an array up to its closing bracket. -/
def readItems : (fuel : Nat) → (depth : Nat) → List Char → Option (List Toml × List Char)
  | 0, _, _ => none
  | fuel + 1, depth, cs => do
    match ← skipAll cs with
    | ']' :: rest => some ([], rest)
    | cs =>
      let (v, rest) ← readValue fuel depth cs
      match ← skipAll rest with
      | ',' :: rest => (readItems fuel depth rest).map fun (items, rest) => (v :: items, rest)
      | ']' :: rest => some ([v], rest)
      | _ => none

/-- Reads the entries of an inline table up to its closing brace. Only the parts of a key have to
stand on one line. -/
def readEntries : (fuel : Nat) → (depth : Nat) → Table → List Char → Option (Table × List Char)
  | 0, _, _, _ => none
  | fuel + 1, depth, t, cs => do
    match ← skipAll cs with
    | '\x7d' :: rest => some (t, rest)
    | cs =>
      let (path, rest) ← readKey cs
      let rest ← dropMark '=' (← skipAll rest)
      let (v, rest) ← readValue fuel depth (← skipAll rest)
      let t ← t.define path v
      match ← skipAll rest with
      | ',' :: rest => readEntries fuel depth t rest
      | '\x7d' :: rest => some (t, rest)
      | _ => none

end

/-- Reads a header or an entry, the first character of which is given: the table of the document,
the path of the last header, and the rest of the text. -/
def readLine (t : Table) (header : List String) (cs : List Char) :
    Option (Table × List String × List Char) := do
  match cs with
  | '[' :: '[' :: rest =>
    let (path, rest) ← readKey rest
    let rest ← dropMark ']' rest
    let rest ← dropMark ']' rest
    let t ← t.openArrayTable path
    return (t, path, ← endLine rest)
  | '[' :: rest =>
    let (path, rest) ← readKey rest
    let rest ← dropMark ']' rest
    let t ← t.openTable path
    return (t, path, ← endLine rest)
  | cs =>
    let (path, rest) ← readKey cs
    let rest ← dropMark '=' rest
    let (v, rest) ← readValue (cs.length + 1) 0 (skipSpace rest)
    let t ← t.defineBelow header path v
    return (t, header, ← endLine rest)

def readDocument : (fuel : Nat) → Table → List String → List Char → Option Table
  | 0, _, _, _ => none
  | fuel + 1, t, header, cs => do
    match ← skipAll cs with
    | [] => some t
    | cs =>
      let (t, header, rest) ← readLine t header cs
      readDocument fuel t header rest

/-- The entries of the document that a text denotes. A byte order mark in front is skipped. -/
def read? (text : String) : Option (List (String × Toml)) :=
  let cs := match text.toList with
    | '\ufeff' :: cs => cs
    | cs => cs
  (readDocument (cs.length + 1) .empty [] cs).map Table.entries

end PathRules.Toml
