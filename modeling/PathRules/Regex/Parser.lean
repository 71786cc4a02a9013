import PathRules.Regex.NormalForm
import PathRules.Regex.Property
import PathRules.Text.CaseFold
import PathRules.Text.Newer
/-!
Reading a regular expression from its text. The reader keeps the open groups in a stack; each group
has the branches that are finished and the items of the branch that is open. Settings such as
`(?i)` hold until the group that they stand in ends. Each part comes with its depth, the number of
groups, repetitions, choices, sequences and classes that it nests, which has a limit.
-/

namespace PathRules.Regex

open PathRules.Text (Category CharSet)

/-- Why a text is no regular expression. -/
inductive PatternError where
  | unclosedClass
  | badClass
  | badRange
  | unclosedGroup
  | unopenedGroup
  | lookAround
  | badGroupName
  | repeatedGroupName
  | badFlags
  | nothingToRepeat
  | badCount
  | badEscape
  | unknownProperty
  | notText
  | tooDeep
  deriving DecidableEq, Repr

/-- The settings that a pattern can switch. -/
structure Flags where
  /-- Characters match in any case. -/
  ignoreCase : Bool
  /-- `^` and `$` match at lines. -/
  multiLine : Bool
  /-- `.` matches line ends too. -/
  dotAll : Bool
  /-- A carriage return ends a line too. -/
  crlf : Bool
  /-- Blanks and comments in the pattern mean nothing. -/
  verbose : Bool
  /-- Classes cover all characters; otherwise only the first 128. -/
  wide : Bool
  deriving DecidableEq, Repr

/-- The settings at the start of a pattern. -/
def Flags.initial : Flags := ⟨false, false, false, false, false, true⟩

/-- The rest of a line behind `#`. -/
def skipLine (cs : List Char) : List Char :=
  (cs.dropWhile (· != '\n')).drop 1

/-- Skips blanks and comments. -/
def skipSpace : (fuel : Nat) → List Char → List Char
  | 0, cs => cs
  | fuel + 1, cs =>
    match Text.trimStart cs with
    | '#' :: rest => skipSpace fuel (skipLine rest)
    | rest => rest

/-- Skips what means nothing under the settings. -/
def Flags.skip (f : Flags) (cs : List Char) : List Char :=
  if f.verbose then skipSpace (cs.length + 1) cs else cs

/-- A set as it stands under the settings, without regard to case where that is set. -/
def Flags.close (f : Flags) (s : CharSet) : CharSet :=
  if f.ignoreCase then (if f.wide then s.folded else s.foldedAscii) else s

/-- The complement of a set under the settings. Without wide classes it is one of bytes, and those
from 128 on are no characters. -/
def Flags.negate (f : Flags) (negated : Bool) (s : CharSet) : Except PatternError CharSet :=
  if !negated then .ok s
  else if f.wide then .ok s.compl
  else .error .notText

/-! ### Escapes -/

inductive Escape where
  | literal (c : Char)
  /-- A character given by its number in two digits. -/
  | byte (n : Nat)
  | set (s : CharSet)
  | assertion (a : Assertion)

/-- The characters that have a meaning of their own. -/
def metaCharacters : List Char :=
  ['\\', '.', '+', '*', '?', '(', ')', '|', '[', ']', '\x7b', '\x7d', '^', '$', '#', '&', '-', '~']

/-- Whether a backslash before a character gives the character itself. -/
def isEscapable (c : Char) : Bool :=
  metaCharacters.contains c ||
    (c.toNat < 128 && !c.isAlphanum && c != '<' && c != '>')

/-- The digits, the blanks and the word characters of classes that are not wide. -/
def asciiDigits : CharSet := .range 0x30 0x39

/-- The blanks of classes that are not wide. -/
def asciiBlanks : CharSet := .ofRanges [(0x09, 0x0D), (0x20, 0x20)]

/-- The word characters of classes that are not wide. -/
def asciiWords : CharSet := .ofRanges [(0x30, 0x39), (0x41, 0x5A), (0x5F, 0x5F), (0x61, 0x7A)]

/-- The class that a letter behind a backslash stands for, in small letters. -/
def letterClass? (f : Flags) (c : Char) : Option CharSet :=
  match c with
  | 'd' => some (if f.wide then Category.setOf [.decimalNumber] else asciiDigits)
  | 's' => some (if f.wide then Text.blanks else asciiBlanks)
  | 'w' => some (if f.wide then Text.wordCharacters else asciiWords)
  | _ => none

/-- A number that is a character. -/
def scalar? (n : Nat) : Option Char :=
  if n.isValidChar then some (Char.ofNat n) else none

/-- Takes `count` characters, skipping what means nothing before each but the first. -/
def takeSpaced (f : Flags) : Nat → List Char → Option (List Char × List Char)
  | 0, cs => some ([], cs)
  | count + 1, cs =>
    match cs with
    | [] => none
    | c :: rest => (takeSpaced f count (f.skip rest)).map fun (taken, rest) => (c :: taken, rest)

/-- Takes characters up to a closing brace, skipping what means nothing before each. -/
def takeBraced (f : Flags) : (fuel : Nat) → List Char → Option (List Char × List Char)
  | 0, _ => none
  | fuel + 1, cs =>
    match f.skip cs with
    | [] => none
    | '\x7d' :: rest => some ([], rest)
    | c :: rest => (takeBraced f fuel rest).map fun (taken, rest) => (c :: taken, rest)

/-- Reads a character given by its number, behind the letter that says how many digits it has. -/
def readHex (f : Flags) (width : Nat) (cs : List Char) : Except PatternError (Escape × List Char) :=
  let finish (fixed : Bool) (taken rest : List Char) : Except PatternError (Escape × List Char) :=
    match Text.hexNumber? taken with
    | none => .error .badEscape
    | some n =>
      if fixed && width == 2 then .ok (.byte n, rest)
      else
        match scalar? n with
        | some c => .ok (.literal c, rest)
        | none => .error .badEscape
  match f.skip cs with
  | '\x7b' :: rest =>
    match takeBraced f (rest.length + 1) rest with
    | some (taken, rest) => finish false taken rest
    | none => .error .badEscape
  | cs =>
    match takeSpaced f width cs with
    | some (taken, rest) => finish true taken rest
    | none => .error .badEscape

/-- Reads the name of a property behind `\p` or `\P`. -/
def readProperty (f : Flags) (negated : Bool) (cs : List Char) :
    Except PatternError (Escape × List Char) := do
  let (name, rest) ← match f.skip cs with
    | '\x7b' :: rest =>
      match takeBraced f (rest.length + 1) rest with
      | some (taken, rest) => .ok (taken, rest)
      | none => .error .badEscape
    | '\\' :: _ => .error .badEscape
    | c :: rest => .ok ([c], f.skip rest)
    | [] => .error .badEscape
  if !f.wide then .error .notText
  else
    match propertySet? name with
    | none => .error .unknownProperty
    | some s =>
      let s := f.close s
      .ok (.set (if negated then s.compl else s), rest)

/-- The places that `\b` with a word in braces stands for. -/
def boundaryNamed? (ascii : Bool) (name : List Char) : Option Assertion :=
  match String.ofList name with
  | "start" => some (.wordStart ascii)
  | "end" => some (.wordEnd ascii)
  | "start-half" => some (.wordStartHalf ascii)
  | "end-half" => some (.wordEndHalf ascii)
  | _ => none

/-- Whether a character can stand in the word in braces behind `\b`. -/
def isBoundaryChar (c : Char) : Bool :=
  c.isAlpha || c == '-'

/-- Takes the characters of such a word, skipping what means nothing behind each. -/
def takeBoundaryName (f : Flags) : (fuel : Nat) → List Char → List Char × List Char
  | 0, cs => ([], cs)
  | _ + 1, [] => ([], [])
  | fuel + 1, c :: rest =>
    if isBoundaryChar c then
      let (name, rest) := takeBoundaryName f fuel (f.skip rest)
      (c :: name, rest)
    else ([], c :: rest)

/-- Reads what may follow `\b`: a word in braces that says which boundary is meant. Braces with
anything else belong to a repetition. -/
def readBoundary (f : Flags) (cs : List Char) : Except PatternError (Escape × List Char) :=
  let plain : Except PatternError (Escape × List Char) :=
    .ok (.assertion (.wordBoundary (!f.wide)), cs)
  match cs with
  | '\x7b' :: rest =>
    match f.skip rest, takeBoundaryName f (rest.length + 1) (f.skip rest) with
    | [], _ => .error .badEscape
    | _ :: _, ([], _) => plain
    | _ :: _, (name, '\x7d' :: rest) =>
      match boundaryNamed? (!f.wide) name with
      | some a => .ok (.assertion a, rest)
      | none => .error .badEscape
    | _ :: _, _ => .error .badEscape
  | _ => plain

def readEscape (f : Flags) (cs : List Char) : Except PatternError (Escape × List Char) :=
  match cs with
  | [] => .error .badEscape
  | c :: rest =>
    let ascii := !f.wide
    if c.isDigit then .error .badEscape
    else
      match letterClass? f c, letterClass? f c.toLower with
      | some s, _ => .ok (.set s, rest)
      | none, some s => (f.negate true s).map fun s => (.set s, rest)
      | none, none =>
        match c with
        | 'x' => readHex f 2 rest
        | 'u' => readHex f 4 rest
        | 'U' => readHex f 8 rest
        | 'p' => readProperty f false rest
        | 'P' => readProperty f true rest
        | 'a' => .ok (.literal '\x07', rest)
        | 'f' => .ok (.literal '\x0c', rest)
        | 't' => .ok (.literal '\t', rest)
        | 'n' => .ok (.literal '\n', rest)
        | 'r' => .ok (.literal '\r', rest)
        | 'v' => .ok (.literal '\x0b', rest)
        | 'A' => .ok (.assertion .textStart, rest)
        | 'z' => .ok (.assertion .textEnd, rest)
        | 'b' => readBoundary f rest
        | 'B' => .ok (.assertion (.noWordBoundary ascii), rest)
        | '<' => .ok (.assertion (.wordStart ascii), rest)
        | '>' => .ok (.assertion (.wordEnd ascii), rest)
        | c => if isEscapable c then .ok (.literal c, rest) else .error .badEscape

/-! ### Classes -/

/-- The named classes of the first 128 characters. -/
def asciiClasses : List (String × List (Nat × Nat)) :=
  [("alnum", [(0x30, 0x39), (0x41, 0x5A), (0x61, 0x7A)]), ("alpha", [(0x41, 0x5A), (0x61, 0x7A)]),
    ("ascii", [(0, 0x7F)]), ("blank", [(0x09, 0x09), (0x20, 0x20)]),
    ("cntrl", [(0, 0x1F), (0x7F, 0x7F)]), ("digit", [(0x30, 0x39)]), ("graph", [(0x21, 0x7E)]),
    ("lower", [(0x61, 0x7A)]), ("print", [(0x20, 0x7E)]),
    ("punct", [(0x21, 0x2F), (0x3A, 0x40), (0x5B, 0x60), (0x7B, 0x7E)]),
    ("space", [(0x09, 0x0D), (0x20, 0x20)]), ("upper", [(0x41, 0x5A)]),
    ("word", [(0x30, 0x39), (0x41, 0x5A), (0x5F, 0x5F), (0x61, 0x7A)]),
    ("xdigit", [(0x30, 0x39), (0x41, 0x46), (0x61, 0x66)])]

/-- Reads a named class such as `[:alpha:]` behind its bracket, if one stands here: whether it is
negated, its ranges and the rest. -/
def asciiClass? (cs : List Char) : Option (Bool × List (Nat × Nat) × List Char) :=
  match cs with
  | ':' :: rest =>
    let (negated, rest) := match rest with
      | '^' :: rest => (true, rest)
      | rest => (false, rest)
    let name := rest.takeWhile (· != ':')
    match rest.drop name.length with
    | ':' :: ']' :: rest =>
      (asciiClasses.lookup (String.ofList name)).map fun ranges => (negated, ranges, rest)
    | _ => none
  | _ => none

/-- An operation on two sets. -/
inductive ClassOp where
  | inter
  | diff
  | symmDiff
  deriving DecidableEq, Repr

def ClassOp.apply : ClassOp → CharSet → CharSet → CharSet
  | inter, a, b => a.inter b
  | diff, a, b => a.diff b
  | symmDiff, a, b => a.symmDiff b

/-- The depth of parts that stand side by side: one more than that of the deepest of them if there
are several. -/
def sideBySide (depths : List Nat) : Nat :=
  depths.foldl max 0 + if depths.length > 1 then 1 else 0

/-- Items of a class that stand side by side: their union, and the depth of each. -/
structure ClassItems where
  set : CharSet
  depths : List Nat

def ClassItems.none : ClassItems := ⟨.empty, []⟩

def ClassItems.add (items : ClassItems) (set : CharSet) (depth : Nat) : ClassItems :=
  ⟨items.set.union set, depth :: items.depths⟩

/-- An operation whose right side is still to come, with its left side. -/
structure PendingOp where
  op : ClassOp
  left : CharSet
  depth : Nat

/-- The set of what is read so far, with its depth: the pending operation, if any, applied to the
items behind it. -/
def combine (f : Flags) (pending : Option PendingOp) (items : ClassItems) : CharSet × Nat :=
  let depth := sideBySide items.depths
  match pending with
  | none => (items.set, depth)
  | some p => (p.op.apply (f.close p.left) (f.close items.set), max p.depth depth + 1)

/-- The character of an item of a class; without wide classes only the first 128 are allowed. -/
def Flags.classChar (f : Flags) : Escape → Except PatternError Char
  | .literal c => if f.wide || c.toNat < 128 then .ok c else .error .notText
  | .byte n => if f.wide || n < 128 then .ok (Char.ofNat n) else .error .notText
  | _ => .error .badRange

def readClassItem (f : Flags) (cs : List Char) : Except PatternError (Escape × List Char) :=
  match cs with
  | [] => .error .unclosedClass
  | '\\' :: rest => readEscape f rest
  | c :: rest => .ok (.literal c, rest)

/-- The character that is taken to follow. Where blanks and comments mean nothing it is the next one
that is not blank, or the first such one of a comment. -/
def Flags.peek (f : Flags) (cs : List Char) : Option Char :=
  if !f.verbose then cs.head?
  else
    match Text.trimStart cs with
    | '#' :: comment => (Text.trimStart comment).head?
    | rest => rest.head?

/-- Whether a `-` that begins the text joins a range: what is taken to follow is neither a closing
bracket nor another `-`. -/
def joinsRange (f : Flags) (cs : List Char) : Bool :=
  match cs with
  | '-' :: rest => f.peek rest != some ']' && f.peek rest != some '-'
  | _ => false

def readClassRange (f : Flags) (cs : List Char) : Except PatternError (CharSet × List Char) := do
  let (item, rest) ← readClassItem f cs
  let rest := f.skip rest
  if rest.isEmpty then .error .unclosedClass
  else if joinsRange f rest then
    let (last, rest) ← readClassItem f (f.skip (rest.drop 1))
    let low ← f.classChar item
    let high ← f.classChar last
    if low ≤ high then .ok (.range low.toNat high.toNat, rest) else .error .badRange
  else
    match item with
    | .set s => .ok (s, rest)
    | .assertion _ => .error .badClass
    | item => (f.classChar item).map fun c => (.single c, rest)

/-- The dashes that may stand first in a class, as items, and the rest. -/
def leadingDashes (f : Flags) : (fuel : Nat) → ClassItems → List Char → ClassItems × List Char
  | 0, items, cs => (items, cs)
  | fuel + 1, items, cs =>
    match cs with
    | '-' :: rest => leadingDashes f fuel (items.add (.single '-') 0) (f.skip rest)
    | cs => (items, cs)

/-- What stands behind the opening bracket of a class: whether it is negated, the dashes or the
bracket that stand for themselves there, and the rest. -/
def openClass (f : Flags) (cs : List Char) : Bool × ClassItems × List Char :=
  let cs := f.skip cs
  let (negated, cs) := match cs with
    | '^' :: rest => (true, f.skip rest)
    | cs => (false, cs)
  let (items, cs) := leadingDashes f cs.length .none cs
  match items.depths, cs with
  | [], ']' :: rest => (negated, items.add (.single ']') 0, f.skip rest)
  | _, cs => (negated, items, cs)

/-- Reads the items of a class up to its closing bracket: its set, its depth and the rest. -/
def readClassBody (f : Flags) : (fuel : Nat) → (negated : Bool) → Option PendingOp → ClassItems →
    List Char → Except PatternError (CharSet × Nat × List Char)
  | 0, _, _, _, _ => .error .unclosedClass
  | fuel + 1, negated, pending, items, cs =>
    let operate (op : ClassOp) (rest : List Char) :=
      let (left, depth) := combine f pending items
      readClassBody f fuel negated (some ⟨op, left, depth⟩) .none rest
    match f.skip cs with
    | [] => .error .unclosedClass
    | ']' :: rest =>
      let (s, depth) := combine f pending items
      (f.negate negated (f.close s)).map fun s => (s, depth + 1, rest)
    | '[' :: rest =>
      match asciiClass? rest with
      | some (negated', ranges, rest) => do
        let s ← f.negate negated' (f.close (.ofRanges ranges))
        readClassBody f fuel negated pending (items.add s 0) rest
      | none => do
        let (negated', inner, rest) := openClass f rest
        let (s, depth, rest) ← readClassBody f fuel negated' none inner rest
        readClassBody f fuel negated pending (items.add s depth) rest
    | '&' :: '&' :: rest => operate .inter rest
    | '-' :: '-' :: rest => operate .diff rest
    | '~' :: '~' :: rest => operate .symmDiff rest
    | cs => do
      let (s, rest) ← readClassRange f cs
      readClassBody f fuel negated pending (items.add s 0) rest

def readClass (f : Flags) (cs : List Char) : Except PatternError (CharSet × Nat × List Char) :=
  let (negated, items, rest) := openClass f cs
  readClassBody f (cs.length + 1) negated none items rest

/-! ### Groups and repetitions -/

/-- A part of a branch. -/
inductive Item where
  | expr (r : Regex) (depth : Nat)
  /-- Settings, which cannot be repeated. -/
  | settings

/-- The expression that a part stands for; settings stand for none. -/
def Item.regex? : Item → Option Regex
  | expr r _ => some r
  | settings => none

def Item.depth : Item → Nat
  | expr _ depth => depth
  | settings => 0

/-- An open group: the settings to return to, whether its part of the text is remembered, the
finished branches with their depths, and the parts of the open branch, the last of each first. -/
structure Group where
  outer : Flags
  remembered : Bool
  branches : List (Regex × Nat)
  items : List Item

/-- The expression and the depth of the parts of a branch. -/
def branchOf (items : List Item) : Regex × Nat :=
  (concat (items.reverse.filterMap Item.regex?), sideBySide (items.map Item.depth))

def Group.endBranch (g : Group) : Group :=
  { g with branches := branchOf g.items :: g.branches, items := [] }

/-- The expression of the branches of a group, with its depth. -/
def Group.choice (g : Group) : Regex × Nat :=
  let branches := g.endBranch.branches
  (oneOf (branches.reverse.map Prod.fst), sideBySide (branches.map Prod.snd))

/-- The part that a finished group is. -/
def Group.toItem (g : Group) : Item :=
  let (r, depth) := g.choice
  .expr (if g.remembered then .group r else r) (depth + 1)

structure State where
  flags : Flags
  current : Group
  outer : List Group
  names : List String
  rest : List Char

namespace State

def push (s : State) (r : Regex) (depth : Nat) (rest : List Char) : State :=
  { s with current := { s.current with items := .expr r depth :: s.current.items }, rest }

def pushSet (s : State) (set : CharSet) (rest : List Char) : State :=
  s.push (.chars set) 0 rest

def openGroup (s : State) (flags : Flags) (remembered : Bool) (rest : List Char) : State :=
  { s with flags, current := ⟨s.flags, remembered, [], []⟩, outer := s.current :: s.outer, rest }

/-- Closes the innermost group. -/
def closeGroup (s : State) (rest : List Char) : Except PatternError State :=
  match s.outer with
  | [] => .error .unopenedGroup
  | g :: outer =>
    .ok { s with
          flags := s.current.outer
          current := { g with items := s.current.toItem :: g.items }
          outer
          rest }

end State

/-- Gives a setting its value. -/
def Flags.set? (f : Flags) (letter : Char) (value : Bool) : Option Flags :=
  match letter with
  | 'i' => some { f with ignoreCase := value }
  | 'm' => some { f with multiLine := value }
  | 's' => some { f with dotAll := value }
  | 'R' => some { f with crlf := value }
  | 'x' => some { f with verbose := value }
  | 'u' => some { f with wide := value }
  | 'U' => some f
  | _ => none

/-- Reads settings up to `:` or `)`: the settings, the letters and dashes read, the mark and the
rest. Each letter stands at most once, and a dash switches off the letters behind it. -/
def readFlags (f : Flags) (off : Bool) (seen : List Char) :
    List Char → Except PatternError (Flags × List Char × Char × List Char)
  | [] => .error .badFlags
  | c :: rest =>
    if c = ':' ∨ c = ')' then
      if seen.head? = some '-' then .error .badFlags else .ok (f, seen, c, rest)
    else if seen.contains c then .error .badFlags
    else if c = '-' then readFlags f true (c :: seen) rest
    else
      match f.set? c (!off) with
      | some f => readFlags f off (c :: seen) rest
      | none => .error .badFlags

/-- The letters of the names of groups. -/
def nameLetters : CharSet := Text.alphabetic.union Text.newerAlphabetic

def nameNumbers : CharSet := (Category.setOf (Category.group 'N')).union Text.newerNumeric

/-- Whether a character can stand in the name of a group. -/
def isNameChar (first : Bool) (c : Char) : Bool :=
  c == '_' || nameLetters.mem c.toNat ||
    (!first && (c == '.' || c == '[' || c == ']' || nameNumbers.mem c.toNat))

/-- Reads the name of a group and its closing mark, and opens the group. -/
def openNamed (s : State) (cs : List Char) : Except PatternError State :=
  let name := cs.takeWhile (· != '>')
  match name, cs.drop name.length with
  | first :: more, _ :: rest =>
    if !isNameChar true first || !more.all (isNameChar false) then .error .badGroupName
    else if s.names.contains (String.ofList name) then .error .repeatedGroupName
    else .ok ({ s with names := String.ofList name :: s.names }.openGroup s.flags true rest)
  | _, _ => .error .badGroupName

/-- Reads what stands behind an opening parenthesis. -/
def openParenthesis (s : State) (cs : List Char) : Except PatternError State :=
  match s.flags.skip cs with
  | '?' :: '=' :: _ => .error .lookAround
  | '?' :: '!' :: _ => .error .lookAround
  | '?' :: '<' :: '=' :: _ => .error .lookAround
  | '?' :: '<' :: '!' :: _ => .error .lookAround
  | '?' :: 'P' :: '<' :: rest => openNamed s rest
  | '?' :: '<' :: rest => openNamed s rest
  | '?' :: rest => do
    let (flags, seen, mark, rest) ← readFlags s.flags false [] rest
    if mark = ':' then .ok (s.openGroup flags false rest)
    else if seen.isEmpty then .error .nothingToRepeat
    else
      let current := { s.current with items := .settings :: s.current.items }
      .ok { s with flags, current, rest }
  | rest => .ok (s.openGroup s.flags true rest)

/-- Repeats the last part of the open branch. -/
def repeatLast (s : State) (least : Nat) (most : Option Nat) (rest : List Char) :
    Except PatternError State :=
  match s.current.items with
  | .expr r depth :: items =>
    let item := Item.expr (repeated r least most) (depth + 1)
    .ok { s with current := { s.current with items := item :: items }, rest }
  | _ => .error .nothingToRepeat

/-- The rest behind the mark of a lazy repetition, which matches the same texts. -/
def dropLazy : List Char → List Char
  | '?' :: rest => rest
  | rest => rest

/-- Reads a count with the blanks around it; `none` when there is no digit. -/
def readCount (f : Flags) (cs : List Char) : Except PatternError (Option Nat × List Char) :=
  let rec digits : (fuel : Nat) → List Char → List Char × List Char
    | 0, cs => ([], cs)
    | fuel + 1, c :: rest =>
      if c.isDigit then
        let (ds, rest) := digits fuel (f.skip rest)
        (c :: ds, rest)
      else ([], c :: rest)
    | _ + 1, [] => ([], [])
  let (ds, rest) := digits cs.length (Text.trimStart cs)
  let rest := Text.trimStart rest
  match Text.natural? ds with
  | none => .ok (none, rest)
  | some n => if n < 4294967296 then .ok (some n, rest) else .error .badCount

/-- Reads the counts of a repetition behind the opening brace. -/
def readCounts (s : State) (cs : List Char) : Except PatternError State := do
  let f := s.flags
  let (least, rest) ← readCount f (f.skip cs)
  let finish (least most : Option Nat) (rest : List Char) : Except PatternError State :=
    match least, rest with
    | some least, '\x7d' :: rest =>
      if least ≤ most.getD least then repeatLast s least most (dropLazy (f.skip rest))
      else .error .badCount
    | _, _ => .error .badCount
  match rest with
  | ',' :: rest =>
    match f.skip rest with
    | '\x7d' :: _ => finish least none (f.skip rest)
    | rest => do
      let (most, rest) ← readCount f rest
      match most with
      | some most => finish least (some most) rest
      | none => .error .badCount
  | rest => finish least least rest

/-- The expression of an escape outside classes. A number of a byte from 128 on is no character
unless classes are wide. -/
def Escape.toRegex (f : Flags) : Escape → Except PatternError Regex
  | .literal c => .ok (.chars (f.close (.single c)))
  | .byte n =>
    if f.wide || n < 128 then .ok (.chars (f.close (.single (Char.ofNat n)))) else .error .notText
  | .set s => .ok (.chars s)
  | .assertion a => .ok (.look a)

/-- The characters that a dot matches. -/
def dotSet (f : Flags) : Except PatternError CharSet :=
  if !f.wide then .error .notText
  else if f.dotAll then .ok .all
  else if f.crlf then .ok (CharSet.ofRanges [(0x0A, 0x0A), (0x0D, 0x0D)]).compl
  else .ok (CharSet.single '\n').compl

/-- What `^` stands for. -/
def lineStartOf (f : Flags) : Assertion :=
  if f.multiLine then (if f.crlf then .crlfStart else .lineStart) else .textStart

/-- What `$` stands for. -/
def lineEndOf (f : Flags) : Assertion :=
  if f.multiLine then (if f.crlf then .crlfEnd else .lineEnd) else .textEnd

/-- Reads one part of the pattern, the first character of which is given. -/
def readPart (s : State) (c : Char) (rest : List Char) : Except PatternError State :=
  let f := s.flags
  match c with
  | '(' => openParenthesis s rest
  | ')' => s.closeGroup rest
  | '|' =>
    .ok { s with current := s.current.endBranch, rest }
  | '[' => (readClass f rest).map fun (set, depth, rest) => s.push (.chars set) depth rest
  | '?' => repeatLast s 0 (some 1) (dropLazy rest)
  | '*' => repeatLast s 0 none (dropLazy rest)
  | '+' => repeatLast s 1 none (dropLazy rest)
  | '\x7b' => readCounts s rest
  | '.' => (dotSet f).map fun set => s.pushSet set rest
  | '^' => .ok (s.push (.look (lineStartOf f)) 0 rest)
  | '$' => .ok (s.push (.look (lineEndOf f)) 0 rest)
  | '\\' => do
    let (e, rest) ← readEscape f rest
    let r ← e.toRegex f
    .ok (s.push r 0 rest)
  | c => .ok (s.pushSet (f.close (.single c)) rest)

/-- Reads the parts of the pattern to its end. Each part takes at least one character. -/
def readParts : (fuel : Nat) → State → Except PatternError (Regex × Nat)
  | 0, _ => .error .unclosedGroup
  | fuel + 1, s =>
    match s.flags.skip s.rest with
    | [] => if s.outer.isEmpty then .ok s.current.choice else .error .unclosedGroup
    | c :: rest => (readPart s c rest).bind (readParts fuel)

/-- The depth that no expression may exceed. -/
def depthLimit : Nat := 250

/-- The regular expression that a text denotes. -/
def ofString (text : String) : Except PatternError Regex := do
  let cs := text.toList
  let (r, depth) ← readParts (cs.length + 1) ⟨.initial, ⟨.initial, false, [], []⟩, [], [], cs⟩
  if depth ≤ depthLimit then .ok r else .error .tooDeep

end PathRules.Regex
