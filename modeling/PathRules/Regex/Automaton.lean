import PathRules.Regex.NormalForm
import PathRules.Text.Encoding
/-!
The size of the automata that search for an expression. There are two, one that reads a text
forwards and one that reads it backwards, both byte by byte. An automaton is built from a state for
each step: a state has a fixed size, and one with several ways out is larger by the size of each
way. Sizes are in bytes.
-/

namespace PathRules.Regex

open PathRules.Text (CharSet encodedBytes)

/-- How an automaton reads a text. -/
inductive Direction where
  | forwards
  | backwards
  deriving DecidableEq, Repr

def stateSize : Nat := 32

/-- The size of a way out of a state that reads a byte. -/
def stepSize : Nat := 8

/-- The size of a way out of a state that reads nothing. -/
def linkSize : Nat := 4

/-! ### Sets of characters -/

/-- The sequences with their first elements taken off, by those elements. Sequences that begin alike
stand together. -/
def byFirst {α : Type} [DecidableEq α] : List (List α) → List (α × List (List α))
  | [] => []
  | [] :: rest => byFirst rest
  | (a :: tail) :: rest =>
    match byFirst rest with
    | (b, tails) :: more =>
      if a = b then (a, tail :: tails) :: more else (a, [tail]) :: (b, tails) :: more
    | [] => [(a, [tail])]

/-- A state that reads one byte, by the ranges of bytes with the numbers of the states behind
them. -/
abbrev ByteState := List ((Nat × Nat) × Nat)

/-- The number of a state among those that are built, the last one first. A state that is there
already is not built again. The end has the number zero. -/
def addState (state : ByteState) (states : List ByteState) : Nat × List ByteState :=
  match states.findIdx? (· == state) with
  | some i => (states.length - i, states)
  | none => (states.length + 1, state :: states)

/-- Builds the states that read sequences of at most `length` bytes, and gives the number of the
first. -/
def buildStates : (length : Nat) → List (List (Nat × Nat)) → List ByteState → Nat × List ByteState
  | 0, _, states => (0, states)
  | length + 1, sequences, states =>
    if sequences.all List.isEmpty then (0, states)
    else
      let (state, states) := (byFirst sequences).foldl (fun (state, states) (bytes, tails) =>
        let (next, states) := buildStates length tails states
        (state ++ [(bytes, next)], states)) (([] : ByteState), states)
      addState state states

/-- The number of states that read sequences backwards. Sequences share the states of the bytes that
they begin with. -/
def sharedStates : (length : Nat) → List (List (Nat × Nat)) → Nat
  | 0, _ => 0
  | length + 1, sequences =>
    ((byFirst sequences).map fun (_, tails) => 1 + sharedStates length tails).sum

/-- The size of the automaton of a set of several characters. -/
def setSize (d : Direction) (s : CharSet) : Nat :=
  if s.isAscii then 2 * stateSize + stepSize * s.ranges.length
  else
    let sequences := s.byteRanges
    match d with
    | .forwards =>
      let (_, states) := buildStates 4 sequences []
      states.foldl (fun size state => size + stateSize + stepSize * state.length) stateSize
    | .backwards =>
      2 * stateSize + linkSize * sequences.length + stateSize * sharedStates 4 sequences

/-! ### Choices between texts -/

/-- Cuts a list of texts wherever one of them ends: the texts before the first end, those between it
and the next, and so on. Further ends count only after some text has gone on. -/
def cutAtEnds (done : List (List (List Nat))) (current : List (List Nat)) :
    List (List Nat) → List (List (List Nat))
  | [] => (current.reverse :: done).reverse
  | [] :: rest =>
    if current.isEmpty && !done.isEmpty && done.all List.isEmpty then cutAtEnds done [] rest
    else cutAtEnds (current.reverse :: done) [] rest
  | text :: rest => cutAtEnds done (text :: current) rest

/-- The texts that go on with each of the bytes that some text goes on with. -/
def byByte (texts : List (List Nat)) : List (List (List Nat)) :=
  (texts.filterMap List.head?).eraseDups.map fun byte =>
    (texts.filter fun text => text.head? = some byte).map List.tail

/-- The size of the states that read one of several texts, none of which has more than `length`
bytes. Texts share the states of what they begin with. -/
def textsSize : (length : Nat) → List (List Nat) → Nat
  | 0, _ => 0
  | length + 1, texts =>
    let parts := cutAtEnds [] [] texts
    let full := parts.filter fun part => !part.isEmpty
    if full.isEmpty then 0
    else
      let partSize (part : List (List Nat)) :=
        let groups := byByte part
        stateSize + (if groups.length = 1 then 0 else stepSize * groups.length) +
          (groups.map (textsSize length)).sum
      stateSize + linkSize * (full.length + parts.length - 1) + (full.map partSize).sum

/-- The bytes of a sequence of characters. -/
def bytes? (r : Regex) : Option (List Nat) :=
  match pieces r.factors with
  | [.text codes] => some (codes.flatMap encodedBytes)
  | _ => none

/-- The size of a choice between texts; none if a branch is another expression. -/
def choiceOfTexts? (d : Direction) (r : Regex) : Option Nat :=
  (r.branches.mapM bytes?).map fun texts =>
    let texts := if d = .forwards then texts else texts.map List.reverse
    stateSize + textsSize ((texts.map List.length).foldl max 0 + 1) texts

/-! ### Expressions -/

def isChoice : Regex → Bool
  | alt _ _ => true
  | _ => false

/-- The size of a repetition of an expression of the given size. Rounds that have to be made and
rounds that may be made are written out. -/
def timesSize (r : Regex) (size least : Nat) : (most : Option Nat) → Nat
  | none =>
    if least > 0 then least * size + stateSize + 2 * linkSize
    else if r.leastLength.getD 0 > 0 then size + stateSize + 2 * linkSize
    else size + 3 * stateSize + 4 * linkSize
  | some most =>
    if most = least then least * size
    else
      let optional := (most - least) * (size + stateSize + 2 * linkSize)
      if least = 0 ∧ most = 1 then optional + stateSize
      else (if least = 0 then stateSize else least * size) + optional + stateSize

/-- The size of the automaton of an expression; `inner` says that it is the rest of a choice. -/
def size (d : Direction) (inner : Bool) : Regex → Nat
  | empty => stateSize
  | look _ => stateSize
  | chars s =>
    match s.single? with
    | some n => stateSize * (encodedBytes n).length
    | none => setSize d s
  | cat a b => size d false a + size d false b
  | alt a b =>
    match if inner then none else choiceOfTexts? d (alt a b) with
    | some n => n
    | none =>
      let links := if b.isChoice then linkSize else 2 * linkSize
      let ends := if inner then 0 else 2 * stateSize
      size d false a + size d true b + links + ends
  | times r least most => timesSize r (size d false r) least most
  | group r =>
    match d with
    | .forwards => size d false r + 2 * stateSize
    | .backwards => size d false r

/-- Whether every match begins, or ends for the other direction, at a place that meets a
condition. -/
def isAnchored (d : Direction) (a : Assertion) : Regex → Bool
  | empty => false
  | look b => a == b
  | chars _ => false
  | cat r s =>
    match d with
    | .forwards => isAnchored d a r || (r.readsNothing && isAnchored d a s)
    | .backwards => isAnchored d a s || (s.readsNothing && isAnchored d a r)
  | alt r s => isAnchored d a r && isAnchored d a s
  | times r least _ => least > 0 && isAnchored d a r
  | group r => isAnchored d a r

/-- The size of the states that skip what comes before a match. -/
def skipSize (anchored : Bool) : Nat :=
  if anchored then stateSize else 3 * stateSize + stepSize + 2 * linkSize

/-- The size of a whole automaton. Forwards the place of the match is remembered. -/
def automatonSize (d : Direction) (r : Regex) : Nat :=
  match d with
  | .forwards =>
    skipSize (isAnchored d .textStart r) + size d false r + 3 * stateSize
  | .backwards => skipSize (isAnchored d .textEnd r) + size d false r + stateSize

/-- The size that no automaton may exceed. -/
def sizeLimit : Nat := 10485760

/-- Whether both automata of an expression are small enough. -/
def fits (r : Regex) : Bool :=
  automatonSize .forwards r ≤ sizeLimit && automatonSize .backwards r ≤ sizeLimit

end PathRules.Regex
