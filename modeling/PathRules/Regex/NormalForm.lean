import PathRules.Regex.Basic
/-!
Expressions in a normal form. Sequences and choices are built flat; a choice between sets is one
set, and what all branches of a choice begin with comes before it; an expression that reads nothing
is repeated at most once. None of this changes what an expression matches.
-/

namespace PathRules.Regex

open PathRules.Text (CharSet)

/-- Whether an expression can match nothing but the empty text. -/
def readsNothing : Regex → Bool
  | empty => true
  | look _ => true
  | chars _ => false
  | cat a b => a.readsNothing && b.readsNothing
  | alt a b => a.readsNothing && b.readsNothing
  | times r _ most => most == some 0 || (most.isSome && r.readsNothing)
  | group r => r.readsNothing

/-- The least number of characters that an expression reads; none for expressions that match no
text. -/
def leastLength : Regex → Option Nat
  | empty => some 0
  | look _ => some 0
  | chars s => if s.ranges.isEmpty then none else some 1
  | cat a b =>
    match a.leastLength, b.leastLength with
    | some m, some n => some (m + n)
    | _, _ => none
  | alt a b =>
    match a.leastLength, b.leastLength with
    | some m, some n => some (min m n)
    | _, _ => none
  | times r least _ => r.leastLength.map (· * least)
  | group r => r.leastLength

/-! ### Sequences -/

def factors : Regex → List Regex
  | empty => []
  | cat a b => a.factors ++ b.factors
  | r => [r]

def sequence : List Regex → Regex
  | [] => empty
  | [r] => r
  | r :: rest => cat r (sequence rest)

def concat (rs : List Regex) : Regex :=
  sequence (rs.flatMap factors)

/-- A part of a sequence: characters that stand one after the other, or another expression. -/
inductive Piece where
  | text (codes : List Nat)
  | other (r : Regex)
  deriving DecidableEq, Repr

/-- The character that an expression stands for. -/
def character? : Regex → Option Nat
  | chars s => s.single?
  | _ => none

/-- The pieces of a sequence, where neighbouring characters are one piece. -/
def pieces : List Regex → List Piece
  | [] => []
  | r :: rest =>
    match r.character?, pieces rest with
    | some n, .text codes :: more => .text (n :: codes) :: more
    | some n, more => .text [n] :: more
    | none, more => .other r :: more

def Piece.toRegex : Piece → Regex
  | text codes => sequence (codes.map fun n => chars ⟨[(n, n)]⟩)
  | other r => r

/-! ### Choices -/

def branches : Regex → List Regex
  | alt a b => a.branches ++ b.branches
  | r => [r]

def choice : List Regex → Regex
  | [] => chars .empty
  | [r] => r
  | r :: rest => alt r (choice rest)

/-- The set that an expression consists of. -/
def set? : Regex → Option CharSet
  | chars s => some s
  | _ => none

def commonStart {α : Type} [DecidableEq α] : List α → List α → List α
  | a :: as, b :: bs => if a = b then a :: commonStart as bs else []
  | _, _ => []

/-- What all branches begin with, if each of them has several pieces. -/
def sharedStart (branches : List (List Piece)) : List Piece :=
  match branches with
  | [] => []
  | first :: rest =>
    if branches.all fun ps => ps.length ≥ 2 then rest.foldl commonStart first else []

/-- One of several expressions. The fuel bounds how often a common beginning is taken out. -/
def oneOfWith : (fuel : Nat) → List Regex → Regex
  | 0, rs => choice rs
  | fuel + 1, rs =>
    let rs := rs.flatMap branches
    match rs, rs.mapM set? with
    | [r], _ => r
    | _, some sets => chars (.unions sets)
    | _, none =>
      let parts := rs.map fun r => pieces r.factors
      match sharedStart parts with
      | [] => choice rs
      | start =>
        let rests := parts.map fun ps => concat ((ps.drop start.length).map Piece.toRegex)
        concat (start.map Piece.toRegex ++ [oneOfWith fuel rests])

/-- One of several expressions. -/
def oneOf (rs : List Regex) : Regex :=
  oneOfWith ((rs.flatMap branches).foldl (fun n r => n + r.factors.length) 1) rs

/-! ### Repetitions -/

def repeated (r : Regex) (least : Nat) (most : Option Nat) : Regex :=
  let (least, most) :=
    if r.readsNothing then (min least 1, some (min (most.getD 1) 1)) else (least, most)
  if least = 0 ∧ most = some 0 then empty
  else if least = 1 ∧ most = some 1 then r
  else times r least most

end PathRules.Regex
