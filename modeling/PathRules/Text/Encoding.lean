import PathRules.Text.CharSet
/-!
How characters are written as bytes in UTF-8. A range of characters is written as sequences of
ranges of bytes: each choice of one byte from each range of a sequence is a character.
-/

namespace PathRules.Text

/-- The range of the bytes that may follow the first byte of a character. -/
def followingBytes : Nat × Nat := (0x80, 0xBF)

/-- The sequences for the numbers from `low` to `high`, written in base 64 with `more` digits behind
the first. The first digit is marked by `mark`, the digits behind it by `0x80`. -/
def digitRanges : (more : Nat) → (mark low high : Nat) → List (List (Nat × Nat))
  | 0, mark, low, high => [[(mark + low, mark + high)]]
  | more + 1, mark, low, high =>
    let block := 64 ^ (more + 1)
    let first := low / block
    let last := high / block
    let behind (digit low high : Nat) :=
      (digitRanges more 0x80 low high).map ((mark + digit, mark + digit) :: ·)
    if first = last then behind first (low % block) (high % block)
    else
      let start := if low % block = 0 then first else first + 1
      let stop := if high % block = block - 1 then last + 1 else last
      let head := if start = first then [] else behind first (low % block) (block - 1)
      let middle :=
        if start < stop then
          [(mark + start, mark + stop - 1) :: List.replicate (more + 1) followingBytes]
        else []
      let tail := if stop = last then behind last 0 (high % block) else []
      head ++ middle ++ tail

/-- The characters that are written with the same number of bytes: the first and the last one, the
number of bytes behind the first byte, and the mark of the first byte. -/
structure EncodedLength where
  first : Nat
  last : Nat
  more : Nat
  mark : Nat

/-- The four lengths of a character. The numbers that are no characters lie in a gap of the
third. -/
def encodedLengths : List EncodedLength :=
  [⟨0, 0x7F, 0, 0⟩, ⟨0x80, 0x7FF, 1, 0xC0⟩, ⟨0x800, 0xD7FF, 2, 0xE0⟩, ⟨0xE000, 0xFFFF, 2, 0xE0⟩,
    ⟨0x10000, 0x10FFFF, 3, 0xF0⟩]

/-- The sequences for the characters of a set, in order. -/
def CharSet.byteRanges (s : CharSet) : List (List (Nat × Nat)) :=
  s.ranges.flatMap fun (low, high) =>
    encodedLengths.flatMap fun l =>
      let low := max low l.first
      let high := min high l.last
      if low ≤ high then digitRanges l.more l.mark low high else []

def encodedBytes (n : Nat) : List Nat :=
  (CharSet.range n n).byteRanges.flatten.map Prod.fst

end PathRules.Text
