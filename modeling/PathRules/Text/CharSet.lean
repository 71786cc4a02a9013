import PathRules.Text.Numeral
/-!
Sets of characters. A set is kept as ranges of code points that are in order and do not touch, so
that two sets with the same characters are written alike. Every set is built by `ofRanges` or
`compl`; `mem_ofRanges` and `mem_compl` say which characters the results hold.
-/

namespace PathRules.Text

/-- A set of characters, as the first and last code points of its ranges. -/
structure CharSet where
  ranges : List (Nat × Nat)
  deriving DecidableEq, Repr

namespace CharSet

/-- Whether a code point lies in one of the ranges. -/
def mem (s : CharSet) (n : Nat) : Bool :=
  s.ranges.any fun r => r.1 ≤ n && n ≤ r.2

def lastCode : Nat := 0x10FFFF

/-- The ranges of a range and of more ranges that begin no earlier, where those that touch are
joined. -/
def join (low high : Nat) : List (Nat × Nat) → List (Nat × Nat)
  | [] => [(low, high)]
  | (low', high') :: rest =>
    if low' ≤ high + 1 then join low (max high high') rest
    else (low, high) :: join low' high' rest

/-- The set of the characters in any of the ranges, which may come in any order. -/
def ofRanges (rs : List (Nat × Nat)) : CharSet :=
  match (rs.filter fun r => r.1 ≤ r.2).mergeSort fun a b => a.1 ≤ b.1 with
  | [] => ⟨[]⟩
  | (low, high) :: rest => ⟨join low high rest⟩

def empty : CharSet := ⟨[]⟩

def range (low high : Nat) : CharSet := ofRanges [(low, high)]

def single (c : Char) : CharSet := ⟨[(c.toNat, c.toNat)]⟩

def all : CharSet := ⟨[(0, lastCode)]⟩

def union (a b : CharSet) : CharSet :=
  ofRanges (a.ranges ++ b.ranges)

def unions (sets : List CharSet) : CharSet :=
  ofRanges (sets.flatMap ranges)

/-- The ranges between given ones, from a code point on. -/
def gaps (start : Nat) : List (Nat × Nat) → List (Nat × Nat)
  | [] => if start ≤ lastCode then [(start, lastCode)] else []
  | (low, high) :: rest =>
    if start < low then (start, low - 1) :: gaps (high + 1) rest else gaps (high + 1) rest

def compl (s : CharSet) : CharSet := ⟨gaps 0 s.ranges⟩

def inter (a b : CharSet) : CharSet :=
  (a.compl.union b.compl).compl

def diff (a b : CharSet) : CharSet :=
  (a.compl.union b).compl

/-- The characters of exactly one of two sets. -/
def symmDiff (a b : CharSet) : CharSet :=
  (a.diff b).union (b.diff a)

def single? (s : CharSet) : Option Nat :=
  match s.ranges with
  | [(low, high)] => if low = high then some low else none
  | _ => none

/-- Whether all characters of a set are among the first 128. -/
def isAscii (s : CharSet) : Bool :=
  s.ranges.all fun r => r.2 < 128

/-! ### Membership -/

theorem mem_iff (s : CharSet) (n : Nat) : s.mem n ↔ ∃ r ∈ s.ranges, r.1 ≤ n ∧ n ≤ r.2 := by
  simp [mem]

/-- Joining ranges that touch keeps the numbers in them. -/
theorem exists_mem_join (low high n : Nat) (rs : List (Nat × Nat))
    (sorted : ((low, high) :: rs).Pairwise fun a b => a.1 ≤ b.1) :
    (∃ r ∈ join low high rs, r.1 ≤ n ∧ n ≤ r.2) ↔
      (low ≤ n ∧ n ≤ high) ∨ ∃ r ∈ rs, r.1 ≤ n ∧ n ≤ r.2 := by
  induction rs generalizing low high with
  | nil => simp [join]
  | cons r rest ih =>
    obtain ⟨low', high'⟩ := r
    obtain ⟨first, others⟩ := List.pairwise_cons.1 sorted
    have later : low ≤ low' := first (low', high') List.mem_cons_self
    by_cases touch : low' ≤ high + 1
    · have joined : ((low, max high high') :: rest).Pairwise fun a b => a.1 ≤ b.1 :=
        List.pairwise_cons.2 ⟨fun r hr => first r (List.mem_cons_of_mem _ hr), others.of_cons⟩
      have cover : low ≤ n ∧ n ≤ max high high' ↔
          (low ≤ n ∧ n ≤ high) ∨ (low' ≤ n ∧ n ≤ high') := by omega
      rw [join, if_pos touch, ih _ _ joined, cover, or_assoc]
      simp [or_and_right, exists_or]
    · rw [join, if_neg touch]
      simp [or_and_right, exists_or, ih _ _ others]

/-- A set holds the numbers in the ranges that it is built from. -/
theorem mem_ofRanges (rs : List (Nat × Nat)) (n : Nat) :
    (ofRanges rs).mem n ↔ ∃ r ∈ rs, r.1 ≤ n ∧ n ≤ r.2 := by
  let order (a b : Nat × Nat) : Bool := a.1 ≤ b.1
  have trans (a b c : Nat × Nat) : order a b → order b c → order a c := by
    simpa [order] using Nat.le_trans
  have total (a b : Nat × Nat) : order a b || order b a := by
    simpa [order] using Nat.le_total a.1 b.1
  have sorted := List.pairwise_mergeSort trans total (rs.filter fun r => r.1 ≤ r.2)
  have kept : (∃ r ∈ rs, r.1 ≤ n ∧ n ≤ r.2) ↔
      ∃ r ∈ (rs.filter fun r => r.1 ≤ r.2).mergeSort fun a b => a.1 ≤ b.1, r.1 ≤ n ∧ n ≤ r.2 := by
    constructor
    · rintro ⟨r, hr, hn⟩
      exact ⟨r, by simpa [hr] using Nat.le_trans hn.1 hn.2, hn⟩
    · rintro ⟨r, hr, hn⟩
      exact ⟨r, (List.mem_filter.1 (List.mem_mergeSort.1 hr)).1, hn⟩
  rw [mem_iff, kept, ofRanges]
  split
  next h => simp [h]
  next low high rest h =>
    rw [h] at sorted ⊢
    simpa [or_and_right, exists_or] using
      exists_mem_join low high n rest (sorted.imp of_decide_eq_true)

/-- The union of two sets holds the numbers of either. -/
theorem mem_union (a b : CharSet) (n : Nat) : (a.union b).mem n ↔ a.mem n ∨ b.mem n := by
  rw [union, mem_ofRanges, mem_iff, mem_iff]
  simp [or_and_right, exists_or]

/-- Of the numbers from `start` on, those between the ranges are those in none of them. -/
theorem exists_mem_gaps (start n : Nat) (rs : List (Nat × Nat)) (last : n ≤ lastCode)
    (apart : rs.Pairwise fun a b => a.2 < b.1) (valid : ∀ r ∈ rs, start ≤ r.1 ∧ r.1 ≤ r.2) :
    (∃ r ∈ gaps start rs, r.1 ≤ n ∧ n ≤ r.2) ↔
      start ≤ n ∧ ¬ ∃ r ∈ rs, r.1 ≤ n ∧ n ≤ r.2 := by
  induction rs generalizing start with
  | nil =>
    by_cases h : start ≤ lastCode
    · simp [gaps, h, last]
    · have : ¬ start ≤ n := by omega
      simp [gaps, h, this]
  | cons r rest ih =>
    obtain ⟨low, high⟩ := r
    obtain ⟨first, others⟩ := List.pairwise_cons.1 apart
    obtain ⟨from_start, ordered⟩ := valid (low, high) List.mem_cons_self
    have later : ∀ r ∈ rest, high + 1 ≤ r.1 ∧ r.1 ≤ r.2 := fun r hr =>
      ⟨first r hr, (valid r (List.mem_cons_of_mem _ hr)).2⟩
    have outside : n ≤ high → ¬ ∃ r ∈ rest, r.1 ≤ n ∧ n ≤ r.2 := by
      rintro h ⟨r, hr, hn⟩
      have := later r hr
      omega
    have step := ih (high + 1) others later
    by_cases h : start < low
    · simp only [gaps, if_pos h, List.mem_cons, or_and_right, exists_or, exists_eq_left, step]
      grind
    · simp only [gaps, if_neg h, List.mem_cons, or_and_right, exists_or, exists_eq_left, step]
      grind

/-- The complement of a set holds the other numbers. -/
theorem mem_compl (s : CharSet) (n : Nat) (last : n ≤ lastCode)
    (apart : s.ranges.Pairwise fun a b => a.2 < b.1) (valid : ∀ r ∈ s.ranges, r.1 ≤ r.2) :
    s.compl.mem n ↔ ¬ s.mem n := by
  rw [mem_iff, mem_iff, compl, exists_mem_gaps 0 n s.ranges last apart fun r hr =>
    ⟨Nat.zero_le _, valid r hr⟩]
  simp

/-! ### Reading -/

/-- A range written as its first and last code points in hexadecimal digits with a dash between
them, or as one code point. -/
def rangeOf? (word : String) : Option (Nat × Nat) :=
  match (word.splitOn "-").map fun digits => hexNumber? digits.toList with
  | [some n] => some (n, n)
  | [some low, some high] => some (low, high)
  | _ => none

/-- The set of the ranges that are written in a text with spaces between them. -/
def ofText (text : String) : CharSet :=
  ofRanges ((text.splitOn " ").filterMap rangeOf?)

end CharSet
end PathRules.Text
