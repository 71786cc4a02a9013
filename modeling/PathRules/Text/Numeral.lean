/-!
Numerals: whole numbers written in decimal digits. A reader takes the whole text; an optional sign
stands before at least one digit, and nothing else is accepted. A number is what its own text
denotes.
-/

namespace PathRules.Text

def digit? (c : Char) : Option Nat :=
  if c.isDigit then some (c.toNat - 48) else none

def isDigit (c : Char) : Bool :=
  (digit? c).isSome

/-- The value of a run of digits read after `n`; a character that is no digit counts as zero. -/
def digitsValue (n : Nat) (cs : List Char) : Nat :=
  cs.foldl (fun acc c => acc * 10 + (digit? c).getD 0) n

/-- The number that a non-empty run of digits denotes. -/
def natural? (cs : List Char) : Option Nat :=
  if cs.isEmpty || !cs.all isDigit then none else some (digitsValue 0 cs)

/-- A number with an optional `+` or `-` in front. -/
def integer? : List Char → Option Int
  | '-' :: cs => (natural? cs).map fun n => -(n : Int)
  | '+' :: cs => (natural? cs).map Int.ofNat
  | cs => (natural? cs).map Int.ofNat

/-- Whether a number fits a signed word of 64 bits. -/
def fitsInt64 (n : Int) : Bool :=
  -9223372036854775808 ≤ n && n ≤ 9223372036854775807

theorem fitsInt64_toInt (n : Int64) : fitsInt64 n.toInt = true := by
  have hlower := n.le_toInt
  have hupper := n.toInt_lt
  simp only [fitsInt64, Bool.and_eq_true, decide_eq_true_eq]
  omega

/-- A number that fits a signed word of 64 bits. -/
def int64? (s : String) : Option Int64 :=
  (integer? s.toList).bind fun n => if fitsInt64 n then some (Int64.ofInt n) else none

/-- The bound of unsigned words of 64 bits. -/
def wordBound : Nat := 18446744073709551616

/-- A number that fits an unsigned word of 64 bits; a `+` may stand in front, a `-` may not. -/
def word? (s : String) : Option Nat :=
  let digits := match s.toList with
    | '+' :: cs => cs
    | cs => cs
  (natural? digits).bind fun n => if n < wordBound then some n else none

def hexDigit? (c : Char) : Option Nat :=
  if '0' ≤ c ∧ c ≤ '9' then some (c.toNat - 48)
  else if 'a' ≤ c ∧ c ≤ 'f' then some (c.toNat - 87)
  else if 'A' ≤ c ∧ c ≤ 'F' then some (c.toNat - 55)
  else none

/-- The number that a non-empty run of hexadecimal digits denotes. -/
def hexNumber? (cs : List Char) : Option Nat :=
  if cs.isEmpty then none else cs.foldlM (fun n c => (hexDigit? c).map (n * 16 + ·)) 0

/-- The decimal digits of a number, most significant first. -/
def digits (n : Nat) : List Char :=
  Nat.toDigits 10 n

/-- The decimal digits of a number behind as many zeros as make `width` characters. -/
def padded (width n : Nat) : String :=
  let cs := digits n
  String.ofList (List.replicate (width - cs.length) '0' ++ cs)

/-- A number in decimal digits, with a `-` in front of a negative one. -/
def integerText (n : Int) : String :=
  match n with
  | .ofNat k => String.ofList (digits k)
  | .negSucc k => String.ofList ('-' :: digits (k + 1))

theorem isDigit_of_mem_digits {n : Nat} {c : Char} (h : c ∈ digits n) : isDigit c = true := by
  have hc : c.isDigit = true := Nat.isDigit_of_mem_toDigits (by decide) (by decide) h
  simp [isDigit, digit?, hc]

theorem digitsValue_eq_ofDigitChars {cs : List Char} (h : ∀ c ∈ cs, isDigit c = true) (n : Nat) :
    digitsValue n cs = Nat.ofDigitChars 10 cs n := by
  induction cs generalizing n with
  | nil => rfl
  | cons c rest ih =>
    have hc : c.isDigit = true := by
      have hfirst := h c List.mem_cons_self
      simpa [isDigit, digit?] using hfirst
    have hrest := ih (fun d hd => h d (List.mem_cons_of_mem c hd)) (n * 10 + (c.toNat - 48))
    rw [Nat.ofDigitChars_cons, Nat.mul_comm]
    simpa [digitsValue, digit?, hc] using hrest

/-- A number is what its digits denote. -/
theorem natural?_digits (n : Nat) : natural? (digits n) = some n := by
  have hdigits : ∀ c ∈ digits n, isDigit c = true := fun c hc => isDigit_of_mem_digits hc
  have hvalue : digitsValue 0 (digits n) = n := by
    rw [digitsValue_eq_ofDigitChars hdigits]
    exact Nat.ofDigitChars_ten_toDigits
  have hnonempty : digits n ≠ [] := Nat.toDigits_ne_nil
  rw [natural?, hvalue, if_neg]
  simpa [hnonempty] using hdigits

/-- A number is what its text denotes. -/
theorem integer?_integerText (n : Int) : integer? (integerText n).toList = some n := by
  cases n with
  | ofNat k =>
    rw [integerText, String.toList_ofList]
    have hnonempty : digits k ≠ [] := Nat.toDigits_ne_nil
    obtain ⟨c, rest, hdigits⟩ := List.exists_cons_of_ne_nil hnonempty
    have hc : isDigit c = true := isDigit_of_mem_digits (hdigits ▸ List.mem_cons_self)
    have hnumber : natural? (c :: rest) = some k := hdigits ▸ natural?_digits k
    -- The first digit is no sign.
    have hminus : c ≠ '-' := by
      rintro rfl
      exact absurd hc (by decide)
    have hplus : c ≠ '+' := by
      rintro rfl
      exact absurd hc (by decide)
    rw [hdigits, integer?]
    · rw [hnumber]
      rfl
    · exact fun cs hcs => hminus (List.cons.inj hcs).1
    · exact fun cs hcs => hplus (List.cons.inj hcs).1
  | negSucc k =>
    rw [integerText, String.toList_ofList, integer?, natural?_digits]
    rfl

theorem integerText_injective {i j : Int} (h : integerText i = integerText j) : i = j := by
  have hread := integer?_integerText i
  rw [h, integer?_integerText] at hread
  exact (Option.some.inj hread).symm

end PathRules.Text
