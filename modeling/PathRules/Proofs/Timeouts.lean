import Mathlib
import PathRules.Settings
/-!
Times in settings. Main statement: a time that is set is read back rounded down to milliseconds,
less all whole multiples of `2 ^ 64` milliseconds. Times below that are kept, and a longer one is
read back as one at least as long unless a multiple lies between the two.
-/

namespace PathRules

namespace Duration

/-- Whether a span is another one without what is behind its last whole millisecond. -/
structure RoundsDownTo (d r : Duration) : Prop where
  whole : 1000000 ∣ r.nanoseconds
  le : r ≤ d
  lt : d.nanoseconds < r.nanoseconds + 1000000

theorem le_iff {d d' : Duration} : d ≤ d' ↔ d.nanoseconds ≤ d'.nanoseconds :=
  Iff.rfl

@[simp]
theorem nanoseconds_ofMilliseconds (n : Nat) : (ofMilliseconds n).nanoseconds = n * 1000000 :=
  rfl

theorem ofMilliseconds_le_iff {m n : Nat} : ofMilliseconds m ≤ ofMilliseconds n ↔ m ≤ n := by
  rw [le_iff, nanoseconds_ofMilliseconds, nanoseconds_ofMilliseconds]
  omega

theorem milliseconds_le {d d' : Duration} (h : d ≤ d') : d.milliseconds ≤ d'.milliseconds :=
  Nat.div_le_div_right h

theorem roundsDownTo_milliseconds (d : Duration) :
    d.RoundsDownTo (ofMilliseconds d.milliseconds) where
  whole := ⟨d.milliseconds, Nat.mul_comm _ _⟩
  le := Nat.div_mul_le_self _ _
  lt := by
    rw [nanoseconds_ofMilliseconds, milliseconds]
    omega

end Duration

namespace Settings

open Duration

/-- The multiples of `2 ^ 64` milliseconds that a span exceeds. -/
def turns (d : Duration) : Nat :=
  d.milliseconds / Text.wordBound

theorem narrow_add_turns (d : Duration) :
    narrow d + turns d * Text.wordBound = d.milliseconds :=
  Nat.mod_add_div' _ _

/-- How a time is read back that was set before. -/
structure ReadsBack (set : Duration → Duration) : Prop where
  /-- What is read back lacks the whole multiples of `2 ^ 64` milliseconds. -/
  wraps (d : Duration) : d.RoundsDownTo (set d + ofMilliseconds (turns d * Text.wordBound))
  keeps {d : Duration} (h : d.milliseconds < Text.wordBound) : d.RoundsDownTo (set d)
  grows {d d' : Duration} (h : d ≤ d') (hturns : turns d = turns d') : set d ≤ set d'

theorem readsBack_narrow : ReadsBack fun d => ofMilliseconds (narrow d) where
  wraps d := by
    have hsum : ofMilliseconds (narrow d) + ofMilliseconds (turns d * Text.wordBound) =
        ofMilliseconds d.milliseconds := by
      rw [← narrow_add_turns d]
      exact congrArg Duration.mk (Nat.add_mul _ _ _).symm
    rw [hsum]
    exact roundsDownTo_milliseconds d
  keeps {d} h := by
    have hnarrow : narrow d = d.milliseconds := Nat.mod_eq_of_lt h
    rw [hnarrow]
    exact roundsDownTo_milliseconds d
  grows {d d'} h hturns := by
    have hle := milliseconds_le h
    rw [← narrow_add_turns d, ← narrow_add_turns d', hturns] at hle
    exact ofMilliseconds_le_iff.mpr (Nat.le_of_add_le_add_right hle)

/-- A time for lookups or for whole calls is read back rounded down to milliseconds, less the whole
multiples of `2 ^ 64` milliseconds in it. So it is kept if its milliseconds fit a word, and does not
shrink when it is set longer, unless a multiple lies between. -/
theorem timeouts_read_back (s : Settings) :
    ReadsBack (fun d => (s.withLookupTimeout d).lookupTimeout) ∧
      ReadsBack (fun d => (s.withExecuteTimeout d).executeTimeout) :=
  ⟨readsBack_narrow, readsBack_narrow⟩

/-- The shortest span whose milliseconds exceed a word is far from the longest one, and is read back
as no time at all. -/
example : ofMilliseconds 18446744073709551616 ≤ Duration.max ∧
    (default.withLookupTimeout (ofMilliseconds 18446744073709551616)).lookupTimeout = .zero := by
  decide

end Settings
end PathRules
