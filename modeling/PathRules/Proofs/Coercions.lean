import Mathlib
import PathRules.Rules.Types
/-!
Rules that convert. Each of them reads values as those of one type. Main statement: what such a rule
does not accept it leaves alone, and what it accepts it leaves as a value of its type, which it
accepts as it is; blanks around a text do not count, and the rules about integers and about numbers
find the same integers in texts.
-/

namespace PathRules

namespace Text

/-- Whether a text consists of blanks. -/
def Blank (s : String) : Prop :=
  ∀ c ∈ s.toList, isBlank c = true

theorem trimStart_append_of_blank {front : List Char} (h : ∀ c ∈ front, isBlank c = true)
    (cs : List Char) : trimStart (front ++ cs) = trimStart cs :=
  List.dropWhile_append_of_pos h

theorem trimEnd_append_of_blank {rest : List Char} (h : ∀ c ∈ rest, isBlank c = true)
    (cs : List Char) : trimEnd (cs ++ rest) = trimEnd cs := by
  have hreverse : ∀ c ∈ rest.reverse, isBlank c = true := by simpa using h
  rw [trimEnd, trimEnd, List.reverse_append, List.dropWhile_append_of_pos hreverse]

/-- Blanks around a text are cut off. -/
theorem trimList_append {front rest : List Char} (hfront : ∀ c ∈ front, isBlank c = true)
    (hrest : ∀ c ∈ rest, isBlank c = true) (cs : List Char) :
    trimList (front ++ cs ++ rest) = trimList cs := by
  rw [trimList, trimList, List.append_assoc, trimStart_append_of_blank hfront, trimStart,
    List.dropWhile_append]
  split
  · next hempty =>
    -- The text is blank itself.
    have hcs : trimStart cs = [] := List.isEmpty_iff.mp hempty
    have hall : rest.dropWhile isBlank = [] := by
      rw [← List.append_nil rest, List.dropWhile_append_of_pos hrest, List.dropWhile_nil]
    rw [hall, hcs]
  · exact trimEnd_append_of_blank hrest _

end Text

namespace Validator

/-- Whether a rule accepts a value, whatever else there is, and leaves another one of it. -/
def Turns (rule : Validator) (v w : Value) : Prop :=
  ∀ c : Context, c.value = v → rule.check c = { accepted := true, value := w }

/-- Whether a rule does not accept a value, whatever else there is, and leaves it. -/
def Refuses (rule : Validator) (v : Value) : Prop :=
  ∀ c : Context, c.value = v → rule.check c = { accepted := false, value := v }

end Validator

namespace Rules

/-- The rules that read values as those of a type. -/
inductive Coercion where
  | integer
  | numeric
  | boolean
  | date (pattern : Option String)
  deriving DecidableEq, Repr

namespace Coercion

def rule : Coercion → Validator
  | integer => Rules.integer
  | numeric => Rules.numeric
  | boolean => Rules.boolean
  | date pattern => Rules.date pattern

/-- What a rule reads a value as. -/
def convert? : Coercion → Value → Option Value
  | integer => toInteger?
  | numeric => toNumber?
  | boolean => toBoolean?
  | date pattern => toDate? pattern

/-- Whether a value is of the type that a rule is about. -/
inductive Canonical : Coercion → Value → Prop
  | integer (n : Int64) : Canonical integer (.int n)
  | whole (n : Int64) : Canonical numeric (.int n)
  | real (x : Float) : Canonical numeric (.float x)
  | boolean (b : Bool) : Canonical boolean (.bool b)
  | date (pattern : Option String) (t : Instant) : Canonical (date pattern) (.date t)

theorem converting_rule (k : Coercion) : k.rule.converting = true := by
  cases k <;> rfl

theorem check_rule (k : Coercion) : k.rule.check = Validator.convert k.convert? := by
  cases k <;> rfl

theorem canonical_of_map {k : Coercion} {α : Type} {found : Option α} {make : α → Value} {w : Value}
    (hmake : ∀ a, k.Canonical (make a)) (h : found.map make = some w) : k.Canonical w := by
  obtain ⟨a, -, rfl⟩ := Option.map_eq_some_iff.mp h
  exact hmake a

theorem canonical_of_numberOfText? {s : String} {w : Value} (h : numberOfText? s = some w) :
    numeric.Canonical w := by
  unfold numberOfText? at h
  split at h
  · exact Option.some.inj h ▸ .whole _
  · exact canonical_of_map .real h

theorem canonical_of_toBoolean? {v w : Value} (h : toBoolean? v = some w) :
    boolean.Canonical w := by
  unfold toBoolean? at h
  split at h
  · exact Option.some.inj h ▸ .boolean _
  · split_ifs at h
    · exact Option.some.inj h ▸ .boolean true
    · exact Option.some.inj h ▸ .boolean false
  · exact canonical_of_map .boolean h
  · cases h

/-- What a value is read as is of the type. -/
theorem canonical_of_convert? {k : Coercion} {v w : Value} (h : k.convert? v = some w) :
    k.Canonical w := by
  cases k with
  | integer =>
    simp only [convert?] at h
    unfold toInteger? at h
    split at h
    · exact Option.some.inj h ▸ .integer _
    · exact canonical_of_map .integer h
    · exact canonical_of_map .integer h
    · cases h
  | numeric =>
    simp only [convert?] at h
    unfold toNumber? at h
    split at h
    · exact Option.some.inj h ▸ .whole _
    · exact Option.some.inj h ▸ .real _
    · exact canonical_of_numberOfText? h
    · cases h
  | boolean => exact canonical_of_toBoolean? h
  | date pattern =>
    simp only [convert?] at h
    unfold toDate? at h
    split at h
    · exact Option.some.inj h ▸ .date pattern _
    · exact canonical_of_map (.date pattern) h
    · cases h

/-- A value of the type is read as itself. -/
theorem Canonical.convert? {k : Coercion} {v : Value} (h : k.Canonical v) :
    k.convert? v = some v := by
  cases h <;> rfl

/-- Texts that differ in blanks around them only are read alike. -/
theorem convert?_string_congr (k : Coercion) {s t : String}
    (h : Text.trimList s.toList = Text.trimList t.toList) :
    k.convert? (.string s) = k.convert? (.string t) := by
  have htrim : Text.trim s = Text.trim t := congrArg String.ofList h
  cases k with
  | integer => simp only [Coercion.convert?, toInteger?, htrim]
  | numeric => simp only [Coercion.convert?, toNumber?, htrim]
  | boolean => simp only [Coercion.convert?, toBoolean?, htrim]
  | date pattern => simp only [Coercion.convert?, toDate?, Calendar.date?, h]

theorem convert?_integer_iff (s : String) (n : Int64) :
    integer.convert? (.string s) = some (.int n) ↔
      numeric.convert? (.string s) = some (.int n) := by
  simp only [Coercion.convert?, toInteger?, toNumber?, numberOfText?]
  cases Text.int64? (Text.trim s) with
  | none => simp
  | some m => simp

theorem turns_of_convert? {k : Coercion} {v w : Value} (h : k.convert? v = some w) :
    k.rule.Turns v w := by
  rintro c rfl
  rw [check_rule, Validator.convert, h]

theorem Canonical.turns {k : Coercion} {v : Value} (h : k.Canonical v) : k.rule.Turns v v :=
  turns_of_convert? h.convert?

theorem refuses_of_convert? {k : Coercion} {v : Value} (h : k.convert? v = none) :
    k.rule.Refuses v := by
  rintro c rfl
  rw [check_rule, Validator.convert, h]

/-- A rule turns a value into another one in some context only if it reads it as that. -/
theorem convert?_of_check {k : Coercion} {c : Context} {w : Value}
    (h : k.rule.check c = { accepted := true, value := w }) : k.convert? c.value = some w := by
  cases hconvert : k.convert? c.value with
  | none =>
    rw [refuses_of_convert? hconvert c rfl] at h
    cases h
  | some w' =>
    rw [turns_of_convert? hconvert c rfl] at h
    cases h
    rfl

theorem convert?_eq_none_of_check {k : Coercion} {c : Context}
    (h : k.rule.check c = { accepted := false, value := c.value }) :
    k.convert? c.value = none := by
  cases hconvert : k.convert? c.value with
  | none => rfl
  | some w =>
    rw [turns_of_convert? hconvert c rfl] at h
    cases h

/-- Whether a rule turns a value into another one depends on what it reads the value as. -/
theorem turns_of_imp {k m : Coercion} {v v' w : Value}
    (hconvert : k.convert? v = some w → m.convert? v' = some w) (h : k.rule.Turns v w) :
    m.rule.Turns v' w := by
  rintro c rfl
  have hv : k.convert? v = some w := convert?_of_check (h { c with value := v } rfl)
  exact turns_of_convert? (hconvert hv) c rfl

theorem refuses_of_imp {k : Coercion} {v v' : Value}
    (hconvert : k.convert? v = none → k.convert? v' = none) (h : k.rule.Refuses v) :
    k.rule.Refuses v' := by
  rintro c rfl
  have hv : k.convert? v = none := convert?_eq_none_of_check (h { c with value := v } rfl)
  exact refuses_of_convert? (hconvert hv) c rfl

end Coercion

open Coercion

/-- A rule that converts either leaves a value that it does not accept, or leaves one of its type,
and those it accepts as they are. Blanks around a text do not count, and the rule about integers
turns a text into an integer just when the rule about numbers does. -/
theorem coercions_project :
    (∀ (k : Coercion) (v : Value),
      k.rule.Refuses v ∨ ∃ w, k.rule.Turns v w ∧ k.Canonical w ∧ k.rule.Turns w w) ∧
    (∀ (k : Coercion) (v : Value), k.Canonical v → k.rule.Turns v v) ∧
    (∀ (k : Coercion) (s front rest : String), Text.Blank front → Text.Blank rest →
      (k.rule.Refuses (.string (front ++ s ++ rest)) ↔ k.rule.Refuses (.string s)) ∧
        ∀ w, k.rule.Turns (.string (front ++ s ++ rest)) w ↔ k.rule.Turns (.string s) w) ∧
    ∀ (s : String) (n : Int64),
      integer.Turns (.string s) (.int n) ↔ numeric.Turns (.string s) (.int n) := by
  refine ⟨fun k v => ?_, fun k v hv => hv.turns, fun k s front rest hfront hrest => ?_,
    fun s n => ?_⟩
  · cases hconvert : k.convert? v with
    | none => exact .inl (refuses_of_convert? hconvert)
    | some w =>
      have hw := canonical_of_convert? hconvert
      exact .inr ⟨w, turns_of_convert? hconvert, hw, hw.turns⟩
  · have hlist : Text.trimList (front ++ s ++ rest).toList = Text.trimList s.toList := by
      rw [String.toList_append, String.toList_append, Text.trimList_append hfront hrest]
    have hconvert := convert?_string_congr k hlist
    refine ⟨⟨refuses_of_imp hconvert.symm.trans, refuses_of_imp hconvert.trans⟩, fun w => ?_⟩
    exact ⟨turns_of_imp hconvert.symm.trans, turns_of_imp hconvert.trans⟩
  · have hconvert := convert?_integer_iff s n
    constructor
    · exact turns_of_imp (k := .integer) (m := .numeric) hconvert.mp
    · exact turns_of_imp (k := .numeric) (m := .integer) hconvert.mpr

theorem coercions_project_spelledYes :
    Text.Blank "\t " ∧ Text.Blank "\u00a0" ∧
      boolean.Turns (.string ("\t " ++ "YES" ++ "\u00a0")) (.bool true) := by
  have hfront : Text.Blank "\t " := by
    intro c hc
    obtain rfl | rfl : c = '\t' ∨ c = ' ' := by simpa using hc
    · decide
    · decide
  have hrest : Text.Blank "\u00a0" := by
    intro c hc
    obtain rfl : c = '\u00a0' := by simpa using hc
    decide
  obtain ⟨-, -, hblanks, -⟩ := coercions_project
  obtain ⟨-, hturns⟩ := hblanks .boolean "YES" "\t " "\u00a0" hfront hrest
  refine ⟨hfront, hrest, (hturns (.bool true)).mpr (turns_of_convert? ?_)⟩
  cbv

end Rules
end PathRules
