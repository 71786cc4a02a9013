import PathRules.Duration
import PathRules.Keyed.Basic
import PathRules.Value.Json
/-!
Lookups: collaborators that know which values exist in a scope, such as a table or a column. A
lookup gets the time it may take and answers, or says why it cannot. Time is part of the answer, so
a run that waits is still a function of its inputs.
-/

namespace PathRules

/-- Why a lookup could not answer. -/
inductive LookupError where
  | timeout (after : Duration)
  | unavailable (reason : String)
  | other (message : String)
  deriving DecidableEq, Repr

def LookupError.message : LookupError → String
  | timeout after => "lookup timed out after " ++ after.text
  | unavailable reason => "lookup unavailable: " ++ reason
  | other message => message

/-- What a lookup answers, the time it took, and what it notes down. -/
structure LookupAnswer where
  result : Except LookupError Bool
  elapsed : Duration := .zero
  notes : List Json := []

/-- A lookup: whether a value exists in a scope, within a time. -/
structure Lookup where
  ask : (scope : String) → Value → (timeout : Duration) → LookupAnswer

/-- The values that are known in each scope, by their texts. -/
structure KnownValues where
  scopes : List (String × List String)
  deriving Repr, DecidableEq

namespace KnownValues

def empty : KnownValues := ⟨[]⟩

def insert (k : KnownValues) (scope : String) (v : Value) : KnownValues :=
  ⟨Keyed.put k.scopes scope (v.text :: (Keyed.get? k.scopes scope).getD [])⟩

/-- Whether a value with the same text is known in a scope. -/
def contains (k : KnownValues) (scope : String) (v : Value) : Bool :=
  ((Keyed.get? k.scopes scope).getD []).contains v.text

/-- The lookup that answers from known values at once. -/
def lookup (k : KnownValues) : Lookup :=
  ⟨fun scope v _ => { result := .ok (k.contains scope v) }⟩

end KnownValues

/-- A lookup that is not waited for: its answer, and the time until it comes; `none` if it never
comes. -/
structure DeferredLookup where
  ask : (scope : String) → Value → Except LookupError Bool
  delay : Option Duration

/-- Where a call comes from, which decides whether it may wait for a deferred lookup. -/
inductive Caller where
  | thread
  | worker
  /-- A task on the only thread of its scheduler, which would wait for itself. -/
  | singleThread
  deriving DecidableEq, Repr

/-- Waits for a deferred lookup, at most for the time that is given. -/
def DeferredLookup.waiting (l : DeferredLookup) (caller : Caller) : Lookup where
  ask scope v timeout :=
    if caller = .singleThread then
      { result := .error (.unavailable "blocking lookup called from async context") }
    else
      match l.delay with
      | some delay =>
        if delay ≤ timeout then { result := l.ask scope v, elapsed := delay }
        else { result := .error (.timeout timeout), elapsed := timeout }
      | none => { result := .error (.timeout timeout), elapsed := timeout }

end PathRules
