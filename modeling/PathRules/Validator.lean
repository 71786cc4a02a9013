import PathRules.Extras
import PathRules.Matches
import PathRules.Path.Reading
/-!
Validators and what they see. A validator checks one value at one location of the data; it sees the
whole data, in which the value under validation reads as null, and the field that it belongs to. Its
verdict says whether it accepts, what value it leaves, and what else it has to report.
-/

namespace PathRules

/-- A path that a validator reads, as it is written and as it is meant from the root. -/
structure Dependency where
  relative : String
  absolute : Path
  deriving DecidableEq, Repr

/-- What is known about a field apart from its validators. -/
structure FieldInfo where
  path : Path
  /-- The number of steps of the path that come from the rule set around the field's own. -/
  prefixDepth : Nat
  dependencies : List Dependency
  nullable : Bool
  array : Bool
  object : Bool
  deriving DecidableEq, Repr

namespace FieldInfo

/-- The path of the rule set that the field was declared in. -/
def scope (f : FieldInfo) : Path :=
  f.path.truncate f.prefixDepth

def dependency? (f : FieldInfo) (relative : String) : Option Path :=
  (f.dependencies.find? fun d => d.relative == relative).map Dependency.absolute

end FieldInfo

/-- What holds for a whole call. -/
structure Call where
  now : Instant
  extras : Extras
  /-- The time, from the start of the call, that lookups must be finished by. -/
  deadline : Option Duration
  lookupTimeout : Duration

/-- Everything that a validator may look at. -/
structure Context where
  value : Value
  data : Value
  location : Location
  field : FieldInfo
  call : Call
  /-- The time since the start of the call. -/
  elapsed : Duration
  /-- Whether an earlier validator of the field rejected this value. -/
  invalid : Bool
  /-- Whether the field must be present here. It reads as false while this is being asked. -/
  required : Bool

namespace Context

/-- The container of the value under validation; the root has none. -/
def parent? (c : Context) : Option Value :=
  if c.location.isEmpty then none else c.data.get? c.location.parent

def fieldName (c : Context) : String :=
  c.location.fieldName?.getD ""

/-- The time that a lookup may take: what is left to the deadline, at most the configured time. -/
def remainingTime (c : Context) : Duration :=
  match c.call.deadline with
  | none => c.call.lookupTimeout
  | some deadline =>
    ⟨min (deadline.nanoseconds - c.elapsed.nanoseconds) c.call.lookupTimeout.nanoseconds⟩

def deadlinePassed (c : Context) : Bool :=
  match c.call.deadline with
  | none => false
  | some deadline => decide (deadline ≤ c.elapsed)

/-- The text of a path that is relative to the field's rule set, from the root. -/
def resolve (c : Context) (relative : String) : String :=
  Path.joinText c.field.scope.text relative

/-- The matches of a path that is relative to the field's rule set; `none` if it is no path. -/
def related? (c : Context) (relative : String) : Option Matches :=
  let absolute := (c.field.dependency? relative).orElse fun _ =>
    (Path.ofString (c.resolve relative)).toOption
  absolute.map fun p => Matches.ofPath p c.data

end Context

/-- What a validator says about a value. -/
structure Verdict where
  accepted : Bool
  /-- The value that it leaves. -/
  value : Value
  /-- Failures of its collaborators; any of them makes the value invalid. -/
  failures : List LookupError := []
  /-- The elements of the value that the failure is about, by index. -/
  elements : List Nat := []
  /-- What it notes down. -/
  notes : List Json := []
  /-- The time it took. -/
  elapsed : Duration := .zero
  /-- Whether the whole run ends here without a result. -/
  abandoned : Bool := false

/-- Which validator it is. Two validators are the same one when they were declared together; those
that stand for undeclared containers are named by the container. -/
inductive ValidatorId where
  | declared (n : Nat)
  | injected (container : Path)
  deriving DecidableEq, Repr

/-- A rule for single values. -/
structure Validator where
  id : ValidatorId := .declared 0
  name : String
  /-- Whether the value that it leaves replaces the value in the data. -/
  converting : Bool := false
  /-- Whether its message depends on the kind of the value. -/
  kindDependent : Bool := false
  /-- The other path that it reads, relative to the field's rule set. -/
  dependsOn : Option String := none
  nullable : Bool := false
  array : Bool := false
  object : Bool := false
  /-- Whether the field must be present. -/
  requires : Context → Bool := fun _ => false
  /-- The names and texts that its message may use, besides the field's name. -/
  placeholders : Context → List (String × String) := fun _ => []
  check : Context → Verdict

namespace Validator

/-- The verdict of a validator that only accepts or rejects. -/
def judge (accept : Context → Bool) (c : Context) : Verdict :=
  { accepted := accept c, value := c.value }

/-- The verdict of a validator that converts the values it accepts. -/
def convert (conversion : Value → Option Value) (c : Context) : Verdict :=
  match conversion c.value with
  | some v => { accepted := true, value := v }
  | none => { accepted := false, value := c.value }

def withId (v : Validator) (id : ValidatorId) : Validator :=
  { v with id }

end Validator
end PathRules
