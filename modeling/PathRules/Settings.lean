import PathRules.Duration
import PathRules.Field
import PathRules.Text.Blank
import PathRules.Text.Lower
import PathRules.Toml.Reader
/-!
Settings of the engine. They have defaults, and can be read from variables of the environment and
from TOML. Times are whole milliseconds that fit a word of 64 bits.
-/

namespace PathRules

structure Settings where
  /-- The time that a lookup may take when the call has no deadline. -/
  lookupTimeoutMs : Nat := 5000
  /-- The time that a whole call may take when it is bounded. -/
  executeTimeoutMs : Nat := 30000
  logCollaboratorErrors : Bool := true
  traceFields : Bool := false
  deriving DecidableEq, Repr

namespace Settings

def default : Settings := {}

/-- The milliseconds of a span as a word, beyond which they start again at zero. -/
def narrow (d : Duration) : Nat :=
  d.milliseconds % Text.wordBound

def withLookupTimeout (s : Settings) (d : Duration) : Settings :=
  { s with lookupTimeoutMs := narrow d }

def withExecuteTimeout (s : Settings) (d : Duration) : Settings :=
  { s with executeTimeoutMs := narrow d }

def lookupTimeout (s : Settings) : Duration :=
  .ofMilliseconds s.lookupTimeoutMs

def executeTimeout (s : Settings) : Duration :=
  .ofMilliseconds s.executeTimeoutMs

/-! ### Variables -/

def variablePrefix : String := "SIEVE_"

def flagWords : List (String × Bool) :=
  [("1", true), ("true", true), ("yes", true), ("on", true), ("0", false), ("false", false),
    ("no", false), ("off", false)]

/-- The truth value that a word denotes, in any case. -/
def flag? (word : String) : Option Bool :=
  flagWords.lookup (Text.lower word)

def readNumber (name value : String) : Except ConfigError Nat :=
  match Text.word? value with
  | some n => .ok n
  | none => .error (.invalidSettings (variablePrefix ++ name ++ " must be an integer"))

def readFlag (name value : String) : Except ConfigError Bool :=
  match flag? value with
  | some b => .ok b
  | none => .error (.invalidSettings (variablePrefix ++ name ++ " must be a boolean"))

/-- Sets what a variable is for; its name is given without the beginning that all have. Variables of
other names set nothing. -/
def setVariable (s : Settings) (name value : String) : Except ConfigError Settings :=
  let value := Text.trim value
  match Text.lower name with
  | "lookup_timeout_ms" => (readNumber name value).map fun n => { s with lookupTimeoutMs := n }
  | "execute_timeout_ms" => (readNumber name value).map fun n => { s with executeTimeoutMs := n }
  | "log_collaborator_errors" =>
    (readFlag name value).map fun b => { s with logCollaboratorErrors := b }
  | "trace_fields" => (readFlag name value).map fun b => { s with traceFields := b }
  | _ => .ok s

/-- The name of a variable without the beginning that all have. -/
def variableName? (name : String) : Option String :=
  if variablePrefix.toList.isPrefixOf name.toList then
    some (String.ofList (name.toList.drop variablePrefix.length))
  else none

/-- The defaults with what variables set, one after the other. -/
def ofVariables (pairs : List (String × String)) : Except ConfigError Settings :=
  pairs.foldlM (fun s (name, value) =>
    match variableName? name with
    | some name => s.setVariable name value
    | none => .ok s) default

/-! ### TOML -/

def milliseconds? : Toml → Option Nat
  | .integer n => if 0 ≤ n ∧ n < Text.wordBound then some n.toNat else none
  | _ => none

def tomlFlag? : Toml → Option Bool
  | .flag b => some b
  | _ => none

/-- Sets what an entry of a document is for. Entries with other keys set nothing. -/
def setEntry? (s : Settings) (key : String) (v : Toml) : Option Settings :=
  match key with
  | "lookup_timeout_ms" => (milliseconds? v).map fun n => { s with lookupTimeoutMs := n }
  | "execute_timeout_ms" => (milliseconds? v).map fun n => { s with executeTimeoutMs := n }
  | "log_collaborator_errors" => (tomlFlag? v).map fun b => { s with logCollaboratorErrors := b }
  | "trace_fields" => (tomlFlag? v).map fun b => { s with traceFields := b }
  | _ => some s

/-- The defaults with what a document sets. -/
def ofToml (text : String) : Except ConfigError Settings :=
  let settings := (Toml.read? text).bind fun entries =>
    entries.foldlM (fun s (key, v) => s.setEntry? key v) default
  match settings with
  | some s => .ok s
  | none => .error (.invalidSettings "TOML parse error")

/-- The fault of a file of settings that does not exist. -/
def missingFile (path : String) : ConfigError :=
  .invalidSettings ("cannot read " ++ path ++ ": No such file or directory (os error 2)")

end Settings
end PathRules
