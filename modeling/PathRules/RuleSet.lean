import PathRules.Field
/-!
Rule sets: what is declared. An entry gives a path validators, or composes another rule set under
it; the empty path is the place that the set itself is composed under. An entry may also keep the
scope that its validators had before, as the rule set of compiled rules does.
-/

namespace PathRules

/-- What a rule set declares for a path. -/
inductive RuleEntry where
  | rules (validators : List Validator)
  | nested (entries : List (String × RuleEntry))
  /-- Validators with the number of steps of their path that are their scope. -/
  | scoped (prefixDepth : Nat) (validators : List Validator)

/-- Paths with what is declared for them, in order. -/
abbrev RuleSet := List (String × RuleEntry)

/-- A path with its validators, after composition. -/
structure Declaration where
  path : Path
  prefixDepth : Nat
  validators : List Validator

namespace RuleSet

/-- The path that a text denotes, the empty text being the root. -/
def readPath (text : String) : Except ConfigError Path :=
  match Path.ofStringOrRoot text with
  | .ok p => .ok p
  | .error cause => .error (.invalidPath text cause)

def declare (path : String) (prefixDepth : Nat) (validators : List Validator) :
    Except ConfigError Declaration :=
  (readPath path).map fun p => ⟨p, prefixDepth, validators⟩

mutual

/-- The declarations of an entry at a path, in a rule set at the first `prefixDepth` steps. -/
def flattenEntry (path : String) (prefixDepth : Nat) :
    RuleEntry → Except ConfigError (List Declaration)
  | .rules validators => (declare path prefixDepth validators).map fun d => [d]
  | .scoped own validators => (declare path (prefixDepth + own) validators).map fun d => [d]
  | .nested entries => do
    let p ← readPath path
    flattenAll path (if path.isEmpty then 0 else p.depth) entries

def flattenAll (parent : String) (prefixDepth : Nat) :
    List (String × RuleEntry) → Except ConfigError (List Declaration)
  | [] => .ok []
  | (key, entry) :: rest => do
    let first ← flattenEntry (Path.joinText parent key) prefixDepth entry
    let others ← flattenAll parent prefixDepth rest
    return first ++ others

end

def flatten (set : RuleSet) : Except ConfigError (List Declaration) :=
  flattenAll "" 0 set

/-- Gives validators identities, from a number on. -/
def numberValidators (start : Nat) (validators : List Validator) : List Validator :=
  validators.zipIdx.map fun (v, i) => v.withId (.declared (start + i))

mutual

/-- Gives the validators of an entry identities, from a number on: the entry and the next number. -/
def numberEntry (start : Nat) : RuleEntry → RuleEntry × Nat
  | .rules validators => (.rules (numberValidators start validators), start + validators.length)
  | .scoped depth validators =>
    (.scoped depth (numberValidators start validators), start + validators.length)
  | .nested entries =>
    let (entries, next) := numberAll start entries
    (.nested entries, next)

def numberAll (start : Nat) : List (String × RuleEntry) → List (String × RuleEntry) × Nat
  | [] => ([], start)
  | (key, entry) :: rest =>
    let (entry, next) := numberEntry start entry
    let (rest, next) := numberAll next rest
    ((key, entry) :: rest, next)

end

/-- The rule set in which each declared validator is one of its own. -/
def numbered (set : RuleSet) (start : Nat) : RuleSet :=
  (numberAll start set).1

end RuleSet
end PathRules
