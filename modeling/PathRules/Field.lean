import PathRules.Validator
/-!
Fields: a path with the validators of the values there. A field whose values are sequences may have
an element field, which may have one in turn; such a chain of fields runs together. Fields are
compared by their paths, their scopes and the identities of their validators.
-/

namespace PathRules

/-- Why rules cannot be used. -/
inductive ConfigError where
  | invalidPath (path : String) (cause : PathError)
  | duplicatePath (path : String)
  | unknownValidator (name : String)
  | invalidArguments (rule reason : String)
  | malformedDeclaration (reason : String)
  | invalidSettings (reason : String)
  deriving DecidableEq, Repr

def ConfigError.message : ConfigError → String
  | invalidPath path cause => "invalid path \"" ++ path ++ "\": " ++ cause.message
  | duplicatePath path => "duplicate field path \"" ++ path ++ "\""
  | unknownValidator name => "unknown validator \"" ++ name ++ "\""
  | invalidArguments rule reason => "invalid arguments for validator \"" ++ rule ++ "\": " ++ reason
  | malformedDeclaration reason => "malformed rule declaration: " ++ reason
  | invalidSettings reason => "invalid engine configuration: " ++ reason

/-- A path with its validators. -/
structure Field where
  info : FieldInfo
  validators : List Validator

namespace Field

def path (f : Field) : Path := f.info.path

def dependency (scope : Path) (relative : String) : Except ConfigError Dependency :=
  let joined := Path.joinText scope.text relative
  match Path.ofString joined with
  | .ok absolute => .ok ⟨relative, absolute⟩
  | .error cause => .error (.invalidPath joined cause)

/-- The dependencies of validators on the paths that they read, each once. -/
def dependencies (scope : Path) (validators : List Validator) :
    Except ConfigError (List Dependency) :=
  ((validators.filterMap Validator.dependsOn).eraseDups).mapM (dependency scope)

/-- The field at a path with validators that were declared in the rule set at the first
`prefixDepth` steps of the path. -/
def make (path : Path) (prefixDepth : Nat) (validators : List Validator) :
    Except ConfigError Field := do
  let dependencies ← dependencies (path.truncate prefixDepth) validators
  return {
    info := {
      path
      prefixDepth
      dependencies
      nullable := validators.any Validator.nullable
      array := validators.any Validator.array
      object := validators.any Validator.object }
    validators }

def ids (f : Field) : List ValidatorId :=
  f.validators.map Validator.id

def arrayDepth (f : Field) : Nat :=
  f.path.arrayDepth

def reads (f : Field) (p : Path) : Bool :=
  f.info.dependencies.any fun d => d.absolute == p

def eq (a b : Field) : Bool :=
  a.path == b.path && a.info.prefixDepth == b.info.prefixDepth && a.ids == b.ids

instance : BEq Field := ⟨eq⟩

/-- The first validator that makes the field required. -/
def requiring? (f : Field) (c : Context) : Option Validator :=
  f.validators.find? fun v => v.requires c

end Field

/-- A field with its element field, the element field of that, and so on. -/
structure FieldChain where
  head : Field
  items : List Field

namespace FieldChain

/-- All fields of a chain, the outermost first. -/
def fields (c : FieldChain) : List Field :=
  c.head :: c.items

def eq (a b : FieldChain) : Bool :=
  a.head == b.head && a.items == b.items

instance : BEq FieldChain := ⟨eq⟩

def path (c : FieldChain) : Path := c.head.path

def arrayDepth (c : FieldChain) : Nat := c.head.arrayDepth

end FieldChain
end PathRules
