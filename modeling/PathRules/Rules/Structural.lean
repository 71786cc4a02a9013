import PathRules.Validator
/-!
Rules about presence and shape.
-/

namespace PathRules.Rules

def requiredIf (condition : Context → Bool) : Validator where
  name := "required"
  requires := condition
  check := Validator.judge fun _ => true

def required : Validator :=
  requiredIf fun _ => true

/-- The field must be present when the named extra is true. -/
def requiredIfFlag (key : String) : Validator :=
  requiredIf fun c => c.call.extras.flag key

/-- Null is a value of the field. -/
def nullable : Validator where
  name := "nullable"
  nullable := true
  check := Validator.judge fun _ => true

def array : Validator where
  name := "array"
  array := true
  check := Validator.judge fun c => c.value.isSequence

def object : Validator where
  name := "object"
  object := true
  check := Validator.judge fun c => c.value.isMap

end PathRules.Rules
