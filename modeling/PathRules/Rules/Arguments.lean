import PathRules.Decimal.Notation
import PathRules.Field
import PathRules.Rules.Types
/-!
The arguments of declared rules, and what is wrong with them.
-/

namespace PathRules.Rules

def badArguments {α : Type} (rule reason : String) : Except ConfigError α :=
  .error (.invalidArguments rule reason)

def noArguments (rule : String) (arguments : List String) : Except ConfigError Unit :=
  if arguments.isEmpty then .ok () else badArguments rule "takes no arguments"

/-- Exactly `count` arguments must be given. -/
def expectCount (rule : String) (arguments : List String) (count : Nat) : Except ConfigError Unit :=
  if arguments.length = count then .ok ()
  else
    badArguments rule ("expected " ++ Text.integerText count ++ " argument(s), got " ++
      Text.integerText arguments.length)

/-- The only argument, which may not be empty. -/
def singleArgument (rule : String) (arguments : List String) : Except ConfigError String :=
  match arguments with
  | [argument] =>
    if argument.isEmpty then badArguments rule "argument cannot be empty" else .ok argument
  | _ =>
    badArguments rule ("expected 1 argument(s), got " ++ Text.integerText arguments.length)

def numberArgument (rule argument : String) : Except ConfigError Float :=
  match (Decimal.float? argument).filter isFinite with
  | some x => .ok x
  | none => badArguments rule ("\"" ++ argument ++ "\" is not a number")

/-- All arguments, of which one at least must not be empty. -/
def listArgument (rule : String) (arguments : List String) : Except ConfigError (List String) :=
  if arguments.all String.isEmpty then badArguments rule "expected at least one value"
  else .ok arguments

/-- The arguments as one text, as it was before it was cut at commas. -/
def joinedArguments (arguments : List String) : String :=
  String.intercalate "," arguments

end PathRules.Rules
