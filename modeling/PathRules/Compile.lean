import PathRules.RuleSet
import PathRules.Rules.Structural
import PathRules.Schedule
/-!
Compiling a rule set. The declarations are flattened, every sequence whose elements are declared
gets a field of its own, each element field is linked to the field of its sequence, and the chains
of fields are put in the order in which they run. Compiled rules can be written as a rule set again.
-/

namespace PathRules

/-- Rules in the order in which they run. -/
structure CompiledRules where
  chains : List FieldChain

namespace CompiledRules

def duplicate? (seen : List Path) : List Declaration → Option Path
  | [] => none
  | d :: rest => if seen.contains d.path then some d.path else duplicate? (d.path :: seen) rest

/-- The declarations of sequences for the containers of a path that are not known yet. -/
def injected (known : List Path) (p : Path) : List Declaration :=
  (p.containers.filter fun q => !known.contains q).map fun q =>
    ⟨q, 0, [Rules.array.withId (.injected q)]⟩

/-- Puts in front of each declaration those of its undeclared containers. -/
def inject (known : List Path) : List Declaration → List Declaration
  | [] => []
  | d :: rest =>
    let new := injected known d.path
    new ++ d :: inject (known ++ new.map Declaration.path) rest

/-- The declarations with those of all undeclared containers. -/
def withContainers (declarations : List Declaration) : List Declaration :=
  inject (declarations.map Declaration.path) declarations

/-- Whether a path leads to the elements of a sequence. -/
def isElementPath (p : Path) : Bool :=
  p.getLast? == some .each

/-- The paths of element fields, the longest text first. -/
def elementPaths (fields : List Field) : List Path :=
  ((fields.map Field.path).filter isElementPath).mergeSort fun p q =>
    q.text.utf8ByteSize ≤ p.text.utf8ByteSize

/-- Moves the chain at the path of an element field behind the field of its sequence. A chain
without such a field goes to the end. -/
def attach (chains : List FieldChain) (p : Path) : List FieldChain :=
  match Schedule.takeFirst? (fun c => c.path == p) chains with
  | none => chains
  | some (c, others) =>
    if others.any fun d => d.path == p.dropLast then
      others.map fun d => if d.path == p.dropLast then { d with items := c.fields } else d
    else others ++ [c]

/-- Links element fields to the fields of their sequences, the innermost first, so that the elements
of elements move along. -/
def link (fields : List Field) : List FieldChain :=
  (elementPaths fields).foldl attach (fields.map fun f => ⟨f, []⟩)

/-- Whether one chain has to run behind another one: both have the same number of markers, and it
reads the other one's path. -/
def waits (a b : FieldChain) : Bool :=
  a.arrayDepth == b.arrayDepth && a.head.reads b.path

/-- The order in which chains run: those with more markers first, and behind what they read. -/
def order (chains : List FieldChain) : List FieldChain :=
  Schedule.order waits FieldChain.arrayDepth chains

def ofDeclarations (declarations : List Declaration) : Except ConfigError CompiledRules := do
  if let some p := duplicate? [] declarations then
    .error (.duplicatePath p.text)
  let fields ← (withContainers declarations).mapM fun d =>
    Field.make d.path d.prefixDepth d.validators
  return ⟨order (link fields)⟩

def compile (set : RuleSet) : Except ConfigError CompiledRules :=
  set.flatten.bind ofDeclarations

/-- All fields, each chain together. -/
def fields (c : CompiledRules) : List Field :=
  c.chains.flatMap FieldChain.fields

def size (c : CompiledRules) : Nat :=
  c.chains.length

/-- The chain from the field at a path on, given the text of the path. -/
def get? (c : CompiledRules) (path : String) : Option Field :=
  c.fields.find? fun f => f.path.text == path

/-- Whether two sets of compiled rules are the same, in the same order. -/
def eq (a b : CompiledRules) : Bool :=
  a.chains == b.chains

instance : BEq CompiledRules := ⟨eq⟩

/-- The entry of a field, which keeps its scope. -/
def entry (f : Field) : String × RuleEntry :=
  (f.path.text, .scoped f.info.prefixDepth f.validators)

/-- The rule set that compiles to the same rules. -/
def toRuleSet (c : CompiledRules) : RuleSet :=
  c.fields.map entry

end CompiledRules

/-- A rule set that is compiled when it is first asked for. A set that does not compile is built and
compiled again the next time. -/
structure LazyRules where
  compiled : Option CompiledRules := none

/-- Asks for the compiled rules; `build` gives the rule set if it is needed: the answer and the
state afterwards. -/
def LazyRules.get (l : LazyRules) (build : RuleSet) :
    Except ConfigError CompiledRules × LazyRules :=
  match l.compiled with
  | some c => (.ok c, l)
  | none =>
    match CompiledRules.compile build with
    | .ok c => (.ok c, ⟨some c⟩)
    | .error e => (.error e, l)

end PathRules
