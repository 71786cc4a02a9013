import PathRules.Compile
import PathRules.ErrorTree.Basic
import PathRules.Message
import PathRules.Value.Edit
/-!
Running rules over data. Each chain of fields takes its turn: the matches of its path are collected,
and each is checked for absence, has the elements below it checked first, and then passes the
field's validators one after the other. Values that validators convert stay in the data; messages
are arranged in the shape of the data.
-/

namespace PathRules

/-- How a call is made. -/
structure RunOptions where
  call : Call
  /-- Whether lone values of sequences at the root stand for sequences of one element. -/
  formEncoded : Bool
  translate : Translator

structure CollaboratorFailure where
  validator : String
  location : Location
  cause : LookupError
  deriving DecidableEq, Repr

def CollaboratorFailure.message (f : CollaboratorFailure) : String :=
  "validator \"" ++ f.validator ++ "\" failed on \"" ++ f.location.text ++ "\": " ++ f.cause.message

/-- One validator asked about one location, with what was noted down. -/
structure Invocation where
  field : Path
  validator : ValidatorId
  location : Location
  notes : List Json

/-- The state of a run. -/
structure RunState where
  data : Value
  errors : ErrorTree := .empty
  failures : List CollaboratorFailure := []
  log : List Invocation := []
  elapsed : Duration := .zero
  /-- Whether a validator ended the run; nothing is checked any more. -/
  abandoned : Bool := false

namespace RunState

def report (s : RunState) (l : Location) (message : String) : RunState :=
  { s with errors := s.errors.add l message }

def context (s : RunState) (options : RunOptions) (field : Field) (l : Location) (v : Value)
    (invalid : Bool) : Context :=
  let base : Context :=
    { value := v
      data := s.data
      location := l
      field := field.info
      call := options.call
      elapsed := s.elapsed
      invalid
      required := false }
  { base with required := (field.requiring? base).isSome }

/-- Reports a field that is absent at a location, if it is required there. -/
def absent (s : RunState) (options : RunOptions) (field : Field) (l : Location) : RunState :=
  let c := s.context options field l .null false
  match field.requiring? { c with required := false } with
  | none => s
  | some v => s.report l (Message.ofFailure options.translate v c)

/-- The segment of an element that a validator names. Indices are read as signed words. -/
def elementSegment (i : Nat) : Segment :=
  .index (Int.bmod i 18446744073709551616)

/-- The locations that a failure is reported at: the elements that the verdict names, or the value
itself. -/
def failureLocations (l : Location) (v : Verdict) : List Location :=
  if v.elements.isEmpty then [l] else v.elements.map fun i => l ++ [elementSegment i]

/-- A value on its way through the validators of a field, and whether one rejected it. -/
structure Passage where
  state : RunState
  value : Value
  invalid : Bool

/-- Asks one validator about a value. The value that it leaves counts only if it converts; its
message is about that value in any case. -/
def Passage.ask (options : RunOptions) (field : Field) (l : Location) (p : Passage)
    (v : Validator) : Passage :=
  if p.state.abandoned then p
  else
    let c := p.state.context options field l p.value p.invalid
    let verdict := v.check c
    let failed := !verdict.accepted || !verdict.failures.isEmpty
    let s := p.state
    let s := { s with
      failures := s.failures ++ verdict.failures.map fun cause => ⟨v.name, l, cause⟩
      log := s.log ++ [⟨field.path, v.id, l, verdict.notes⟩]
      elapsed := s.elapsed + verdict.elapsed
      abandoned := verdict.abandoned }
    let s :=
      if failed then
        let message := Message.ofFailure options.translate v { c with value := verdict.value }
        (failureLocations l verdict).foldl (fun s l => s.report l message) s
      else s
    { state := s
      value := if v.converting then verdict.value else p.value
      invalid := p.invalid || failed }

/-- Lets the value at a location pass the validators of a field. It is out of the data meanwhile. -/
def validateAt (s : RunState) (options : RunOptions) (field : Field) (l : Location) : RunState :=
  let (value, data) := (s.data.take? l).getD (.null, s.data)
  let p := field.validators.foldl (Passage.ask options field l) ⟨{ s with data }, value, false⟩
  { p.state with data := (p.state.data.set? l p.value).getD p.state.data }

/-- Whether a field takes a lone value for a sequence of one element when the data is
form-encoded. -/
def wrapsAt (field : Field) (l : Location) : Bool :=
  field.info.array && field.path.depth == 1 && l.length == 1

/-- The sequence of a lone value. -/
def wrapped : Value → Value
  | .sequence items => .sequence items
  | .map entries => .map entries
  | v => .sequence [v]

/-- Wraps the lone value at a location where that is due. -/
def wrapAt (s : RunState) (options : RunOptions) (field : Field) (l : Location) : RunState :=
  if options.formEncoded && wrapsAt field l then
    { s with data := (s.data.update? (fun v => some (wrapped v)) l).getD s.data }
  else s

def removeNull (s : RunState) (l : Location) : RunState :=
  match s.data.get? l.parent with
  | some (.map _) =>
    match s.data.remove? l with
    | some (_, data) => { s with data }
    | none => s
  | _ => s

def isNullAt (s : RunState) (l : Location) : Bool :=
  match s.data.get? l with
  | some v => v.isNull
  | none => false

/-- The locations of matches, with how each came about. -/
def places (ms : Matches) : List (Location × Found) :=
  ms.toList.map fun m => (m.location, m.found)

/-- Checks one match of a field. A null is accepted where the field allows it, and otherwise counts
as absent. The elements of a sequence are checked before the sequence itself. -/
def visit (options : RunOptions) : (items : List Field) → (field : Field) → RunState →
    Location × Found → RunState
  | items, field, s, (l, how) =>
    if s.abandoned then s
    else if how != .found then s.absent options field l
    else if s.isNullAt l then
      if field.info.nullable then s else (s.removeNull l).absent options field l
    else
      let s := s.wrapAt options field l
      let s :=
        match items, s.data.get? l with
        | item :: rest, some (.sequence _) =>
          (places (Matches.ofPathAt Path.elements s.data l)).foldl
            (visit options rest item) s
        | _, _ => s
      s.validateAt options field l

/-- Checks all matches of a chain. -/
def runChain (options : RunOptions) (s : RunState) (chain : FieldChain) : RunState :=
  (places (Matches.ofPath chain.path s.data)).foldl
    (visit options chain.items chain.head) s

end RunState

/-- The result of a run. -/
structure Outcome where
  data : Value
  errors : Option ErrorTree
  failures : List CollaboratorFailure
  log : List Invocation
  elapsed : Duration
  abandoned : Bool

namespace Outcome

def ofState (s : RunState) : Outcome where
  data := s.data
  errors := s.errors.nonEmpty?
  failures := s.failures
  log := s.log
  elapsed := s.elapsed
  abandoned := s.abandoned

def isValid (o : Outcome) : Bool :=
  o.errors.isNone && o.failures.isEmpty

/-- What was noted down, in order. -/
def notes (o : Outcome) : List Json :=
  o.log.flatMap Invocation.notes

end Outcome

namespace CompiledRules

/-- The state after all chains have run, or at once for data that is null. -/
def runState (rules : CompiledRules) (options : RunOptions) (data : Value) : RunState :=
  let s : RunState := { data }
  if data.isNull then s.report [] Message.malformedInput
  else rules.chains.foldl (RunState.runChain options) s

/-- Checks and converts data by compiled rules. -/
def validate (rules : CompiledRules) (options : RunOptions) (data : Value) : Outcome :=
  Outcome.ofState (rules.runState options data)

/-- Why a call that is bounded in time has no result. -/
inductive ExecuteError where
  | timeout (after : Duration)
  | failed
  deriving DecidableEq, Repr

def ExecuteError.message : ExecuteError → String
  | timeout after => "validation did not finish within " ++ after.text
  | failed => "validation task failed"

/-- Checks and converts data within a time. Lookups must be finished by then too. -/
def validateWithin (rules : CompiledRules) (options : RunOptions) (limit : Duration)
    (data : Value) : Except ExecuteError Outcome :=
  let call := { options.call with deadline := some limit }
  let outcome := rules.validate { options with call } data
  if limit ≤ outcome.elapsed then .error (.timeout limit)
  else if outcome.abandoned then .error .failed
  else .ok outcome

end CompiledRules
end PathRules
