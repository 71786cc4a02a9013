import PathRules.Regex.Basic
/-!
Searching a text for a match of an expression. An expression becomes a machine whose states read a
character, ask about their place or lead to two other states. At every place of the text the machine
is in all the states that some beginning of a match leads to. Each of them is looked at once, so the
time of a search grows with the size of the machine times the length of the text.
-/

namespace PathRules.Regex

open PathRules.Text (CharSet)

/-- A state of a machine. The states behind it are given by their numbers. -/
inductive MachineState where
  /-- A match ends here. -/
  | accept
  /-- Reads one character of a set. -/
  | read (s : CharSet) (next : Nat)
  /-- Goes on at a place that meets a condition. -/
  | ask (a : Assertion) (next : Nat)
  /-- Goes on in two states. -/
  | fork (a b : Nat)

/-- A machine: its states and the number of the first one. -/
structure Machine where
  states : Array MachineState
  start : Nat

/-! ### Building -/

/-- Builds states behind those that are there already. -/
abbrev Build := StateM (Array MachineState)

def addMachineState (s : MachineState) : Build Nat :=
  modifyGet fun states => (states.size, states.push s)

/-- The states of some number of rounds in front of `next`, where `round` builds one. -/
def buildRounds (round : Nat → Build Nat) : (count : Nat) → (next : Nat) → Build Nat
  | 0, next => pure next
  | count + 1, next => do buildRounds round count (← round next)

/-- The states of at most some number of rounds in front of `next`. In front of each of them the
rest can be left out, which leads to `stop`. -/
def buildOptional (round : Nat → Build Nat) (stop : Nat) :
    (count : Nat) → (next : Nat) → Build Nat
  | 0, next => pure next
  | count + 1, next => do
    let first ← round next
    buildOptional round stop count (← addMachineState (.fork first stop))

/-- The states of any number of rounds in front of `next`. -/
def buildLoop (round : Nat → Build Nat) (next : Nat) : Build Nat := do
  let loop ← addMachineState (.fork next next)
  let first ← round loop
  modify fun states => states.setIfInBounds loop (.fork first next)
  return loop

/-- The states of an expression in front of `next`. -/
def build : Regex → (next : Nat) → Build Nat
  | empty, next => pure next
  | look a, next => addMachineState (.ask a next)
  | chars s, next => addMachineState (.read s next)
  | cat a b, next => do a.build (← b.build next)
  | alt a b, next => do addMachineState (.fork (← a.build next) (← b.build next))
  | times r least none, next => do buildRounds r.build least (← buildLoop r.build next)
  | times r least (some most), next => do
    buildRounds r.build least (← buildOptional r.build next (most - least) next)
  | group r, next => r.build next

/-- The machine that searches for an expression. -/
def machine (r : Regex) : Machine :=
  let (start, states) := (r.build 0).run #[.accept]
  ⟨states, start⟩

namespace Machine

/-! ### Searching -/

/-- What can be read at a place: the sets, each with the number of the state behind it. -/
abbrev Reads := List (CharSet × Nat)

/-- Looks at the states in `todo` and all that they lead to at one place, the number of which is
`here`; `seen` has the number of the last place at which each state was looked at. Gives what can be
read, or `none` if a match ends here. The fuel bounds the number of states that are taken. -/
def reach (m : Machine) (here : Nat) (p : Place) :
    (fuel : Nat) → (todo : List Nat) → (seen : Array Nat) → Reads → Array Nat × Option Reads
  | 0, _, seen, reads => (seen, some reads)
  | _ + 1, [], seen, reads => (seen, some reads)
  | fuel + 1, i :: todo, seen, reads =>
    if seen.getD i here = here then m.reach here p fuel todo seen reads
    else
      let seen := seen.setIfInBounds i here
      match m.states.getD i .accept with
      | .accept => (seen, none)
      | .read s next => m.reach here p fuel todo seen ((s, next) :: reads)
      | .ask a next => m.reach here p fuel (if a.holds p then next :: todo else todo) seen reads
      | .fork a b => m.reach here p fuel (a :: b :: todo) seen reads

/-- Searches the rest of a text from the place with the number `here`. A match may begin there too,
besides those that led to the states in `todo`. Every state adds at most two others, so twice the
number of states is enough fuel for what is added. -/
def search (m : Machine) (here : Nat) (before : Option Char) (todo : List Nat)
    (seen : Array Nat) (rest : List Char) : Bool :=
  let fuel := todo.length + 2 * m.states.size + 2
  match m.reach here ⟨before, rest.head?⟩ fuel (m.start :: todo) seen [], rest with
  | (_, none), _ => true
  | (_, some _), [] => false
  | (seen, some reads), c :: rest =>
    let next := reads.filterMap fun (s, next) => if s.mem c.toNat then some next else none
    m.search (here + 1) (some c) next seen rest

/-- Whether some part of a text is a match. -/
def accepts (m : Machine) (text : String) : Bool :=
  m.search 1 none [] (Array.replicate m.states.size 0) text.toList

end Machine

/-- Whether an expression matches some part of a text. -/
def isMatch (r : Regex) (text : String) : Bool :=
  r.machine.accepts text

end PathRules.Regex
