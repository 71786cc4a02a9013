/-!
Schedules. Jobs that wait for others are placed one by one: the first remaining job that waits for
no other remaining job, or, when each waits for some, the first remaining one, so a cycle never
blocks. Afterwards the jobs are sorted by rank, higher ranks first, and jobs of one rank keep their
order.
-/

namespace PathRules.Schedule

variable {α : Type}

/-- Takes the first job that satisfies a condition out of a list: the job and the others. -/
def takeFirst? (p : α → Bool) : List α → Option (α × List α)
  | [] => none
  | a :: rest =>
    if p a then some (a, rest)
    else (takeFirst? p rest).map fun (b, others) => (b, a :: others)

/-- Whether a job waits for none of the jobs. -/
def isReady (waits : α → α → Bool) (jobs : List α) (a : α) : Bool :=
  jobs.all fun b => !waits a b

/-- The next job to place and the others. -/
def next? (waits : α → α → Bool) (jobs : List α) : Option (α × List α) :=
  (takeFirst? (isReady waits jobs) jobs).orElse fun _ => takeFirst? (fun _ => true) jobs

/-- Places `fuel` jobs one after the other. -/
def place (waits : α → α → Bool) : (fuel : Nat) → List α → List α
  | 0, _ => []
  | fuel + 1, jobs =>
    match next? waits jobs with
    | none => []
    | some (a, others) => a :: place waits fuel others

/-- Whether one job waits for another one, each given with its position. No job waits for itself. -/
def waitsFor (waits : α → α → Bool) (a b : α × Nat) : Bool :=
  a.2 != b.2 && waits a.1 b.1

def sequence (waits : α → α → Bool) (jobs : List α) : List α :=
  (place (waitsFor waits) jobs.length jobs.zipIdx).map Prod.fst

/-- The order of jobs in which those of higher rank come first, and among those of one rank each
comes behind the jobs that it waits for, as far as no cycle is in the way. -/
def order (waits : α → α → Bool) (rank : α → Nat) (jobs : List α) : List α :=
  (sequence waits jobs).mergeSort fun a b => rank b ≤ rank a

end PathRules.Schedule
