import AppRegistry.Registry.Error
import AppRegistry.Registry.Layout
import AppRegistry.Registry.Record

/-!
# Runs

A run of a program starts once and stops once. Its record lies at its start time, with the newest
run of a program first, and an index leads from the run to its start time.
-/

namespace AppRegistry.Run

open RegistryTransaction

/-- The record of a run, with its key. -/
def record? (p : ProgramId) (r : RunId) : RegistryTransaction (Option (Key × RunRecord)) :=
  match Layout.runIndex p r with
  | .error _ => pure none
  | .ok index => do
    match ← fetch Int64 index with
    | none => return none
    | some start =>
      let k ← demandKey (Layout.run p start r)
      return (← fetch RunRecord k).map (k, ·)

/-- Records that a run has started. -/
def start (p : ProgramId) (r : RunId) (time : Int64) : Query Unit := .ask do
  let index ← demandKey (Layout.runIndex p r)
  match ← demand (Transaction.readAt index) with
  | some _ => .reject (.invalidRunState p r .alreadyStarted)
  | none =>
    put (← demandKey (Layout.run p time r)) (RunRecord.started r time)
    put index time

/-- Records that a run has stopped. -/
def stop (p : ProgramId) (r : RunId) (time : Int64) (status : String) : Query Unit := .ask do
  match ← record? p r with
  | none => .reject (.invalidRunState p r .notRunning)
  | some (k, record) =>
    if record.isRunning then put k (record.stopped time status)
    else .reject (.invalidRunState p r .alreadyStopped)

/-- The record of a run. -/
def find (p : ProgramId) (r : RunId) : Query (Option RunRecord) := .ask do
  return (← record? p r).map (·.2)

/-- The runs of a program that have stopped and that started from `low` to `high`, newest first, at
most `limit` of them. -/
def history (p : ProgramId) (low high : Int64) (limit : Nat) : Query (List RunRecord) :=
  if high < low ∨ limit = 0 then .known (.ok [])
  else
    match Layout.ofProgram .runs p with
    | .error _ => .known (.ok [])
    | .ok k => .ask do
      let found ← fetchRange RunRecord
        (.between k (Layout.descending high) (Layout.descending low))
      return ((found.map (·.2)).filter fun r => !r.isRunning).take limit

/-- The runs of a program that have not stopped, newest first. -/
def active (p : ProgramId) : Query (List RunRecord) :=
  match Layout.ofProgram .runs p with
  | .error _ => .known (.ok [])
  | .ok k => .ask do
    return ((← fetchRange RunRecord (.all k)).map (·.2)).filter (·.isRunning)

/-! ## Arguments -/

/-- Stores the arguments of a program, in place of all that it had. -/
def setArguments (p : ProgramId) (args : RunArguments) : Query Unit := .ask do
  put (← demandKey (Layout.arguments p)) args

/-- The arguments of a program. -/
def arguments (p : ProgramId) : Query RunArguments :=
  match Layout.arguments p with
  | .error _ => .known (.ok ∅)
  | .ok k => .ask do return (← fetch RunArguments k).getD ∅

end AppRegistry.Run
